import ChessCrawl.Jobs.Caps
import ChessCrawl.Lib.Frontier

/-! An opponent crawl over a finite archive of games. The workers are those of `World.step`; beside them stand
the users whose games are associated with the run, and how far each worker is with its job. An acquisition is
claimed, associates the games of its user, reads its depth, queues its expansion and finishes; an expansion is
claimed, reads its depth, expands the opponents that the associated games show and finishes. Between any two of
these the other workers may take any step. -/
namespace ChessCrawl.Jobs
open ChessCrawl.Lib
set_option autoImplicit false

/-! ## Games -/

/-- Games within the window of the run, by their players. -/
abbrev Games := List (String × String)

/-- Players meet in a game. -/
def opponentGraph (games : Games) : SimpleGraph String where
  Adj u v := u ≠ v ∧ ((u, v) ∈ games ∨ (v, u) ∈ games)
  symm := ⟨fun _ _ h => ⟨h.1.symm, h.2.symm⟩⟩
  loopless := ⟨fun _ h => h.1 rfl⟩

/-- The games of the run when the games of these users are associated with it. -/
def Games.associated (games : Games) (acquired : List String) : Games :=
  games.filter fun g => g.1 ∈ acquired || g.2 ∈ acquired

def opponentIn (user : String) (g : String × String) : Option String :=
  if g.1 = user ∧ g.2 ≠ user then some g.2
  else if g.2 = user ∧ g.1 ≠ user then some g.1
  else none

/-- `opponents_of_user` -/
def opponentsOfUser (games : Games) (acquired : List String) (user : String) : List String :=
  (games.associated acquired).filterMap (opponentIn user)

/-- Once the games of a user are associated, its opponents are its neighbours. -/
theorem mem_opponentsOfUser {games : Games} {acquired : List String} {user x : String} (h : user ∈ acquired) :
    x ∈ opponentsOfUser games acquired user ↔ (opponentGraph games).Adj user x := by
  unfold opponentsOfUser Games.associated
  rw [List.mem_filterMap]
  constructor
  · rintro ⟨g, hg, hx⟩
    obtain ⟨hmem, _⟩ := List.mem_filter.mp hg
    unfold opponentIn at hx
    split at hx
    · next hc =>
      cases hx
      refine ⟨fun heq => hc.2 heq.symm, .inl ?_⟩
      rw [← hc.1]
      exact hmem
    split at hx
    · next hc =>
      cases hx
      refine ⟨fun heq => hc.2 heq.symm, .inr ?_⟩
      rw [← hc.1]
      exact hmem
    · cases hx
  · rintro ⟨hne, hmem | hmem⟩
    · exact ⟨(user, x), List.mem_filter.mpr ⟨hmem, by simp [h]⟩, by simp [opponentIn, hne.symm]⟩
    · exact ⟨(x, user), List.mem_filter.mpr ⟨hmem, by simp [h]⟩, by simp [opponentIn, hne.symm]⟩

/-! ## Stages -/

inductive Stage
  | claimed | acquired | read | queued | finished
deriving DecidableEq, Repr

structure Crawl where
  world : World
  stage : Nat → Option Stage
  acquired : List String
  -- every stage that a job has come to, in order
  log : List (Nat × Stage)

inductive CrawlEvent
  | claim (worker jobId : Nat) (now : Int) (maxActiveJobs token : Nat)
  | acquire (worker : Nat)
  | readDepth (worker : Nat)
  | expansion (worker : Nat) (now : Int)
  | expand (worker : Nat) (edges : List String) (r : Race) (now : Int)
  | finish (worker : Nat) (reason : String) (now : Int)

/-- The worker brings its job to a stage. -/
def Crawl.advance (c : Crawl) (s : World) (worker jobId : Nat) (stage : Stage) : Crawl :=
  { c with
    world := s
    stage := fun n => if n = worker then (if stage = .finished then none else some stage) else c.stage n
    log := c.log ++ [(jobId, stage)] }

/-- The attempt of a worker that is at a stage with a job of the kind. -/
def Crawl.attemptAt (c : Crawl) (worker : Nat) (stage : Stage) (kind : JobKind) : Option Attempt :=
  if c.stage worker = some stage then (c.world.attempts worker).filter fun a => a.job.kind = kind else none

section Steps
variable (T : Text) (w : WorkerSettings) (games : Games) (runId : Nat)

def Crawl.step (c : Crawl) : CrawlEvent → Option Crawl
  | .claim worker jobId now maxActiveJobs token =>
    if (c.world.db.job jobId).any fun j => j.crawlRunId = some runId then
      (c.world.step T w (.claim worker jobId now maxActiveJobs token)).map fun s => c.advance s worker jobId .claimed
    else none
  | .acquire worker => (c.attemptAt worker .claimed .crawlOpponents).bind fun a =>
    match a.job.target with
    | .name user => some { c.advance c.world worker a.job.id .acquired with acquired := c.acquired ++ [user] }
    | .ref _ => none
  | .readDepth worker =>
    ((c.attemptAt worker .acquired .crawlOpponents).or (c.attemptAt worker .claimed .expandOpponents)).bind fun a =>
      (c.world.step T w (.readDepth worker)).map fun s => c.advance s worker a.job.id .read
  | .expansion worker now => (c.attemptAt worker .read .crawlOpponents).bind fun a =>
    (c.world.step T w (.expansion worker now)).map fun s => c.advance s worker a.job.id .queued
  | .expand worker edges r now => (c.attemptAt worker .read .expandOpponents).bind fun a =>
    (c.world.db.acquisitionOf a.job).bind fun parent =>
      match parent.target with
      | .name user =>
        if edges ⊆ opponentsOfUser games c.acquired user ∧ opponentsOfUser games c.acquired user ⊆ edges then
          (c.world.step T w (.expand worker edges r now)).map fun s => c.advance s worker a.job.id .queued
        else none
      | .ref _ => none
  | .finish worker reason now =>
    ((c.attemptAt worker .queued .crawlOpponents).or (c.attemptAt worker .queued .expandOpponents)).bind fun a =>
      (c.world.step T w (.finish worker ⟨.done, reason, false, none, 0⟩ now)).bind fun s =>
        (s.step T w (.release worker)).map fun s => c.advance s worker a.job.id .finished

/-- The workers of one crawl, from the tables that it was created in. -/
def crawl (start : World) : System Crawl CrawlEvent where
  init c := c = ⟨start, fun _ => none, [], []⟩
  step := Crawl.step T w games runId

end Steps
end ChessCrawl.Jobs
