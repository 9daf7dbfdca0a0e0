import ChessCrawl.Jobs.Known
import ChessCrawl.Jobs.RunStatus

/-! `refresh_run_status` among other transactions. It locks the row of the run, counts the jobs, looks for a pending
one that is ready, and writes the status. Each statement sees what is committed by then and the transaction's own
row, which a `finish_attempt` has written before. -/
namespace ChessCrawl.Jobs
open ChessCrawl.Lib
set_option autoImplicit false

/-! ## Statements -/

/-- The row that a `finish_attempt` leaves in front of its refresh. -/
structure Finished where
  was : Job
  row : Job
  outcome : Outcome
  now : Int

/-- How far a refresh has come: it has the status of the run, the counts of its jobs, or the derived status. -/
inductive Refreshing
  | locked (status : RunStatus)
  | counted (counts : JobState → Nat)
  | derived (status : RunStatus)

/-- The transaction with the lock on the row of the run: the finish of a job, or a refresh alone. -/
structure Holder where
  jobId : Option Nat
  stage : Refreshing

/-- Transactions over one run; `pending` are the uncommitted finishes. -/
structure Finishing where
  world : World
  pending : Nat → Option Finished
  holder : Option Holder

inductive Statement
  | write (jobId : Nat) (o : Outcome) (now : Int)
  | lock (jobId : Option Nat)
  | count
  | ready
  | commit (now : Int)
  | abort (jobId : Option Nat)
  | other (ev : Event)

/-- The row as the outcome and the depth merge leave it. -/
def finishedRow (T : Text) (w : WorkerSettings) (db : Db) (j : Job) (o : Outcome) (now : Int) : Option Job :=
  (((db.deferFor w j o now).updateJob j.id fun row => row.finished w o now).mergeDepth T j).job j.id

/-- The events of other transactions. Those that end an attempt of the run or refresh its status are statements
here, and `mark_job` is only called in `finish_attempt`. -/
def Event.apart (s : World) (runId : Nat) : Event → Bool
  | .finish worker _ _ | .mark worker _ _ _ => (s.attempts worker).all fun a => a.job.crawlRunId ≠ some runId
  | .refresh crawlRunId _ => crawlRunId.any fun id => id ≠ runId
  | _ => true

def Event.claims : Event → Option Nat
  | .claim _ jobId _ _ _ => some jobId
  | _ => none

def Statement.claims : Statement → Option Nat
  | .other ev => ev.claims
  | _ => none

namespace Finishing

def setPending (f : Finishing) (jobId : Nat) (tx : Option Finished) : Nat → Option Finished :=
  fun id => if id = jobId then tx else f.pending id

/-- What a transaction sees: what is committed, and its own writes. -/
def view (w : WorkerSettings) (f : Finishing) : Option Nat → Db
  | none => f.world.db
  | some id =>
    match f.pending id with
    | none => f.world.db
    | some tx => (f.world.db.deferFor w tx.was tx.outcome tx.now).updateJob id fun _ => tx.row

/-- The locks that others wait for: of the rows that open transactions have written, and of the row of the run,
against writes and against new jobs that refer to it. -/
def admits (runId : Nat) (f : Finishing) (t : World) : Bool :=
  (f.world.db.jobs.all fun j => (f.pending j.id).isNone || t.db.job j.id = some j) &&
    (f.holder.isNone || (t.db.run runId = f.world.db.run runId &&
      (t.db.jobsOf runId).all fun j => (f.world.db.job j.id).isSome))

/-- The end of a transaction. -/
def closed (f : Finishing) (jobId : Option Nat) (db : Db) : Finishing :=
  ⟨f.world.withDb db, jobId.elim f.pending fun id => f.setPending id none, none⟩

section Steps
variable (T : Text) (w : WorkerSettings) (runId : Nat)

def step (f : Finishing) : Statement → Option Finishing
  | .write jobId o now =>
    (f.world.db.job jobId).bind fun j =>
      if j.state = .inProgress ∧ j.crawlRunId = some runId ∧ (f.pending jobId).isNone then
        (finishedRow T w f.world.db j o now).map fun row =>
          { f with pending := f.setPending jobId (some ⟨j, row, o, now⟩) }
      else none
  | .lock jobId =>
    -- a second `FOR UPDATE` waits for the transaction that holds the row
    if f.holder.isNone ∧ jobId.all fun id => (f.pending id).isSome then
      (f.world.db.run runId).map fun run => { f with holder := some ⟨jobId, .locked run.status⟩ }
    else none
  | .count => f.holder.bind fun h =>
    match h.stage with
    | .locked .cancelled => none
    | .locked _ => some { f with holder := some ⟨h.jobId, .counted ((f.view w h.jobId).jobStateCounts runId)⟩ }
    | _ => none
  | .ready => f.holder.bind fun h =>
    match h.stage with
    | .counted counts => some { f with holder := some ⟨h.jobId, .derived ((f.view w h.jobId).derivedStatus runId counts)⟩ }
    | _ => none
  | .commit now => f.holder.bind fun h =>
    match h.stage with
    -- an explicit cancellation is not reopened
    | .locked .cancelled => some (f.closed h.jobId (f.view w h.jobId))
    | .derived status => some (f.closed h.jobId ((f.view w h.jobId).setStatus runId status now))
    | _ => none
  | .abort jobId => some { f with
      pending := jobId.elim f.pending fun id => f.setPending id none
      holder := f.holder.filter fun h => h.jobId ≠ jobId }
  | .other ev =>
    if ev.apart f.world runId then
      (f.world.step T w ev).bind fun t => if f.admits runId t then some { f with world := t } else none
    else none

end Steps

/-- Requests from outside keep to the run of their parent. -/
def KeepsRun (f : Finishing) : Statement → Prop
  | .other ev => ev.KeepsRun f.world
  | _ => True

/-- Somebody has counted, and not yet looked for a pending job that is ready. -/
def counting (f : Finishing) : Bool :=
  f.holder.any fun h =>
    match h.stage with
    | .counted _ => true
    | _ => false

/-- Between the counts of a refresh and its look for a pending job that is ready, no job of the run is claimed. -/
def Unclaimed (runId : Nat) (f : Finishing) (st : Statement) : Prop :=
  f.counting = true → ∀ j ∈ f.world.db.jobsOf runId, st.claims ≠ some j.id

/-- The steps of the run theorem. -/
def Undisturbed (runId : Nat) (f : Finishing) (st : Statement) : Prop := f.KeepsRun st ∧ f.Unclaimed runId st

end Finishing

/-- Transactions over a run, from the state of the workers that they find. -/
def finishing (T : Text) (w : WorkerSettings) (runId : Nat) (s : World) : System Finishing Statement where
  init f := f = ⟨s, fun _ => none, none⟩
  step := Finishing.step T w runId

/-! ## Beside a run -/

/-- What others leave of a run and its jobs: none of them ends, and only a claim takes one from the queue. -/
structure Db.Beside (runId : Nat) (claims : Option Nat) (db db' : Db) : Prop where
  rows : ∀ j' ∈ db'.jobsOf runId, j'.state = .pending ∨ ∃ j ∈ db.jobsOf runId, j.id = j'.id ∧
    (j.state.live = true → j'.state.live = true) ∧
    (j.state = .pending → claims ≠ some j.id → j'.state = .pending)
  run : ∀ run, db.run runId = some run → ∃ run', db'.run runId = some run' ∧
    (run'.status = run.status ∨ run'.status = .cancelled)

@[simp] theorem deferFor_runs (db : Db) (w : WorkerSettings) (j : Job) (o : Outcome) (now : Int) :
    (db.deferFor w j o now).runs = db.runs := by
  unfold Db.deferFor
  split
  · split <;> rfl
  · rfl

section Beside
variable {T : Text} {w : WorkerSettings} {runId : Nat} {claims : Option Nat} {db db' : Db} {s t : World} {ev : Event}

theorem run_eq_of_runs (h : db'.runs = db.runs) : db'.run runId = db.run runId := by
  unfold Db.run
  rw [h]

theorem beside_of_jobs (h : db'.jobs = db.jobs)
    (hrun : ∀ run, db.run runId = some run → ∃ run', db'.run runId = some run' ∧
      (run'.status = run.status ∨ run'.status = .cancelled)) : db.Beside runId claims db' := by
  refine ⟨fun j hj => .inr ⟨j, ?_, rfl, fun hlive => hlive, fun hs _ => hs⟩, hrun⟩
  rw [mem_jobsOf, ← h]
  exact mem_jobsOf.mp hj

theorem beside_of_eq (h : db'.jobs = db.jobs) (hruns : db'.runs = db.runs) : db.Beside runId claims db' :=
  beside_of_jobs h fun run hrun => ⟨run, (run_eq_of_runs hruns).trans hrun, .inl rfl⟩

theorem runs_beside {g : Run → Run} (hid : ∀ r, (g r).id = r.id)
    (hstatus : ∀ r, r.id = runId → (g r).status = r.status ∨ (g r).status = .cancelled) :
    db.Beside runId claims { db with runs := db.runs.map g } := by
  refine beside_of_jobs rfl fun run hrun => ⟨g run, ?_, hstatus run (by simpa using List.find?_some hrun)⟩
  rw [run_map hid, hrun]
  rfl

theorem Db.Grown.beside (h : db.Grown db') : db.Beside runId claims db' := by
  refine ⟨fun j' hj' => ?_, fun run hrun => ⟨run, (run_eq_of_runs h.runs).trans hrun, .inl rfl⟩⟩
  obtain ⟨hj', hin⟩ := mem_jobsOf.mp hj'
  rcases h.rows j' hj' with hpending | ⟨j, hj, hsame, hstate⟩
  · exact .inl hpending
  · rw [hstate]
    have hin : j.crawlRunId = some runId := hsame.crawlRunId.symm.trans hin
    exact .inr ⟨j, mem_jobsOf.mpr ⟨hj, hin⟩, hsame.id.symm, fun hlive => hlive, fun hs _ => hs⟩

theorem update_beside {sel : Job → Bool} {set : Job → Job} (hset : ∀ j ∈ db.jobs, sel j = true →
      j.Same (set j) ∧ (j.crawlRunId = some runId → (j.state.live = true → (set j).state.live = true) ∧
        (j.state = .pending → claims ≠ some j.id → (set j).state = .pending))) :
    db.Beside runId claims (db.updateJobs sel set) := by
  refine ⟨fun j' hj' => ?_, fun run hrun => ⟨run, hrun, .inl rfl⟩⟩
  obtain ⟨hj', hin⟩ := mem_jobsOf.mp hj'
  obtain ⟨j, hj, rfl⟩ := List.mem_map.mp hj'
  by_cases hsel : sel j = true
  · obtain ⟨hsame, hmoves⟩ := hset j hj hsel
    rw [if_pos hsel] at hin ⊢
    have hin : j.crawlRunId = some runId := hsame.crawlRunId.symm.trans hin
    exact .inr ⟨j, mem_jobsOf.mpr ⟨hj, hin⟩, hsame.id.symm, hmoves hin⟩
  · rw [if_neg hsel] at hin ⊢
    exact .inr ⟨j, mem_jobsOf.mpr ⟨hj, hin⟩, rfl, fun hlive => hlive, fun hs _ => hs⟩

theorem Db.Beside.trans {db'' : Db} (h : db.Beside runId none db') (h' : db'.Beside runId none db'') :
    db.Beside runId none db'' := by
  refine ⟨fun j'' hj'' => ?_, fun run hrun => ?_⟩
  · rcases h'.rows j'' hj'' with hpending | ⟨j', hj', hid', hlive', hqueued'⟩
    · exact .inl hpending
    rcases h.rows j' hj' with hpending | ⟨j, hj, hid, hlive, hqueued⟩
    · exact .inl (hqueued' hpending nofun)
    · exact .inr ⟨j, hj, hid.trans hid', fun hl => hlive' (hlive hl), fun hs _ => hqueued' (hqueued hs nofun) nofun⟩
  · obtain ⟨run', hrun', hstatus⟩ := h.run run hrun
    obtain ⟨run'', hrun'', hstatus'⟩ := h'.run run' hrun'
    refine ⟨run'', hrun'', ?_⟩
    rcases hstatus' with hsame | hcancelled
    · rw [hsame]
      exact hstatus
    · exact .inr hcancelled

theorem refreshRunStatus_beside {id : Nat} (hid : id ≠ runId) (now : Int) :
    db.Beside runId claims (db.refreshRunStatus id now) := by
  unfold Db.refreshRunStatus
  split
  · exact beside_of_eq rfl rfl
  split
  · exact beside_of_eq rfl rfl
  · refine runs_beside (fun r => ?_) fun r hr => ?_
    · split <;> rfl
    · rw [if_neg (by rw [hr]; exact hid.symm)]
      exact .inl rfl

theorem mergeDepth_beside (j : Job) : db.Beside runId claims (db.mergeDepth T j) := by
  unfold Db.mergeDepth
  split
  · split
    · exact update_beside fun k _ _ =>
        ⟨⟨rfl, rfl, rfl, rfl, rfl, rfl, rfl, rfl, rfl⟩, fun _ => ⟨fun hlive => hlive, fun hs _ => hs⟩⟩
    · exact beside_of_eq rfl rfl
  · exact beside_of_eq rfl rfl

/-- The finish of a job of another run. -/
theorem finishAttempt_beside {jobId : Nat} {o : Outcome} {now : Int}
    (hother : ∀ k ∈ db.jobs, k.id = jobId → k.state = .inProgress ∧ k.crawlRunId ≠ some runId)
    (h : db.finishAttempt T w jobId o now = .ok db') : db.Beside runId none db' := by
  unfold Db.finishAttempt at h
  split at h
  · cases h
  next j hj =>
  cases h
  have hdefer := db.deferFor_tables w j o now
  have hfinished : (db.deferFor w j o now).Beside runId none
      ((db.deferFor w j o now).updateJob jobId fun row => row.finished w o now) := by
    refine update_beside fun k hk hid => ?_
    rw [hdefer.jobs] at hk
    obtain ⟨hs, hrun⟩ := hother k hk (by simpa using hid)
    exact ⟨(finished_rewritten (w := w) o now hs).same, fun hin => absurd hin hrun⟩
  have hmerged := ((beside_of_eq hdefer.jobs (deferFor_runs db w j o now)).trans hfinished).trans
    (mergeDepth_beside (T := T) j)
  split
  · next id hin =>
    refine hmerged.trans (refreshRunStatus_beside ?_ now)
    rintro rfl
    exact (hother j (Db.job_mem hj).1 (Db.job_mem hj).2).2 hin
  · exact hmerged

theorem opened_beside (provider : Option String) (params : Params) (workspaceId : String) :
    db.Beside runId claims (db.opened provider params workspaceId) := by
  refine beside_of_jobs rfl fun run hrun => ⟨run, ?_, .inl rfl⟩
  unfold Db.run Db.opened at *
  rw [List.find?_append, hrun]
  rfl

theorem admitRunBudget_beside {id : Nat} {b : WorkBudget} (h : db.admitRunBudget id b = some db') :
    db.Beside runId none db' := by
  unfold Db.admitRunBudget at h
  split at h
  · cases h
    have hruns : db.Beside runId none { db with
        budgets := db.budgets ++ [b]
        runs := db.runs.map fun (r : Run) => if r.id = id then { r with workBudgetId := some b.id } else r } := by
      refine (beside_of_eq rfl rfl : db.Beside runId none { db with budgets := db.budgets ++ [b] }).trans
        (runs_beside (fun r => ?_) fun r _ => ?_)
      · split <;> rfl
      · split <;> exact .inl rfl
    exact hruns.trans (update_beside fun k _ _ =>
      ⟨⟨rfl, rfl, rfl, rfl, rfl, rfl, rfl, rfl, rfl⟩, fun _ => ⟨fun hlive => hlive, fun hs _ => hs⟩⟩)
  · cases h

/-- What the events of others do to a run and its jobs. -/
theorem step_beside (hs : s.Sound) (hev : ev.apart s runId = true) (h : s.step T w ev = some t) :
    s.db.Beside runId ev.claims t.db := by
  -- the row of an attempt is of the run that the attempt names
  have howned : ∀ worker a, s.Owns worker a → (s.attempts worker).all (fun a => a.job.crawlRunId ≠ some runId) = true →
      ∀ k ∈ s.db.jobs, k.id = a.job.id → k.state = .inProgress ∧ k.crawlRunId ≠ some runId := by
    intro worker a howns hall k hk hid
    refine ⟨(howns.inProgress hs.ids hk hid).1, ?_⟩
    obtain ⟨row, hrow, hsame⟩ := hs.held worker a howns.attempt
    rw [hs.ids.unique hk hrow (hid.trans hsame.id.symm), hsame.crawlRunId]
    simpa [howns.attempt] using hall
  cases ev with
  | createRun =>
    obtain ⟨⟨_, db⟩, hr, rfl⟩ := Option.map_eq_some_iff.mp h
    obtain ⟨_, rfl⟩ := createCrawlRun_ok (toOption_some hr)
    exact opened_beside _ _ _
  | createOpponentCrawl =>
    obtain ⟨⟨_, db⟩, hr, rfl⟩ := Option.map_eq_some_iff.mp h
    obtain ⟨_, _, _, _, hjob⟩ := createOpponentCrawl_ok (toOption_some hr)
    exact (opened_beside _ _ _).trans (enqueueJob_grown hjob).beside
  | enqueue e =>
    obtain ⟨⟨_, db⟩, hr, rfl⟩ := Option.map_eq_some_iff.mp h
    exact (enqueueJob_grown (toOption_some hr)).beside
  | admitBudget id b =>
    obtain ⟨db, hr, rfl⟩ := Option.map_eq_some_iff.mp h
    exact admitRunBudget_beside hr
  | cancel id =>
    cases h
    refine runs_beside (fun r => ?_) fun r _ => ?_
    · split <;> rfl
    · split
      · exact .inr rfl
      · exact .inl rfl
  | claim worker jobId now maxActiveJobs token =>
    replace h : (if _ then _ else _) = some t := h
    split at h
    · obtain ⟨⟨j, db⟩, hr, rfl⟩ := Option.map_eq_some_iff.mp h
      obtain ⟨_, _, _, _, _, rfl⟩ := claim_row hr
      refine update_beside fun k _ hid => ⟨⟨rfl, rfl, rfl, rfl, rfl, rfl, rfl, rfl, rfl⟩, fun _ => ⟨fun _ => rfl, ?_⟩⟩
      intro _ hne
      exact absurd (congrArg some (of_decide_eq_true hid).symm) hne
    · cases h
  | capture =>
    obtain ⟨a, db, _, hr, rfl⟩ := World.fencedBy_some h
    obtain ⟨_, hr⟩ := map_snd_ok hr
    exact (enqueueJob_grown hr).beside
  | checkpoint worker key value =>
    obtain ⟨a, db, howns, hr, rfl⟩ := World.fencedBy_some h
    split at hr
    · next hkey =>
      cases hr
      refine update_beside fun j hj hid => ⟨?_, fun _ => ⟨fun hlive => hlive, fun hs _ => hs⟩⟩
      obtain ⟨row, hrow, hsame⟩ := hs.held worker a howns.attempt
      have hj : j = row := hs.ids.unique hj hrow (by simpa [hsame.id] using hid)
      have hparams := childParams_set hkey value a.job j (by rw [hj]; exact hsame.params.symm)
      exact ⟨rfl, rfl, rfl, rfl, rfl, rfl, rfl, rfl, hparams⟩
    · cases hr
  | readDepth =>
    obtain ⟨a, _, h⟩ := Option.bind_eq_some_iff.mp h
    obtain ⟨parent, _, rfl⟩ := Option.map_eq_some_iff.mp h
    exact beside_of_eq rfl rfl
  | expansion =>
    obtain ⟨a, db, _, hr, rfl⟩ := World.fencedBy_some h
    split at hr
    · obtain ⟨_, hr⟩ := map_snd_ok hr
      exact (enqueueExpansionAt_grown hr).beside
    · cases hr
  | expand =>
    obtain ⟨a, db, _, hr, rfl⟩ := World.fencedBy_some h
    split at hr
    · split at hr
      · exact (expandOpponentFrontier_grown hr).beside
      · cases hr
    · cases hr
  | finish worker o now =>
    obtain ⟨a, db, howns, hr, rfl⟩ := World.fencedBy_some h
    exact finishAttempt_beside (howned worker a howns hev) hr
  | mark worker state reason now =>
    obtain ⟨a, db, howns, hr, rfl⟩ := World.fencedBy_some h
    cases hr
    refine update_beside fun k hk hid => ⟨⟨rfl, rfl, rfl, rfl, rfl, rfl, rfl, rfl, rfl⟩, fun hin => ?_⟩
    exact absurd hin (howned worker a howns hev k hk (by simpa using hid)).2
  | release =>
    cases h
    exact beside_of_eq rfl rfl
  | resumeStale =>
    cases h
    exact update_beside fun _ _ _ =>
      ⟨⟨rfl, rfl, rfl, rfl, rfl, rfl, rfl, rfl, rfl⟩, fun _ => ⟨fun _ => rfl, fun _ _ => rfl⟩⟩
  | unblock =>
    cases h
    exact update_beside fun _ _ _ =>
      ⟨⟨rfl, rfl, rfl, rfl, rfl, rfl, rfl, rfl, rfl⟩, fun _ => ⟨fun _ => rfl, fun _ _ => rfl⟩⟩
  | resumeRunBudget =>
    obtain ⟨db, hr, rfl⟩ := Option.map_eq_some_iff.mp h
    replace hr := toOption_some hr
    unfold Db.resumeRunBudget at hr
    split at hr
    · cases hr
    split at hr
    · cases hr
      exact update_beside fun _ _ _ =>
        ⟨⟨rfl, rfl, rfl, rfl, rfl, rfl, rfl, rfl, rfl⟩, fun _ => ⟨fun _ => rfl, fun _ _ => rfl⟩⟩
    · cases hr
  | refresh crawlRunId now =>
    cases h
    cases crawlRunId with
    | none => cases hev
    | some id => exact refreshRunStatus_beside (by simpa [Event.apart] using hev) now

/-- A job of the run before and after an event of others. -/
theorem step_goesOn (hs : s.Sound) (hev : ev.apart s runId = true) (h : s.step T w ev = some t) {j j' : Job}
    (hj : j ∈ s.db.jobsOf runId) (hj' : j' ∈ t.db.jobs) (hid : j'.id = j.id) :
    j' ∈ t.db.jobsOf runId ∧ j.state.GoesOn j'.state ∧ (ev.claims ≠ some j.id → j.state.Queued j'.state) := by
  obtain ⟨hj, hin⟩ := mem_jobsOf.mp hj
  obtain ⟨k', hk', hsame, _, hterm⟩ := (step_writes hs h).row hj
  obtain rfl : k' = j' := (step_sound hs h).ids.unique hk' hj' (hsame.id.trans hid.symm)
  have hin' : k' ∈ t.db.jobsOf runId := mem_jobsOf.mpr ⟨hj', hsame.crawlRunId.trans hin⟩
  have hended : j.state.live = false → k'.state = j.state := fun hdead => hterm (by simp [JobState.terminal, hdead])
  refine ⟨hin', ?_⟩
  rcases (step_beside hs hev h).rows k' hin' with hpending | ⟨k, hk, hkid, hlive, hqueued⟩
  · have hon : j.state.GoesOn k'.state := ⟨fun _ => by rw [hpending]; rfl, hended⟩
    exact ⟨hon, fun _ => ⟨hon, fun _ => hpending⟩⟩
  · obtain rfl : k = j := hs.ids.unique (mem_jobsOf.mp hk).1 hj (hkid.trans hid)
    have hon : k.state.GoesOn k'.state := ⟨hlive, hended⟩
    exact ⟨hon, fun hne => ⟨hon, fun hs => hqueued hs hne⟩⟩

/-- Where no job has come to the run, its jobs have gone on. -/
theorem step_since {R : JobState → JobState → Prop} (hs : s.Sound) (h : s.step T w ev = some t)
    (hR : ∀ j ∈ s.db.jobsOf runId, ∀ j' ∈ t.db.jobs, j'.id = j.id → j' ∈ t.db.jobsOf runId ∧ R j.state j'.state)
    (hold : ∀ j' ∈ t.db.jobsOf runId, ∃ j ∈ s.db.jobs, j.id = j'.id) : s.db.Since R runId t.db := by
  refine ⟨fun j hj => ?_, fun j' hj' => ?_⟩
  · obtain ⟨j', hj', hsame, _⟩ := (step_writes hs h).row (mem_jobsOf.mp hj).1
    obtain ⟨hin', hmoved⟩ := hR j hj j' hj' hsame.id
    exact ⟨j', hin', hsame.id, hmoved⟩
  · obtain ⟨j, hj, hid⟩ := hold j' hj'
    obtain ⟨hj', hin'⟩ := mem_jobsOf.mp hj'
    obtain ⟨k', hk', hsame, _⟩ := (step_writes hs h).row hj
    obtain rfl : k' = j' := (step_sound hs h).ids.unique hk' hj' (hsame.id.trans hid)
    have hin : j ∈ s.db.jobsOf runId := mem_jobsOf.mpr ⟨hj, hsame.crawlRunId.symm.trans hin'⟩
    exact ⟨j, hin, hid.symm, (hR j hin k' hj' hid.symm).2⟩

end Beside

/-! ## What the holder knows -/

section Holding
variable {T : Text} {w : WorkerSettings} {runId : Nat} {f g : Finishing} {st : Statement}

/-- The row of a finish in front of its commit. -/
structure Finished.Writes (runId : Nat) (db : Db) (id : Nat) (tx : Finished) : Prop where
  mem : tx.was ∈ db.jobs
  id : tx.was.id = id
  same : tx.was.Same tx.row
  run : tx.was.crawlRunId = some runId

/-- What a refresh has read is true of the tables that it sees. -/
def Refreshing.Right (runId : Nat) (run : Run) (db : Db) : Refreshing → Prop
  | .locked status => run.status = status
  | .counted counts => run.status ≠ .cancelled ∧ ∃ db₀ : Db, counts = db₀.jobStateCounts runId ∧
    db₀.Since JobState.Queued runId db
  | .derived status => run.status ≠ .cancelled ∧ Tells db runId status

structure Finishing.Ok (w : WorkerSettings) (runId : Nat) (f : Finishing) : Prop where
  sound : f.world.Sound
  lineage : f.world.db.Lineage
  written : ∀ id tx, f.pending id = some tx → tx.Writes runId f.world.db id
  held : ∀ h, f.holder = some h → (∀ id, h.jobId = some id → (f.pending id).isSome) ∧
    ∃ run, f.world.db.run runId = some run ∧ h.stage.Right runId run (f.view w h.jobId)

theorem finishedRow_same {db : Db} {j row : Job} {o : Outcome} {now : Int} (hids : db.Ids) (hj : j ∈ db.jobs)
    (hs : j.state = .inProgress) (h : finishedRow T w db j o now = some row) : j.Same row := by
  have hw : Writes T w.jobMaxRetries (fun _ _ => False) db
      (((db.deferFor w j o now).updateJob j.id fun row => row.finished w o now).mergeDepth T j) := by
    have hdefer := db.deferFor_tables w j o now
    refine Writes.trans (.update _ _ (.tables .refl hdefer) fun k hk hid => finished_rewritten o now ?_)
      (mergeDepth_writes _ j)
    rw [hdefer.jobs] at hk
    rw [hids.unique hk hj (by simpa using hid)]
    exact hs
  obtain ⟨j', hj', hsame, _⟩ := hw.row hj
  have hrow := (hw.ids hids).job hj'
  rw [hsame.id] at hrow
  cases Option.some.inj (h.symm.trans hrow)
  exact hsame

theorem view_eq {id : Nat} {tx : Finished} (h : f.pending id = some tx) : f.view w (some id) =
    (f.world.db.deferFor w tx.was tx.outcome tx.now).updateJob id fun _ => tx.row := by
  simp [Finishing.view, h]

/-- The own row of a transaction. -/
def Finishing.own (f : Finishing) (jobId : Option Nat) (j : Job) : Job :=
  (jobId.bind fun id => if j.id = id then (f.pending id).map Finished.row else none).getD j

theorem view_jobs (f : Finishing) (jobId : Option Nat) : (f.view w jobId).jobs = f.world.db.jobs.map (f.own jobId) := by
  cases jobId with
  | none =>
    show f.world.db.jobs = _
    exact (List.map_id _).symm
  | some id =>
    cases htx : f.pending id with
    | none =>
      have hown : f.own (some id) = fun j => j := by
        funext j
        simp [Finishing.own, htx]
      simp [Finishing.view, htx, hown]
    | some tx =>
      rw [view_eq htx, Db.updateJob, Db.updateJobs_jobs, (Db.deferFor_tables _ _ _ _ _).jobs]
      refine List.map_congr_left fun j _ => ?_
      by_cases hid : j.id = id
      · simp [Finishing.own, hid, htx]
      · simp [Finishing.own, hid]

theorem view_jobSeq (f : Finishing) (jobId : Option Nat) : (f.view w jobId).jobSeq = f.world.db.jobSeq := by
  unfold Finishing.view
  split
  · rfl
  split
  · rfl
  · exact (Db.deferFor_tables _ _ _ _ _).jobSeq

theorem view_runs (f : Finishing) (jobId : Option Nat) : (f.view w jobId).runs = f.world.db.runs := by
  unfold Finishing.view
  split
  · rfl
  split
  · rfl
  · exact deferFor_runs _ _ _ _ _

theorem Finishing.Ok.own_same (h : f.Ok w runId) (jobId : Option Nat) {j : Job} (hj : j ∈ f.world.db.jobs) :
    j.Same (f.own jobId j) := by
  cases jobId with
  | none => exact .refl j
  | some id =>
    by_cases hid : j.id = id
    · cases htx : f.pending id with
      | none => simpa [Finishing.own, htx] using Job.Same.refl j
      | some tx =>
        have hw := h.written id tx htx
        have hj : j = tx.was := h.sound.ids.unique hj hw.mem (hid.trans hw.id.symm)
        have hown : f.own (some id) j = tx.row := by simp [Finishing.own, hid, htx]
        rw [hown, hj]
        exact hw.same
    · simpa [Finishing.own, hid] using Job.Same.refl j

theorem Db.Ids.map {db db' : Db} {m : Job → Job} (h : db.Ids) (hm : ∀ j ∈ db.jobs, j.Same (m j))
    (hjobs : db'.jobs = db.jobs.map m) (hseq : db'.jobSeq = db.jobSeq) : db'.Ids := by
  have hids : db'.jobs.map Job.id = db.jobs.map Job.id := by
    rw [hjobs, List.map_map]
    exact List.map_congr_left fun j hj => (hm j hj).id
  refine ⟨by rw [hids]; exact h.nodup, fun j' hj' => ?_⟩
  rw [hjobs] at hj'
  obtain ⟨j, hj, rfl⟩ := List.mem_map.mp hj'
  rw [(hm j hj).id, hseq]
  exact h.issued j hj

/-- Whether a transaction has written the row is a question of its id. -/
theorem own_cases (f : Finishing) (jobId : Option Nat) (id : Nat) :
    (∃ tx, f.pending id = some tx ∧ ∀ j : Job, j.id = id → f.own jobId j = tx.row) ∨
    ∀ j : Job, j.id = id → f.own jobId j = j := by
  cases jobId with
  | none => exact .inr fun j _ => rfl
  | some own =>
    by_cases hown : id = own
    · subst hown
      cases htx : f.pending id with
      | none => exact .inr fun j hj => by simp [Finishing.own, htx]
      | some tx => exact .inl ⟨tx, rfl, fun j hj => by simp [Finishing.own, htx, hj]⟩
    · exact .inr fun j hj => by simp [Finishing.own, hj, hown]

theorem mem_viewOf (h : f.Ok w runId) (jobId : Option Nat) {j : Job} :
    j ∈ (f.view w jobId).jobsOf runId ↔ ∃ k ∈ f.world.db.jobsOf runId, f.own jobId k = j := by
  rw [mem_jobsOf, view_jobs, List.mem_map]
  constructor
  · rintro ⟨⟨k, hk, rfl⟩, hin⟩
    exact ⟨k, mem_jobsOf.mpr ⟨hk, (h.own_same jobId hk).crawlRunId.symm.trans hin⟩, rfl⟩
  · rintro ⟨k, hk, rfl⟩
    obtain ⟨hk, hin⟩ := mem_jobsOf.mp hk
    exact ⟨⟨k, hk, rfl⟩, (h.own_same jobId hk).crawlRunId.trans hin⟩

/-- What others do to the run is all that a transaction sees to change. -/
theorem Finishing.Ok.view_since {R : JobState → JobState → Prop} {t : World} (h : f.Ok w runId)
    (h' : ({ f with world := t } : Finishing).Ok w runId) (hR : ∀ s, R s s)
    (hsince : f.world.db.Since R runId t.db) (jobId : Option Nat) :
    (f.view w jobId).Since R runId (({ f with world := t } : Finishing).view w jobId) := by
  have hmoved : ∀ k k' : Job, k'.id = k.id → R k.state k'.state →
      (f.own jobId k').id = (f.own jobId k).id ∧ R (f.own jobId k).state (f.own jobId k').state := by
    intro k k' hid hmoves
    rcases own_cases f jobId k.id with ⟨tx, _, hown⟩ | hown
    · rw [hown k rfl, hown k' hid]
      exact ⟨rfl, hR _⟩
    · rw [hown k rfl, hown k' hid]
      exact ⟨hid, hmoves⟩
  refine ⟨fun j hj => ?_, fun j' hj' => ?_⟩
  · obtain ⟨k, hk, rfl⟩ := (mem_viewOf h jobId).mp hj
    obtain ⟨k', hk', hid, hmoves⟩ := hsince.kept k hk
    exact ⟨f.own jobId k', (mem_viewOf h' jobId).mpr ⟨k', hk', rfl⟩, hmoved k k' hid hmoves⟩
  · obtain ⟨k', hk', rfl⟩ := (mem_viewOf h' jobId).mp hj'
    obtain ⟨k, hk, hid, hmoves⟩ := hsince.came k' hk'
    exact ⟨f.own jobId k, (mem_viewOf h jobId).mpr ⟨k, hk, rfl⟩, hmoved k k' hid hmoves⟩

theorem view_setPending {jobId : Option Nat} {id : Nat} (hne : jobId ≠ some id) (tx : Option Finished) :
    ({ f with pending := f.setPending id tx } : Finishing).view w jobId = f.view w jobId := by
  cases jobId with
  | none => rfl
  | some own =>
    have hne : own ≠ id := fun heq => hne (congrArg some heq)
    simp [Finishing.view, Finishing.setPending, hne]

theorem setPending_some {id id' : Nat} {tx : Option Finished} {tx' : Finished}
    (h : f.setPending id tx id' = some tx') : id' = id ∧ tx = some tx' ∨ id' ≠ id ∧ f.pending id' = some tx' := by
  unfold Finishing.setPending at h
  split at h
  · next heq => exact .inl ⟨heq, h⟩
  · next hne => exact .inr ⟨hne, h⟩

/-- A commit leaves what its transaction has seen. -/
theorem Finishing.Ok.closed (h : f.Ok w runId) (jobId : Option Nat) {db : Db}
    (hjobs : db.jobs = (f.view w jobId).jobs) (hseq : db.jobSeq = f.world.db.jobSeq) :
    (f.closed jobId db).Ok w runId := by
  have hmap : db.jobs = f.world.db.jobs.map (f.own jobId) := hjobs.trans (view_jobs f jobId)
  refine ⟨⟨h.sound.ids.map (fun j hj => h.own_same jobId hj) hmap hseq, fun worker a ha => ?_⟩,
    h.lineage.map (fun j hj => h.own_same jobId hj) hmap, fun id tx htx => ?_, nofun⟩
  · obtain ⟨j, hj, hsame⟩ := h.sound.held worker a ha
    refine ⟨f.own jobId j, ?_, hsame.trans (h.own_same jobId hj)⟩
    show f.own jobId j ∈ db.jobs
    rw [hmap]
    exact List.mem_map_of_mem hj
  · have hother : f.pending id = some tx ∧ jobId ≠ some id := by
      cases jobId with
      | none => exact ⟨htx, nofun⟩
      | some own =>
        rcases setPending_some htx with ⟨_, hnone⟩ | ⟨hne, htx⟩
        · cases hnone
        · exact ⟨htx, fun heq => hne (Option.some.inj heq).symm⟩
    have hw := h.written id tx hother.1
    refine ⟨?_, hw.id, hw.same, hw.run⟩
    show tx.was ∈ db.jobs
    rw [hmap, List.mem_map]
    refine ⟨tx.was, hw.mem, ?_⟩
    rcases own_cases f jobId id with ⟨_, _, hown⟩ | hown
    · cases jobId with
      | none => rfl
      | some own =>
        have hne : id ≠ own := fun heq => hother.2 (congrArg some heq.symm)
        simp [Finishing.own, hw.id, hne]
    · exact hown tx.was hw.id

theorem Finishing.Ok.setPending (h : f.Ok w runId) {id : Nat} {tx : Option Finished}
    (htx : ∀ tx', tx = some tx' → tx'.Writes runId f.world.db id)
    (hfree : ∀ hd, f.holder = some hd → hd.jobId ≠ some id) :
    ({ f with pending := f.setPending id tx } : Finishing).Ok w runId := by
  refine ⟨h.sound, h.lineage, fun id' tx' htx' => ?_, fun hd hhd => ?_⟩
  · rcases setPending_some htx' with ⟨rfl, heq⟩ | ⟨_, hold⟩
    · exact htx tx' heq
    · exact h.written id' tx' hold
  · obtain ⟨hpending, run, hrun, hright⟩ := h.held hd hhd
    refine ⟨fun id' hid' => ?_, run, hrun, ?_⟩
    · have hne : id' ≠ id := by
        rintro rfl
        exact hfree hd hhd hid'
      simpa [Finishing.setPending, hne] using hpending id' hid'
    · rwa [view_setPending (hfree hd hhd)]

/-- The locks, as the rest uses them. -/
theorem admits_iff {t : World} : f.admits runId t = true ↔
    (∀ j ∈ f.world.db.jobs, (f.pending j.id).isSome = true → t.db.job j.id = some j) ∧
    (f.holder.isSome = true → t.db.run runId = f.world.db.run runId ∧
      ∀ j' ∈ t.db.jobsOf runId, ∃ j ∈ f.world.db.jobs, j.id = j'.id) := by
  have hrow : ∀ id, (f.world.db.job id).isSome = true ↔ ∃ j ∈ f.world.db.jobs, j.id = id := by
    intro id
    simp [Db.job, List.find?_isSome]
  simp only [Finishing.admits, Bool.and_eq_true, Bool.or_eq_true, List.all_eq_true, decide_eq_true_eq, hrow]
  refine and_congr ⟨fun h j hj hsome => (h j hj).resolve_left ?_, fun h j hj => ?_⟩
    ⟨fun h hsome => h.resolve_left ?_, fun h => ?_⟩
  · simpa [Option.isNone_iff_eq_none, Option.isSome_iff_ne_none] using hsome
  · cases hp : f.pending j.id with
    | none => exact .inl rfl
    | some tx => exact .inr (h j hj (by rw [hp]; rfl))
  · simpa [Option.isNone_iff_eq_none, Option.isSome_iff_ne_none] using hsome
  · cases hh : f.holder with
    | none => exact .inl rfl
    | some hd => exact .inr (h (by rw [hh]; rfl))

theorem Refreshing.Right.since {run : Run} {db db' : Db} {stage : Refreshing} (h : stage.Right runId run db)
    (hon : db.Since JobState.GoesOn runId db')
    (hqueued : ∀ counts, stage = .counted counts → db.Since JobState.Queued runId db') :
    stage.Right runId run db' := by
  cases stage with
  | locked => exact h
  | counted counts =>
    obtain ⟨hlive, db₀, hcounts, hsince⟩ := h
    exact ⟨hlive, db₀, hcounts, hsince.trans JobState.Queued.trans (hqueued counts rfl)⟩
  | derived status => exact ⟨h.1, h.2.since hon⟩

theorem other_some {ev : Event} (h : Finishing.step T w runId f (.other ev) = some g) :
    ev.apart f.world runId = true ∧ ∃ t, f.world.step T w ev = some t ∧ f.admits runId t = true ∧
      g = { f with world := t } := by
  replace h : (if _ then _ else _) = some g := h
  split at h
  · next hev =>
    obtain ⟨t, ht, h⟩ := Option.bind_eq_some_iff.mp h
    split at h
    · next hadm =>
      cases h
      exact ⟨hev, t, ht, hadm, rfl⟩
    · cases h
  · cases h

theorem other_ok {ev : Event} (hI : f.Ok w runId) (hk : ev.KeepsRun f.world) (hu : f.Unclaimed runId (.other ev))
    (h : Finishing.step T w runId f (.other ev) = some g) : g.Ok w runId := by
  obtain ⟨hev, t, ht, hadm, rfl⟩ := other_some h
  obtain ⟨hrows, hlock⟩ := admits_iff.mp hadm
  have hsound := step_sound hI.sound ht
  have hwritten : ∀ id tx, f.pending id = some tx → tx.Writes runId t.db id := by
    intro id tx htx
    have hw := hI.written id tx htx
    have hrow := hrows tx.was hw.mem (by rw [hw.id, htx]; rfl)
    exact ⟨(Db.job_mem hrow).1, hw.id, hw.same, hw.run⟩
  -- the invariant without its last part, for the views
  have hpart : ({ f with world := t, holder := none } : Finishing).Ok w runId :=
    ⟨hsound, step_lineage hI.sound hk ht hI.lineage, hwritten, nofun⟩
  refine ⟨hsound, hpart.lineage, hwritten, fun hd hhd => ?_⟩
  obtain ⟨hpending, run, hrun, hright⟩ := hI.held hd hhd
  obtain ⟨hsame, hold⟩ := hlock (by rw [show f.holder = some hd from hhd]; rfl)
  refine ⟨hpending, run, hsame.trans hrun, ?_⟩
  have hviews : ∀ R : JobState → JobState → Prop, (∀ s, R s s) → f.world.db.Since R runId t.db →
      (f.view w hd.jobId).Since R runId (({ f with world := t } : Finishing).view w hd.jobId) := by
    intro R hR hsince
    have hfree : ({ f with holder := none } : Finishing).Ok w runId := ⟨hI.sound, hI.lineage, hI.written, nofun⟩
    exact hfree.view_since hpart hR hsince hd.jobId
  refine hright.since (hviews _ (fun s => (JobState.Queued.refl s).toGoesOn) ?_) fun counts hcounted =>
    hviews _ JobState.Queued.refl ?_
  · refine step_since hI.sound ht (fun j hj j' hj' hid => ?_) hold
    obtain ⟨hin, hon, _⟩ := step_goesOn hI.sound hev ht hj hj' hid
    exact ⟨hin, hon⟩
  · refine step_since hI.sound ht (fun j hj j' hj' hid => ?_) hold
    obtain ⟨hin, _, hqueued⟩ := step_goesOn hI.sound hev ht hj hj' hid
    refine ⟨hin, hqueued fun hclaims => ?_⟩
    -- only a claim could take it, and that is excluded
    have hcounting : f.counting = true := by simp [Finishing.counting, show f.holder = some hd from hhd, hcounted]
    exact hu hcounting j hj hclaims

theorem step_ok (hI : f.Ok w runId) (hk : f.KeepsRun st) (hu : f.Unclaimed runId st)
    (h : Finishing.step T w runId f st = some g) : g.Ok w runId := by
  cases st with
  | write jobId o now =>
    obtain ⟨j, hj, h⟩ := Option.bind_eq_some_iff.mp h
    split at h
    · next hcond =>
      obtain ⟨row, hrow, rfl⟩ := Option.map_eq_some_iff.mp h
      obtain ⟨hmem, hid⟩ := Db.job_mem hj
      refine hI.setPending (fun tx htx => ?_) fun hd hhd heq => ?_
      · cases htx
        exact ⟨hmem, hid, finishedRow_same hI.sound.ids hmem hcond.1 hrow, hcond.2.1⟩
      · -- the holder has written its row
        have hsome := (hI.held hd hhd).1 jobId heq
        rw [Option.isNone_iff_eq_none.mp hcond.2.2] at hsome
        cases hsome
    · cases h
  | lock jobId =>
    replace h : (if _ then _ else _) = some g := h
    split at h
    · next hcond =>
      obtain ⟨run, hrun, rfl⟩ := Option.map_eq_some_iff.mp h
      refine ⟨hI.sound, hI.lineage, hI.written, fun hd hhd => ?_⟩
      cases hhd
      exact ⟨fun id hid => by simpa [show jobId = some id from hid] using hcond.2, run, hrun, rfl⟩
    · cases h
  | count =>
    obtain ⟨hd, hhd, h⟩ := Option.bind_eq_some_iff.mp h
    obtain ⟨hpending, run, hrun, hright⟩ := hI.held hd hhd
    split at h
    · cases h
    · next status hlive hstage =>
      cases h
      refine ⟨hI.sound, hI.lineage, hI.written, fun hd' hhd' => ?_⟩
      cases hhd'
      rw [hstage] at hright
      refine ⟨hpending, run, hrun, fun hc => hlive (hright.symm.trans hc), _, rfl, ?_⟩
      exact .refl JobState.Queued.refl _
    · cases h
  | ready =>
    obtain ⟨hd, hhd, h⟩ := Option.bind_eq_some_iff.mp h
    obtain ⟨hpending, run, hrun, hright⟩ := hI.held hd hhd
    split at h
    · next counts hstage =>
      cases h
      refine ⟨hI.sound, hI.lineage, hI.written, fun hd' hhd' => ?_⟩
      cases hhd'
      rw [hstage] at hright
      obtain ⟨hlive, db₀, rfl, hsince⟩ := hright
      refine ⟨hpending, run, hrun, hlive, ?_⟩
      have hmap : (f.view w hd.jobId).jobs = f.world.db.jobs.map (f.own hd.jobId) := view_jobs f hd.jobId
      exact derivedStatus_tells (hI.sound.ids.map (fun j hj => hI.own_same hd.jobId hj) hmap (view_jobSeq f hd.jobId))
        (hI.lineage.map (fun j hj => hI.own_same hd.jobId hj) hmap) hsince
    · cases h
  | commit now =>
    obtain ⟨hd, hhd, h⟩ := Option.bind_eq_some_iff.mp h
    split at h
    · cases h
      exact hI.closed hd.jobId rfl (view_jobSeq f hd.jobId)
    · cases h
      exact hI.closed hd.jobId rfl (view_jobSeq f hd.jobId)
    · cases h
  | abort jobId =>
    cases h
    have hfree : ({ f with holder := f.holder.filter fun hd => hd.jobId ≠ jobId } : Finishing).Ok w runId :=
      ⟨hI.sound, hI.lineage, hI.written, fun hd hhd => hI.held hd (Option.filter_eq_some_iff.mp hhd).1⟩
    cases jobId with
    | none => exact hfree
    | some id =>
      have hother : ∀ hd, f.holder.filter (fun hd => hd.jobId ≠ some id) = some hd → hd.jobId ≠ some id :=
        fun hd hhd => by simpa using (Option.filter_eq_some_iff.mp hhd).2
      exact hfree.setPending (fun _ htx => (by cases htx)) hother
  | other ev => exact other_ok hI hk hu h

/-- A refresh leaves a status that tells of the run, or the cancelled run as it was. -/
theorem commit_tells (hI : f.Ok w runId) {now : Int} {run : Run} (hrun : f.world.db.run runId = some run)
    (h : Finishing.step T w runId f (.commit now) = some g) :
    (run.status = .cancelled → g.world.db.run runId = some run) ∧
    (run.status ≠ .cancelled → ∃ run', g.world.db.run runId = some run' ∧ Tells g.world.db runId run'.status) := by
  obtain ⟨hd, hhd, h⟩ := Option.bind_eq_some_iff.mp h
  obtain ⟨_, run₀, hrun₀, hright⟩ := hI.held hd hhd
  obtain rfl : run₀ = run := Option.some.inj (hrun₀.symm.trans hrun)
  have hview : (f.view w hd.jobId).run runId = some run₀ := (run_eq_of_runs (view_runs f hd.jobId)).trans hrun
  split at h
  · next hstage =>
    cases h
    rw [hstage] at hright
    exact ⟨fun _ => hview, fun hlive => absurd hright hlive⟩
  · next status hstage =>
    cases h
    rw [hstage] at hright
    exact ⟨fun hc => absurd hc hright.1, fun _ => ⟨_, setStatus_run hview status now, hright.2.of_jobs rfl⟩⟩
  · cases h

/-- The run has work left, or is cancelled, or says how its work ended. -/
def Finishing.Settled (runId : Nat) (f : Finishing) : Prop :=
  (∃ j ∈ f.world.db.jobsOf runId, j.state.live = true) ∨ ∃ run, f.world.db.run runId = some run ∧
    (run.status = .cancelled ∨ Tells f.world.db runId run.status)

theorem other_settled {ev : Event} (hI : f.Ok w runId) (hS : f.Settled runId)
    (h : Finishing.step T w runId f (.other ev) = some g) : g.Settled runId := by
  obtain ⟨hev, t, ht, _, rfl⟩ := other_some h
  by_cases hlive' : ∃ j' ∈ t.db.jobsOf runId, j'.state.live = true
  · exact .inl hlive'
  -- nothing is live, so no job came, and nothing was live before
  have hnone : ∀ j' ∈ t.db.jobsOf runId, j'.state.live = false := by simpa using hlive'
  have hbeside := step_beside hI.sound hev ht
  have hsince : f.world.db.Since JobState.GoesOn runId t.db := by
    refine step_since hI.sound ht (fun j hj j' hj' hid => ?_) fun j' hj' => ?_
    · obtain ⟨hin, hon, _⟩ := step_goesOn hI.sound hev ht hj hj' hid
      exact ⟨hin, hon⟩
    · rcases hbeside.rows j' hj' with hpending | ⟨j, hj, hid, _⟩
      · have hdead := hnone j' hj'
        rw [hpending] at hdead
        cases hdead
      · exact ⟨j, (mem_jobsOf.mp hj).1, hid⟩
  rcases hS with ⟨j, hj, hlive⟩ | ⟨run, hrun, hstatus⟩
  · rw [hsince.over_iff.mpr hnone j hj] at hlive
    cases hlive
  · obtain ⟨run', hrun', hsame | hcancelled⟩ := hbeside.run run hrun
    · refine .inr ⟨run', hrun', ?_⟩
      rw [hsame]
      exact hstatus.imp_right fun htells => htells.since hsince
    · exact .inr ⟨run', hrun', .inl hcancelled⟩

theorem step_settled (hI : f.Ok w runId) (hS : f.Settled runId) (h : Finishing.step T w runId f st = some g) :
    g.Settled runId := by
  cases st with
  | write jobId o now =>
    obtain ⟨j, _, h⟩ := Option.bind_eq_some_iff.mp h
    split at h
    · obtain ⟨row, _, rfl⟩ := Option.map_eq_some_iff.mp h
      exact hS
    · cases h
  | lock jobId =>
    replace h : (if _ then _ else _) = some g := h
    split at h
    · obtain ⟨run, _, rfl⟩ := Option.map_eq_some_iff.mp h
      exact hS
    · cases h
  | count =>
    obtain ⟨hd, _, h⟩ := Option.bind_eq_some_iff.mp h
    split at h
    · cases h
    · cases h
      exact hS
    · cases h
  | ready =>
    obtain ⟨hd, _, h⟩ := Option.bind_eq_some_iff.mp h
    split at h
    · cases h
      exact hS
    · cases h
  | commit now =>
    obtain ⟨hd, hhd, _⟩ := Option.bind_eq_some_iff.mp h
    obtain ⟨_, run, hrun, _⟩ := hI.held hd hhd
    obtain ⟨hcancelled, htells⟩ := commit_tells hI hrun h
    by_cases hc : run.status = .cancelled
    · exact .inr ⟨run, hcancelled hc, .inl hc⟩
    · obtain ⟨run', hrun', ht⟩ := htells hc
      exact .inr ⟨run', hrun', .inr ht⟩
  | abort jobId =>
    cases h
    exact hS
  | other ev => exact other_settled hI hS h

theorem updateJob_const {db : Db} (hids : db.Ids) {j : Job} (hj : j ∈ db.jobs) (g : Job → Job) :
    db.updateJob j.id (fun _ => g j) = db.updateJob j.id g := by
  unfold Db.updateJob Db.updateJobs
  congr 1
  refine List.map_congr_left fun k hk => ?_
  by_cases hid : k.id = j.id
  · simp [hids.unique hk hj hid]
  · simp [hid]

/-- The depth merge after an update of the row is one update. -/
theorem mergeDepth_update (db : Db) (j : Job) (g : Job → Job) (hg : ∀ k, (g k).id = k.id) :
    ∃ g', (∀ k, (g' k).id = k.id) ∧ (db.updateJob j.id g).mergeDepth T j = db.updateJob j.id g' := by
  unfold Db.mergeDepth
  split
  · split
    · next depth _ =>
      refine ⟨fun k => (g k).merged depth, fun k => hg k, ?_⟩
      unfold Db.updateJob Db.updateJobs
      simp only [List.map_map]
      congr 1
      refine List.map_congr_left fun k _ => ?_
      by_cases hid : k.id = j.id
      · simp [hid, hg]
      · simp [hid]
    · exact ⟨g, hg, rfl⟩
  · exact ⟨g, hg, rfl⟩

theorem finished_id (j : Job) (o : Outcome) (now : Int) : (j.finished w o now).id = j.id := by
  unfold Job.finished
  split
  · split <;> rfl
  · rfl

/-- A transaction that no other one meets is `finish_attempt`. -/
theorem finishing_alone {s : World} (hids : s.db.Ids) {j : Job} (hj : j ∈ s.db.jobs) (hs : j.state = .inProgress)
    (hjrun : j.crawlRunId = some runId) {run : Run} (hrun : s.db.run runId = some run) (o : Outcome) (now : Int) :
    ∃ f, exec (finishing T w runId s) (fun _ _ => True) ⟨s, fun _ => none, none⟩
        ([.write j.id o now, .lock (some j.id)] ++ (if run.status = .cancelled then [] else [.count, .ready]) ++
          [.commit now]) = some f ∧ s.db.finishAttempt T w j.id o now = .ok f.world.db := by
  have hdefer := s.db.deferFor_tables w j o now
  have hids' : (s.db.deferFor w j o now).Ids :=
    ⟨by rw [hdefer.jobs]; exact hids.nodup, by rw [hdefer.jobs, hdefer.jobSeq]; exact hids.issued⟩
  have hj' : j ∈ (s.db.deferFor w j o now).jobs := by rw [hdefer.jobs]; exact hj
  obtain ⟨g, hg, hmerge⟩ := mergeDepth_update (T := T) (s.db.deferFor w j o now) j (fun k => k.finished w o now)
    (fun k => finished_id k o now)
  have hrow : finishedRow T w s.db j o now = some (g j) := by
    unfold finishedRow
    rw [hmerge]
    exact updateJob_job hg (hids'.job hj')
  -- what the transaction sees once it has written
  let f : Finishing := ⟨s, fun id => if id = j.id then some ⟨j, g j, o, now⟩ else none, none⟩
  let merged := (s.db.deferFor w j o now).updateJob j.id fun _ => g j
  have hview : ∀ hd, ({ f with holder := hd } : Finishing).view w (some j.id) = merged := by
    intro hd
    simp [Finishing.view, f, merged]
  have hmerged : ((s.db.deferFor w j o now).updateJob j.id fun k => k.finished w o now).mergeDepth T j = merged := by
    rw [hmerge]
    exact (updateJob_const hids' hj' g).symm
  have hmrun : merged.run runId = some run := by
    simpa [merged, Db.run, Db.updateJob, Db.updateJobs] using hrun
  have hfinish : s.db.finishAttempt T w j.id o now = .ok (merged.refreshRunStatus runId now) := by
    simp only [Db.finishAttempt, hids.job hj, hjrun, hmerged]
  have hwrite : Finishing.step T w runId ⟨s, fun _ => none, none⟩ (.write j.id o now) = some f := by
    simp [Finishing.step, hids.job hj, hs, hjrun, hrow, f]
    rfl
  have hlock : Finishing.step T w runId f (.lock (some j.id)) =
      some { f with holder := some ⟨some j.id, .locked run.status⟩ } := by
    simp [Finishing.step, f, hrun]
  by_cases hc : run.status = .cancelled
  · have hcommit : Finishing.step T w runId { f with holder := some ⟨some j.id, .locked .cancelled⟩ } (.commit now) =
        some (f.closed (some j.id) merged) := by
      rw [← hview]
      rfl
    refine ⟨f.closed (some j.id) merged, ?_, ?_⟩
    · simp [exec, finishing, hwrite, hlock, hc, hcommit]
    · rw [hfinish, refreshRunStatus_cancelled hmrun hc]
      rfl
  · let status := merged.derivedStatus runId (merged.jobStateCounts runId)
    have hcount : Finishing.step T w runId { f with holder := some ⟨some j.id, .locked run.status⟩ } .count =
        some { f with holder := some ⟨some j.id, .counted (merged.jobStateCounts runId)⟩ } := by
      rw [← hview]
      cases hstatus : run.status with
      | cancelled => exact absurd hstatus hc
      | _ => rfl
    have hready : Finishing.step T w runId
        { f with holder := some ⟨some j.id, .counted (merged.jobStateCounts runId)⟩ } .ready =
        some { f with holder := some ⟨some j.id, .derived status⟩ } := by
      show some ({ f with holder := some ⟨some j.id, .derived _⟩ } : Finishing) = _
      rw [hview]
    have hcommit : Finishing.step T w runId { f with holder := some ⟨some j.id, .derived status⟩ } (.commit now) =
        some (f.closed (some j.id) (merged.setStatus runId status now)) := by
      show some (Finishing.closed _ _ (Db.setStatus _ _ _ _)) = _
      rw [hview]
      rfl
    refine ⟨f.closed (some j.id) (merged.setStatus runId status now), ?_, ?_⟩
    · simp [exec, finishing, hwrite, hlock, hc, hcount, hready, hcommit]
    · rw [hfinish, refreshRunStatus_eq hmrun hc]
      rfl

end Holding

/-! ## Runs -/

theorem finishing_ok {T : Text} {w : WorkerSettings} {s : World} {runId : Nat} {f : Finishing} (hs : s.Sound)
    (hl : s.db.Lineage) (h : Reach (finishing T w runId s) (Finishing.Undisturbed runId) f) : f.Ok w runId := by
  refine Reach.invariant (I := fun f => f.Ok w runId) (fun f hf => ?_)
    (fun f st g _ hI hok hstep => step_ok hI hok.1 hok.2 hstep) h
  rw [hf]
  exact ⟨hs, hl, fun _ _ htx => (by cases htx), fun _ hhd => (by cases hhd)⟩

theorem finishing_settled {T : Text} {w : WorkerSettings} {s : World} {runId : Nat} {f : Finishing} (hs : s.Sound)
    (hl : s.db.Lineage) (hlive : ∃ j ∈ s.db.jobsOf runId, j.state.live = true)
    (h : Reach (finishing T w runId s) (Finishing.Undisturbed runId) f) : f.Settled runId := by
  refine Reach.invariant (fun f hf => ?_) (fun f st g hr hS _ hstep => ?_) h
  · rw [hf]
    exact .inl hlive
  · exact step_settled (finishing_ok hs hl hr) hS hstep

/-- From every table that the job operations reach, whatever the other transactions do meanwhile: where no job of the
run is claimed between the counts of a refresh and its look for a pending job that is ready, the refresh of a run
that is not cancelled says done or failed exactly when no job of the run is live, and failed exactly when one of them
is in error besides; it leaves a cancelled run; and once the last jobs of the run are finished, in whatever order
their statements come and commit, the run is done or failed. -/
theorem run_finishes_with_its_work {T : Text} {w : WorkerSettings} {s : World}
    (h : Reach (workers T w) (fun s ev => ev.KeepsRun s) s) {runId : Nat} {f : Finishing}
    (hf : Reach (finishing T w runId s) (Finishing.Undisturbed runId) f) :
    (∀ now g run, Finishing.step T w runId f (.commit now) = some g → f.world.db.run runId = some run →
      (run.status = .cancelled → g.world.db.run runId = some run) ∧
      (run.status ≠ .cancelled → ∃ run', g.world.db.run runId = some run' ∧ Tells g.world.db runId run'.status)) ∧
    ((∃ j ∈ s.db.jobsOf runId, j.state.live = true) → (∀ j ∈ f.world.db.jobsOf runId, j.state.live = false) →
      ∃ run, f.world.db.run runId = some run ∧ (run.status ≠ .cancelled →
        (run.status = .done ∨ run.status = .failed) ∧
        (run.status = .failed ↔ ∃ j ∈ f.world.db.jobsOf runId, j.state = .error))) := by
  have hs := reach_sound h
  have hl := reach_lineage h
  refine ⟨fun now g run hstep hrun => commit_tells (finishing_ok hs hl hf) hrun hstep, fun hlive hover => ?_⟩
  rcases finishing_settled hs hl hlive hf with ⟨j, hj, hjlive⟩ | ⟨run, hrun, hstatus⟩
  · rw [hover j hj] at hjlive
    cases hjlive
  · refine ⟨run, hrun, fun hnot => ?_⟩
    have htells := hstatus.resolve_left hnot
    exact ⟨htells.ended.mpr hover, htells.failed.trans (and_iff_right hover)⟩

/-- Enqueues from outside that ask for no dependent job. -/
def Event.independent : Event → Bool
  | .enqueue e => !e.kind.dependent
  | _ => true

theorem Event.keepsRun_of_independent {ev : Event} (h : ev.independent = true) (s : World) : ev.KeepsRun s := by
  cases ev with
  | enqueue e =>
    intro hkind
    simp [Event.independent, hkind] at h
  | _ => trivial

def Statement.independent : Statement → Bool
  | .other ev => ev.independent
  | _ => true

theorem Finishing.keepsRun_of_independent {st : Statement} (h : st.independent = true) (f : Finishing) :
    f.KeepsRun st := by
  cases st with
  | other ev => exact Event.keepsRun_of_independent h f.world
  | _ => trivial

instance (runId : Nat) (f : Finishing) (st : Statement) : Decidable (f.Unclaimed runId st) :=
  inferInstanceAs (Decidable (f.counting = true → ∀ j ∈ f.world.db.jobsOf runId, st.claims ≠ some j.id))

/-- Three jobs of a run, the first two in the hands of two workers. -/
def twoOwned : List Event :=
  [.createOpponentCrawl "lichess" "ann" 0 10 ⟨1, 5, 5, 5⟩ "w" 0,
    .enqueue ⟨some "lichess", .fetchUserProfile, .name "ann", [], some 1, none, 0, 10, none, false, "w", none, 0⟩,
    .enqueue ⟨some "lichess", .fetchUserProfile, .name "bob", [], some 1, none, 0, 10, none, false, "w", none, 0⟩,
    .claim 0 1 1 5 7, .claim 1 2 1 5 8]

/-- All three are finished, the third claimed while the first is being finished. -/
def crossedFinishes : List Statement :=
  [.write 1 ⟨.done, "captured", false, none, 0⟩ 5, .other (.claim 2 3 4 5 9), .lock (some 1), .count,
    .write 2 ⟨.error, "gone", false, none, 0⟩ 5, .ready, .commit 6, .lock (some 2),
    .write 3 ⟨.done, "captured", false, none, 0⟩ 5, .count, .ready, .commit 7, .lock (some 3), .count, .ready, .commit 8]

theorem run_finishes_with_its_work_crossed : ∃ s f run,
    Reach (workers plainText ⟨2, 1, 60⟩) (fun s ev => ev.KeepsRun s) s ∧
    Reach (finishing plainText ⟨2, 1, 60⟩ 1 s) (Finishing.Undisturbed 1) f ∧
    (∀ j ∈ f.world.db.jobsOf 1, j.state.live = false) ∧ f.world.db.run 1 = some run ∧ run.status = .failed := by
  obtain ⟨s, hs, hp⟩ := Reach.of_exec (workers plainText ⟨2, 1, 60⟩) (fun _ ev => ev.independent = true)
    (s := emptyWorld) ⟨rfl, rfl, rfl, fun _ => rfl⟩ twoOwned
    (fun s => ((s.db.jobsOf 1).any fun j => j.state.live) &&
      (exec (finishing plainText ⟨2, 1, 60⟩ 1 s) (fun f st => st.independent = true ∧ f.Unclaimed 1 st)
        ⟨s, fun _ => none, none⟩ crossedFinishes).any fun f => (f.world.db.jobsOf 1).all (fun j => !j.state.live) &&
          ((f.world.db.jobsOf 1).any fun j => j.state = .error) &&
          (f.world.db.run 1).all fun run => run.status ≠ .cancelled) (by decide +kernel)
  simp only [Bool.and_eq_true, Option.any_eq_true, List.any_eq_true, List.all_eq_true, Option.all_eq_true,
    decide_eq_true_eq, Bool.not_eq_true'] at hp
  obtain ⟨hjob, f, hexec, ⟨hover, herr⟩, hlive⟩ := hp
  have hreach : Reach (workers plainText ⟨2, 1, 60⟩) (fun s ev => ev.KeepsRun s) s :=
    hs.mono fun s _ h => Event.keepsRun_of_independent h s
  have hf : Reach (finishing plainText ⟨2, 1, 60⟩ 1 s) (Finishing.Undisturbed 1) f :=
    (Reach.exec (.start rfl) crossedFinishes hexec).mono fun f _ h => ⟨f.keepsRun_of_independent h.1, h.2⟩
  obtain ⟨run, hrun, hended⟩ := (run_finishes_with_its_work hreach hf).2 hjob hover
  exact ⟨s, f, run, hreach, hf, hover, hrun, (hended (hlive run hrun)).2.mpr herr⟩

/-- The first job is being finished when the second, the only other one, is claimed between the two reads: the run is
done with a job in progress. -/
theorem done_with_job_in_progress : ¬ ∀ s, Reach (workers plainText ⟨2, 1, 60⟩) (fun s ev => ev.KeepsRun s) s →
    ∀ f, Reach (finishing plainText ⟨2, 1, 60⟩ 1 s) Finishing.KeepsRun f → ∀ now g,
      Finishing.step plainText ⟨2, 1, 60⟩ 1 f (.commit now) = some g → ∀ run, g.world.db.run 1 = some run →
        ((run.status = .done ∨ run.status = .failed) ↔ ∀ j ∈ g.world.db.jobsOf 1, j.state.live = false) := by
  intro hall
  obtain ⟨s, hs, hp⟩ := Reach.of_exec (workers plainText ⟨2, 1, 60⟩) (fun _ ev => ev.independent = true)
    (s := emptyWorld) ⟨rfl, rfl, rfl, fun _ => rfl⟩
    [.createOpponentCrawl "lichess" "ann" 0 10 ⟨1, 5, 5, 5⟩ "w" 0,
      .enqueue ⟨some "lichess", .fetchUserProfile, .name "ann", [], some 1, none, 0, 10, none, false, "w", none, 0⟩,
      .claim 0 1 1 5 7]
    (fun s => (exec (finishing plainText ⟨2, 1, 60⟩ 1 s) (fun _ st => st.independent = true)
      ⟨s, fun _ => none, none⟩ [.write 1 ⟨.done, "captured", false, none, 0⟩ 5, .lock (some 1), .count,
        .other (.claim 1 2 6 5 8), .ready]).any fun f =>
          (Finishing.step plainText ⟨2, 1, 60⟩ 1 f (.commit 7)).any fun g =>
            ((g.world.db.run 1).any fun run => run.status = .done) &&
              (g.world.db.jobsOf 1).any fun j => j.state = .inProgress) (by decide +kernel)
  simp only [Option.any_eq_true, Bool.and_eq_true, List.any_eq_true, decide_eq_true_eq] at hp
  obtain ⟨f, hexec, g, hstep, ⟨run, hrun, hdone⟩, j, hj, hbusy⟩ := hp
  have hf : Reach (finishing plainText ⟨2, 1, 60⟩ 1 s) Finishing.KeepsRun f :=
    (Reach.exec (.start rfl) _ hexec).mono fun f _ h => f.keepsRun_of_independent h
  have hover := (hall s (hs.mono fun s _ h => Event.keepsRun_of_independent h s) f hf 7 g hstep run hrun).mp (.inl hdone)
  have hdead := hover j hj
  rw [hbusy] at hdead
  cases hdead

end ChessCrawl.Jobs
