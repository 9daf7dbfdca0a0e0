import ChessCrawl.Jobs.Known
import Mathlib.Data.List.Sort
import Mathlib.Data.Prod.Lex

/-! `claim_next_job`, as the statements of one call under the scheduler's gate. Between any two of them other
transactions commit, and other sessions take and release locks. A call reads a window of candidates, tries their
locks in order, and reads again without the providers that it could not get. -/
namespace ChessCrawl.Jobs
open ChessCrawl.Lib
set_option autoImplicit false

/-! ## Calls -/

inductive ClaimStage
  | all | acquisition | processing
deriving DecidableEq, Repr

def ClaimStage.admits : ClaimStage → JobKind → Bool
  | .all, _ => true
  | .acquisition, kind => !kind.processing
  | .processing, kind => kind.processing

/-- The columns that a candidate is selected with. -/
structure Candidate where
  id : Nat
  provider : Option String
  kind : JobKind
  workspaceId : String
deriving DecidableEq, Repr

def Job.candidate (j : Job) : Candidate := ⟨j.id, j.provider, j.kind, j.workspaceId⟩

/-- What other transactions and sessions hold: rows, `executor-job` and `acquisition-provider` locks. -/
structure Locks where
  rows : List Nat
  jobs : List Nat
  providers : List (Option String)
deriving DecidableEq, Repr

/-- A call of `claim_next_job` without filters; `window` are the candidates that it has not tried, or none in
front of a query. -/
structure ClaimCall where
  worker : Option Nat
  stage : ClaimStage
  now : Int
  maxActiveJobs : Nat
  excluded : List (Option String)
  exclusionsBefore : Nat
  window : Option (List Candidate)
deriving DecidableEq, Repr

/-- `turns` is `workspace_claim_turns`, with 0 where there is no row. -/
structure Scheduler where
  world : World
  turns : String → ClaimStage → Nat
  turnSeq : Nat
  locks : Locks
  -- the gate admits one call
  call : Option ClaimCall

/-- `ORDER BY COALESCE(turn,0),priority,depth,enqueued_at,id` -/
def Job.claimOrder (turns : String → ClaimStage → Nat) (stage : ClaimStage) (j : Job) :
    ℕ ×ₗ ℤ ×ₗ ℕ ×ₗ ℤ ×ₗ ℕ :=
  toLex (turns j.workspaceId stage, toLex (j.priority, toLex (j.depth, toLex (j.enqueuedAt, j.id))))

/-- The rows that the query of a call selects and can lock, in their order. -/
def Scheduler.candidates (s : Scheduler) (c : ClaimCall) : List Job :=
  (s.world.db.jobs.filter fun j => s.world.db.admissible c.now c.maxActiveJobs j && c.stage.admits j.kind &&
    (j.kind.processing || j.provider.any fun p => some p ∉ c.excluded) && j.id ∉ s.locks.rows).insertionSort
    fun j k => j.claimOrder s.turns c.stage ≤ k.claimOrder s.turns c.stage

inductive Tried
  | skipped | excluded | taken
deriving DecidableEq, Repr

/-- The locks that a candidate needs, tried in their order. -/
def Locks.tries (l : Locks) (c : ClaimCall) (x : Candidate) : Tried :=
  if c.worker.isNone then .taken
  else if x.kind.processing then if x.id ∈ l.jobs then .skipped else .taken
  else if x.provider ∈ c.excluded then .skipped
  else if x.provider ∈ l.providers then .excluded
  else if x.id ∈ l.jobs then .skipped
  else .taken

/-- The locks that a worker keeps with its job. -/
def Locks.kept (l : Locks) (c : ClaimCall) (x : Candidate) : Locks :=
  if c.worker.isNone then l
  else { l with
    jobs := x.id :: l.jobs
    providers := if x.kind.processing then l.providers else x.provider :: l.providers }

inductive SchedulerEvent
  | begin (worker : Option Nat) (stage : ClaimStage) (now : Int) (maxActiveJobs : Nat)
  | query
  | attempt (token : Nat)
  | exhausted
  | world (ev : Event)
  | locks (l : Locks)
  | policy (policies : List (String × WorkspacePolicy))

def Event.isClaim : Event → Bool
  | .claim .. => true
  | _ => false

/-- The claim of a candidate and the turn of its workspace. -/
def Scheduler.take (s : Scheduler) (c : ClaimCall) (x : Candidate) (token : Nat) : Option Scheduler :=
  let owner := if c.worker.isSome then some token else none
  let db := s.world.db.updateJob x.id fun j => j.claimed c.now owner
  (db.job x.id).map fun job =>
    { world := match c.worker with
        | some worker => (s.world.withDb db).setAttempt worker (some ⟨job, token, none⟩)
        | none => s.world.withDb db
      turns := fun workspaceId stage =>
        if workspaceId = x.workspaceId ∧ stage = c.stage then s.turnSeq + 1 else s.turns workspaceId stage
      turnSeq := s.turnSeq + 1
      locks := s.locks.kept c x
      call := none }

section Steps
variable (T : Text) (w : WorkerSettings)

def Scheduler.step (s : Scheduler) : SchedulerEvent → Option Scheduler
  | .begin worker stage now maxActiveJobs =>
    -- a worker has released its last job
    if s.call.isNone ∧ worker.all fun n => (s.world.attempts n).isNone then
      some { s with call := some ⟨worker, stage, now, maxActiveJobs, [], 0, none⟩ }
    else none
  | .query => s.call.bind fun c =>
    if c.window.isSome then none
    else match (s.candidates c).take 100 with
      | [] => some { s with call := none }
      | rows => some { s with call := some { c with
          window := some (rows.map Job.candidate)
          exclusionsBefore := c.excluded.length } }
  | .attempt token => s.call.bind fun c =>
    match c.window with
    | some (x :: rest) =>
      match s.locks.tries c x with
      | .skipped => some { s with call := some { c with window := some rest } }
      | .excluded => some { s with call := some { c with
          window := some rest
          excluded := c.excluded ++ [x.provider] } }
      | .taken => if ∀ j ∈ s.world.db.jobs, j.ownershipToken ≠ some token then s.take c x token else none
    | _ => none
  | .exhausted => s.call.bind fun c =>
    if c.window = some [] then
      if c.excluded.length = c.exclusionsBefore then some { s with call := none }
      else some { s with call := some { c with window := none } }
    else none
  | .world ev =>
    -- other transactions wait for rows of the window; letting them through only adds runs
    if ev.isClaim then none else (s.world.step T w ev).map fun t => { s with world := t }
  | .locks l => some { s with locks := l }
  | .policy policies => some { s with world := s.world.withDb { s.world.db with policies := policies } }

/-- Any number of calls and of other transactions over one job table. -/
def scheduler : System Scheduler SchedulerEvent where
  init s := (workers T w).init s.world ∧ (∀ workspaceId stage, s.turns workspaceId stage = 0) ∧ s.call = none
  step := Scheduler.step T w

end Steps

/-- The workspace that a step claims, with the stage of its call. -/
def Scheduler.claimed (s : Scheduler) : SchedulerEvent → Option (String × ClaimStage)
  | .attempt _ => s.call.bind fun c =>
    match c.window with
    | some (x :: _) => if s.locks.tries c x = .taken then some (x.workspaceId, c.stage) else none
    | _ => none
  | _ => none

/-- The job is admissible, and its row, job and provider locks are to be had. -/
def Scheduler.obtainable (s : Scheduler) (stage : ClaimStage) (now : Int) (maxActiveJobs : Nat) (x : Candidate) : Bool :=
  (s.world.db.jobs.any fun j => j.candidate = x && s.world.db.admissible now maxActiveJobs j) && stage.admits x.kind &&
    x.id ∉ s.locks.rows && x.id ∉ s.locks.jobs &&
    (x.kind.processing || x.provider.any fun p => some p ∉ s.locks.providers)

/-! ## Turns -/

section Rotation
variable {T : Text} {w : WorkerSettings} {s t : Scheduler} {ev : SchedulerEvent} {stage : ClaimStage} {x : Candidate}
  {workspaceId : String}

/-- What a step does to the turns. -/
theorem step_turns (h : s.step T w ev = some t) :
    t.turns = s.turns ∧ t.turnSeq = s.turnSeq ∧ s.claimed ev = none ∨ ∃ workspaceId stage,
      s.claimed ev = some (workspaceId, stage) ∧ t.turnSeq = s.turnSeq + 1 ∧ t.call = none ∧
      ∀ v σ, t.turns v σ = if v = workspaceId ∧ σ = stage then s.turnSeq + 1 else s.turns v σ := by
  cases ev with
  | begin =>
    replace h : (if _ then _ else _) = some t := h
    split at h
    · cases h
      exact .inl ⟨rfl, rfl, rfl⟩
    · cases h
  | query =>
    obtain ⟨c, _, h⟩ := Option.bind_eq_some_iff.mp h
    split at h
    · cases h
    split at h
    · cases h
      exact .inl ⟨rfl, rfl, rfl⟩
    · cases h
      exact .inl ⟨rfl, rfl, rfl⟩
  | attempt token =>
    obtain ⟨c, hc, h⟩ := Option.bind_eq_some_iff.mp h
    split at h
    · next y rest hwindow =>
      split at h
      · next htry =>
        cases h
        exact .inl ⟨rfl, rfl, by simp [Scheduler.claimed, hc, hwindow, htry]⟩
      · next htry =>
        cases h
        exact .inl ⟨rfl, rfl, by simp [Scheduler.claimed, hc, hwindow, htry]⟩
      · next htry =>
        split at h
        · obtain ⟨job, _, rfl⟩ := Option.map_eq_some_iff.mp h
          exact .inr ⟨y.workspaceId, c.stage, by simp [Scheduler.claimed, hc, hwindow, htry], rfl, rfl, fun _ _ => rfl⟩
        · cases h
    · cases h
  | exhausted =>
    obtain ⟨c, _, h⟩ := Option.bind_eq_some_iff.mp h
    split at h
    · split at h
      · cases h
        exact .inl ⟨rfl, rfl, rfl⟩
      · cases h
        exact .inl ⟨rfl, rfl, rfl⟩
    · cases h
  | world e =>
    replace h : (if _ then _ else _) = some t := h
    split at h
    · cases h
    · obtain ⟨_, _, rfl⟩ := Option.map_eq_some_iff.mp h
      exact .inl ⟨rfl, rfl, rfl⟩
  | locks =>
    cases h
    exact .inl ⟨rfl, rfl, rfl⟩
  | policy =>
    cases h
    exact .inl ⟨rfl, rfl, rfl⟩

/-- Turns come from the sequence. -/
theorem reach_turns (h : Reachable (scheduler T w) s) : ∀ v σ, s.turns v σ ≤ s.turnSeq := by
  refine Reachable.invariant (I := fun s => ∀ v σ, s.turns v σ ≤ s.turnSeq) ?_ ?_ h
  · intro s hs v σ
    rw [hs.2.1]
    exact Nat.zero_le _
  · intro s ev t hI hstep v σ
    rcases step_turns hstep with ⟨hturns, hseq, _⟩ | ⟨_, _, _, hseq, _, hturns⟩
    · rw [hturns, hseq]
      exact hI v σ
    · rw [hturns, hseq]
      split
      · exact Nat.le_refl _
      · exact Nat.le_succ_of_le (hI v σ)

/-- The workspace comes after the waiting job: by its turn, and in the window of a call. -/
structure Scheduler.Ahead (s : Scheduler) (stage : ClaimStage) (x : Candidate) (workspaceId : String) : Prop where
  turn : s.turns x.workspaceId stage < s.turns workspaceId stage
  excluded : ∀ c, s.call = some c → c.stage = stage → x.kind.processing = true ∨ x.provider ∉ c.excluded
  window : ∀ c, s.call = some c → c.stage = stage → ∀ rows, c.window = some rows → ∀ front y back,
    rows = front ++ y :: back → y.workspaceId = workspaceId → x ∈ front

/-- In a sorted list, what is smaller than an element stands before it. -/
theorem mem_front_of_sorted {α β : Type} [LinearOrder β] {key : α → β} {xs front back : List α} {a b : α}
    (hsorted : xs.Pairwise fun x y => key x ≤ key y) (hsplit : xs = front ++ b :: back) (ha : a ∈ xs)
    (hlt : key a < key b) : a ∈ front := by
  subst hsplit
  rcases List.mem_append.mp ha with hfront | hrest
  · exact hfront
  · rcases List.mem_cons.mp hrest with rfl | hback
    · exact (lt_irrefl _ hlt).elim
    · have hle := (List.pairwise_cons.mp (List.pairwise_append.mp hsorted).2.1).1 a hback
      exact (not_lt_of_ge hle hlt).elim

/-- A window that has a job of the workspace has the waiting job before it. -/
theorem candidates_front {c : ClaimCall} (hstage : c.stage = stage)
    (hturn : s.turns x.workspaceId stage < s.turns workspaceId stage)
    (hexcluded : x.kind.processing = true ∨ x.provider ∉ c.excluded)
    (hobt : s.obtainable stage c.now c.maxActiveJobs x = true) {front back : List Candidate} {y : Candidate}
    (hsplit : ((s.candidates c).take 100).map Job.candidate = front ++ y :: back) (hy : y.workspaceId = workspaceId) :
    x ∈ front := by
  subst hstage
  simp only [Scheduler.obtainable, Bool.and_eq_true, List.any_eq_true, decide_eq_true_eq] at hobt
  obtain ⟨⟨⟨⟨⟨j, hj, hjx, hadm⟩, hstage⟩, hrow⟩, _⟩, hprovider⟩ := hobt
  -- the job is among the candidates
  have hcand : j ∈ s.candidates c := by
    unfold Scheduler.candidates
    rw [List.mem_insertionSort, List.mem_filter]
    refine ⟨hj, ?_⟩
    have hkind : j.kind = x.kind := by rw [← hjx]; rfl
    have hprov : j.provider = x.provider := by rw [← hjx]; rfl
    have hid : j.id = x.id := by rw [← hjx]; rfl
    simp only [Bool.and_eq_true, decide_eq_true_eq, hkind, hprov, hid]
    refine ⟨⟨⟨hadm, hstage⟩, ?_⟩, hrow⟩
    rw [Bool.or_eq_true] at hprovider ⊢
    rcases hprovider with hproc | hany
    · exact .inl hproc
    · rcases hexcluded with hproc | hex
      · exact .inl hproc
      · obtain ⟨p, hp, _⟩ := Option.any_eq_true .. |>.mp hany
        refine .inr ?_
        rw [hp] at hex ⊢
        simpa using hex
  obtain ⟨front', rest, htake, hfront, hrest⟩ := List.map_eq_append_iff.mp hsplit
  obtain ⟨k, back', hsplit', hky, _⟩ := List.map_eq_cons_iff.mp hrest
  rw [hsplit'] at htake
  have hall : s.candidates c = front' ++ k :: (back' ++ (s.candidates c).drop 100) := by
    calc s.candidates c = (s.candidates c).take 100 ++ (s.candidates c).drop 100 := (List.take_append_drop ..).symm
      _ = front' ++ k :: (back' ++ (s.candidates c).drop 100) := by rw [htake]; simp
  have hsorted : (s.candidates c).Pairwise fun a b => a.claimOrder s.turns c.stage ≤ b.claimOrder s.turns c.stage :=
    List.pairwise_insertionSort _ _
  have hlt : j.claimOrder s.turns c.stage < k.claimOrder s.turns c.stage := by
    refine Prod.Lex.toLex_lt_toLex.mpr (.inl ?_)
    have hjw : j.workspaceId = x.workspaceId := by rw [← hjx]; rfl
    have hkw : k.workspaceId = workspaceId := by rw [← hy, ← hky]; rfl
    rw [hjw, hkw]
    exact hturn
  rw [← hfront, ← hjx]
  exact List.mem_map_of_mem (mem_front_of_sorted hsorted hall hcand hlt)

/-- The locks of an obtainable job are given. -/
theorem tries_taken {c : ClaimCall} (hexcluded : x.kind.processing = true ∨ x.provider ∉ c.excluded)
    (hobt : s.obtainable stage c.now c.maxActiveJobs x = true) : s.locks.tries c x = .taken := by
  simp only [Scheduler.obtainable, Bool.and_eq_true, decide_eq_true_eq] at hobt
  obtain ⟨⟨⟨_, _⟩, hjob⟩, hprovider⟩ := hobt
  unfold Locks.tries
  rw [if_neg hjob]
  split
  · rfl
  split
  · rfl
  next hproc =>
  have hex : x.provider ∉ c.excluded := hexcluded.resolve_left hproc
  have hlock : x.provider ∉ s.locks.providers := by
    rw [Bool.or_eq_true] at hprovider
    obtain ⟨p, hp, hfree⟩ := Option.any_eq_true .. |>.mp (hprovider.resolve_left hproc)
    rw [hp]
    simpa using hfree
  rw [if_neg hex, if_neg hlock]

/-- A call whose window moves past a candidate that is not the waiting one. -/
theorem Scheduler.Ahead.passes {c : ClaimCall} {y : Candidate} {rest : List Candidate} {excluded : List (Option String)}
    (h : s.Ahead stage x workspaceId) (hc : s.call = some c) (hwindow : c.window = some (y :: rest)) (hyx : c.stage = stage → y ≠ x)
    (hex : c.stage = stage → x.kind.processing = true ∨ x.provider ∉ excluded) :
    Scheduler.Ahead { s with call := some { c with window := some rest, excluded := excluded } } stage x workspaceId := by
  refine ⟨h.turn, ?_, ?_⟩
  · intro c' hc' hstage
    cases hc'
    exact hex hstage
  · intro c' hc' hstage rows hrows front z back hsplit hz
    cases hc'
    cases hrows
    have hmem := h.window c hc hstage _ hwindow (y :: front) z back (by rw [hsplit]; rfl) hz
    rcases List.mem_cons.mp hmem with heq | hmem
    · exact (hyx hstage heq.symm).elim
    · exact hmem

/-- While a job of another workspace is to be had and that workspace is not claimed, the workspace stays behind
it. -/
theorem step_ahead (h : s.Ahead stage x workspaceId)
    (hobt : ∀ c, s.call = some c → s.obtainable stage c.now c.maxActiveJobs x = true)
    (hclaimed : s.claimed ev ≠ some (x.workspaceId, stage)) (hstep : s.step T w ev = some t) :
    t.Ahead stage x workspaceId := by
  have hidle : ∀ {t : Scheduler}, t.call = none → t.turns x.workspaceId stage < t.turns workspaceId stage →
      t.Ahead stage x workspaceId := by
    intro t hnone hturn
    refine ⟨hturn, fun c hc => ?_, fun c hc => ?_⟩
    · rw [hnone] at hc
      cases hc
    · rw [hnone] at hc
      cases hc
  cases ev with
  | begin =>
    replace hstep : (if _ then _ else _) = some t := hstep
    split at hstep
    · cases hstep
      refine ⟨h.turn, ?_, ?_⟩
      · intro c hc _
        cases hc
        exact .inr (by simp)
      · intro c hc _ rows hrows
        cases hc
        cases hrows
    · cases hstep
  | query =>
    obtain ⟨c, hc, hstep⟩ := Option.bind_eq_some_iff.mp hstep
    split at hstep
    · cases hstep
    split at hstep
    · cases hstep
      exact hidle rfl h.turn
    · next rows _ hrows =>
      cases hstep
      refine ⟨h.turn, ?_, ?_⟩
      · intro c' hc' hstage
        cases hc'
        exact h.excluded c hc hstage
      · intro c' hc' hstage rows' hrows' front y back hsplit hy
        cases hc'
        cases hrows'
        exact candidates_front hstage h.turn (h.excluded c hc hstage) (hobt c hc) hsplit hy
  | attempt token =>
    obtain ⟨c, hc, hstep⟩ := Option.bind_eq_some_iff.mp hstep
    split at hstep
    · next y rest hwindow =>
      -- the waiting job would have been taken
      have hyx : s.locks.tries c y ≠ .taken → c.stage = stage → y ≠ x := by
        rintro htry hstage rfl
        exact htry (tries_taken (h.excluded c hc hstage) (hobt c hc))
      split at hstep
      · next htry =>
        cases hstep
        exact h.passes hc hwindow (hyx (by rw [htry]; simp)) (h.excluded c hc)
      · next htry =>
        cases hstep
        refine h.passes hc hwindow (hyx (by rw [htry]; simp)) fun hstage => ?_
        rcases h.excluded c hc hstage with hproc | hex
        · exact .inl hproc
        by_cases hproc : x.kind.processing = true
        · exact .inl hproc
        refine .inr fun hmem => ?_
        rcases List.mem_append.mp hmem with hold | hnew
        · exact hex hold
        -- a provider is only excluded while others hold its lock
        have hheld : y.provider ∈ s.locks.providers := by
          unfold Locks.tries at htry
          grind
        have hobt := hobt c hc
        simp only [Scheduler.obtainable, Bool.and_eq_true, Bool.or_eq_true] at hobt
        obtain ⟨p, hp, hfree⟩ := Option.any_eq_true .. |>.mp (hobt.2.resolve_left hproc)
        rw [← List.mem_singleton.mp hnew, hp] at hheld
        simp [hheld] at hfree
      · next htry =>
        split at hstep
        · have htaken : s.claimed (.attempt token) = some (y.workspaceId, c.stage) := by
            simp [Scheduler.claimed, hc, hwindow, htry]
          obtain ⟨job, _, rfl⟩ := Option.map_eq_some_iff.mp hstep
          refine hidle rfl ?_
          have hV : ¬ (x.workspaceId = y.workspaceId ∧ stage = c.stage) := by
            rintro ⟨hws, rfl⟩
            rw [htaken, hws] at hclaimed
            exact hclaimed rfl
          have hW : ¬ (workspaceId = y.workspaceId ∧ stage = c.stage) := by
            rintro ⟨hws, hstage⟩
            have hmem := h.window c hc hstage.symm _ hwindow [] y rest rfl hws.symm
            cases hmem
          show (if _ then _ else _) < (if _ then _ else _)
          rw [if_neg hV, if_neg hW]
          exact h.turn
        · cases hstep
    · cases hstep
  | exhausted =>
    obtain ⟨c, hc, hstep⟩ := Option.bind_eq_some_iff.mp hstep
    split at hstep
    · split at hstep
      · cases hstep
        exact hidle rfl h.turn
      · cases hstep
        refine ⟨h.turn, ?_, ?_⟩
        · intro c' hc' hstage
          cases hc'
          exact h.excluded c hc hstage
        · intro c' hc' _ rows hrows
          cases hc'
          cases hrows
    · cases hstep
  | world e =>
    replace hstep : (if _ then _ else _) = some t := hstep
    split at hstep
    · cases hstep
    · obtain ⟨_, _, rfl⟩ := Option.map_eq_some_iff.mp hstep
      exact ⟨h.turn, h.excluded, h.window⟩
  | locks =>
    cases hstep
    exact ⟨h.turn, h.excluded, h.window⟩
  | policy =>
    cases hstep
    exact ⟨h.turn, h.excluded, h.window⟩

/-- A claim sends its workspace behind every other. -/
theorem claimed_ahead (hreach : Reachable (scheduler T w) s) (hstep : s.step T w ev = some t)
    (hclaimed : s.claimed ev = some (workspaceId, stage)) (hne : x.workspaceId ≠ workspaceId) :
    t.Ahead stage x workspaceId := by
  rcases step_turns hstep with ⟨_, _, hnone⟩ | ⟨_, _, hsome, _, hcall, hturns⟩
  · rw [hnone] at hclaimed
    cases hclaimed
  · cases Option.some.inj (hsome.symm.trans hclaimed)
    refine ⟨?_, fun c hc => ?_, fun c hc => ?_⟩
    · rw [hturns, hturns, if_neg fun h => hne h.1, if_pos ⟨rfl, rfl⟩]
      exact Nat.lt_succ_of_le (reach_turns hreach _ _)
    · rw [hcall] at hc
      cases hc
    · rw [hcall] at hc
      cases hc

/-- The workspace is not claimed while the other waits. -/
theorem Scheduler.Ahead.not_claimed (h : s.Ahead stage x workspaceId) : s.claimed ev ≠ some (workspaceId, stage) := by
  intro hclaimed
  cases ev with
  | attempt token =>
    obtain ⟨c, hc, hclaimed⟩ := Option.bind_eq_some_iff.mp hclaimed
    split at hclaimed
    · next y rest hwindow =>
      split at hclaimed
      · cases hclaimed
        have hmem := h.window c hc rfl _ hwindow [] y rest rfl rfl
        cases hmem
      · cases hclaimed
    · cases hclaimed
  | _ => cases hclaimed

end Rotation
end ChessCrawl.Jobs
