import ChessCrawl.Jobs.Table
import ChessCrawl.Lib.Truth
import Mathlib.Algebra.BigOperators.Group.List.Lemmas
import Mathlib.Logic.Function.Basic
import Mathlib.Algebra.GroupWithZero.Nat

/-! `storage/job_admission.py` in SQL's own logic, and the job counts of `operational_snapshot`. -/
namespace ChessCrawl.Jobs
open ChessCrawl.Lib
set_option autoImplicit false

/-! ## Conditions -/

/-- `RUN_ALLOWS_WORK_SQL` -/
def Db.runAllowsWorkSql (db : Db) (j : Job) : Truth :=
  (Truth.any db.runs fun r =>
    (Truth.eq (some r.id) j.crawlRunId).and (Truth.eq (some r.status) (some .cancelled))).not

/-- `SCHEDULABLE_STATE_SQL` -/
def Job.schedulableSql (j : Job) : Truth :=
  (Truth.eq (some j.state) (some .pending)).or
    ((Truth.eq (some j.state) (some .blocked)).and (Truth.isNull j.nextAttemptAt).not)

def Job.retryDueSql (j : Job) (now : Int) : Truth :=
  (Truth.isNull j.nextAttemptAt).or (Truth.compare (fun a b => decide (a ≤ b)) j.nextAttemptAt (some now))

/-- `kind IN (…)` -/
def Job.kindIn (j : Job) (kinds : List JobKind) : Truth := some (decide (j.kind ∈ kinds))

def JobState.isIn (s : JobState) (states : List JobState) : Truth := some (decide (s ∈ states))

/-- `params_json::jsonb->>key` -/
def Params.text (p : Params) (key : String) : Option String :=
  match p.lookup key with
  | none => none
  | some .null => none
  | some (.text s) => some s
  | some (.int n) => some (toString n)

/-- `PROCESSING_READY_SQL` -/
def Db.processingReadySql (db : Db) (j : Job) : Truth :=
  (((j.kindIn [.fetchUserGames, .crawlOpponents]).and
      (Truth.eq (some ((j.params.text "collection_mode").getD "bounded")) (some "bounded"))).and
    (Truth.any db.jobs fun child => ((Truth.eq child.parentJobId (some j.id)).and
      (Truth.eq (some child.kind) (some .normalizePayload))).and
      (child.state.isIn [.pending, .inProgress, .blocked]))).not.and
  ((Truth.eq (some j.kind) (some .expandOpponents)).not.or
    (Truth.any db.jobs fun parent => (Truth.eq (some parent.id) j.parentJobId).and
      (parent.state.isIn [.done, .error, .skipped])))

/-- `PROCESSING_JOB_KINDS` -/
def processingJobKinds : List JobKind :=
  [.normalizePayload, .reprocessArchive, .expandOpponents, .buildWorkingSet, .prepareExport]

def Db.cooledSql (db : Db) (now : Int) (j : Job) : Truth :=
  (j.kindIn processingJobKinds).or
    (Truth.any db.cooldowns fun c => (Truth.eq (some c.1) j.provider).and
      (Truth.compare (fun a b => decide (b < a)) (some c.2) (some now))).not

def Db.belowActiveCapSql (db : Db) (maxActiveJobs : Nat) (j : Job) : Truth :=
  Truth.compare (fun a b => decide (a < b))
    (some (db.jobs.filter fun active => decide (((Truth.eq (some active.workspaceId) (some j.workspaceId)).and
      (Truth.eq (some active.state) (some .inProgress))) = some true)).length)
    (some (((db.policies.lookup j.workspaceId).map WorkspacePolicy.maxActiveJobs).getD maxActiveJobs))

/-- What a live job is counted as. -/
inductive Status
  | active | eligible | budget | paused | retry | processingDependency | providerCooldown | workspaceActiveCap | cancelled
deriving DecidableEq, Repr

/-- `admission_conditions` -/
def Db.admissionConditions (db : Db) (now : Int) (maxActiveJobs : Nat) (j : Job) : List (Status × Truth) :=
  [(.cancelled, db.runAllowsWorkSql j), (.paused, j.schedulableSql), (.retry, j.retryDueSql now),
    (.processingDependency, db.processingReadySql j), (.providerCooldown, db.cooledSql now j),
    (.workspaceActiveCap, db.belowActiveCapSql maxActiveJobs j)]

/-- `claim_admission` -/
def Db.claimAdmission (db : Db) (now : Int) (maxActiveJobs : Nat) (j : Job) : Truth :=
  Truth.conj ((db.admissionConditions now maxActiveJobs j).map Prod.snd)

/-- `waiting_reason` -/
def Db.waitingReason (db : Db) (now : Int) (maxActiveJobs : Nat) (j : Job) : Status :=
  (Truth.firstFailing (db.admissionConditions now maxActiveJobs j)).getD .eligible

/-! ## The snapshot -/

/-- `state='blocked' AND next_attempt_at IS NULL AND reason LIKE 'budget_exhausted:%'` -/
def Job.budgetPausedSql (j : Job) : Truth :=
  ((Truth.eq (some j.state) (some .blocked)).and (Truth.isNull j.nextAttemptAt)).and
    (j.reason.map likeBudgetExhausted)

inductive JobStage
  | acquisition | processing
deriving DecidableEq, Repr

def Job.stage (j : Job) : JobStage := if j.kind ∈ processingJobKinds then .processing else .acquisition

/-- `CASE WHEN state='in_progress' THEN 'active' ELSE …`, with pauses of a budget told apart. -/
def Db.status (db : Db) (now : Int) (maxActiveJobs : Nat) (j : Job) : Status :=
  let admission := if j.state = .inProgress then .active else db.waitingReason now maxActiveJobs j
  if (Truth.eq (some admission) (some .paused)).and j.budgetPausedSql = some true then .budget else admission

/-- The columns that the rows are grouped by. -/
structure GroupKey where
  stage : JobStage
  state : JobState
  status : Status
deriving DecidableEq, Repr

structure Group where
  key : GroupKey
  count : Nat
  oldestAt : Option Int
deriving DecidableEq, Repr

def Db.liveJobs (db : Db) : List Job := db.jobs.filter fun j => j.state ∈ [.pending, .blocked, .inProgress]

def Db.groupKey (db : Db) (now : Int) (maxActiveJobs : Nat) (j : Job) : GroupKey :=
  ⟨j.stage, j.state, db.status now maxActiveJobs j⟩

/-- The rows of the query, in some order. -/
def Db.groups (db : Db) (now : Int) (maxActiveJobs : Nat) : List Group :=
  let keys := db.liveJobs.map (db.groupKey now maxActiveJobs)
  keys.dedup.map fun k => ⟨k, keys.count k,
    ((db.liveJobs.filter fun j => decide (db.groupKey now maxActiveJobs j = k)).map Job.enqueuedAt).min?⟩

/-- `WAITING_REASONS` -/
def waitingReasons : List Status :=
  [.budget, .paused, .retry, .processingDependency, .providerCooldown, .workspaceActiveCap, .cancelled]

structure StageMetrics where
  eligibleJobs : Nat
  oldestEligibleAge : Option Int
  activeJobs : Nat
  pendingJobs : Nat
  blockedJobs : Nat
  waiting : List (Status × Nat)
deriving DecidableEq, Repr

def StageMetrics.empty : StageMetrics := ⟨0, none, 0, 0, 0, waitingReasons.map fun r => (r, 0)⟩

/-- `waiting[status] += count`, a `KeyError` for a status that is not in the table. -/
def bump (waiting : List (Status × Nat)) (status : Status) (count : Nat) : Except Failure (List (Status × Nat)) :=
  if waiting.any fun e => e.1 = status then
    .ok (waiting.map fun e => if e.1 = status then (e.1, e.2 + count) else e)
  else .error .missingRow

/-- `_age`, kept if it is the greatest so far. -/
def older (now : Int) (oldestAt previous : Option Int) : Option Int :=
  match oldestAt with
  | none => previous
  | some oldest =>
    let age := max 0 (now - oldest)
    if previous.all fun p => decide (p < age) then some age else previous

def StageMetrics.addState (m : StageMetrics) (g : Group) : StageMetrics :=
  match g.key.state with
  | .pending => { m with pendingJobs := m.pendingJobs + g.count }
  | .blocked => { m with blockedJobs := m.blockedJobs + g.count }
  | _ => m

def StageMetrics.addStatus (now : Int) (m : StageMetrics) (g : Group) : Except Failure StageMetrics :=
  match g.key.status with
  | .active => .ok { m with activeJobs := m.activeJobs + g.count }
  | .eligible => .ok { m with
      eligibleJobs := m.eligibleJobs + g.count
      oldestEligibleAge := older now g.oldestAt m.oldestEligibleAge }
  | status => (bump m.waiting status g.count).map fun waiting => { m with waiting := waiting }

/-- The body of the loop over the rows. -/
def StageMetrics.add (now : Int) (m : StageMetrics) (g : Group) : Except Failure StageMetrics :=
  (m.addState g).addStatus now g

abbrev Snapshot := JobStage → StageMetrics

def Snapshot.add (now : Int) (snap : Snapshot) (g : Group) : Except Failure Snapshot :=
  ((snap g.key.stage).add now g).map fun m => Function.update snap g.key.stage m

/-- The job counts of `operational_snapshot`, from the rows of its query. -/
def operationalSnapshot (now : Int) (rows : List Group) : Except Failure Snapshot :=
  if now < 0 then .error (.valueError "Metrics time must be finite and nonnegative")
  else rows.foldlM (Snapshot.add now) fun _ => StageMetrics.empty

/-! ## No condition is unknown -/

variable (db : Db) (now : Int) (maxActiveJobs : Nat) (j : Job)

theorem runAllowsWorkSql_eq : db.runAllowsWorkSql j = some (db.runAllowsWork j) := by
  unfold Db.runAllowsWorkSql Db.runAllowsWork Truth.any
  rw [Truth.not_some, List.not_any_eq_all_not]
  congr 2
  funext r
  simp only [Truth.and_true_iff, Truth.eq_true_iff, Option.some.injEq, Bool.decide_and]

theorem schedulableSql_eq : j.schedulableSql = some j.schedulable := by
  unfold Job.schedulableSql Job.schedulable Truth.isNull
  rw [Truth.eq_some, Truth.eq_some, Truth.not_some, Truth.and_some, Truth.or_some]
  cases j.nextAttemptAt <;> rfl

theorem retryDueSql_eq : j.retryDueSql now = some (j.retryDue now) := by
  unfold Job.retryDueSql Job.retryDue Truth.isNull
  cases j.nextAttemptAt with
  | none => rfl
  | some t =>
    show Truth.or (some false) (some (decide (t ≤ now))) = _
    rw [Truth.or_some]
    rfl

/-- The decimal of an integer starts with a digit or a sign. -/
theorem toString_ne_bounded (n : Int) : toString n ≠ "bounded" := by
  intro h
  cases n with
  | ofNat m =>
    have hrepr : m.repr = "bounded" := h
    have hdigits : Nat.toDigits 10 m = "bounded".toList := by
      rw [← Nat.toList_repr, hrepr]
    have hmem : 'b' ∈ Nat.toDigits 10 m := by
      rw [hdigits]
      decide
    exact absurd (Nat.isDigit_of_mem_toDigits (by decide) (by decide) hmem) (by decide)
  | negSucc m =>
    have hlist : ("-" ++ m.succ.repr).toList = "bounded".toList := congrArg String.toList h
    rw [String.toList_append] at hlist
    have hhead := congrArg List.head? hlist
    simp at hhead

theorem bounded_eq : decide ((j.params.text "collection_mode").getD "bounded" = "bounded") = j.bounded := by
  unfold Params.text Job.bounded
  cases j.params.lookup "collection_mode" with
  | none => rfl
  | some v =>
    cases v with
    | null => rfl
    | text mode => rfl
    | int n => exact decide_eq_false (toString_ne_bounded n)

theorem processingReadySql_eq : db.processingReadySql j = some (db.processingReady j) := by
  have hchild : ∀ child : Job, decide ((((Truth.eq child.parentJobId (some j.id)).and
      (Truth.eq (some child.kind) (some .normalizePayload))).and
      (child.state.isIn [.pending, .inProgress, .blocked])) = some true) =
      (decide (child.parentJobId = some j.id) && decide (child.kind = .normalizePayload) && child.state.live) := by
    intro child
    have hstate : decide (child.state ∈ [JobState.pending, .inProgress, .blocked]) = child.state.live := by
      cases child.state <;> rfl
    simp only [Truth.and_true_iff, Truth.eq_true_iff', JobState.isIn, Option.some.injEq, Bool.decide_and, hstate,
      Bool.decide_eq_true]
  have hparent : ∀ parent : Job, decide (((Truth.eq (some parent.id) j.parentJobId).and
      (parent.state.isIn [.done, .error, .skipped])) = some true) =
      (decide (some parent.id = j.parentJobId) && parent.state.terminal) := by
    intro parent
    have hstate : decide (parent.state ∈ [JobState.done, .error, .skipped]) = parent.state.terminal := by
      cases parent.state <;> rfl
    simp only [Truth.and_true_iff, Truth.eq_true_iff, JobState.isIn, Option.some.injEq, Bool.decide_and, hstate,
      Bool.decide_eq_true]
  have hkind : decide (j.kind ∈ [JobKind.fetchUserGames, .crawlOpponents]) =
      (decide (j.kind = .fetchUserGames) || decide (j.kind = .crawlOpponents)) := by
    cases j.kind <;> rfl
  unfold Db.processingReadySql Db.processingReady Truth.any Job.kindIn
  simp only [hchild, hparent, hkind]
  simp only [Truth.eq_some, Truth.and_some, Truth.not_some, Truth.or_some, bounded_eq, decide_not, ne_eq]

theorem mem_processingJobKinds (kind : JobKind) : decide (kind ∈ processingJobKinds) = kind.processing := by
  cases kind <;> rfl

theorem cooledSql_eq : db.cooledSql now j = some (db.cooled now j) := by
  unfold Db.cooledSql Db.cooled Truth.any Job.kindIn
  rw [Truth.not_some, Truth.or_some, mem_processingJobKinds, List.not_any_eq_all_not]
  congr 3
  funext c
  simp only [Truth.and_true_iff, Truth.eq_true_iff, Truth.compare, Option.bind_some, Option.map_some, Option.some.injEq,
    decide_eq_true_eq, Bool.decide_and]

theorem belowActiveCapSql_eq : db.belowActiveCapSql maxActiveJobs j = some (db.belowActiveCap maxActiveJobs j) := by
  unfold Db.belowActiveCapSql Db.belowActiveCap Truth.compare Db.countIn Db.policy
  simp only [Option.bind_some, Option.map_some, Truth.eq_some, Truth.and_some, Option.some.injEq]
  cases db.policies.lookup j.workspaceId with
  | none => simp
  | some policy => simp

/-- The conjunction is never unknown, and is what the scheduler admits by. -/
theorem claimAdmission_iff : db.claimAdmission now maxActiveJobs j = some true ↔ db.admissible now maxActiveJobs j = true := by
  unfold Db.claimAdmission Db.admissionConditions
  rw [Truth.conj_true_iff]
  simp [runAllowsWorkSql_eq, schedulableSql_eq, retryDueSql_eq, processingReadySql_eq, cooledSql_eq, belowActiveCapSql_eq,
    Db.admissible, and_assoc]

theorem admissionConditions_known : ∀ c ∈ db.admissionConditions now maxActiveJobs j, c.2.isSome := by
  unfold Db.admissionConditions
  simp [runAllowsWorkSql_eq, schedulableSql_eq, retryDueSql_eq, processingReadySql_eq, cooledSql_eq, belowActiveCapSql_eq]

/-! ## What a job is counted as -/

theorem waitingReason_eligible_iff :
    db.waitingReason now maxActiveJobs j = .eligible ↔ db.claimAdmission now maxActiveJobs j = some true := by
  unfold Db.claimAdmission
  rw [← Truth.firstFailing_none_iff (admissionConditions_known db now maxActiveJobs j)]
  unfold Db.waitingReason
  cases hfirst : Truth.firstFailing (db.admissionConditions now maxActiveJobs j) with
  | none => simp
  | some label =>
    have hmem := Truth.firstFailing_mem hfirst
    simp only [Db.admissionConditions, List.map_cons, List.map_nil, List.mem_cons, List.not_mem_nil, or_false] at hmem
    simp only [Option.getD_some, reduceCtorEq, iff_false]
    rintro rfl
    simp at hmem

theorem waitingReason_mem : db.waitingReason now maxActiveJobs j ∈ Status.eligible :: waitingReasons := by
  unfold Db.waitingReason
  cases hfirst : Truth.firstFailing (db.admissionConditions now maxActiveJobs j) with
  | none => exact List.mem_cons_self
  | some label =>
    have hmem := Truth.firstFailing_mem hfirst
    simp only [Db.admissionConditions, List.map_cons, List.map_nil, List.mem_cons, List.not_mem_nil, or_false] at hmem
    rw [Option.getD_some]
    obtain rfl | rfl | rfl | rfl | rfl | rfl := hmem <;> decide

theorem status_eligible_iff (hj : j.state ≠ .inProgress) :
    db.status now maxActiveJobs j = .eligible ↔ db.claimAdmission now maxActiveJobs j = some true := by
  rw [← waitingReason_eligible_iff]
  unfold Db.status
  dsimp only
  rw [if_neg hj]
  split
  · next hbudget =>
    rw [Truth.and_true_iff, Truth.eq_true_iff, Option.some.injEq] at hbudget
    rw [hbudget.1]
    simp
  · rfl

theorem status_active_iff : db.status now maxActiveJobs j = .active ↔ j.state = .inProgress := by
  unfold Db.status
  dsimp only
  by_cases hj : j.state = .inProgress
  · rw [if_pos hj, if_neg (by rw [Truth.and_true_iff, Truth.eq_true_iff]; simp)]
    simp [hj]
  · rw [if_neg hj]
    have hne : db.waitingReason now maxActiveJobs j ≠ .active := by
      intro h
      have := waitingReason_mem db now maxActiveJobs j
      rw [h] at this
      exact absurd this (by decide)
    split
    · simp [hj]
    · simp [hj, hne]

theorem status_mem : db.status now maxActiveJobs j ∈ Status.active :: .eligible :: waitingReasons := by
  have hadmission : (if j.state = .inProgress then Status.active else db.waitingReason now maxActiveJobs j) ∈
      Status.active :: .eligible :: waitingReasons := by
    split
    · exact List.mem_cons_self
    · exact List.mem_cons_of_mem _ (waitingReason_mem db now maxActiveJobs j)
  unfold Db.status
  dsimp only
  generalize (if j.state = .inProgress then Status.active else db.waitingReason now maxActiveJobs j) = admission
    at hadmission ⊢
  split
  · decide
  · exact hadmission

/-! ## The counts -/

/-- The jobs of the groups whose key meets a condition. -/
def total (gs : List Group) (p : GroupKey → Bool) : Nat := ((gs.filter fun g => p g.key).map Group.count).sum

theorem total_concat (gs : List Group) (g : Group) (p : GroupKey → Bool) :
    total (gs ++ [g]) p = total gs p + if p g.key then g.count else 0 := by
  unfold total
  rw [List.filter_append, List.map_append, List.sum_append]
  by_cases hp : p g.key = true <;> simp [hp]

theorem total_perm {gs hs : List Group} (h : gs.Perm hs) (p : GroupKey → Bool) : total gs p = total hs p :=
  ((h.filter _).map _).sum_eq

theorem total_groups (p : GroupKey → Bool) :
    total (db.groups now maxActiveJobs) p = db.liveJobs.countP fun j => p (db.groupKey now maxActiveJobs j) := by
  have hcount := List.sum_map_count_dedup_filter_eq_countP p (db.liveJobs.map (db.groupKey now maxActiveJobs))
  rw [List.countP_map] at hcount
  rw [show (fun j => p (db.groupKey now maxActiveJobs j)) = p ∘ db.groupKey now maxActiveJobs from rfl, ← hcount]
  unfold total Db.groups
  dsimp only
  rw [List.filter_map, List.map_map]
  rfl

/-- A snapshot of the rows so far. -/
structure Counts (gs : List Group) (snap : Snapshot) : Prop where
  pending : ∀ st, (snap st).pendingJobs = total gs fun k => decide (k.stage = st) && decide (k.state = .pending)
  blocked : ∀ st, (snap st).blockedJobs = total gs fun k => decide (k.stage = st) && decide (k.state = .blocked)
  active : ∀ st, (snap st).activeJobs = total gs fun k => decide (k.stage = st) && decide (k.status = .active)
  eligible : ∀ st, (snap st).eligibleJobs = total gs fun k => decide (k.stage = st) && decide (k.status = .eligible)
  waiting : ∀ st, (snap st).waiting =
    waitingReasons.map fun r => (r, total gs fun k => decide (k.stage = st) && decide (k.status = r))

theorem bump_eq {f : Status → Nat} {status : Status} (h : status ∈ waitingReasons) (count : Nat) :
    bump (waitingReasons.map fun r => (r, f r)) status count =
      .ok (waitingReasons.map fun r => (r, f r + if status = r then count else 0)) := by
  unfold bump
  have hany : ((waitingReasons.map fun r => (r, f r)).any fun e => decide (e.1 = status)) = true :=
    List.any_eq_true.mpr ⟨(status, f status), List.mem_map_of_mem h, decide_eq_true rfl⟩
  rw [if_pos hany, List.map_map]
  congr 1
  refine List.map_congr_left fun r _ => ?_
  dsimp only [Function.comp]
  by_cases hr : r = status
  · rw [if_pos hr, if_pos hr.symm]
  · rw [if_neg hr, if_neg (Ne.symm hr), Nat.add_zero]

/-- What the state of a row adds to its stage. -/
theorem addState_spec (m : StageMetrics) (g : Group) :
    (m.addState g).pendingJobs = m.pendingJobs + (if g.key.state = .pending then g.count else 0) ∧
      (m.addState g).blockedJobs = m.blockedJobs + (if g.key.state = .blocked then g.count else 0) ∧
      (m.addState g).activeJobs = m.activeJobs ∧ (m.addState g).eligibleJobs = m.eligibleJobs ∧
      (m.addState g).waiting = m.waiting := by
  unfold StageMetrics.addState
  cases g.key.state <;> exact ⟨rfl, rfl, rfl, rfl, rfl⟩

/-- What its status adds. -/
theorem addStatus_spec {m : StageMetrics} {g : Group} {f : Status → Nat}
    (hm : m.waiting = waitingReasons.map fun r => (r, f r)) : ∃ m', m.addStatus now g = .ok m' ∧
      m'.pendingJobs = m.pendingJobs ∧ m'.blockedJobs = m.blockedJobs ∧
      m'.activeJobs = m.activeJobs + (if g.key.status = .active then g.count else 0) ∧
      m'.eligibleJobs = m.eligibleJobs + (if g.key.status = .eligible then g.count else 0) ∧
      m'.waiting = waitingReasons.map fun r => (r, f r + if g.key.status = r then g.count else 0) := by
  unfold StageMetrics.addStatus
  cases hs : g.key.status with
  | active => exact ⟨_, rfl, rfl, rfl, rfl, rfl, hm⟩
  | eligible => exact ⟨_, rfl, rfl, rfl, rfl, rfl, hm⟩
  | _ =>
    have hwaiting : g.key.status ∈ waitingReasons := by
      rw [hs]
      decide
    have hbump := bump_eq (f := f) hwaiting g.count
    rw [← hm, hs] at hbump
    dsimp only
    rw [hbump]
    exact ⟨_, rfl, rfl, rfl, rfl, rfl, rfl⟩

variable {db now maxActiveJobs}

theorem counts_step {gs : List Group} {snap : Snapshot} (h : Counts gs snap) (g : Group) :
    ∃ snap', snap.add now g = .ok snap' ∧ Counts (gs ++ [g]) snap' := by
  obtain ⟨hpending', hblocked', hactive', heligible', hwaiting'⟩ := addState_spec (snap g.key.stage) g
  obtain ⟨m', hadd, hpending, hblocked, hactive, heligible, hwaiting⟩ :=
    addStatus_spec now (f := fun r => total gs fun k => decide (k.stage = g.key.stage) && decide (k.status = r))
      (hwaiting'.trans (h.waiting g.key.stage))
  refine ⟨Function.update snap g.key.stage m', ?_, ?_⟩
  · unfold Snapshot.add StageMetrics.add
    rw [hadd]
    rfl
  · -- The row adds to its own stage, and to no other.
    have hother : ∀ st, st ≠ g.key.stage → ∀ p : GroupKey → Bool,
        total (gs ++ [g]) (fun k => decide (k.stage = st) && p k) = total gs fun k => decide (k.stage = st) && p k := by
      intro st hst p
      rw [total_concat, if_neg (by simp [Ne.symm hst]), Nat.add_zero]
    have hown : ∀ p : GroupKey → Bool, total (gs ++ [g]) (fun k => decide (k.stage = g.key.stage) && p k) =
        (total gs fun k => decide (k.stage = g.key.stage) && p k) + if p g.key then g.count else 0 := by
      intro p
      rw [total_concat, decide_eq_true rfl, Bool.true_and]
    refine ⟨fun st => ?_, fun st => ?_, fun st => ?_, fun st => ?_, fun st => ?_⟩ <;> by_cases hst : st = g.key.stage
    · subst hst
      rw [Function.update_self, hpending, hpending', hown, h.pending]
      simp
    · rw [Function.update_of_ne hst, hother st hst, h.pending]
    · subst hst
      rw [Function.update_self, hblocked, hblocked', hown, h.blocked]
      simp
    · rw [Function.update_of_ne hst, hother st hst, h.blocked]
    · subst hst
      rw [Function.update_self, hactive, hactive', hown, h.active]
      simp
    · rw [Function.update_of_ne hst, hother st hst, h.active]
    · subst hst
      rw [Function.update_self, heligible, heligible', hown, h.eligible]
      simp
    · rw [Function.update_of_ne hst, hother st hst, h.eligible]
    · subst hst
      rw [Function.update_self, hwaiting]
      refine List.map_congr_left fun r _ => ?_
      rw [hown]
      simp
    · rw [Function.update_of_ne hst, h.waiting]
      refine List.map_congr_left fun r _ => ?_
      rw [hother st hst]

theorem counts_run {gs : List Group} {snap : Snapshot} (h : Counts gs snap) (rest : List Group) :
    ∃ snap', rest.foldlM (Snapshot.add now) snap = .ok snap' ∧ Counts (gs ++ rest) snap' := by
  induction rest generalizing gs snap with
  | nil =>
    refine ⟨snap, rfl, ?_⟩
    rw [List.append_nil]
    exact h
  | cons g rest ih =>
    obtain ⟨snap₁, hadd, hcounts⟩ := counts_step h g
    obtain ⟨snap', hrun, hall⟩ := ih hcounts
    refine ⟨snap', ?_, ?_⟩
    · rw [List.foldlM_cons, hadd]
      exact hrun
    · rw [← List.append_cons] at hall
      exact hall

/-- Counts that agree element by element. -/
theorem countP_add_countP {α : Type} {p q r s : α → Bool} {xs : List α}
    (h : ∀ x ∈ xs, (if p x then 1 else 0) + (if q x then 1 else 0) = (if r x then 1 else 0) + (if s x then 1 else 0)) :
    xs.countP p + xs.countP q = xs.countP r + xs.countP s := by
  induction xs with
  | nil => rfl
  | cons x xs ih =>
    have hx := h x List.mem_cons_self
    have hxs := ih fun y hy => h y (List.mem_cons_of_mem _ hy)
    simp only [List.countP_cons]
    omega

/-- The reasons are distinct, so a job waits for one of them. -/
theorem sum_waiting {α : Type} (q : α → Bool) (f : α → Status) (xs : List α) :
    (waitingReasons.map fun r => xs.countP fun x => q x && decide (f x = r)).sum =
      xs.countP fun x => q x && decide (f x ∈ waitingReasons) := by
  induction xs with
  | nil => rfl
  | cons x xs ih =>
    have hone : (waitingReasons.map fun r => if (q x && decide (f x = r)) = true then 1 else 0).sum =
        if (q x && decide (f x ∈ waitingReasons)) = true then 1 else 0 := by
      cases q x <;> cases f x <;> rfl
    simp only [List.countP_cons]
    rw [List.sum_map_add, ih, hone]

/-- A live job that is not in progress is eligible exactly when the scheduler's conjunction is true; every live job is counted
once, as active, eligible or waiting for one reason of the table; and the counts of a stage add up. -/
theorem metrics_agree (db : Db) {now : Int} (hnow : 0 ≤ now) (maxActiveJobs : Nat) {rows : List Group}
    (hrows : rows.Perm (db.groups now maxActiveJobs)) : ∃ snap, operationalSnapshot now rows = .ok snap ∧
    (∀ j ∈ db.liveJobs, j.state ≠ .inProgress →
      (db.status now maxActiveJobs j = .eligible ↔ db.claimAdmission now maxActiveJobs j = some true)) ∧
    (∀ j ∈ db.liveJobs, (db.status now maxActiveJobs j = .active ↔ j.state = .inProgress) ∧
      db.status now maxActiveJobs j ∈ Status.active :: .eligible :: waitingReasons) ∧
    (Status.active :: .eligible :: waitingReasons).Nodup ∧
    ∀ st : JobStage,
      (snap st).activeJobs = (db.liveJobs.countP fun j => decide (j.stage = st) && decide (j.state = .inProgress)) ∧
      (snap st).eligibleJobs = (db.liveJobs.countP fun j => decide (j.stage = st) && (decide (j.state ≠ .inProgress) &&
        decide (db.claimAdmission now maxActiveJobs j = some true))) ∧
      (snap st).waiting = (waitingReasons.map fun r =>
        (r, db.liveJobs.countP fun j => decide (j.stage = st) && decide (db.status now maxActiveJobs j = r))) ∧
      (snap st).pendingJobs = (db.liveJobs.countP fun j => decide (j.stage = st) && decide (j.state = .pending)) ∧
      (snap st).blockedJobs = (db.liveJobs.countP fun j => decide (j.stage = st) && decide (j.state = .blocked)) ∧
      (snap st).pendingJobs + (snap st).blockedJobs = (snap st).eligibleJobs + ((snap st).waiting.map Prod.snd).sum ∧
      (db.liveJobs.countP fun j => decide (j.stage = st)) =
        (snap st).activeJobs + ((snap st).eligibleJobs + ((snap st).waiting.map Prod.snd).sum) := by
  have hempty : Counts [] fun _ => StageMetrics.empty :=
    ⟨fun _ => rfl, fun _ => rfl, fun _ => rfl, fun _ => rfl, fun _ => rfl⟩
  obtain ⟨snap, hrun, hcounts⟩ : ∃ snap, rows.foldlM (Snapshot.add now) (fun _ => StageMetrics.empty) = .ok snap ∧
      Counts ([] ++ rows) snap := counts_run hempty rows
  rw [List.nil_append] at hcounts
  have hlive : ∀ j ∈ db.liveJobs, j.state = .pending ∨ j.state = .blocked ∨ j.state = .inProgress := by
    intro j hj
    simpa using of_decide_eq_true (List.mem_filter.mp hj).2
  have htotal : ∀ p : GroupKey → Bool, total rows p = db.liveJobs.countP fun j => p (db.groupKey now maxActiveJobs j) :=
    fun p => (total_perm hrows p).trans (total_groups db now maxActiveJobs p)
  refine ⟨snap, ?_, fun j _ hj => status_eligible_iff db now maxActiveJobs j hj,
    fun j _ => ⟨status_active_iff db now maxActiveJobs j, status_mem db now maxActiveJobs j⟩, by decide, fun st => ?_⟩
  · unfold operationalSnapshot
    rw [if_neg (by omega)]
    exact hrun
  have hactive : (snap st).activeJobs =
      db.liveJobs.countP fun j => decide (j.stage = st) && decide (j.state = .inProgress) := by
    rw [hcounts.active, htotal]
    refine List.countP_congr fun j _ => ?_
    show (decide (j.stage = st) && decide (db.status now maxActiveJobs j = .active)) = true ↔ _
    simp only [Bool.and_eq_true, decide_eq_true_eq, status_active_iff]
  have heligible : (snap st).eligibleJobs =
      db.liveJobs.countP fun j => decide (j.stage = st) && decide (db.status now maxActiveJobs j = .eligible) := by
    rw [hcounts.eligible, htotal]
    rfl
  have hsum : ((snap st).waiting.map Prod.snd).sum =
      db.liveJobs.countP fun j => decide (j.stage = st) && decide (db.status now maxActiveJobs j ∈ waitingReasons) := by
    rw [hcounts.waiting, List.map_map, ← sum_waiting]
    congr 1
    refine List.map_congr_left fun r _ => ?_
    dsimp only [Function.comp]
    rw [htotal]
    rfl
  have hpending : (snap st).pendingJobs =
      db.liveJobs.countP fun j => decide (j.stage = st) && decide (j.state = .pending) := by
    rw [hcounts.pending, htotal]
    rfl
  have hblocked : (snap st).blockedJobs =
      db.liveJobs.countP fun j => decide (j.stage = st) && decide (j.state = .blocked) := by
    rw [hcounts.blocked, htotal]
    rfl
  -- A job that waits or is eligible is not in progress, and no other job is.
  have hsplit : ∀ j ∈ db.liveJobs, (j.state = .inProgress ∧ db.status now maxActiveJobs j = .active) ∨
      (j.state ≠ .inProgress ∧ (j.state = .pending ∨ j.state = .blocked) ∧
        (db.status now maxActiveJobs j = .eligible ∨ db.status now maxActiveJobs j ∈ waitingReasons)) := by
    intro j hj
    by_cases hp : j.state = .inProgress
    · exact Or.inl ⟨hp, (status_active_iff db now maxActiveJobs j).mpr hp⟩
    · refine Or.inr ⟨hp, ?_, ?_⟩
      · obtain h | h | h := hlive j hj
        · exact Or.inl h
        · exact Or.inr h
        · exact absurd h hp
      · obtain h | h := List.mem_cons.mp (status_mem db now maxActiveJobs j)
        · exact absurd ((status_active_iff db now maxActiveJobs j).mp h) hp
        · exact List.mem_cons.mp h
  have hneligible : Status.eligible ∉ waitingReasons := by decide
  have hnactive : Status.active ∉ waitingReasons := by decide
  have hadd : (snap st).pendingJobs + (snap st).blockedJobs =
      (snap st).eligibleJobs + ((snap st).waiting.map Prod.snd).sum := by
    rw [hpending, hblocked, heligible, hsum]
    refine countP_add_countP fun j hj => ?_
    obtain ⟨hp, hs⟩ | ⟨hp, hstate, hs⟩ := hsplit j hj
    · simp [hp, hs, hnactive]
    · have hone : (if (decide (j.stage = st) && decide (db.status now maxActiveJobs j = .eligible)) = true then 1 else 0) +
          (if (decide (j.stage = st) && decide (db.status now maxActiveJobs j ∈ waitingReasons)) = true then 1 else 0) =
          if j.stage = st then 1 else 0 := by
        obtain hs | hs := hs
        · simp [hs, hneligible]
        · have hne : db.status now maxActiveJobs j ≠ .eligible := fun h => hneligible (h ▸ hs)
          simp [hs, hne]
      rw [hone]
      obtain hstate | hstate := hstate <;> simp [hstate]
  refine ⟨hactive, ?_, ?_, hpending, hblocked, ?_, ?_⟩
  · rw [heligible]
    refine List.countP_congr fun j hj => ?_
    obtain ⟨hp, hs⟩ | ⟨hp, _, _⟩ := hsplit j hj
    · simp [hp, hs]
    · simp [hp, status_eligible_iff db now maxActiveJobs j hp]
  · rw [hcounts.waiting]
    refine List.map_congr_left fun r _ => ?_
    rw [htotal]
    rfl
  · exact hadd
  · rw [← hadd, hactive, hpending, hblocked]
    have hrest : (db.liveJobs.countP fun j => decide (j.stage = st)) + db.liveJobs.countP (fun _ => false) =
        (db.liveJobs.countP fun j => decide (j.stage = st) && decide (j.state = .inProgress)) +
          db.liveJobs.countP fun j => decide (j.stage = st) && decide (j.state ≠ .inProgress) := by
      refine countP_add_countP fun j _ => ?_
      by_cases hp : j.state = .inProgress <;> simp [hp]
    have hwait : (db.liveJobs.countP fun j => decide (j.stage = st) && decide (j.state ≠ .inProgress)) +
        db.liveJobs.countP (fun _ => false) =
        (db.liveJobs.countP fun j => decide (j.stage = st) && decide (j.state = .pending)) +
          db.liveJobs.countP fun j => decide (j.stage = st) && decide (j.state = .blocked) := by
      refine countP_add_countP fun j hj => ?_
      obtain h | h | h := hlive j hj <;> simp [h]
    simp only [List.countP_false, Function.const_apply, Nat.add_zero] at hrest hwait
    rw [hrest, hwait]

/-! ## A table -/

/-- A job without provider, run, parent or reason, and one that a budget has paused. -/
def sampleJob (id : Nat) (kind : JobKind) (provider : Option String) (state : JobState) (reason : Option String) : Job where
  id := id
  crawlRunId := none
  parentJobId := none
  provider := provider
  kind := kind
  target := .name "t"
  params := []
  state := state
  priority := 100
  depth := 0
  attempts := 0
  dedupKey := ⟨provider, kind, .name "t", [], none⟩
  workspaceId := "local"
  workBudgetId := none
  enqueuedAt := 90
  startedAt := none
  doneAt := none
  reason := reason
  retryCount := 0
  nextAttemptAt := none
  ownershipToken := none
  ownershipGeneration := 0

def sampleDb : Db :=
  ⟨[sampleJob 1 .prepareExport none .pending none, sampleJob 2 .fetchUserProfile (some "lichess") .blocked none,
    sampleJob 3 .fetchUserProfile (some "lichess") .blocked (some "budget_exhausted: games")], 3, [], 0, [], [], []⟩

theorem metrics_agree_sample : ∃ snap, operationalSnapshot 100 (sampleDb.groups 100 2) = .ok snap ∧
    ((snap .processing).eligibleJobs, (snap .acquisition).blockedJobs) = (1, 2) ∧
    (snap .acquisition).pendingJobs + (snap .acquisition).blockedJobs =
      (snap .acquisition).eligibleJobs + ((snap .acquisition).waiting.map Prod.snd).sum := by
  obtain ⟨snap, hsnap, _, _, _, hcounts⟩ := metrics_agree sampleDb (show (0 : Int) ≤ 100 by decide) 2 (List.Perm.refl _)
  obtain ⟨_, _, _, _, hblocked, hadd, _⟩ := hcounts .acquisition
  obtain ⟨_, heligible, _⟩ := hcounts .processing
  refine ⟨snap, hsnap, ?_, hadd⟩
  rw [heligible, hblocked]
  decide +kernel

end ChessCrawl.Jobs
