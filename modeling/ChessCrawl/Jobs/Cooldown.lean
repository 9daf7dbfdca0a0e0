import ChessCrawl.Jobs.Scheduler
import ChessCrawl.Lib.Upsert

/-! The cooldowns of providers: `defer_provider` and its callers around the scheduler. A deadline is submitted when the
transaction of its `defer_provider` commits; a call of `claim_next_job` reads the cooldowns with its candidates. -/
namespace ChessCrawl.Jobs
open ChessCrawl.Lib
set_option autoImplicit false

/-! ## Deadlines -/

/-- The deadline that `finish_attempt` submits. -/
def deadlineFor (w : WorkerSettings) (j : Job) (o : Outcome) (now : Int) : Option (String × Int) :=
  match j.provider with
  | some provider => if o.transient && !j.kind.processing then some (provider, now + w.delay j.retryCount o) else none
  | none => none

/-- The deadlines that an event of the scheduler submits. -/
def Scheduler.submits (w : WorkerSettings) (s : Scheduler) : SchedulerEvent → List (String × Int)
  | .world (.finish worker o now) =>
    (((s.world.attempts worker).bind fun a => s.world.db.job a.job.id).bind fun j => deadlineFor w j o now).toList
  | _ => []

/-- A worker in `_before_provider_request`: the deadline that its transaction has read, with all that had been submitted
by then, and the clock that it has read since. -/
structure Wait where
  provider : String
  ready : Option Int
  seen : List (String × Int)
  clock : Option Int

/-- `submitted` are the deadlines of all `defer_provider` calls that have committed, and `seen` those that had when the
candidates were last read. -/
structure Paced where
  sched : Scheduler
  submitted : List (String × Int)
  seen : List (String × Int)
  waits : Nat → Option Wait

inductive PacedEvent
  | sched (ev : SchedulerEvent)
  | persist (worker : Nat) (provider : String) (deadline timestamp minDelay : Int)
  | response (worker : Nat) (provider : String) (responseAt retryAfter : Int)
  | setPolicy (provider : String) (timestamp minDelay : Int)
  | readReady (worker : Nat) (provider : String)
  | readClock (worker : Nat) (clock : Int)
  | request (worker : Nat)
  | stopRequest (worker : Nat)

def Scheduler.withCooldowns (s : Scheduler) (cooldowns : List (String × Int)) : Scheduler :=
  { s with world := s.world.withDb { s.world.db with cooldowns := cooldowns } }

/-- `defer_provider` in a transaction of its own. -/
def Paced.defer (p : Paced) (provider : String) (notBefore : Int) : Paced :=
  { p with
    sched := p.sched.withCooldowns (deferProvider p.sched.world.db.cooldowns provider notBefore)
    submitted := p.submitted ++ [(provider, notBefore)] }

/-- The worker's transactions pass its fence. -/
def Paced.owns (p : Paced) (worker : Nat) : Bool :=
  (p.sched.world.attempts worker).any fun a => p.sched.world.db.fenced a.job.id a.token

/-- `provider_ready_at` -/
def Paced.readyAt (p : Paced) (provider : String) : Option Int := p.sched.world.db.cooldowns.lookup provider

def Paced.setWait (p : Paced) (worker : Nat) (x : Option Wait) : Paced :=
  { p with waits := Function.update p.waits worker x }

/-- `delay <= 0`, once the clock has been read. -/
def Wait.passed (x : Wait) : Option Bool := x.clock.map fun clock => decide (x.ready.getD 0 ≤ clock)

def SchedulerEvent.isQuery : SchedulerEvent → Bool
  | .query => true
  | _ => false

section Steps
variable (T : Text) (w : WorkerSettings)

/-- `persist` is `_persist_provider_deadline`, `response` the commit of a 429 or 503 response, and `setPolicy` an update of
the provider's policy. A round of `_before_provider_request` reads the deadline, then the clock, and either leaves for the
`request` or sleeps and starts anew; a stop ends it anywhere. -/
def Paced.step (p : Paced) : PacedEvent → Option Paced
  | .sched ev => (p.sched.step T w ev).map fun t =>
    ⟨t, p.submitted ++ p.sched.submits w ev, if ev.isQuery then p.submitted else p.seen, p.waits⟩
  | .persist worker provider deadline timestamp minDelay =>
    if p.owns worker then some (p.defer provider (max deadline (timestamp + minDelay))) else none
  | .response worker provider responseAt retryAfter =>
    if p.owns worker then some (p.defer provider (responseAt + retryAfter)) else none
  | .setPolicy provider timestamp minDelay => some (p.defer provider (timestamp + minDelay))
  | .readReady worker provider =>
    if p.owns worker ∧ (p.waits worker).all (fun x => x.passed = some false) then
      some (p.setWait worker (some ⟨provider, p.readyAt provider, p.submitted, none⟩))
    else none
  | .readClock worker clock => (p.waits worker).bind fun x =>
    if x.clock = none then some (p.setWait worker (some { x with clock := some clock })) else none
  | .request worker => (p.waits worker).bind fun x =>
    if x.passed = some true then some (p.setWait worker none) else none
  | .stopRequest worker => some (p.setWait worker none)

/-- The scheduler with everything that defers a provider. -/
def paced : System Paced PacedEvent where
  init p := (scheduler T w).init p.sched ∧ p.sched.world.db.cooldowns = [] ∧ p.submitted = [] ∧ p.seen = [] ∧
    ∀ worker, p.waits worker = none
  step := Paced.step T w

end Steps

/-- The deadlines that have been submitted for a provider. -/
def Paced.deadlines (p : Paced) (provider : String) : List Int :=
  (p.submitted.filter fun d => decide (d.1 = provider)).map Prod.snd

/-- Those that had been when the candidates were read. -/
def Paced.seenDeadlines (p : Paced) (provider : String) : List Int :=
  (p.seen.filter fun d => decide (d.1 = provider)).map Prod.snd

/-- Those that had been when a wait read its deadline. -/
def Wait.deadlines (x : Wait) : List Int := (x.seen.filter fun d => decide (d.1 = x.provider)).map Prod.snd

/-- The call and the candidate of a claim. -/
def Scheduler.claims (s : Scheduler) : SchedulerEvent → Option (ClaimCall × Candidate)
  | .attempt _ => s.call.bind fun c =>
    match c.window with
    | some (x :: _) => if s.locks.tries c x = .taken then some (c, x) else none
    | _ => none
  | _ => none

/-! ## The table -/

theorem deferProvider_eq (cooldowns : List (String × Int)) (provider : String) (notBefore : Int) :
    deferProvider cooldowns provider notBefore =
      upsert Prod.fst (fun c d => (d.1, max c.2 d.2)) cooldowns (provider, notBefore) := rfl

/-- The table has the latest of the submitted deadlines for each provider. -/
structure Recorded (cooldowns submitted : List (String × Int)) : Prop where
  keys : (cooldowns.map Prod.fst).Nodup
  attained : ∀ c ∈ cooldowns, c ∈ submitted
  bounds : ∀ d ∈ submitted, ∃ c ∈ cooldowns, c.1 = d.1 ∧ d.2 ≤ c.2

theorem Recorded.defer {cooldowns submitted : List (String × Int)} (h : Recorded cooldowns submitted) (provider : String)
    (notBefore : Int) : Recorded (deferProvider cooldowns provider notBefore) (submitted ++ [(provider, notBefore)]) := by
  rw [deferProvider_eq]
  refine ⟨upsert_keys_nodup (fun _ _ => rfl) h.keys, fun c hc => ?_, fun d hd => ?_⟩
  · obtain hold | rfl | ⟨old, hold, hk, rfl⟩ := upsert_mem hc
    · exact List.mem_append_left _ (h.attained c hold)
    · exact List.mem_append_right _ (List.mem_singleton.mpr rfl)
    · -- The greater of the two is the old deadline or the new one.
      obtain ⟨p, d⟩ := old
      have hk : p = provider := hk
      subst hk
      show (p, max d notBefore) ∈ _
      by_cases hle : d ≤ notBefore
      · rw [max_eq_right hle]
        exact List.mem_append_right _ (List.mem_singleton.mpr rfl)
      · rw [max_eq_left (by omega)]
        exact List.mem_append_left _ (h.attained _ hold)
  · have hnew : ∃ c ∈ upsert Prod.fst (fun c d : String × Int => (d.1, max c.2 d.2)) cooldowns (provider, notBefore),
        c.1 = provider ∧ notBefore ≤ c.2 ∧ ∀ old ∈ cooldowns, old.1 = provider → old.2 ≤ c.2 := by
      unfold upsert
      split
      · next hany =>
        obtain ⟨old, hold, hk⟩ := List.any_eq_true.mp hany
        have hk := of_decide_eq_true hk
        refine ⟨(provider, max old.2 notBefore), List.mem_map.mpr ⟨old, hold, if_pos hk⟩, rfl, le_max_right _ _, ?_⟩
        intro other hother hko
        have : other = old := List.inj_on_of_nodup_map h.keys hother hold (hko.trans hk.symm)
        rw [this]
        exact le_max_left _ _
      · next hnone =>
        refine ⟨(provider, notBefore), List.mem_append_right _ (List.mem_singleton.mpr rfl), rfl, le_refl _, ?_⟩
        intro other hother hko
        exact absurd (List.any_eq_true.mpr ⟨other, hother, decide_eq_true hko⟩) hnone
    obtain ⟨c, hc, hcp, hle, hbound⟩ := hnew
    obtain hd | hd := List.mem_append.mp hd
    · obtain ⟨old, hold, hk, hdo⟩ := h.bounds d hd
      by_cases hp : d.1 = provider
      · exact ⟨c, hc, hcp.trans hp.symm, le_trans hdo (hbound old hold (hk.trans hp))⟩
      · refine ⟨old, (upsert_other ?_ fun _ _ => rfl).mpr hold, hk, hdo⟩
        rw [hk]
        exact hp
    · rw [List.mem_singleton] at hd
      subst hd
      exact ⟨c, hc, hcp, hle⟩

theorem Recorded.lookup {cooldowns submitted : List (String × Int)} (h : Recorded cooldowns submitted) (provider : String) :
    cooldowns.lookup provider = ((submitted.filter fun d => decide (d.1 = provider)).map Prod.snd).max? := by
  cases hl : cooldowns.lookup provider with
  | none =>
    have hnone : (submitted.filter fun d => decide (d.1 = provider)) = [] := by
      refine List.filter_eq_nil_iff.mpr fun d hd hp => ?_
      obtain ⟨c, hc, hk, _⟩ := h.bounds d hd
      have hne := bne_iff_ne.mp (List.lookup_eq_none_iff.mp hl c hc)
      exact hne (hk.trans (of_decide_eq_true hp)).symm
    rw [hnone]
    rfl
  | some m =>
    obtain ⟨front, back, hsplit, _⟩ := List.lookup_eq_some_iff.mp hl
    have hmem : (provider, m) ∈ cooldowns := by
      rw [hsplit]
      exact List.mem_append_right _ List.mem_cons_self
    symm
    refine List.max?_eq_some_iff.mpr ⟨?_, fun d hd => ?_⟩
    · exact List.mem_map.mpr ⟨(provider, m), List.mem_filter.mpr ⟨h.attained _ hmem, decide_eq_true rfl⟩, rfl⟩
    · obtain ⟨e, he, rfl⟩ := List.mem_map.mp hd
      obtain ⟨he, hp⟩ := List.mem_filter.mp he
      obtain ⟨c, hc, hk, hle⟩ := h.bounds e he
      have hcm : c = (provider, m) :=
        List.inj_on_of_nodup_map h.keys hc hmem (hk.trans (of_decide_eq_true hp))
      rw [hcm] at hle
      exact hle

/-! ## Steps -/

variable {T : Text} {w : WorkerSettings}

theorem enqueueJob_cooldowns {db db' : Db} {e : Enqueue} {r : EnqueueResult} (h : db.enqueueJob T e = .ok (r, db')) :
    db'.cooldowns = db.cooldowns := by
  obtain ⟨rfl, _⟩ | ⟨_, _, _, rfl⟩ := enqueueJob_cases h
  · rfl
  · rfl

theorem refreshRunStatus_cooldowns (db : Db) (runId : Nat) (now : Int) :
    (db.refreshRunStatus runId now).cooldowns = db.cooldowns := by
  unfold Db.refreshRunStatus
  split
  · rfl
  · split <;> rfl

theorem promoteCrawlDepth_cooldowns {db db' : Db} {runId depth : Nat} {provider username : String} {r : Race} {now : Int}
    (h : db.promoteCrawlDepth T runId provider username depth r now = .ok db') : db'.cooldowns = db.cooldowns := by
  unfold Db.promoteCrawlDepth at h
  dsimp only at h
  refine foldlM_keeps (I := fun d => d.cooldowns = db.cooldowns) (fun parent _ db₁ db₂ hI hstep => ?_) h rfl
  obtain ⟨res, hres⟩ := map_snd_ok hstep
  unfold Db.enqueueOpponentExpansion Db.enqueueExpansionAt at hres
  split at hres
  · cases hres
  · exact (enqueueJob_cooldowns hres).trans hI

theorem expandOpponentFrontier_cooldowns {db db' : Db} {parent : Job} {depth : Nat} {edges : List String} {r : Race}
    {now : Int} (h : db.expandOpponentFrontier T parent depth edges r now = .ok db') : db'.cooldowns = db.cooldowns := by
  unfold Db.expandOpponentFrontier at h
  split at h
  · obtain ⟨b, _, h⟩ := bind_ok h
    split at h
    · cases h
      rfl
    · unfold Db.enqueueOpponentChildren at h
      obtain ⟨b', _, h⟩ := bind_ok h
      split at h
      · cases h
        rfl
      · refine foldlM_keeps (I := fun d => d.cooldowns = db.cooldowns) (fun username _ db₁ db₂ hI hstep => ?_) h rfl
        unfold Db.discover at hstep
        split at hstep
        · split at hstep
          · cases hstep
            exact hI
          · exact (promoteCrawlDepth_cooldowns hstep).trans hI
        · split at hstep
          · cases hstep
            exact hI
          · split at hstep
            · cases hstep
              exact hI
            · obtain ⟨res, hres⟩ := map_snd_ok hstep
              exact (enqueueJob_cooldowns hres).trans hI
  · cases h

theorem mergeDepth_cooldowns (db : Db) (j : Job) : (db.mergeDepth T j).cooldowns = db.cooldowns := by
  unfold Db.mergeDepth
  split
  · split <;> rfl
  · rfl

/-- A finish defers its provider by the deadline that it submits. -/
theorem finishAttempt_cooldowns {db db' : Db} {jobId : Nat} {o : Outcome} {now : Int}
    (h : db.finishAttempt T w jobId o now = .ok db') :
    ∃ j, db.job jobId = some j ∧ db'.cooldowns =
      match deadlineFor w j o now with
      | some d => deferProvider db.cooldowns d.1 d.2
      | none => db.cooldowns := by
  unfold Db.finishAttempt at h
  split at h
  · cases h
  · next j hj =>
    cases h
    refine ⟨j, hj, ?_⟩
    have hdefer : (db.deferFor w j o now).cooldowns = match deadlineFor w j o now with
        | some d => deferProvider db.cooldowns d.1 d.2
        | none => db.cooldowns := by
      unfold Db.deferFor deadlineFor
      cases j.provider with
      | none => rfl
      | some provider =>
        dsimp only
        split <;> rfl
    rw [← hdefer]
    split
    · rw [refreshRunStatus_cooldowns, mergeDepth_cooldowns]
      rfl
    · rw [mergeDepth_cooldowns]
      rfl

/-- Only a finish touches the cooldowns. -/
theorem step_cooldowns {s t : World} {ev : Event} (hne : ∀ worker o now, ev ≠ .finish worker o now)
    (h : s.step T w ev = some t) : t.db.cooldowns = s.db.cooldowns := by
  cases ev with
  | createRun provider params workspaceId =>
    obtain ⟨⟨runId, db⟩, hr, rfl⟩ := Option.map_eq_some_iff.mp h
    obtain ⟨_, rfl⟩ := createCrawlRun_ok (toOption_some hr)
    exact rfl
  | createOpponentCrawl provider username since stop b workspaceId now =>
    obtain ⟨⟨runId, db⟩, hr, rfl⟩ := Option.map_eq_some_iff.mp h
    obtain ⟨_, _, _, r, hjob⟩ := createOpponentCrawl_ok (toOption_some hr)
    exact (enqueueJob_cooldowns hjob).trans rfl
  | enqueue e =>
    obtain ⟨⟨r, db⟩, hr, rfl⟩ := Option.map_eq_some_iff.mp h
    exact (enqueueJob_cooldowns (toOption_some hr))
  | admitBudget runId b =>
    obtain ⟨db, hdb, rfl⟩ := Option.map_eq_some_iff.mp h
    unfold Db.admitRunBudget at hdb
    split at hdb
    · cases hdb
      exact rfl
    · cases hdb
  | cancel runId =>
    cases h
    exact rfl
  | claim worker jobId now maxActiveJobs token =>
    simp only [World.step] at h
    split at h
    · obtain ⟨⟨j, db⟩, hr, rfl⟩ := Option.map_eq_some_iff.mp h
      unfold Db.claim at hr
      obtain ⟨row, _, hr⟩ := Option.bind_eq_some_iff.mp hr
      split at hr
      · cases hr
        exact rfl
      · cases hr
    · cases h
  | capture worker rawPayloadId fetchLogId maxGames parserVersion now =>
    obtain ⟨a, db, _, hdb, rfl⟩ := World.fencedBy_some h
    obtain ⟨r, hr⟩ := map_snd_ok hdb
    exact (enqueueJob_cooldowns hr)
  | checkpoint worker key value =>
    obtain ⟨a, db, _, hdb, rfl⟩ := World.fencedBy_some h
    split at hdb
    · cases hdb
      exact rfl
    · cases hdb
  | readDepth worker =>
    obtain ⟨a, _, h⟩ := Option.bind_eq_some_iff.mp h
    obtain ⟨parent, _, rfl⟩ := Option.map_eq_some_iff.mp h
    exact rfl
  | expansion worker now =>
    obtain ⟨a, db, _, hdb, rfl⟩ := World.fencedBy_some h
    split at hdb
    · obtain ⟨r, hr⟩ := map_snd_ok hdb
      unfold Db.enqueueExpansionAt at hr
      split at hr
      · cases hr
      · exact (enqueueJob_cooldowns hr)
    · cases hdb
  | expand worker edges r now =>
    obtain ⟨a, db, _, hdb, rfl⟩ := World.fencedBy_some h
    split at hdb
    · split at hdb
      · exact (expandOpponentFrontier_cooldowns hdb)
      · cases hdb
    · cases hdb
  | finish worker o now =>
    exact absurd rfl (hne worker o now)
  | mark worker state reason now =>
    obtain ⟨a, db, _, hdb, rfl⟩ := World.fencedBy_some h
    cases hdb
    exact rfl
  | release worker =>
    cases h
    exact rfl
  | resumeStale crawlRunId staleSeconds now free =>
    cases h
    exact rfl
  | unblock crawlRunId now =>
    cases h
    exact rfl
  | resumeRunBudget runId workspaceId =>
    obtain ⟨db, hdb, rfl⟩ := Option.map_eq_some_iff.mp h
    have hdb := toOption_some hdb
    unfold Db.resumeRunBudget at hdb
    split at hdb
    · cases hdb
    · split at hdb
      · cases hdb
        exact rfl
      · cases hdb
  | refresh crawlRunId now =>
    cases h
    show (s.db.refreshCrawlRuns now crawlRunId).cooldowns = _
    unfold Db.refreshCrawlRuns
    cases crawlRunId with
    | some runId => exact refreshRunStatus_cooldowns _ _ _
    | none =>
      have hfold : ∀ (ids : List Nat) (db : Db),
          (ids.foldl (fun db runId => db.refreshRunStatus runId now) db).cooldowns = db.cooldowns := by
        intro ids
        induction ids with
        | nil => exact fun _ => rfl
        | cons id ids ih =>
          intro db
          rw [List.foldl_cons, ih, refreshRunStatus_cooldowns]
      exact hfold _ _

variable {s t : Scheduler} {ev : SchedulerEvent} {p q : Paced}

theorem scheduler_recorded {submitted : List (String × Int)} (h : Recorded s.world.db.cooldowns submitted)
    (hstep : s.step T w ev = some t) : Recorded t.world.db.cooldowns (submitted ++ s.submits w ev) := by
  have hsame : t.world.db.cooldowns = s.world.db.cooldowns → s.submits w ev = [] →
      Recorded t.world.db.cooldowns (submitted ++ s.submits w ev) := by
    intro heq hnone
    rw [heq, hnone, List.append_nil]
    exact h
  cases ev with
  | begin worker stage now maxActiveJobs =>
    simp only [Scheduler.step] at hstep
    split at hstep
    · cases hstep
      exact hsame rfl rfl
    · cases hstep
  | query =>
    obtain ⟨c, _, hstep⟩ := Option.bind_eq_some_iff.mp hstep
    split at hstep
    · cases hstep
    · split at hstep <;> cases hstep <;> exact hsame rfl rfl
  | attempt token =>
    obtain ⟨c, _, hstep⟩ := Option.bind_eq_some_iff.mp hstep
    split at hstep
    · split at hstep
      · cases hstep
        exact hsame rfl rfl
      · cases hstep
        exact hsame rfl rfl
      · split at hstep
        · obtain ⟨job, _, rfl⟩ := Option.map_eq_some_iff.mp hstep
          refine hsame ?_ rfl
          dsimp only
          split <;> rfl
        · cases hstep
    · cases hstep
  | exhausted =>
    obtain ⟨c, _, hstep⟩ := Option.bind_eq_some_iff.mp hstep
    split at hstep
    · split at hstep <;> cases hstep <;> exact hsame rfl rfl
    · cases hstep
  | world ev =>
    simp only [Scheduler.step] at hstep
    split at hstep
    · cases hstep
    · obtain ⟨v, hv, rfl⟩ := Option.map_eq_some_iff.mp hstep
      cases ev with
      | finish worker o now =>
        obtain ⟨a, db, howns, hdb, rfl⟩ := World.fencedBy_some hv
        obtain ⟨j, hj, hcooldowns⟩ := finishAttempt_cooldowns hdb
        have hsubmits : s.submits w (.world (.finish worker o now)) = (deadlineFor w j o now).toList := by
          unfold Scheduler.submits
          dsimp only
          rw [howns.1, Option.bind_some, hj]
          rfl
        rw [hsubmits]
        show Recorded db.cooldowns _
        rw [hcooldowns]
        cases deadlineFor w j o now with
        | none =>
          rw [Option.toList_none, List.append_nil]
          exact h
        | some d => exact h.defer d.1 d.2
      | _ =>
        refine hsame (step_cooldowns ?_ hv) rfl
        intro _ _ _ heq
        cases heq
  | locks l =>
    cases hstep
    exact hsame rfl rfl
  | policy policies =>
    cases hstep
    exact hsame rfl rfl

/-- A candidate that was read with the cooldowns is due by all deadlines of its provider. -/
theorem candidates_cooled {submitted : List (String × Int)} (h : Recorded s.world.db.cooldowns submitted) {c : ClaimCall}
    {j : Job} (hj : j ∈ s.candidates c) (hkind : j.kind.processing = false) :
    ∃ provider, j.provider = some provider ∧ ∀ d ∈ submitted, d.1 = provider → d.2 ≤ c.now := by
  unfold Scheduler.candidates at hj
  rw [List.mem_insertionSort, List.mem_filter] at hj
  obtain ⟨_, hcond⟩ := hj
  simp only [Bool.and_eq_true, hkind, Bool.false_or, Db.admissible] at hcond
  obtain ⟨⟨⟨⟨⟨_, hcooled⟩, _⟩, _⟩, hprovider⟩, _⟩ := hcond
  obtain ⟨provider, hp, _⟩ := Option.any_eq_true .. |>.mp hprovider
  refine ⟨provider, hp, fun d hd hdp => ?_⟩
  obtain ⟨cooldown, hmem, hk, hle⟩ := h.bounds d hd
  unfold Db.cooled at hcooled
  rw [hkind, Bool.false_or] at hcooled
  have hrow := List.all_eq_true.mp hcooled cooldown hmem
  simp only [Bool.not_eq_true', Bool.and_eq_false_iff, decide_eq_false_iff_not] at hrow
  obtain hother | hdue := hrow
  · exact absurd (by rw [hp, hk, hdp]) hother
  · omega

/-- The table is the maximum, every candidate of a call is due by the deadlines that were there when it was read, and
every wait has read the latest of its time. -/
structure PacedInv (p : Paced) : Prop where
  recorded : Recorded p.sched.world.db.cooldowns p.submitted
  window : ∀ c, p.sched.call = some c → ∀ rows, c.window = some rows → ∀ x ∈ rows, x.kind.processing = false →
    ∃ provider, x.provider = some provider ∧ ∀ d ∈ p.seen, d.1 = provider → d.2 ≤ c.now
  waits : ∀ worker x, p.waits worker = some x → x.ready = x.deadlines.max?

/-- A step other than a query keeps the call or takes candidates from its window. -/
theorem window_shrinks (hquery : ev.isQuery = false) (hstep : s.step T w ev = some t) {c' : ClaimCall}
    (hc' : t.call = some c') {rows' : List Candidate} (hrows' : c'.window = some rows') :
    ∃ c rows, s.call = some c ∧ c.window = some rows ∧ c'.now = c.now ∧ ∀ x ∈ rows', x ∈ rows := by
  cases ev with
  | begin worker stage now maxActiveJobs =>
    simp only [Scheduler.step] at hstep
    split at hstep
    · cases hstep
      cases hc'
      cases hrows'
    · cases hstep
  | query => cases hquery
  | attempt token =>
    obtain ⟨c, hc, hstep⟩ := Option.bind_eq_some_iff.mp hstep
    split at hstep
    · next x rest hwindow =>
      split at hstep
      · cases hstep
        cases hc'
        cases hrows'
        exact ⟨c, x :: rows', hc, hwindow, rfl, fun y hy => List.mem_cons_of_mem _ hy⟩
      · cases hstep
        cases hc'
        cases hrows'
        exact ⟨c, x :: rows', hc, hwindow, rfl, fun y hy => List.mem_cons_of_mem _ hy⟩
      · split at hstep
        · obtain ⟨job, _, rfl⟩ := Option.map_eq_some_iff.mp hstep
          cases hc'
        · cases hstep
    · cases hstep
  | exhausted =>
    obtain ⟨c, hc, hstep⟩ := Option.bind_eq_some_iff.mp hstep
    split at hstep
    · split at hstep
      · cases hstep
        cases hc'
      · cases hstep
        cases hc'
        cases hrows'
    · cases hstep
  | world ev =>
    simp only [Scheduler.step] at hstep
    split at hstep
    · cases hstep
    · obtain ⟨v, _, rfl⟩ := Option.map_eq_some_iff.mp hstep
      exact ⟨c', rows', hc', hrows', rfl, fun _ hx => hx⟩
  | locks l =>
    cases hstep
    exact ⟨c', rows', hc', hrows', rfl, fun _ hx => hx⟩
  | policy policies =>
    cases hstep
    exact ⟨c', rows', hc', hrows', rfl, fun _ hx => hx⟩

theorem pacedInv_defer (h : PacedInv p) (provider : String) (notBefore : Int) : PacedInv (p.defer provider notBefore) :=
  ⟨h.recorded.defer provider notBefore, h.window, h.waits⟩

/-- A worker goes on with its wait. -/
theorem pacedInv_setWait (h : PacedInv p) {worker : Nat} {x : Option Wait}
    (hx : ∀ y, x = some y → y.ready = y.deadlines.max?) : PacedInv (p.setWait worker x) := by
  refine ⟨h.recorded, h.window, fun other y hy => ?_⟩
  by_cases hother : other = worker
  · subst hother
    simp only [Paced.setWait, Function.update_self] at hy
    exact hx y hy
  · simp only [Paced.setWait, Function.update_of_ne hother] at hy
    exact h.waits other y hy

theorem PacedInv.readyAt (h : PacedInv p) (provider : String) : p.readyAt provider = (p.deadlines provider).max? :=
  h.recorded.lookup provider

theorem paced_step_inv {e : PacedEvent} (h : PacedInv p) (hstep : p.step T w e = some q) : PacedInv q := by
  cases e with
  | sched ev =>
    obtain ⟨t, ht, rfl⟩ := Option.map_eq_some_iff.mp hstep
    refine ⟨scheduler_recorded h.recorded ht, fun c' hc' rows' hrows' x hx hkind => ?_, h.waits⟩
    cases hquery : ev.isQuery with
    | false =>
      obtain ⟨c, rows, hc, hrows, hnow, hsub⟩ := window_shrinks hquery ht hc' hrows'
      rw [hnow]
      exact h.window c hc rows hrows x (hsub x hx) hkind
    | true =>
      cases ev with
      | query =>
        obtain ⟨c, hc, ht⟩ := Option.bind_eq_some_iff.mp ht
        split at ht
        · cases ht
        · split at ht
          · cases ht
            cases hc'
          · cases ht
            cases hc'
            cases hrows'
            obtain ⟨j, hj, rfl⟩ := List.mem_map.mp hx
            exact candidates_cooled h.recorded (List.mem_of_mem_take hj) hkind
      | _ => cases hquery
  | persist worker provider deadline timestamp minDelay =>
    simp only [Paced.step] at hstep
    split at hstep
    · cases hstep
      exact pacedInv_defer h provider _
    · cases hstep
  | response worker provider responseAt retryAfter =>
    simp only [Paced.step] at hstep
    split at hstep
    · cases hstep
      exact pacedInv_defer h provider _
    · cases hstep
  | setPolicy provider timestamp minDelay =>
    cases hstep
    exact pacedInv_defer h provider _
  | readReady worker provider =>
    simp only [Paced.step] at hstep
    split at hstep
    · cases hstep
      refine pacedInv_setWait h fun y hy => ?_
      cases hy
      exact h.readyAt provider
    · cases hstep
  | readClock worker clock =>
    obtain ⟨x, hx, hstep⟩ := Option.bind_eq_some_iff.mp hstep
    split at hstep
    · cases hstep
      refine pacedInv_setWait h fun y hy => ?_
      cases hy
      exact h.waits worker x hx
    · cases hstep
  | request worker =>
    obtain ⟨x, hx, hstep⟩ := Option.bind_eq_some_iff.mp hstep
    split at hstep
    · cases hstep
      exact pacedInv_setWait h fun y hy => by cases hy
    · cases hstep
  | stopRequest worker =>
    cases hstep
    exact pacedInv_setWait h fun y hy => by cases hy

theorem pacedInv_of_reach (h : Reachable (paced T w) p) : PacedInv p := by
  refine Reachable.invariant (fun p hinit => ?_) (fun _ _ _ => paced_step_inv) h
  obtain ⟨⟨_, _, hcall⟩, hcooldowns, hsubmitted, _, hwaits⟩ := hinit
  refine ⟨?_, fun c hc => ?_, fun worker x hx => ?_⟩
  · rw [hcooldowns, hsubmitted]
    refine ⟨List.nodup_nil, fun c hc => ?_, fun d hd => ?_⟩
    · cases hc
    · cases hd
  · rw [hcall] at hc
    cases hc
  · rw [hwaits] at hx
    cases hx

/-! ## Cooldowns are the maximum, and respected -/

theorem step_submitted {e : PacedEvent} (h : p.step T w e = some q) : ∃ new, q.submitted = p.submitted ++ new := by
  cases e with
  | sched ev =>
    obtain ⟨t, _, rfl⟩ := Option.map_eq_some_iff.mp h
    exact ⟨_, rfl⟩
  | persist worker provider deadline timestamp minDelay =>
    simp only [Paced.step] at h
    split at h
    · cases h
      exact ⟨_, rfl⟩
    · cases h
  | response worker provider responseAt retryAfter =>
    simp only [Paced.step] at h
    split at h
    · cases h
      exact ⟨_, rfl⟩
    · cases h
  | setPolicy provider timestamp minDelay =>
    cases h
    exact ⟨_, rfl⟩
  | readReady worker provider =>
    simp only [Paced.step] at h
    split at h
    · cases h
      exact ⟨[], (List.append_nil _).symm⟩
    · cases h
  | readClock worker clock =>
    obtain ⟨x, _, h⟩ := Option.bind_eq_some_iff.mp h
    split at h
    · cases h
      exact ⟨[], (List.append_nil _).symm⟩
    · cases h
  | request worker =>
    obtain ⟨x, _, h⟩ := Option.bind_eq_some_iff.mp h
    split at h
    · cases h
      exact ⟨[], (List.append_nil _).symm⟩
    · cases h
  | stopRequest worker =>
    cases h
    exact ⟨[], (List.append_nil _).symm⟩

theorem mem_deadlines {provider : String} {d : Int} : d ∈ p.deadlines provider ↔ (provider, d) ∈ p.submitted := by
  simp [Paced.deadlines]

theorem exists_max {ds : List Int} {d : Int} (h : d ∈ ds) : ∃ m, ds.max? = some m ∧ d ≤ m := by
  cases hmax : ds.max? with
  | none =>
    rw [List.max?_eq_none_iff] at hmax
    rw [hmax] at h
    cases h
  | some m => exact ⟨m, rfl, (List.max?_eq_some_iff.mp hmax).2 d h⟩

/-- A claim is no earlier than the deadlines that its query has seen. -/
theorem claims_after {ev : SchedulerEvent} {c : ClaimCall} {x : Candidate} (hinv : PacedInv p)
    (hclaims : p.sched.claims ev = some (c, x)) (hkind : x.kind.processing = false) :
    ∃ provider, x.provider = some provider ∧ ∀ d ∈ p.seenDeadlines provider, d ≤ c.now := by
  cases ev with
  | attempt token =>
    obtain ⟨c', hc, hclaims⟩ := Option.bind_eq_some_iff.mp hclaims
    split at hclaims
    · next y rest hwindow =>
      split at hclaims
      · cases hclaims
        obtain ⟨provider, hp, hdue⟩ := hinv.window c hc _ hwindow x List.mem_cons_self hkind
        refine ⟨provider, hp, fun d hd => ?_⟩
        obtain ⟨e, he, rfl⟩ := List.mem_map.mp hd
        obtain ⟨he, hep⟩ := List.mem_filter.mp he
        exact hdue e he (of_decide_eq_true hep)
      · cases hclaims
    · cases hclaims
  | _ => cases hclaims

/-- The end of a processing job's attempt, a retry included, submits no deadline. -/
theorem finish_processing {worker : Nat} {o : Outcome} {now : Int} {q : Paced} {a : Attempt} {j : Job}
    (hstep : p.step T w (.sched (.world (.finish worker o now))) = some q) (ha : p.sched.world.attempts worker = some a)
    (hj : p.sched.world.db.job a.job.id = some j) (hkind : j.kind.processing = true) :
    q.sched.world.db.cooldowns = p.sched.world.db.cooldowns ∧ q.submitted = p.submitted := by
  have hnone : deadlineFor w j o now = none := by
    unfold deadlineFor
    cases j.provider with
    | none => rfl
    | some provider => simp [hkind]
  obtain ⟨t, ht, rfl⟩ := Option.map_eq_some_iff.mp hstep
  simp only [Scheduler.step] at ht
  split at ht
  · cases ht
  · obtain ⟨v, hv, rfl⟩ := Option.map_eq_some_iff.mp ht
    obtain ⟨a', db, howns, hdb, rfl⟩ := World.fencedBy_some hv
    obtain rfl : a' = a := Option.some.inj (howns.1.symm.trans ha)
    obtain ⟨j', hj', hcooldowns⟩ := finishAttempt_cooldowns hdb
    obtain rfl : j' = j := Option.some.inj (hj'.symm.trans hj)
    rw [hnone] at hcooldowns
    refine ⟨hcooldowns, ?_⟩
    show p.submitted ++ p.sched.submits w (.world (.finish worker o now)) = p.submitted
    unfold Scheduler.submits
    dsimp only
    rw [ha, Option.bind_some, hj, Option.bind_some, hnone]
    exact List.append_nil _

/-- A wait ends no earlier than the deadlines of its last read. -/
theorem request_after {worker : Nat} {x : Wait} {q : Paced} (hinv : PacedInv p) (hx : p.waits worker = some x)
    (hstep : p.step T w (.request worker) = some q) : ∃ clock, x.clock = some clock ∧ ∀ d ∈ x.deadlines, d ≤ clock := by
  obtain ⟨y, hy, hstep⟩ := Option.bind_eq_some_iff.mp hstep
  obtain rfl : y = x := Option.some.inj (hy.symm.trans hx)
  split at hstep
  · next hpassed =>
    obtain ⟨clock, hclock, hready⟩ := Option.map_eq_some_iff.mp hpassed
    refine ⟨clock, hclock, fun d hd => ?_⟩
    have hready := of_decide_eq_true hready
    obtain ⟨m, hmax, hle⟩ := exists_max hd
    rw [hinv.waits worker y hx, hmax, Option.getD_some] at hready
    exact le_trans hle hready
  · cases hstep

/-- The cooldown of a provider is the latest deadline submitted for it, and never decreases; an acquisition is claimed
after all deadlines that were there when its candidates were read, and a request leaves its wait after all deadlines that
were there when the wait last read. The retry of a processing job submits none. -/
theorem cooldown_respected (h : Reachable (paced T w) p) :
    (∀ provider, p.readyAt provider = (p.deadlines provider).max?) ∧
    (∀ e q, p.step T w e = some q → ∀ provider d, p.readyAt provider = some d →
      ∃ d', q.readyAt provider = some d' ∧ d ≤ d') ∧
    (∀ ev q c x, p.step T w (.sched ev) = some q → p.sched.claims ev = some (c, x) → x.kind.processing = false →
      ∃ provider, x.provider = some provider ∧ ∀ d ∈ p.seenDeadlines provider, d ≤ c.now) ∧
    (∀ worker o now q a j, p.step T w (.sched (.world (.finish worker o now))) = some q →
      p.sched.world.attempts worker = some a → p.sched.world.db.job a.job.id = some j → j.kind.processing = true →
      q.sched.world.db.cooldowns = p.sched.world.db.cooldowns ∧ q.submitted = p.submitted) ∧
    (∀ worker provider q, p.step T w (.readReady worker provider) = some q →
      ∃ x, q.waits worker = some x ∧ x.provider = provider ∧ x.deadlines = p.deadlines provider) ∧
    (∀ worker x q, p.waits worker = some x → p.step T w (.request worker) = some q →
      ∃ clock, x.clock = some clock ∧ ∀ d ∈ x.deadlines, d ≤ clock) := by
  have hinv := pacedInv_of_reach h
  refine ⟨hinv.readyAt, fun e q hstep provider d hd => ?_, fun _ _ _ _ _ hclaims hkind => claims_after hinv hclaims hkind,
    fun _ _ _ _ _ _ hstep ha hj hkind => finish_processing hstep ha hj hkind, fun worker provider q hstep => ?_,
    fun _ _ _ hx hstep => request_after hinv hx hstep⟩
  · obtain ⟨new, hnew⟩ := step_submitted hstep
    rw [hinv.readyAt] at hd
    rw [(paced_step_inv hinv hstep).readyAt]
    refine exists_max (mem_deadlines.mpr ?_)
    rw [hnew]
    exact List.mem_append_left _ (mem_deadlines.mp (List.max?_mem hd))
  · simp only [Paced.step] at hstep
    split at hstep
    · cases hstep
      exact ⟨_, Function.update_self _ _ _, rfl, rfl⟩
    · cases hstep

/-! ## Runs -/

def pacedSettings : WorkerSettings := ⟨3, 10, 100⟩

def profileRequest : Enqueue :=
  ⟨some "lichess", .fetchUserProfile, .name "alice", [], none, none, 0, 10, none, false, "local", none, 90⟩

def pacedStart : Paced :=
  ⟨⟨⟨⟨[], 0, [], 0, [], [], []⟩, fun _ => none⟩, fun _ _ => 0, 0, ⟨[], [], []⟩, none⟩, [], [], fun _ => none⟩

theorem pacedStart_init : (paced plainText pacedSettings).init pacedStart :=
  ⟨⟨⟨rfl, rfl, rfl, fun _ => rfl⟩, fun _ _ => rfl, rfl⟩, rfl, rfl, rfl, fun _ => rfl⟩

/-- A candidate at 100, and a policy update at 120 before its lock is tried: the job is claimed at 100, before the deadline
130 that has been committed. -/
theorem claimed_before_deadline : ¬ ∀ p, Reachable (paced plainText pacedSettings) p → ∀ ev q c x,
    p.step plainText pacedSettings (.sched ev) = some q → p.sched.claims ev = some (c, x) →
    x.kind.processing = false → ∀ provider, x.provider = some provider → ∀ d ∈ p.deadlines provider, d ≤ c.now := by
  intro hall
  obtain ⟨p, hp, htest⟩ := Reach.of_exec (paced plainText pacedSettings) (fun _ _ => True) pacedStart_init
    [.sched (.world (.enqueue profileRequest)), .sched (.begin (some 0) .all 100 5), .sched .query,
      .setPolicy "lichess" 120 10]
    (fun p => decide (p.submitted = [("lichess", 130)]) && (p.step plainText pacedSettings (.sched (.attempt 1))).isSome &&
      decide ((p.sched.claims (.attempt 1)).map (fun r => (r.1.now, r.2)) =
        some (100, ⟨1, some "lichess", .fetchUserProfile, "local"⟩)))
    (by decide +kernel)
  simp only [Bool.and_eq_true, decide_eq_true_eq] at htest
  obtain ⟨⟨hsubmitted, hsome⟩, hclaims⟩ := htest
  obtain ⟨q, hq⟩ := Option.isSome_iff_exists.mp hsome
  obtain ⟨⟨c, x⟩, hcx, heq⟩ := Option.map_eq_some_iff.mp hclaims
  obtain ⟨hnow, hx⟩ := Prod.mk.inj heq
  have hx : x = ⟨1, some "lichess", .fetchUserProfile, "local"⟩ := hx
  have hdue := hall p hp _ q c x hq hcx (by rw [hx]; rfl) "lichess" (by rw [hx]) 130
    (mem_deadlines.mpr (by rw [hsubmitted]; exact List.mem_singleton.mpr rfl))
  have hnow : c.now = 100 := hnow
  rw [hnow] at hdue
  exact absurd hdue (by decide)

/-- A profile that is claimed, retried after a failure, and left alone until its provider has cooled. -/
theorem cooldown_respected_retry : ∃ p, Reachable (paced plainText pacedSettings) p ∧
    p.submitted = [("lichess", 110), ("lichess", 105)] ∧ p.readyAt "lichess" = some 110 ∧
    p.readyAt "lichess" = (p.deadlines "lichess").max? := by
  obtain ⟨p, hp, htest⟩ := Reach.of_exec (paced plainText pacedSettings) (fun _ _ => True) pacedStart_init
    [.sched (.world (.enqueue profileRequest)), .sched (.begin (some 0) .all 100 5), .sched .query, .sched (.attempt 1),
      .sched (.world (.finish 0 ⟨.error, "HTTP 503", true, none, 0⟩ 100)), .setPolicy "lichess" 104 1]
    (fun p => decide (p.submitted = [("lichess", 110), ("lichess", 105)]) && decide (p.readyAt "lichess" = some 110))
    (by decide +kernel)
  simp only [Bool.and_eq_true, decide_eq_true_eq] at htest
  exact ⟨p, hp, htest.1, htest.2, (cooldown_respected hp).1 "lichess"⟩

end ChessCrawl.Jobs
