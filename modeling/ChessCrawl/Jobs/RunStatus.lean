import ChessCrawl.Jobs.Steps

/-! When a run is over. The derived status passes over pending jobs that are not ready, so it rests on the
lineage of the table: from a job that waits, its parent and its parent's normalizations lead to one that is
ready, running or blocked. It is derived from two reads, and holds as long as no job leaves the queue between
them. -/
namespace ChessCrawl.Jobs
open ChessCrawl.Lib
set_option autoImplicit false

/-! ## Lineage -/

/-- The jobs that belong to an acquisition. -/
def JobKind.dependent : JobKind → Bool
  | .expandOpponents | .normalizePayload => true
  | _ => false

/-- The parent is in the table and in the same run. -/
def Db.ParentIn (db : Db) (parentJobId crawlRunId : Option Nat) : Prop :=
  ∃ p ∈ db.jobs, parentJobId = some p.id ∧ p.crawlRunId = crawlRunId

/-- Children and expansions belong to the run of their parent, which was there before them. -/
def Db.Lineage (db : Db) : Prop :=
  ∀ c ∈ db.jobs, c.kind.dependent = true →
    ∃ p ∈ db.jobs, c.parentJobId = some p.id ∧ p.crawlRunId = c.crawlRunId ∧ p.id < c.id

/-- An enqueue from outside keeps to the run of its parent. -/
def Event.KeepsRun (s : World) : Event → Prop
  | .enqueue e => e.kind.dependent = true → s.db.ParentIn e.parentJobId e.crawlRunId
  | _ => True

section Lineage
variable {T : Text} {w : WorkerSettings} {maxRetries : Nat} {P : Db → Enqueue → Prop} {db db' : Db}

theorem Db.ParentIn.writes {parentJobId crawlRunId : Option Nat} (h : db.ParentIn parentJobId crawlRunId)
    (hw : Writes T maxRetries P db db') : db'.ParentIn parentJobId crawlRunId := by
  obtain ⟨p, hp, hid, hrun⟩ := h
  obtain ⟨p', hp', hsame, _⟩ := hw.row hp
  exact ⟨p', hp', by rw [hid, hsame.id], by rw [hsame.crawlRunId, hrun]⟩

/-- Updates that keep what identifies a row keep the lineage. -/
theorem Db.Lineage.map {g : Job → Job} (hdb : db.Lineage) (hg : ∀ j ∈ db.jobs, j.Same (g j))
    (hjobs : db'.jobs = db.jobs.map g) : db'.Lineage := by
  unfold Db.Lineage
  rw [hjobs]
  intro c hc hkind
  obtain ⟨c₀, hc₀, rfl⟩ := List.mem_map.mp hc
  have hcs := hg c₀ hc₀
  obtain ⟨p, hp, hid, hrun, hlt⟩ := hdb c₀ hc₀ (by rw [← hcs.kind]; exact hkind)
  have hps := hg p hp
  refine ⟨g p, List.mem_map_of_mem hp, ?_, ?_, ?_⟩
  · rw [hcs.parentJobId, hps.id, hid]
  · rw [hps.crawlRunId, hcs.crawlRunId, hrun]
  · rw [hps.id, hcs.id]
    exact hlt

theorem Writes.lineage (hP : ∀ db e, P db e → e.kind.dependent = true → db.ParentIn e.parentJobId e.crawlRunId)
    (h : Writes T maxRetries P db db') (hids : db.Ids) (hdb : db.Lineage) : db'.Lineage := by
  have hall : db'.Ids ∧ db'.Lineage := by
    refine h.keeps (I := fun db => db.Ids ∧ db.Lineage) ?_ ?_ ?_ ⟨hids, hdb⟩
    · intro db db' ⟨hids, hl⟩ ht
      have hw : Writes T maxRetries P db db' := .tables .refl ht
      refine ⟨hw.ids hids, ?_⟩
      unfold Db.Lineage
      rw [ht.jobs]
      exact hl
    · intro db sel set ⟨hids, hl⟩ hset
      have hw : Writes T maxRetries P db (db.updateJobs sel set) := .update sel set .refl hset
      refine ⟨hw.ids hids, ?_⟩
      exact hl.map (fun j hj => Rewritten.same hset hj) rfl
    · intro db e owner ⟨hids, hl⟩ hPe hnone howner
      have hw : Writes T maxRetries P db _ := .insert owner .refl hPe hnone howner
      refine ⟨hw.ids hids, ?_⟩
      intro c hc hkind
      rcases List.mem_append.mp hc with hc | hc
      · obtain ⟨p, hp, hrest⟩ := hl c hc hkind
        exact ⟨p, List.mem_append_left _ hp, hrest⟩
      · rw [List.mem_singleton.mp hc] at hkind ⊢
        obtain ⟨p, hp, hid, hrun⟩ := hP db e hPe hkind
        exact ⟨p, List.mem_append_left _ hp, hid, hrun, Nat.lt_succ_of_le (hids.issued p hp)⟩
  exact hall.2

theorem asked_lineage {s : World} {ev : Event} (hs : s.Sound) (hev : ev.KeepsRun s) {e : Enqueue} (h : s.Asked T db e ev)
    (hw : Writes T w.jobMaxRetries (fun db e => s.Asked T db e ev) s.db db) (hkind : e.kind.dependent = true) :
    db.ParentIn e.parentJobId e.crawlRunId := by
  have howned : ∀ worker a, s.Owns worker a → db.ParentIn (some a.job.id) a.job.crawlRunId := by
    intro worker a howns
    obtain ⟨p, hp, hsame⟩ := hs.held worker a howns.attempt
    have hin : s.db.ParentIn (some a.job.id) a.job.crawlRunId := ⟨p, hp, by rw [hsame.id], hsame.crawlRunId⟩
    exact hin.writes hw
  cases ev with
  | createOpponentCrawl =>
    cases h
    cases hkind
  | enqueue e' =>
    cases h
    exact (hev hkind).writes hw
  | capture =>
    obtain ⟨a, howns, rfl⟩ := h
    exact howned _ a howns
  | expansion =>
    obtain ⟨a, _, howns, _, _, _, rfl⟩ := h
    exact howned _ a howns
  | expand =>
    obtain ⟨_, _, _, _, _, _, _, _, _, hfor⟩ := h
    cases hfor with
    | opponent => cases hkind
    | promoted _ hp' hsame => exact ⟨_, hp', by rw [hsame.id]; rfl, hsame.crawlRunId⟩
  | _ => cases h

theorem step_lineage {s t : World} {ev : Event} (hs : s.Sound) (hev : ev.KeepsRun s) (h : s.step T w ev = some t)
    (hl : s.db.Lineage) : t.db.Lineage :=
  (step_writes hs h).located.lineage (fun _ _ hP hkind => asked_lineage hs hev hP.1 hP.2 hkind) hs.ids hl

theorem reach_lineage {s : World} (h : Reach (workers T w) (fun s ev => ev.KeepsRun s) s) : s.db.Lineage :=
  Reach.invariant (I := fun s => s.db.Lineage) (fun s hs => by unfold Db.Lineage; rw [hs.1]; simp)
    (fun _ _ _ hr hI hev hstep => step_lineage (reach_sound hr) hev hstep hI) h

end Lineage

/-! ## Derived status -/

section Status
variable {db : Db} {runId : Nat}

theorem mem_jobsOf {j : Job} : j ∈ db.jobsOf runId ↔ j ∈ db.jobs ∧ j.crawlRunId = some runId := by
  simp [Db.jobsOf]

theorem processingReady_normalize {j : Job} (h : j.kind = .normalizePayload) : db.processingReady j = true := by
  simp [Db.processingReady, h]

/-- A job that waits for nothing, for a normalization of its own, or for its parent. -/
theorem processingReady_cases (j : Job) :
    db.processingReady j = true ∨
    (∃ c ∈ db.jobs, c.parentJobId = some j.id ∧ c.kind = .normalizePayload ∧ c.state.live = true) ∨
    (j.kind = .expandOpponents ∧ ∀ p ∈ db.jobs, j.parentJobId = some p.id → p.state.live = true) := by
  by_cases hready : db.processingReady j = true
  · exact .inl hready
  refine .inr ?_
  by_cases hchild : ∃ c ∈ db.jobs, c.parentJobId = some j.id ∧ c.kind = .normalizePayload ∧ c.state.live = true
  · exact .inl hchild
  refine .inr ?_
  have hnone : (db.jobs.any fun child => child.parentJobId = some j.id && child.kind = .normalizePayload &&
      child.state.live) = false := by
    rw [List.any_eq_false]
    intro c hc hrow
    simp only [Bool.and_eq_true, decide_eq_true_eq] at hrow
    exact hchild ⟨c, hc, hrow.1.1, hrow.1.2, hrow.2⟩
  simp only [Db.processingReady, hnone, Bool.and_false, Bool.not_false, Bool.true_and, Bool.or_eq_true,
    decide_eq_true_eq, not_or, not_not, List.any_eq_true, Bool.and_eq_true, not_exists, not_and] at hready
  refine ⟨hready.1, fun p hp hid => ?_⟩
  simpa [JobState.terminal] using hready.2 p hp hid.symm

/-- Where every live job of the run is pending, one of them is ready. -/
theorem exists_ready (hids : db.Ids) (hl : db.Lineage)
    (hpending : ∀ j ∈ db.jobsOf runId, j.state.live = true → j.state = .pending) {j : Job}
    (hj : j ∈ db.jobsOf runId) (hlive : j.state.live = true) :
    ∃ k ∈ db.jobsOf runId, k.state = .pending ∧ db.processingReady k = true := by
  -- the chain of parents has smaller ids
  induction hn : j.id using Nat.strongRecOn generalizing j with
  | ind n ih =>
    obtain ⟨hmem, hrun⟩ := mem_jobsOf.mp hj
    rcases processingReady_cases j with hready | ⟨c, hc, hparent, hkind, hclive⟩ | ⟨hkind, hparent⟩
    · exact ⟨j, hj, hpending j hj hlive, hready⟩
    · obtain ⟨p, hp, hid, hprun, _⟩ := hl c hc (by rw [hkind]; rfl)
      have hpj : p = j := hids.unique hp hmem (Option.some.inj (hid.symm.trans hparent))
      have hcrun : c ∈ db.jobsOf runId := mem_jobsOf.mpr ⟨hc, by rw [← hprun, hpj, hrun]⟩
      exact ⟨c, hcrun, hpending c hcrun hclive, processingReady_normalize hkind⟩
    · obtain ⟨p, hp, hid, hprun, hlt⟩ := hl j hmem (by rw [hkind]; rfl)
      exact ih p.id (by omega) (mem_jobsOf.mpr ⟨hp, hprun.trans hrun⟩) (hparent p hp hid) rfl

theorem stateCounts_ne_zero {state : JobState} :
    db.jobStateCounts runId state ≠ 0 ↔ ∃ j ∈ db.jobsOf runId, j.state = state := by
  simp [Db.jobStateCounts, List.filter_eq_nil_iff]

theorem pendingReady_iff :
    db.pendingReady runId = true ↔ ∃ j ∈ db.jobsOf runId, j.state = .pending ∧ db.processingReady j = true := by
  simp [Db.pendingReady]

section Derived
variable {counts : JobState → Nat}

theorem derivedStatus_ended_iff :
    (db.derivedStatus runId counts = .done ∨ db.derivedStatus runId counts = .failed) ↔
      ¬ (counts .pending ≠ 0 ∧ db.pendingReady runId = true) ∧ counts .inProgress = 0 ∧ counts .blocked = 0 := by
  unfold Db.derivedStatus
  split
  · next hrunning =>
    simp only [Bool.or_eq_true, Bool.and_eq_true, decide_eq_true_eq] at hrunning
    simp only [reduceCtorEq, or_self, false_iff]
    rintro ⟨hready, hnone, _⟩
    exact hrunning.elim hready fun hsome => hsome hnone
  next hrunning =>
  simp only [Bool.or_eq_true, Bool.and_eq_true, decide_eq_true_eq, not_or, not_not] at hrunning
  split
  · next hblocked => simp [hblocked]
  next hblocked =>
  have hended : (counts .blocked = 0) := by simpa using hblocked
  split <;> simpa [hended, hrunning.2] using hrunning.1

theorem derivedStatus_failed_iff :
    db.derivedStatus runId counts = .failed ↔
      (db.derivedStatus runId counts = .done ∨ db.derivedStatus runId counts = .failed) ∧ counts .error ≠ 0 := by
  unfold Db.derivedStatus
  split
  · simp
  split
  · simp
  split
  · simp_all
  · simp_all

end Derived

/-- The status tells whether the work of the run is over, and how. -/
structure Tells (db : Db) (runId : Nat) (status : RunStatus) : Prop where
  ended : (status = .done ∨ status = .failed) ↔ ∀ j ∈ db.jobsOf runId, j.state.live = false
  failed : status = .failed ↔ (∀ j ∈ db.jobsOf runId, j.state.live = false) ∧ ∃ j ∈ db.jobsOf runId, j.state = .error

theorem Tells.of_jobs {db' : Db} {status : RunStatus} (ht : Tells db runId status) (h : db'.jobs = db.jobs) :
    Tells db' runId status := by
  have hof : db'.jobsOf runId = db.jobsOf runId := by
    unfold Db.jobsOf
    rw [h]
  exact ⟨by rw [hof]; exact ht.ended, by rw [hof]; exact ht.failed⟩

/-! ## Two reads -/

/-- What a job may do while the row of its run is held: it goes on, or stays as it ended. -/
structure JobState.GoesOn (state state' : JobState) : Prop where
  live : state.live = true → state'.live = true
  ended : state.live = false → state' = state

/-- It has not left the queue either. -/
structure JobState.Queued (state state' : JobState) : Prop extends state.GoesOn state' where
  pending : state = .pending → state' = .pending

theorem JobState.Queued.refl (state : JobState) : state.Queued state := ⟨⟨fun h => h, fun _ => rfl⟩, fun h => h⟩

theorem JobState.GoesOn.trans {s s' s'' : JobState} (h : s.GoesOn s') (h' : s'.GoesOn s'') : s.GoesOn s'' := by
  refine ⟨fun hlive => h'.live (h.live hlive), fun hended => ?_⟩
  have hs := h.ended hended
  rw [h'.ended (by rw [hs]; exact hended), hs]

theorem JobState.Queued.trans {s s' s'' : JobState} (h : s.Queued s') (h' : s'.Queued s'') : s.Queued s'' :=
  ⟨h.toGoesOn.trans h'.toGoesOn, fun hs => h'.pending (h.pending hs)⟩

/-- The jobs of the run later on: the same jobs, and each has moved as `R` says. -/
structure Db.Since (R : JobState → JobState → Prop) (runId : Nat) (db db' : Db) : Prop where
  kept : ∀ j ∈ db.jobsOf runId, ∃ j' ∈ db'.jobsOf runId, j'.id = j.id ∧ R j.state j'.state
  came : ∀ j' ∈ db'.jobsOf runId, ∃ j ∈ db.jobsOf runId, j'.id = j.id ∧ R j.state j'.state

theorem Db.Since.refl {R : JobState → JobState → Prop} (hR : ∀ s, R s s) (db : Db) : db.Since R runId db :=
  ⟨fun j hj => ⟨j, hj, rfl, hR _⟩, fun j hj => ⟨j, hj, rfl, hR _⟩⟩

theorem Db.Since.trans {R : JobState → JobState → Prop} {db' db'' : Db}
    (hR : ∀ {s s' s''}, R s s' → R s' s'' → R s s'') (h : db.Since R runId db') (h' : db'.Since R runId db'') :
    db.Since R runId db'' := by
  refine ⟨fun j hj => ?_, fun j'' hj'' => ?_⟩
  · obtain ⟨j', hj', hid, hjj'⟩ := h.kept j hj
    obtain ⟨j'', hj'', hid', hj'j''⟩ := h'.kept j' hj'
    exact ⟨j'', hj'', hid'.trans hid, hR hjj' hj'j''⟩
  · obtain ⟨j', hj', hid', hj'j''⟩ := h'.came j'' hj''
    obtain ⟨j, hj, hid, hjj'⟩ := h.came j' hj'
    exact ⟨j, hj, hid'.trans hid, hR hjj' hj'j''⟩

theorem Db.Since.mono {R R' : JobState → JobState → Prop} {db' : Db} (hR : ∀ {s s'}, R s s' → R' s s')
    (h : db.Since R runId db') : db.Since R' runId db' :=
  ⟨fun j hj => (h.kept j hj).imp fun _ hj' => ⟨hj'.1, hj'.2.1, hR hj'.2.2⟩,
    fun j' hj' => (h.came j' hj').imp fun _ hj => ⟨hj.1, hj.2.1, hR hj.2.2⟩⟩

section Since
variable {db' : Db}

theorem Db.Since.over_iff (h : db.Since JobState.GoesOn runId db') :
    (∀ j ∈ db.jobsOf runId, j.state.live = false) ↔ ∀ j ∈ db'.jobsOf runId, j.state.live = false := by
  constructor
  · intro hover j' hj'
    obtain ⟨j, hj, _, hon⟩ := h.came j' hj'
    rw [hon.ended (hover j hj)]
    exact hover j hj
  · intro hover j hj
    obtain ⟨j', hj', _, hon⟩ := h.kept j hj
    by_contra hlive
    have hlive' := hon.live (by simpa using hlive)
    rw [hover j' hj'] at hlive'
    cases hlive'

theorem Db.Since.error_iff (h : db.Since JobState.GoesOn runId db')
    (hover : ∀ j ∈ db.jobsOf runId, j.state.live = false) :
    (∃ j ∈ db.jobsOf runId, j.state = .error) ↔ ∃ j ∈ db'.jobsOf runId, j.state = .error := by
  constructor
  · rintro ⟨j, hj, herror⟩
    obtain ⟨j', hj', _, hon⟩ := h.kept j hj
    exact ⟨j', hj', (hon.ended (hover j hj)).trans herror⟩
  · rintro ⟨j', hj', herror⟩
    obtain ⟨j, hj, _, hon⟩ := h.came j' hj'
    exact ⟨j, hj, (hon.ended (hover j hj)).symm.trans herror⟩

/-- A status that tells of the run goes on to do so while the row of the run is held. -/
theorem Tells.since {status : RunStatus} (ht : Tells db runId status) (h : db.Since JobState.GoesOn runId db') :
    Tells db' runId status := by
  refine ⟨ht.ended.trans h.over_iff, ht.failed.trans ⟨?_, ?_⟩⟩
  · rintro ⟨hover, herror⟩
    exact ⟨h.over_iff.mp hover, (h.error_iff hover).mp herror⟩
  · rintro ⟨hover, herror⟩
    have hover' := h.over_iff.mpr hover
    exact ⟨hover', (h.error_iff hover').mpr herror⟩

/-- Counts of one table and the pending jobs of a later one tell of the run, where no job has left the queue. -/
theorem derivedStatus_tells (hids : db'.Ids) (hl : db'.Lineage) (h : db.Since JobState.Queued runId db') :
    Tells db' runId (db'.derivedStatus runId (db.jobStateCounts runId)) := by
  have hon : db.Since JobState.GoesOn runId db' := h.mono fun hs => hs.toGoesOn
  have hcount : ∀ state, db.jobStateCounts runId state = 0 ↔ ∀ j ∈ db.jobsOf runId, j.state ≠ state := by
    intro state
    rw [← not_iff_not, ← ne_eq, stateCounts_ne_zero]
    simp
  have hended : (db'.derivedStatus runId (db.jobStateCounts runId) = .done ∨
      db'.derivedStatus runId (db.jobStateCounts runId) = .failed) ↔ ∀ j ∈ db'.jobsOf runId, j.state.live = false := by
    rw [derivedStatus_ended_iff, hcount, hcount]
    constructor
    · rintro ⟨hready, hrunning, hblocked⟩
      -- what is live is in the queue, and was there when the jobs were counted
      have hqueued : ∀ j' ∈ db'.jobsOf runId, j'.state.live = true →
          j'.state = .pending ∧ db.jobStateCounts runId .pending ≠ 0 := by
        intro j' hj' hlive
        obtain ⟨j, hj, _, hq⟩ := h.came j' hj'
        have hjlive : j.state.live = true := by
          by_contra hdead
          rw [hq.ended (by simpa using hdead)] at hlive
          exact hdead hlive
        have hpending : j.state = .pending := by
          cases hs : j.state with
          | pending => rfl
          | inProgress => exact absurd hs (hrunning j hj)
          | blocked => exact absurd hs (hblocked j hj)
          | done => simp [hs, JobState.live] at hjlive
          | error => simp [hs, JobState.live] at hjlive
          | skipped => simp [hs, JobState.live] at hjlive
        exact ⟨hq.pending hpending, stateCounts_ne_zero.mpr ⟨j, hj, hpending⟩⟩
      intro j' hj'
      by_contra hlive
      have hlive : j'.state.live = true := by simpa using hlive
      obtain ⟨k, hk, hks, hkready⟩ := exists_ready hids hl (fun j hj hlive => (hqueued j hj hlive).1) hj' hlive
      exact hready ⟨(hqueued j' hj' hlive).2, pendingReady_iff.mpr ⟨k, hk, hks, hkready⟩⟩
    · intro hover
      have hover₀ := hon.over_iff.mpr hover
      have hnone : ∀ state : JobState, state.live = true → ∀ j ∈ db.jobsOf runId, j.state ≠ state := by
        rintro state hlive j hj rfl
        rw [hover₀ j hj] at hlive
        cases hlive
      exact ⟨fun hready => hready.1 ((hcount _).mpr (hnone _ rfl)), hnone _ rfl, hnone _ rfl⟩
  refine ⟨hended, ?_⟩
  rw [derivedStatus_failed_iff, hended, stateCounts_ne_zero]
  constructor
  · rintro ⟨hover, herror⟩
    exact ⟨hover, (hon.error_iff (hon.over_iff.mpr hover)).mp herror⟩
  · rintro ⟨hover, herror⟩
    exact ⟨hover, (hon.error_iff (hon.over_iff.mpr hover)).mpr herror⟩

end Since

/-- The update of one run. -/
def Db.setStatus (db : Db) (runId : Nat) (status : RunStatus) (now : Int) : Db :=
  { db with runs := db.runs.map fun r => if r.id = runId then r.update status now else r }

theorem run_map {g : Run → Run} (hg : ∀ r, (g r).id = r.id) :
    Db.run { db with runs := db.runs.map g } runId = (db.run runId).map g := by
  unfold Db.run
  rw [List.find?_map]
  congr 2
  funext r
  simp [hg]

theorem setStatus_run {run : Run} (h : db.run runId = some run) (status : RunStatus) (now : Int) :
    (db.setStatus runId status now).run runId = some (run.update status now) := by
  have hrun : run.id = runId := by simpa using List.find?_some h
  unfold Db.setStatus
  rw [run_map, h]
  · simp [hrun]
  · intro r
    split <;> rfl

theorem refreshRunStatus_eq {run : Run} (h : db.run runId = some run) (hlive : run.status ≠ .cancelled) (now : Int) :
    db.refreshRunStatus runId now = db.setStatus runId (db.derivedStatus runId (db.jobStateCounts runId)) now := by
  simp [Db.refreshRunStatus, h, hlive, Db.setStatus]

theorem refreshRunStatus_cancelled {run : Run} (h : db.run runId = some run) (hc : run.status = .cancelled)
    (now : Int) : db.refreshRunStatus runId now = db := by
  simp [Db.refreshRunStatus, h, hc]

end Status

end ChessCrawl.Jobs
