import ChessCrawl.Monthly.Inventory
import ChessCrawl.Monthly.Sealed

/-! No month is skipped: the cursor of a job passes a month only with coverage for it, and the job fetches it once. -/
namespace ChessCrawl.Monthly
open ChessCrawl.Acquisition ChessCrawl.Lib
set_option autoImplicit false

/-! ## Bodies of a month -/

/-- A source key of the unit: its own text, or the canonical text of its month. -/
def OfMonth (unit : String) (src : Source) : Prop :=
  src = .month unit ∨ ∃ year month stop, monthBounds unit = .ok (year, month, stop) ∧ src = monthSource year month

/-- A preserved body of the unit. -/
def Db.Held (db : Db) (unit : String) (raw : Nat) : Prop := ∃ p, db.rawPayload raw = some p ∧ OfMonth unit p.source

def Pc.Holds (db : Db) : Pc → Prop
  | .covered unit raw => ∀ r, raw = some r → db.Held unit r
  | .chosen unit raw => ∀ r, raw = some r → db.Held unit r
  | .stored unit raw => db.Held unit raw
  | .fetched unit raw => db.Held unit raw
  | _ => True

variable {username : String} {job : Nat} {clock : Int} {db db' : Db} {i : Input} {s t : State}

theorem Db.Held.extend {unit : String} {raw : Nat} (h : db.Held unit raw) (hext : db.Extends db') :
    db'.Held unit raw := by
  obtain ⟨p, hp, hsrc⟩ := h
  exact ⟨p, hext.payload hp, hsrc⟩

theorem Pc.Holds.extend {pc : Pc} (h : pc.Holds db) (hext : db.Extends db') : pc.Holds db' := by
  cases pc with
  | covered unit raw => exact fun r hr => (h r hr).extend hext
  | chosen unit raw => exact fun r hr => (h r hr).extend hext
  | stored unit raw => exact Db.Held.extend h hext
  | fetched unit raw => exact Db.Held.extend h hext
  | _ => trivial

/-- Every coverage row with a body has a body of its unit. -/
def Db.Covered (db : Db) : Prop :=
  ∀ unit row raw, db.coverage unit = some row → row.rawPayloadId = some raw → db.Held unit raw

theorem Db.Covered.record {unit : String} {new : CoverageRow} (h : db.Covered)
    (hnew : ∀ raw, new.rawPayloadId = some raw → db.Held unit raw) : (db.recordCoverage unit new).Covered := by
  have hext : db.Extends (db.recordCoverage unit new) := .of_eq (by simp) (by simp)
  obtain ⟨hothers, hself⟩ := Db.recordCoverage_coverage db unit new
  intro other row raw hrow hraw
  refine Db.Held.extend ?_ hext
  by_cases hother : other = unit
  · subst hother
    rcases hself with ⟨raw', hraw', hset⟩ | ⟨old, hold, _, hkept⟩
    · rw [hset] at hrow
      cases hrow
      rcases hraw' with hraw' | ⟨_, old, hold, hraw'⟩
      · exact hnew raw (hraw'.symm.trans hraw)
      · exact h other old raw hold (hraw'.symm.trans hraw)
    · rw [hkept] at hrow
      cases hrow
      exact h other _ raw hold hraw
  · rw [hothers other hother] at hrow
    exact h other row raw hrow hraw

theorem Db.Covered.of_eq (h : db.Covered) (hcov : db'.coverage = db.coverage) (hext : db.Extends db') : db'.Covered := by
  intro unit row raw hrow hraw
  rw [hcov] at hrow
  exact (h unit row raw hrow hraw).extend hext

theorem Db.Covered.fail {unit : String} {status : Nat} {message : String} {now : Int} (h : db.Covered) :
    (db.recordFailure unit status message now).Covered :=
  h.record fun _ hraw => by cases hraw

theorem latestJobPayload_held {unit : String} {raw year month : Nat} {stop : Int}
    (hbounds : monthBounds unit = .ok (year, month, stop))
    (hraw : db.latestJobPayload job (monthSource year month) = some raw) : db.Held unit raw := by
  obtain ⟨f, _, ⟨_, hsrc⟩, rfl⟩ := Db.latestJobPayload_some hraw
  obtain ⟨p, hp, hsrc⟩ := Option.map_eq_some_iff.mp hsrc
  exact ⟨p, hp, .inr ⟨year, month, stop, hbounds, hsrc⟩⟩

theorem latestSource_held {unit : String} {raw : Nat} {src : Source} (hnum : db.Numbered) (hsrc : OfMonth unit src)
    (hraw : db.latestSource src = some raw) : db.Held unit raw := by
  obtain ⟨p, hp, rfl, _⟩ := Db.latestSource_spec hnum hraw 0
  exact ⟨p, hp, hsrc⟩

/-- A call that is not yet in its loop holds no body of a month. -/
def Call.Holds (db : Db) : Call → Prop
  | .running _ _ pc => pc.Holds db
  | _ => True

theorem Moves.holds {call : Call} {next : Option Call} (h : Moves username job clock db i call db' next)
    (hnum : db.Numbered) (hcov : db.Covered) (hholds : call.Holds db) :
    db'.Covered ∧ ∀ call', next = some call' → call'.Holds db' := by
  obtain ⟨hext, hnum'⟩ := h.extends hnum
  cases h with
  | stops => exact ⟨hcov, fun _ h => by cases h⟩
  | captureIndex x requestedAt body =>
    refine ⟨hcov.of_eq (Db.persist_spec hnum _ _ _ _).2.2.2.1 hext, fun call' h => ?_⟩
    cases h
    trivial
  | confirmIndex x requestedAt raw hraw =>
    refine ⟨hcov.of_eq rfl hext, fun call' h => ?_⟩
    cases h
    trivial
  | refuseIndex x status message => exact ⟨hcov.fail, fun _ h => by cases h⟩
  | absent x units unit rest =>
    refine ⟨hcov.record fun _ hraw => ?_, fun call' h => ?_⟩
    · cases hraw
    · cases h
      trivial
  | «open» x units =>
    refine ⟨fun unit row raw hrow hraw => ?_, fun call' h => ?_⟩
    · rcases (Db.recordPending_spec units x.now).2.2.2 unit row hrow with hold | hnew
      · exact (hcov unit row raw hold hraw).extend hext
      · rw [hnew] at hraw
        cases hraw
    · cases h
      trivial
  | take x c unit hunit =>
    refine ⟨hcov, fun call' h => ?_⟩
    cases h
    intro raw hraw
    obtain ⟨row, hrow, hraw⟩ := Option.bind_eq_some_iff.mp hraw
    exact hcov unit row raw hrow hraw
  | finish x c hend => exact ⟨hcov.of_eq rfl hext, fun _ h => by cases h⟩
  | choose x c unit raw =>
    refine ⟨hcov, fun call' h => ?_⟩
    cases h
    intro r hr
    cases hlatest : db.latestSource (.month unit) with
    | none =>
      rw [hlatest] at hr
      exact hholds r hr
    | some latest =>
      rw [hlatest] at hr
      cases hr
      exact latestSource_held hnum (.inl rfl) hlatest
  | adopt x c unit raw year month stop observed hbounds hobserved hstop =>
    refine ⟨hcov, fun call' h => ?_⟩
    cases h
    exact hholds raw rfl
  | keep x c unit raw hgames =>
    refine ⟨(hcov.record fun r hr => ?_).of_eq rfl (.of_eq rfl rfl), fun call' h => ?_⟩
    · cases hr
      exact hholds
    · cases h
      trivial
  | reuse x c unit raw year month stop hbounds hbudget hraw =>
    refine ⟨hcov, fun call' h => ?_⟩
    cases h
    exact latestJobPayload_held hbounds hraw
  | capture x c unit requestedAt body year month stop hbounds =>
    obtain ⟨⟨p, hp, hsrc, _⟩, _, _, hsame, _⟩ := Db.persist_spec hnum (some job) (monthSource year month) body requestedAt
    refine ⟨hcov.of_eq hsame hext, fun call' h => ?_⟩
    cases h
    exact ⟨p, hp, .inr ⟨year, month, stop, hbounds, hsrc⟩⟩
  | confirm x c unit requestedAt raw year month stop hbounds hraw =>
    refine ⟨hcov.of_eq rfl hext, fun call' h => ?_⟩
    cases h
    have hheld := (latestSource_held hnum (.inr ⟨year, month, stop, hbounds, rfl⟩) hraw).extend hext
    cases i.current with
    | true => trivial
    | false => exact hheld
  | resolve x c unit raw hraw =>
    refine ⟨hcov, fun call' h => ?_⟩
    cases h
    exact latestSource_held hnum (.inl rfl) hraw
  | pass x c unit raw year month stop hbounds hgames =>
    refine ⟨(hcov.record fun r hr => ?_).of_eq rfl (.of_eq rfl rfl), fun call' h => ?_⟩
    · cases hr
      exact hholds
    · cases h
      trivial
  | gone x c unit status message hstatus =>
    refine ⟨hcov.fail.of_eq rfl (.of_eq rfl rfl), fun call' h => ?_⟩
    cases h
    trivial
  | refuse x c unit status message => exact ⟨hcov.fail, fun _ h => by cases h⟩
  | _ =>
    refine ⟨hcov, fun call' h => ?_⟩
    cases h
    trivial

/-! ## Fetches of a month -/

/-- Every fetch refers to a preserved payload. -/
def Db.Linked (db : Db) : Prop := ∀ f ∈ db.fetchLogs, (db.rawPayload f.rawPayloadId).isSome = true

/-- The successful fetches of a job under a source key. -/
def Db.fetches (db : Db) (job : Nat) (src : Source) : List FetchLog := db.fetchLogs.filter fun f => db.FetchedBy job src f

theorem Db.fetchedBy_extend {src : Source} {f : FetchLog} (hext : db.Extends db') (hlinked : db.Linked)
    (hf : f ∈ db.fetchLogs) : db'.FetchedBy job src f ↔ db.FetchedBy job src f := by
  obtain ⟨p, hp⟩ := Option.isSome_iff_exists.mp (hlinked f hf)
  unfold FetchedBy
  rw [hp, hext.payload hp]

theorem Db.fetches_append {src : Source} {fs : List FetchLog} (hext : db.Extends db') (hlinked : db.Linked)
    (hlogs : db'.fetchLogs = db.fetchLogs ++ fs) :
    db'.fetches job src = db.fetches job src ++ fs.filter fun f => db'.FetchedBy job src f := by
  unfold fetches
  rw [hlogs, List.filter_append]
  congr 1
  refine List.filter_congr fun f hf => ?_
  rw [decide_eq_decide]
  exact fetchedBy_extend hext hlinked hf

/-- What a move appends to the fetches: nothing, a fetch of the index, or a fetch of the month it has requested. -/
theorem Moves.logs {call : Call} {next : Option Call} (h : Moves username job clock db i call db' next)
    (hnum : db.Numbered) :
    db'.fetchLogs = db.fetchLogs ∨ ∃ f p, db'.fetchLogs = db.fetchLogs ++ [f] ∧ f.jobId = some job ∧
      db'.rawPayload f.rawPayloadId = some p ∧ (p.source = .index ∨ ∃ x c unit requestedAt year month stop pc,
        call = .running x c (.requested unit requestedAt) ∧ monthBounds unit = .ok (year, month, stop) ∧
        p.source = monthSource year month ∧ next = some (.running x c pc) ∧
        ∀ unit' at', pc ≠ .requested unit' at') := by
  cases h with
  | captureIndex x requestedAt body =>
    obtain ⟨⟨p, hp, hsrc, _⟩, _, hlogs, _, _⟩ := Db.persist_spec hnum (some job) .index body requestedAt
    exact .inr ⟨_, p, hlogs, rfl, hp, .inl hsrc⟩
  | confirmIndex x requestedAt raw hraw =>
    obtain ⟨p, hp, hsrc, _⟩ := Db.latestSource_spec hnum hraw 0
    exact .inr ⟨_, p, rfl, rfl, hp, .inl hsrc⟩
  | capture x c unit requestedAt body year month stop hbounds =>
    obtain ⟨⟨p, hp, hsrc, _⟩, _, hlogs, _, _⟩ := Db.persist_spec hnum (some job) (monthSource year month) body requestedAt
    exact .inr ⟨_, p, hlogs, rfl, hp, .inr ⟨x, c, unit, requestedAt, year, month, stop, _, rfl, hbounds, hsrc, rfl,
      fun _ _ h => by cases h⟩⟩
  | confirm x c unit requestedAt raw year month stop hbounds hraw =>
    obtain ⟨p, hp, hsrc, _⟩ := Db.latestSource_spec hnum hraw 0
    refine .inr ⟨_, p, rfl, rfl, hp, .inr ⟨x, c, unit, requestedAt, year, month, stop, _, rfl, hbounds, hsrc, rfl,
      fun _ _ h => ?_⟩⟩
    split at h <;> cases h
  | refuseIndex => exact .inl (by simp)
  | absent => exact .inl (by simp)
  | «open» => exact .inl (by simp)
  | keep => exact .inl (by simp [Db.commitMonth])
  | pass => exact .inl (by simp [Db.commitMonth])
  | gone => exact .inl (by simp [Db.commitGone])
  | refuse => exact .inl (by simp)
  | _ => exact .inl rfl

theorem Moves.linked {call : Call} {next : Option Call} (h : Moves username job clock db i call db' next)
    (hnum : db.Numbered) (hlinked : db.Linked) : db'.Linked := by
  have hext := (h.extends hnum).1
  have hkept : ∀ f ∈ db.fetchLogs, (db'.rawPayload f.rawPayloadId).isSome = true := by
    intro f hf
    obtain ⟨p, hp⟩ := Option.isSome_iff_exists.mp (hlinked f hf)
    rw [hext.payload hp]
    rfl
  rcases h.logs hnum with hlogs | ⟨g, p, hlogs, _, hp, _⟩
  · intro f hf
    rw [hlogs] at hf
    exact hkept f hf
  · intro f hf
    rw [hlogs] at hf
    rcases List.mem_append.mp hf with hf | hf
    · exact hkept f hf
    · rw [List.mem_singleton.mp hf, hp]
      rfl

/-- The moves of other jobs are none of this job's fetches and leave its checkpoint. -/
theorem Moves.others {call : Call} {next : Option Call} {other : Nat}
    (h : Moves username other clock db i call db' next) (hnum : db.Numbered) (hlinked : db.Linked) (hne : job ≠ other) :
    (∀ src, db'.fetches job src = db.fetches job src) ∧ db'.checkpoints job = db.checkpoints job := by
  have hext := (h.extends hnum).1
  refine ⟨fun src => ?_, ?_⟩
  · rcases h.logs hnum with hlogs | ⟨f, p, hlogs, hjob, _⟩
    · have happ : db'.fetches job src = _ := Db.fetches_append hext hlinked (hlogs.trans (List.append_nil _).symm)
      rw [happ]
      simp
    · have happ : db'.fetches job src = _ := Db.fetches_append hext hlinked hlogs
      have hforeign : ¬ db'.FetchedBy job src f := by
        rintro ⟨hmine, _⟩
        rw [hjob] at hmine
        exact hne (Option.some.inj hmine).symm
      rw [happ]
      simp [hforeign]
  · cases h with
    | captureIndex => exact congrFun (Db.persist_spec hnum _ _ _ _).2.2.2.2 job
    | capture => exact congrFun (Db.persist_spec hnum _ _ _ _).2.2.2.2 job
    | refuseIndex => exact congrFun (Db.recordFailure_checkpoints _ _ _ _) job
    | absent => exact congrFun (Db.recordCoverage_checkpoints _ _) job
    | «open» x units =>
      exact (Function.update_of_ne hne _ _).trans (congrFun (Db.recordPending_spec units x.now).2.2.1 job)
    | finish => exact Function.update_of_ne hne _ _
    | keep => exact (Function.update_of_ne hne _ _).trans (congrFun (Db.recordCoverage_checkpoints _ _) job)
    | pass => exact (Function.update_of_ne hne _ _).trans (congrFun (Db.recordCoverage_checkpoints _ _) job)
    | gone => exact (Function.update_of_ne hne _ _).trans (congrFun (Db.recordFailure_checkpoints _ _ _ _) job)
    | refuse => exact congrFun (Db.recordFailure_checkpoints _ _ _ _) job
    | _ => rfl

/-! ## The invariant of a worker-run job -/

/-- The job runs under a work budget whenever it runs; other jobs run as they like. -/
def workerRun (job : Nat) (_ : State) : Event → Bool
  | .advance j i => decide (j ≠ job) || i.budgeted
  | _ => true

structure Collecting (username : String) (job : Nat) (s : State) : Prop where
  numbered : s.db.Numbered
  linked : s.db.Linked
  covered : s.db.Covered
  holds : ∀ j call, s.calls j = some call → call.Holds s.db
  sound : ∀ c, s.db.checkpoints job = some c → c.Sound username s.db
  tracks : ∀ call, s.calls job = some call → call.Tracks username job s.db
  once : ∀ year month, (s.db.fetches job (monthSource year month)).length ≤ 1
  unfetched : ∀ x c unit requestedAt, s.calls job = some (.running x c (.requested unit requestedAt)) →
    ∀ year month stop, monthBounds unit = .ok (year, month, stop) → s.db.fetches job (monthSource year month) = []

/-- A step after which the job's call, checkpoint and fetches are what they were. -/
theorem Collecting.frame (hs : Collecting username job s) (hext : s.db.Extends t.db) (hnum : t.db.Numbered)
    (hlinked : t.db.Linked) (hcov : t.db.Covered) (hholds : ∀ j call, t.calls j = some call → call.Holds t.db)
    (hcheck : t.db.checkpoints job = s.db.checkpoints job) (hcall : t.calls job = s.calls job)
    (hfetches : ∀ src, t.db.fetches job src = s.db.fetches job src) : Collecting username job t where
  numbered := hnum
  linked := hlinked
  covered := hcov
  holds := hholds
  sound c hc := by
    rw [hcheck] at hc
    exact (hs.sound c hc).extend hext
  tracks call htcall := by
    rw [hcall] at htcall
    exact (hs.tracks call htcall).frame hext hcheck
  once year month := by
    rw [hfetches]
    exact hs.once year month
  unfetched x c unit requestedAt htcall year month stop hbounds := by
    rw [hcall] at htcall
    rw [hfetches]
    exact hs.unfetched x c unit requestedAt htcall year month stop hbounds

theorem Call.Holds.extend {call : Call} (h : call.Holds db) (hext : db.Extends db') : call.Holds db' := by
  cases call with
  | running x c pc => exact Pc.Holds.extend h hext
  | _ => trivial

/-- The calls after a step of one job. -/
theorem holds_update (j : Nat) {next : Option Call} (hholds : ∀ j call, s.calls j = some call → call.Holds s.db)
    (hext : s.db.Extends db') (hnext : ∀ call, next = some call → call.Holds db') :
    ∀ k call, Function.update s.calls j next k = some call → call.Holds db' := by
  intro k call hk
  by_cases hkj : k = j
  · subst hkj
    rw [Function.update_self] at hk
    exact hnext call hk
  · rw [Function.update_of_ne hkj] at hk
    exact (hholds k call hk).extend hext

theorem Moves.once {call : Call} {next : Option Call} (hs : Collecting username job s)
    (hcall : s.calls job = some call) (h : Moves username job s.clock s.db i call db' next) (year month : Nat) :
    (db'.fetches job (monthSource year month)).length ≤ 1 := by
  have hext := (h.extends hs.numbered).1
  rcases h.logs hs.numbered with hlogs | ⟨f, p, hlogs, _, hp, hof⟩
  · rw [Db.fetches_append hext hs.linked (hlogs.trans (List.append_nil _).symm), List.filter_nil, List.append_nil]
    exact hs.once year month
  · rw [Db.fetches_append hext hs.linked hlogs]
    by_cases hmine : db'.FetchedBy job (monthSource year month) f
    · have hsrc : p.source = monthSource year month := by
        have hsrc := hmine.2
        rw [hp] at hsrc
        exact Option.some.inj hsrc
      rcases hof with hindex | ⟨x, c, unit, requestedAt, year', month', stop, _, hpc, hbounds, hmonth, _⟩
      · rw [hindex] at hsrc
        cases hsrc
      · subst hpc
        rw [← hsrc, hmonth, hs.unfetched x c unit requestedAt hcall year' month' stop hbounds]
        exact List.length_filter_le _ _
    · simpa [hmine] using hs.once year month

theorem Moves.unfetched {call : Call} {next : Option Call} (hs : Collecting username job s)
    (hcall : s.calls job = some call) (hbudget : i.budgeted = true)
    (h : Moves username job s.clock s.db i call db' next) {x : Exec} {c : Cursor} {unit : String} {requestedAt : Int}
    (hnext : next = some (.running x c (.requested unit requestedAt))) {year month : Nat} {stop : Int}
    (hbounds : monthBounds unit = .ok (year, month, stop)) : db'.fetches job (monthSource year month) = [] := by
  cases h with
  | request x' c' unit' year' month' stop' hbounds' hraw =>
    cases hnext
    rw [hbounds] at hbounds'
    cases hbounds'
    rw [if_pos hbudget] at hraw
    refine List.filter_eq_nil_iff.mpr fun f hf => ?_
    rw [decide_eq_true_eq]
    exact Db.latestJobPayload_none hraw f hf
  | retry x' c' unit' requestedAt' hresponse =>
    cases hnext
    exact hs.unfetched x c unit requestedAt' hcall year month stop hbounds
  | confirm x' c' unit' requestedAt' raw =>
    split at hnext <;> cases hnext
  | _ => cases hnext

theorem step_collecting {e : Event} (hs : Collecting username job s) (hok : workerRun job s e = true)
    (h : step username s e = some t) : Collecting username job t := by
  cases e with
  | clock time =>
    cases h
    exact hs.frame (.refl _) hs.numbered hs.linked hs.covered hs.holds rfl rfl fun _ => rfl
  | enter j params stop =>
    unfold step at h
    dsimp only at h
    split at h
    · cases h
    · cases h
      have hnew : ∀ call, enter username s j params stop = some call → call.Holds s.db := by
        intro call hcall
        cases call with
        | running x c pc =>
          rw [enter_head hcall]
          trivial
        | _ => trivial
      have hholds := holds_update j hs.holds (.refl s.db) hnew
      by_cases hj : job = j
      · subst hj
        refine ⟨hs.numbered, hs.linked, hs.covered, hholds, hs.sound, fun call hcall => ?_, hs.once, ?_⟩
        · exact enter_tracks ((Function.update_self job _ s.calls).symm.trans hcall)
        · intro x c unit requestedAt hcall
          cases enter_head ((Function.update_self job _ s.calls).symm.trans hcall)
      · exact hs.frame (.refl _) hs.numbered hs.linked hs.covered hholds rfl (Function.update_of_ne hj _ _) fun _ => rfl
  | advance j i =>
    obtain ⟨call, db', next, hcall, hmove, rfl⟩ := step_advance h
    obtain ⟨hext, hnum⟩ := hmove.extends hs.numbered
    have hlinked := hmove.linked hs.numbered hs.linked
    obtain ⟨hcov, hnext⟩ := hmove.holds hs.numbered hs.covered (hs.holds j call hcall)
    have hholds := holds_update j hs.holds hext hnext
    by_cases hj : job = j
    · subst hj
      obtain ⟨hcursor, htracks⟩ := hmove.tracks hs.numbered (hs.tracks call hcall)
      have hbudget : i.budgeted = true := by simpa [workerRun] using hok
      refine ⟨hnum, hlinked, hcov, hholds, fun c hc => (hcursor.sound hs.sound c hc).extend hext, fun call' hcall' => ?_,
        hmove.once hs hcall, fun x c unit requestedAt hcall' year month stop hbounds => ?_⟩
      · exact htracks call' ((Function.update_self job _ s.calls).symm.trans hcall')
      · exact hmove.unfetched hs hcall hbudget ((Function.update_self job _ s.calls).symm.trans hcall') hbounds
    · obtain ⟨hfetches, hcheck⟩ := hmove.others hs.numbered hs.linked hj
      exact hs.frame hext hnum hlinked hcov hholds hcheck (Function.update_of_ne hj _ _) hfetches
  | crash j =>
    cases h
    have hholds := holds_update j hs.holds (.refl s.db) (fun call (h : none = some call) => by cases h)
    by_cases hj : job = j
    · subst hj
      refine ⟨hs.numbered, hs.linked, hs.covered, hholds, hs.sound, fun call hcall => ?_, hs.once, ?_⟩
      · cases (Function.update_self job _ s.calls).symm.trans hcall
      · intro x c unit requestedAt hcall
        cases (Function.update_self job _ s.calls).symm.trans hcall
    · exact hs.frame (.refl _) hs.numbered hs.linked hs.covered hholds rfl (Function.update_of_ne hj _ _) fun _ => rfl
  | observe year month body requestedAt =>
    unfold step at h
    dsimp only at h
    split at h
    · cases h
      obtain ⟨hext, hnum⟩ := Db.persist_extends hs.numbered none (monthSource year month) body requestedAt
      obtain ⟨⟨p, hp, _, _⟩, _, hlogs, hcov, hcheck⟩ :=
        Db.persist_spec hs.numbered none (monthSource year month) body requestedAt
      refine hs.frame hext hnum ?_ (hs.covered.of_eq hcov hext) (fun j call hcall => (hs.holds j call hcall).extend hext)
        (congrFun hcheck job) rfl fun src => ?_
      · intro f hf
        rw [hlogs] at hf
        rcases List.mem_append.mp hf with hf | hf
        · obtain ⟨q, hq⟩ := Option.isSome_iff_exists.mp (hs.linked f hf)
          rw [hext.payload hq]
          rfl
        · rw [List.mem_singleton.mp hf, hp]
          rfl
      · rw [Db.fetches_append hext hs.linked hlogs]
        simp [Db.FetchedBy]
    · cases h

theorem init_collecting (h : (chesscom username).init s) : Collecting username job s := by
  obtain ⟨hdb, hcalls⟩ := h
  obtain ⟨db, clock, calls⟩ := s
  dsimp only at hdb hcalls
  subst hdb
  have hnone : ∀ j call, calls j ≠ some call := by
    intro j call hcall
    rw [hcalls j] at hcall
    cases hcall
  refine ⟨⟨fun p hp => absurd hp List.not_mem_nil, fun p hp => absurd hp List.not_mem_nil⟩,
    fun f hf => absurd hf List.not_mem_nil, fun unit row raw hrow => ?_, fun j call hcall => absurd hcall (hnone j call),
    fun c hc => ?_, fun call hcall => absurd hcall (hnone job call), fun year month => ?_,
    fun x c unit requestedAt hcall => absurd hcall (hnone job _)⟩
  · cases hrow
  · cases hc
  · exact Nat.zero_le 1

theorem collecting_of_trace {s₀ : State} {es : List Event} (h0 : (chesscom username).init s₀)
    (h : Trace (chesscom username) (fun s e => workerRun job s e = true) s₀ es s) : Collecting username job s :=
  h.keeps (fun _ _ _ _ hs hok hstep => step_collecting hs hok hstep) (init_collecting h0)

/-! ## Passing a month -/

/-- Coverage that settles a month: complete with a preserved body of the month whose games are a list, or missing after
the provider's 404 or 410. -/
def Settles (job : Nat) (s : State) (unit : String) (row : CoverageRow) : Prop :=
  (row.state = .complete ∧ ∃ p n, row.rawPayloadId = some p.id ∧ s.db.rawPayload p.id = some p ∧ OfMonth unit p.source ∧
      p.body.games = some n) ∨
    row.state = .missing ∧ ∃ x c status message,
      s.calls job = some (.running x c (.refused unit status message)) ∧ (status = 404 ∨ status = 410)

/-- One transaction takes the cursor past its unit and records settling coverage with the execution's time; a row with a
later time stays. -/
def Passes (job n : Nat) (unit : String) (s : State) (db' : Db) : Prop :=
  ∃ x c pc row, s.calls job = some (.running x c pc) ∧ s.db.checkpoints job = some c ∧ c.unitIndex = n ∧
    c.units[n]? = some unit ∧ db'.checkpoints job = some c.next ∧ Settles job s unit row ∧ row.fetchedAt = x.now ∧
    (db'.coverage unit = some row ∨
      ∃ old, s.db.coverage unit = some old ∧ x.now < old.fetchedAt ∧ db'.coverage unit = some old)

theorem recordCoverage_settles {unit : String} (new : CoverageRow)
    (h : ∀ raw, (raw = new.rawPayloadId ∨ new.rawPayloadId = none) → Settles job s unit { new with rawPayloadId := raw }) :
    ∃ row, Settles job s unit row ∧ row.fetchedAt = new.fetchedAt ∧
      ((s.db.recordCoverage unit new).coverage unit = some row ∨
        ∃ old, s.db.coverage unit = some old ∧ new.fetchedAt < old.fetchedAt ∧
          (s.db.recordCoverage unit new).coverage unit = some old) := by
  rcases (Db.recordCoverage_coverage s.db unit new).2 with ⟨raw, hraw, hset⟩ | hlate
  · refine ⟨_, h raw ?_, rfl, .inl hset⟩
    rcases hraw with hraw | ⟨hnone, _⟩
    · exact .inl hraw
    · exact .inr hnone
  · exact ⟨_, h new.rawPayloadId (.inl rfl), rfl, .inr hlate⟩

/-- A body that the call holds and whose games are a list settles the month. -/
theorem settles_complete {unit : String} {raw : Nat} {now : Int} {isSealed : Bool} (hheld : s.db.Held unit raw)
    (hgames : (s.db.games raw).isSome = true) :
    ∀ r, (r = some raw ∨ some raw = none) → Settles job s unit ⟨.complete, r, now, none, isSealed⟩ := by
  rintro r (rfl | h)
  · obtain ⟨p, hp, hmonth⟩ := hheld
    obtain ⟨n, hn⟩ := Option.isSome_iff_exists.mp hgames
    rw [Db.games, hp] at hn
    have hid := (Db.mem_of_rawPayload hp).2
    exact .inl ⟨rfl, p, n, congrArg some hid.symm, hid ▸ hp, hmonth, hn⟩
  · cases h

theorem Moves.passes {call : Call} {next : Option Call} (hs : Collecting username job s)
    (hcall : s.calls job = some call) (h : Moves username job s.clock s.db i call db' next) {c c' : Cursor}
    (hbefore : s.db.checkpoints job = some c) (hafter : db'.checkpoints job = some c')
    (hmoved : c'.unitIndex ≠ c.unitIndex) : ∃ unit, Passes job c.unitIndex unit s db' := by
  have htracks := hs.tracks call hcall
  have hsame : db'.checkpoints job ≠ s.db.checkpoints job := by
    intro heq
    rw [heq, hbefore] at hafter
    cases hafter
    exact hmoved rfl
  cases h with
  | keep x c₁ unit raw hgames =>
    obtain rfl : c = c₁ := Option.some.inj (hbefore.symm.trans htracks.1)
    obtain ⟨row, hsettles, htime, hrow⟩ := recordCoverage_settles ⟨.complete, some raw, x.now, none, true⟩
      (settles_complete (hs.holds job _ hcall) hgames)
    exact ⟨unit, x, c, _, row, hcall, hbefore, rfl, htracks.2.2.2 unit rfl, saveCheckpoint_self _, hsettles, htime, hrow⟩
  | pass x c₁ unit raw year month stop hbounds hgames =>
    obtain rfl : c = c₁ := Option.some.inj (hbefore.symm.trans htracks.1)
    obtain ⟨row, hsettles, htime, hrow⟩ := recordCoverage_settles
      ⟨.complete, some raw, x.now, none, decide (stop ≤ x.now)⟩ (settles_complete (hs.holds job _ hcall) hgames)
    exact ⟨unit, x, c, _, row, hcall, hbefore, rfl, htracks.2.2.2 unit rfl, saveCheckpoint_self _, hsettles, htime, hrow⟩
  | gone x c₁ unit status message hstatus =>
    obtain rfl : c = c₁ := Option.some.inj (hbefore.symm.trans htracks.1)
    obtain ⟨row, hsettles, htime, hrow⟩ := recordCoverage_settles
      ⟨if status = 404 ∨ status = 410 then .missing else .error, none, x.now, some message, false⟩
      fun _ _ => .inr ⟨if_pos hstatus, x, c, status, message, hcall, hstatus⟩
    exact ⟨unit, x, c, _, row, hcall, hbefore, rfl, htracks.2.2.2 unit rfl, saveCheckpoint_self _, hsettles, htime, hrow⟩
  | «open» x units =>
    rw [htracks.1] at hbefore
    cases hbefore
  | finish x c₁ hend =>
    obtain rfl : c = c₁ := Option.some.inj (hbefore.symm.trans htracks.1)
    rw [saveCheckpoint_self] at hafter
    cases hafter
    exact absurd rfl hmoved
  | captureIndex => exact absurd (congrFun (Db.persist_spec hs.numbered _ _ _ _).2.2.2.2 job) hsame
  | capture => exact absurd (congrFun (Db.persist_spec hs.numbered _ _ _ _).2.2.2.2 job) hsame
  | refuseIndex => exact absurd (congrFun (Db.recordFailure_checkpoints _ _ _ _) job) hsame
  | absent => exact absurd (congrFun (Db.recordCoverage_checkpoints _ _) job) hsame
  | refuse => exact absurd (congrFun (Db.recordFailure_checkpoints _ _ _ _) job) hsame
  | _ => exact absurd rfl hsame

/-- Only a step of the job's own call touches its checkpoint. -/
theorem step_checkpoint {e : Event} (hs : Collecting username job s) (h : step username s e = some t) :
    t.db.checkpoints job = s.db.checkpoints job ∨ ∃ i call db' next, s.calls job = some call ∧
      Moves username job s.clock s.db i call db' next ∧ t.db = db' := by
  cases e with
  | clock time =>
    cases h
    exact .inl rfl
  | enter j params stop =>
    unfold step at h
    dsimp only at h
    split at h
    · cases h
    · cases h
      exact .inl rfl
  | advance j i =>
    obtain ⟨call, db', next, hcall, hmove, rfl⟩ := step_advance h
    by_cases hj : job = j
    · subst hj
      exact .inr ⟨i, call, db', next, hcall, hmove, rfl⟩
    · exact .inl (hmove.others hs.numbered hs.linked hj).2
  | crash j =>
    cases h
    exact .inl rfl
  | observe year month body requestedAt =>
    unfold step at h
    dsimp only at h
    split at h
    · cases h
      exact .inl (congrFun (Db.persist_spec hs.numbered _ _ _ _).2.2.2.2 job)
    · cases h

/-- A step keeps the units of the cursor, and moves on by one month at most and only by passing it. -/
theorem step_cursor {e : Event} {c : Cursor} (hs : Collecting username job s) (h : step username s e = some t)
    (hc : s.db.checkpoints job = some c) :
    ∃ c', t.db.checkpoints job = some c' ∧ c'.units = c.units ∧ (c'.unitIndex = c.unitIndex ∨
      c'.unitIndex = c.unitIndex + 1 ∧ ∃ unit, Passes job c.unitIndex unit s t.db) := by
  rcases step_checkpoint hs h with hsame | ⟨i, call, db', next, hcall, hmove, rfl⟩
  · exact ⟨c, hsame.trans hc, rfl, .inl rfl⟩
  · have hpasses : ∀ c', t.db.checkpoints job = some c' → c'.unitIndex ≠ c.unitIndex →
        ∃ unit, Passes job c.unitIndex unit s t.db := fun _ => hmove.passes hs hcall hc
    cases (hmove.tracks hs.numbered (hs.tracks call hcall)).1 with
    | same hsame => exact ⟨c, hsame.trans hc, rfl, .inl rfl⟩
    | opened c' hnone =>
      rw [hnone] at hc
      cases hc
    | passed c' unit hbefore hafter =>
      obtain rfl : c = c' := Option.some.inj (hc.symm.trans hbefore)
      exact ⟨c.next, hafter, rfl, .inr ⟨rfl, hpasses c.next hafter (Nat.succ_ne_self _)⟩⟩
    | closed c' hbefore hafter =>
      obtain rfl : c = c' := Option.some.inj (hc.symm.trans hbefore)
      exact ⟨_, hafter, rfl, .inl rfl⟩

theorem step_opens {e : Event} {c : Cursor} (hs : Collecting username job s) (h : step username s e = some t)
    (hnone : s.db.checkpoints job = none) (hc : t.db.checkpoints job = some c) : c.unitIndex = 0 := by
  rcases step_checkpoint hs h with hsame | ⟨i, call, db', next, hcall, hmove, rfl⟩
  · rw [hsame, hnone] at hc
    cases hc
  · cases (hmove.tracks hs.numbered (hs.tracks call hcall)).1 with
    | same hsame =>
      rw [hsame, hnone] at hc
      cases hc
    | opened c' _ hafter _ hzero =>
      rw [hafter] at hc
      cases hc
      exact hzero
    | passed c' unit hbefore =>
      rw [hnone] at hbefore
      cases hbefore
    | closed c' hbefore =>
      rw [hnone] at hbefore
      cases hbefore

/-! ## Every run -/

/-- The run goes through a step that passes the unit. -/
def PassedIn (username : String) (job : Nat) (s₀ : State) (es : List Event) (s : State) (unit : String) : Prop :=
  ∃ n es₁ e es₂ u v, es = es₁ ++ e :: es₂ ∧
    Trace (chesscom username) (fun s e => workerRun job s e = true) s₀ es₁ u ∧ step username u e = some v ∧
    Trace (chesscom username) (fun s e => workerRun job s e = true) v es₂ s ∧ Passes job n unit u v.db

theorem passed_before {s₀ : State} {es : List Event} (h0 : (chesscom username).init s₀)
    (hrun : Trace (chesscom username) (fun s e => workerRun job s e = true) s₀ es s) :
    ∀ c, s.db.checkpoints job = some c → ∀ n unit, n < c.unitIndex → c.units[n]? = some unit →
      PassedIn username job s₀ es s unit := by
  refine hrun.history (P := fun es s => ∀ c, s.db.checkpoints job = some c → ∀ n unit, n < c.unitIndex →
    c.units[n]? = some unit → PassedIn username job s₀ es s unit) ?_ ?_
  · intro c hc
    rw [h0.1] at hc
    cases hc
  · intro es s e t hs ih hok hstep c' hc' n unit hn hunit
    have hinv := collecting_of_trace h0 hs
    cases hc : s.db.checkpoints job with
    | none =>
      have := step_opens hinv hstep hc hc'
      omega
    | some c =>
      obtain ⟨c'', hc'', hunits, hindex⟩ := step_cursor hinv hstep hc
      obtain rfl : c' = c'' := Option.some.inj (hc'.symm.trans hc'')
      rw [hunits] at hunit
      by_cases hold : n < c.unitIndex
      · obtain ⟨m, es₁, e₁, es₂, u, v, rfl, hu, huv, hv, hpass⟩ := ih c hc n unit hold hunit
        exact ⟨m, es₁, e₁, es₂ ++ [e], u, v, by simp, hu, huv, hv.snoc hok hstep, hpass⟩
      · obtain ⟨hnext, unit', hpass⟩ : c'.unitIndex = c.unitIndex + 1 ∧ ∃ unit, Passes job c.unitIndex unit s t.db := by
          rcases hindex with hsame | hnext
          · omega
          · exact hnext
        obtain rfl : n = c.unitIndex := by omega
        obtain ⟨_, c₁, _, _, _, hc₁, _, hunit', _⟩ := id hpass
        obtain rfl : c = c₁ := Option.some.inj (hc.symm.trans hc₁)
        obtain rfl : unit = unit' := Option.some.inj (hunit.symm.trans hunit')
        exact ⟨_, es, e, [], s, t, rfl, hs, hstep, .nil t, hpass⟩

/-- Over any executions of a worker-run job, among any other jobs and at any clock readings: a step keeps the inventory
and takes the cursor at most past one month, in a transaction that settles it; a finished job has so passed every selected
month of a preserved index; and a month is fetched at most once. -/
theorem inventory_never_skips {s₀ : State} {es : List Event} (h0 : (chesscom username).init s₀)
    (hrun : Trace (chesscom username) (fun s e => workerRun job s e = true) s₀ es s) :
    (∀ e t c, workerRun job s e = true → step username s e = some t → s.db.checkpoints job = some c →
      ∃ c', t.db.checkpoints job = some c' ∧ c'.units = c.units ∧ (c'.unitIndex = c.unitIndex ∨
        c'.unitIndex = c.unitIndex + 1 ∧ ∃ unit, Passes job c.unitIndex unit s t.db)) ∧
    (∀ c, s.db.checkpoints job = some c → c.done = true →
      ∃ p x urls, s.db.rawPayload p.id = some p ∧ p.source = .index ∧ p.body.archives = some urls ∧
        x.params.fingerprint = c.requestFingerprint ∧ x.Windowed ∧
        ∀ unit, Selected username x urls unit → PassedIn username job s₀ es s unit) ∧
    ∀ year month, (s.db.fetches job (monthSource year month)).length ≤ 1 := by
  have hinv := collecting_of_trace h0 hrun
  refine ⟨fun e t c _ hstep hc => step_cursor hinv hstep hc, fun c hc hdone => ?_, hinv.once⟩
  have hsound := hinv.sound c hc
  obtain ⟨p, x, rest, hp, hindex, hparams, hsince, huntil, hunits⟩ := hsound.inventoried
  obtain ⟨urls, hurls, _, hmem⟩ := inventory_mem hunits
  refine ⟨p, x, urls, hp, hindex, hurls, hparams, ⟨hsince, huntil⟩, fun unit hselected => ?_⟩
  obtain ⟨n, hn⟩ := List.getElem?_of_mem ((hmem unit).mpr hselected)
  refine passed_before h0 hrun c hc n unit ?_ hn
  rw [hsound.finished hdone]
  exact (List.getElem?_eq_some_iff.mp hn).1

/-- A job that finishes, in two executions. -/
theorem inventory_never_skips_resumed : ∃ es s c,
    Trace (chesscom "ada") (fun s e => workerRun 1 s e = true) blank es s ∧ s.db.checkpoints 1 = some c ∧
      c.done = true ∧ ∃ p x urls, s.db.rawPayload p.id = some p ∧ p.source = .index ∧ p.body.archives = some urls ∧
        x.params.fingerprint = c.requestFingerprint ∧ x.Windowed ∧
        ∀ unit, Selected "ada" x urls unit → PassedIn "ada" 1 blank es s unit := by
  have hrun : (exec (chesscom "ada") (fun s e => workerRun 1 s e = true) blank
      (closingTrace ++ [answer 1 .retry])).map (fun s => (s.db.checkpoints 1).any Cursor.done) = some true := by
    decide +kernel
  obtain ⟨s, hs, hdone⟩ := Option.map_eq_some_iff.mp hrun
  have htrace := Trace.of_exec _ hs
  cases hc : s.db.checkpoints 1 with
  | none =>
    rw [hc] at hdone
    cases hdone
  | some c =>
    rw [hc] at hdone
    exact ⟨_, s, c, htrace, hc, hdone, (inventory_never_skips blank_init htrace).2.1 c hc hdone⟩

/-- One job: its clock is set back by a second after its inventory. -/
def rewoundTrace : List Event :=
  toInventory 1 1706745601 ++ [.crash 1, .clock 1706745600, .enter 1 fullHistory false] ++ toRequest 1 ++
    [answer 1 (.ok adaMonth)]

/-- Two jobs: the second begins a second later and fails on the month that the first has captured. -/
def racingTrace : List Event :=
  toInventory 1 1706700000 ++ toRequest 1 ++ [answer 1 (.ok adaMonth)] ++ toInventory 2 1706700001 ++ toRequest 2 ++
    [answer 2 (.failed 500 "HTTP 500; no raw payload stored"), answer 2 .retry]

/-- A month is passed and has neither complete nor missing coverage, with one job and with two. -/
theorem later_row_outlives_passing :
    (∃ s t, exec (chesscom "ada") (fun s e => workerRun 1 s e = true) blank rewoundTrace = some s ∧
      step "ada" s (answer 1 .retry) = some t ∧ (s.db.checkpoints 1).map Cursor.unitIndex = some 0 ∧
      (t.db.checkpoints 1).map Cursor.unitIndex = some 1 ∧
      (t.db.coverage "2024/01").map CoverageRow.state = some .pending) ∧
    ∃ s t, exec (chesscom "ada") (fun s e => workerRun 1 s e = true) blank racingTrace = some s ∧
      step "ada" s (answer 1 .retry) = some t ∧ (s.db.checkpoints 1).map Cursor.unitIndex = some 0 ∧
      (t.db.checkpoints 1).map Cursor.unitIndex = some 1 ∧
      (t.db.coverage "2024/01").map CoverageRow.state = some .error := by
  have hrun : ∀ es state, (exec (chesscom "ada") (fun s e => workerRun 1 s e = true) blank es).any (fun s =>
      (step "ada" s (answer 1 .retry)).any fun t => decide ((s.db.checkpoints 1).map Cursor.unitIndex = some 0 ∧
        (t.db.checkpoints 1).map Cursor.unitIndex = some 1 ∧
        (t.db.coverage "2024/01").map CoverageRow.state = some state)) = true →
      ∃ s t, exec (chesscom "ada") (fun s e => workerRun 1 s e = true) blank es = some s ∧
        step "ada" s (answer 1 .retry) = some t ∧ (s.db.checkpoints 1).map Cursor.unitIndex = some 0 ∧
        (t.db.checkpoints 1).map Cursor.unitIndex = some 1 ∧
        (t.db.coverage "2024/01").map CoverageRow.state = some state := by
    intro es state h
    obtain ⟨s, hs, h⟩ := (Option.any_eq_true _ _).mp h
    obtain ⟨t, ht, h⟩ := (Option.any_eq_true _ _).mp h
    exact ⟨s, t, hs, ht, of_decide_eq_true h⟩
  exact ⟨hrun rewoundTrace .pending (by decide +kernel), hrun racingTrace .error (by decide +kernel)⟩

end ChessCrawl.Monthly
