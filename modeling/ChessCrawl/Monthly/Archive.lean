import ChessCrawl.Monthly.Chesscom

/-! What the queries of the monthly archive find, and what its writes keep: payloads and fetches are never taken back, so
an observation once made stays made. -/
namespace ChessCrawl.Monthly
open ChessCrawl.Acquisition
set_option autoImplicit false

variable {db db' : Db} {raw : Nat} {src : Source} {job : Nat} {time : Int}

namespace Db

/-! ## Growth -/

/-- Every payload is found under its own number. -/
structure Numbered (db : Db) : Prop where
  found : ∀ p ∈ db.rawPayloads, db.rawPayload p.id = some p
  bound : ∀ p ∈ db.rawPayloads, p.id ≤ db.rawPayloads.length

structure Extends (db db' : Db) : Prop where
  payload : ∀ {raw p}, db.rawPayload raw = some p → db'.rawPayload raw = some p
  log : ∀ f ∈ db.fetchLogs, f ∈ db'.fetchLogs

theorem Extends.refl (db : Db) : db.Extends db := ⟨fun h => h, fun _ h => h⟩

theorem Extends.trans {db'' : Db} (h : db.Extends db') (h' : db'.Extends db'') : db.Extends db'' :=
  ⟨fun hp => h'.payload (h.payload hp), fun f hf => h'.log f (h.log f hf)⟩

theorem Extends.of_eq (hp : db'.rawPayloads = db.rawPayloads) (hl : db'.fetchLogs = db.fetchLogs) : db.Extends db' := by
  constructor
  · intro raw p h
    rw [rawPayload, hp]
    exact h
  · intro f hf
    rw [hl]
    exact hf

theorem Numbered.of_eq (h : db.Numbered) (hp : db'.rawPayloads = db.rawPayloads) : db'.Numbered := by
  constructor
  · intro p hmem
    rw [hp] at hmem
    rw [rawPayload, hp]
    exact h.found p hmem
  · intro p hmem
    rw [hp] at hmem ⊢
    exact h.bound p hmem

theorem mem_of_rawPayload {p : RawPayload} (h : db.rawPayload raw = some p) : p ∈ db.rawPayloads ∧ p.id = raw :=
  ⟨List.mem_of_find?_eq_some h, by simpa using List.find?_some h⟩

/-! ## Writes beside the archive -/

@[simp] theorem recordCoverage_rawPayloads (unit : String) (row : CoverageRow) :
    (db.recordCoverage unit row).rawPayloads = db.rawPayloads := by
  unfold recordCoverage
  split
  · rfl
  · split <;> rfl

@[simp] theorem recordCoverage_fetchLogs (unit : String) (row : CoverageRow) :
    (db.recordCoverage unit row).fetchLogs = db.fetchLogs := by
  unfold recordCoverage
  split
  · rfl
  · split <;> rfl

@[simp] theorem recordCoverage_checkpoints (unit : String) (row : CoverageRow) :
    (db.recordCoverage unit row).checkpoints = db.checkpoints := by
  unfold recordCoverage
  split
  · rfl
  · split <;> rfl

/-- A row of `record_coverage` under another key stays; under its own key the new row stands unless a later one did. -/
theorem recordCoverage_coverage (db : Db) (unit : String) (row : CoverageRow) :
    (∀ other, other ≠ unit → (db.recordCoverage unit row).coverage other = db.coverage other) ∧
      ((∃ raw, (raw = row.rawPayloadId ∨ row.rawPayloadId = none ∧ ∃ old, db.coverage unit = some old ∧
          raw = old.rawPayloadId) ∧
          (db.recordCoverage unit row).coverage unit = some { row with rawPayloadId := raw }) ∨
        ∃ old, db.coverage unit = some old ∧ row.fetchedAt < old.fetchedAt ∧
          (db.recordCoverage unit row).coverage unit = some old) := by
  unfold recordCoverage
  split
  · refine ⟨fun other hne => Function.update_of_ne hne _ _, .inl ⟨row.rawPayloadId, .inl rfl, ?_⟩⟩
    exact Function.update_self unit _ _
  · next old hold =>
    split
    · refine ⟨fun other hne => Function.update_of_ne hne _ _, .inl ⟨_, ?_, Function.update_self unit _ _⟩⟩
      cases hraw : row.rawPayloadId with
      | none => exact .inr ⟨rfl, old, hold, rfl⟩
      | some raw => exact .inl rfl
    · next hlate => exact ⟨fun _ _ => rfl, .inr ⟨old, hold, by omega, hold⟩⟩

@[simp] theorem recordFailure_rawPayloads (unit : String) (status : Nat) (message : String) (now : Int) :
    (db.recordFailure unit status message now).rawPayloads = db.rawPayloads :=
  recordCoverage_rawPayloads _ _

@[simp] theorem recordFailure_fetchLogs (unit : String) (status : Nat) (message : String) (now : Int) :
    (db.recordFailure unit status message now).fetchLogs = db.fetchLogs :=
  recordCoverage_fetchLogs _ _

@[simp] theorem recordFailure_checkpoints (unit : String) (status : Nat) (message : String) (now : Int) :
    (db.recordFailure unit status message now).checkpoints = db.checkpoints :=
  recordCoverage_checkpoints _ _

/-- The pending rows only fill gaps. -/
theorem recordPending_spec (units : List String) (now : Int) :
    (db.recordPending units now).rawPayloads = db.rawPayloads ∧
      (db.recordPending units now).fetchLogs = db.fetchLogs ∧
      (db.recordPending units now).checkpoints = db.checkpoints ∧
      ∀ unit row, (db.recordPending units now).coverage unit = some row →
        db.coverage unit = some row ∨ row = ⟨.pending, none, now, none, false⟩ := by
  induction units generalizing db with
  | nil => exact ⟨rfl, rfl, rfl, fun _ _ h => .inl h⟩
  | cons unit units ih =>
    unfold recordPending
    rw [List.foldl_cons]
    split
    · next hnone =>
      obtain ⟨hp, hl, hc, hcov⟩ := @ih (db.recordCoverage unit ⟨.pending, none, now, none, false⟩)
      refine ⟨hp.trans (recordCoverage_rawPayloads _ _), hl.trans (recordCoverage_fetchLogs _ _),
        hc.trans (recordCoverage_checkpoints _ _), fun other row hrow => ?_⟩
      rcases hcov other row hrow with hold | hnew
      · rw [recordCoverage, Option.isNone_iff_eq_none.mp hnone] at hold
        by_cases hother : other = unit
        · subst hother
          exact .inr (Option.some.inj ((Function.update_self other _ db.coverage).symm.trans hold)).symm
        · exact .inl ((Function.update_of_ne hother _ db.coverage).symm.trans hold)
      · exact .inr hnew
    · exact @ih db

@[simp] theorem recordPending_rawPayloads (units : List String) (now : Int) :
    (db.recordPending units now).rawPayloads = db.rawPayloads := (recordPending_spec units now).1

@[simp] theorem recordPending_fetchLogs (units : List String) (now : Int) :
    (db.recordPending units now).fetchLogs = db.fetchLogs := (recordPending_spec units now).2.1

@[simp] theorem saveCheckpoint_rawPayloads (c : Cursor) : (db.saveCheckpoint job c).rawPayloads = db.rawPayloads := rfl

@[simp] theorem saveCheckpoint_fetchLogs (c : Cursor) : (db.saveCheckpoint job c).fetchLogs = db.fetchLogs := rfl

/-! ## Captures -/

theorem storeRawPayload_extends (h : db.Numbered) (src : Source) (body : Body) (time : Int) :
    db.Extends (db.storeRawPayload src body time).1 ∧ (db.storeRawPayload src body time).1.Numbered := by
  unfold storeRawPayload
  split
  · exact ⟨.refl db, h⟩
  · have hfresh : db.rawPayload (db.rawPayloads.length + 1) = none := by
      refine List.find?_eq_none.mpr fun p hp => ?_
      have := h.bound p hp
      simp
      omega
    have hkeeps : ∀ {raw p}, db.rawPayload raw = some p →
        (db.rawPayloads ++ [(⟨db.rawPayloads.length + 1, src, body, time⟩ : RawPayload)]).find?
          (fun p => p.id = raw) = some p := by
      intro raw p hp
      rw [List.find?_append, show db.rawPayloads.find? _ = some p from hp]
      rfl
    refine ⟨⟨fun hp => hkeeps hp, fun _ hf => hf⟩, fun p hp => ?_, fun p hp => ?_⟩
    · rcases List.mem_append.mp hp with hp | hp
      · exact hkeeps (h.found p hp)
      · rw [List.mem_singleton.mp hp]
        show (db.rawPayloads ++ _).find? _ = _
        rw [List.find?_append, show db.rawPayloads.find? _ = none from hfresh]
        simp
    · simp only [List.length_append, List.length_singleton]
      rcases List.mem_append.mp hp with hp | hp
      · have := h.bound p hp
        omega
      · rw [List.mem_singleton.mp hp]

theorem storeRawPayload_spec (h : db.Numbered) (src : Source) (body : Body) (time : Int) :
    (∃ p, (db.storeRawPayload src body time).1.rawPayload (db.storeRawPayload src body time).2 = some p ∧
        p.source = src ∧ p.body = body) ∧
      (∀ p ∈ (db.storeRawPayload src body time).1.rawPayloads, p ∈ db.rawPayloads ∨ p.source = src) ∧
      (db.storeRawPayload src body time).1.fetchLogs = db.fetchLogs ∧
      (db.storeRawPayload src body time).1.coverage = db.coverage ∧
      (db.storeRawPayload src body time).1.checkpoints = db.checkpoints := by
  have hnum := (storeRawPayload_extends h src body time).2
  unfold storeRawPayload at hnum ⊢
  split
  · next p hp =>
    have hsame : p.source = src ∧ p.body = body := by simpa using List.find?_some hp
    exact ⟨⟨p, h.found p (List.mem_of_find?_eq_some hp), hsame⟩, fun p hp => .inl hp, rfl, rfl, rfl⟩
  · next hnone =>
    rw [hnone] at hnum
    refine ⟨⟨_, hnum.found ⟨db.rawPayloads.length + 1, src, body, time⟩ (by simp), rfl, rfl⟩, fun p hp => ?_,
      rfl, rfl, rfl⟩
    rcases List.mem_append.mp hp with hp | hp
    · exact .inl hp
    · rw [List.mem_singleton.mp hp]
      exact .inr rfl

theorem insertFetchLog_extends (job : Option Nat) (raw : Nat) (time : Int) :
    db.Extends (db.insertFetchLog job raw time) :=
  ⟨fun h => h, fun _ hf => List.mem_append_left _ hf⟩

theorem persist_extends (h : db.Numbered) (job : Option Nat) (src : Source) (body : Body) (time : Int) :
    db.Extends (db.persist job src body time).1 ∧ (db.persist job src body time).1.Numbered := by
  obtain ⟨hext, hnum⟩ := storeRawPayload_extends h src body time
  exact ⟨hext.trans (insertFetchLog_extends job _ time), hnum.of_eq rfl⟩

theorem persist_spec (h : db.Numbered) (job : Option Nat) (src : Source) (body : Body) (time : Int) :
    (∃ p, (db.persist job src body time).1.rawPayload (db.persist job src body time).2 = some p ∧
        p.source = src ∧ p.body = body) ∧
      (∀ p ∈ (db.persist job src body time).1.rawPayloads, p ∈ db.rawPayloads ∨ p.source = src) ∧
      (db.persist job src body time).1.fetchLogs =
        db.fetchLogs ++ [⟨db.fetchLogs.length + 1, job, (db.persist job src body time).2, time⟩] ∧
      (db.persist job src body time).1.coverage = db.coverage ∧
      (db.persist job src body time).1.checkpoints = db.checkpoints := by
  obtain ⟨hstored, hnew, hlogs, hcov, hcheck⟩ := storeRawPayload_spec h src body time
  refine ⟨hstored, hnew, ?_, hcov, hcheck⟩
  unfold persist insertFetchLog
  dsimp only
  rw [hlogs]

/-! ## Observations -/

/-- The payload was observed at or after a time. -/
def ObservedFrom (db : Db) (raw : Nat) (time : Int) : Prop :=
  ∃ p, db.rawPayload raw = some p ∧
    (time ≤ p.fetchedAt ∨ ∃ f ∈ db.fetchLogs, f.rawPayloadId = raw ∧ time ≤ f.attemptedAt)

theorem ObservedFrom.extend (h : db.ObservedFrom raw time) (hext : db.Extends db') : db'.ObservedFrom raw time := by
  obtain ⟨p, hp, hat⟩ := h
  refine ⟨p, hext.payload hp, ?_⟩
  rcases hat with hat | ⟨f, hf, hat⟩
  · exact .inl hat
  · exact .inr ⟨f, hext.log f hf, hat⟩

theorem le_foldr_max (time start : Int) (times : List Int) :
    time ≤ times.foldr max start ↔ time ≤ start ∨ ∃ t ∈ times, time ≤ t := by
  induction times with
  | nil => simp
  | cons t times ih =>
    simp only [List.foldr_cons, le_max_iff, ih, List.mem_cons, exists_eq_or_imp]
    tauto

theorem observedFrom_iff : db.ObservedFrom raw time ↔ ∃ observed, db.payloadObservedAt raw = some observed ∧
    time ≤ observed := by
  unfold ObservedFrom payloadObservedAt
  cases db.rawPayload raw with
  | none => simp
  | some p =>
    simp only [Option.some.injEq, Option.map_some, exists_eq_left', le_foldr_max, List.mem_map, List.mem_filter,
      decide_eq_true_eq]
    refine or_congr_right ⟨?_, ?_⟩
    · rintro ⟨f, hf, hraw, hle⟩
      exact ⟨f.attemptedAt, ⟨f, ⟨hf, hraw⟩, rfl⟩, hle⟩
    · rintro ⟨_, ⟨f, ⟨hf, hraw⟩, rfl⟩, hle⟩
      exact ⟨f, hf, hraw, hle⟩

/-! ## Queries -/

theorem latestSighting_spec {as : List Sighting} {b : Sighting} (h : latestSighting as = some b) :
    b ∈ as ∧ ∀ a ∈ as, a.time ≤ b.time := by
  induction as generalizing b with
  | nil => cases h
  | cons a as ih =>
    rw [latestSighting] at h
    split at h
    · next hnone =>
      cases h
      cases as with
      | nil => simp
      | cons a' as =>
        rw [latestSighting] at hnone
        split at hnone
        · cases hnone
        · split at hnone <;> cases hnone
    · next g hg =>
      obtain ⟨hmem, hmax⟩ := ih hg
      split at h
      · next hnew =>
        obtain rfl := Option.some.inj h
        have hlt := of_decide_eq_true hnew
        refine ⟨List.mem_cons_self, fun a' ha' => ?_⟩
        rcases List.mem_cons.mp ha' with rfl | ha'
        · exact le_refl _
        · have := hmax a' ha'
          omega
      · next hold =>
        obtain rfl := Option.some.inj h
        have hge : ¬ g.time < a.time := fun hlt => hold (decide_eq_true (.inl hlt))
        refine ⟨List.mem_cons_of_mem _ hmem, fun a' ha' => ?_⟩
        rcases List.mem_cons.mp ha' with rfl | ha'
        · omega
        · exact hmax a' ha'

theorem mem_sightings {p : RawPayload} {a : Sighting} (h : a ∈ db.sightings p) :
    a.raw = p.id ∧ (a.time = p.fetchedAt ∨ ∃ f ∈ db.fetchLogs, f.rawPayloadId = p.id ∧ a.time = f.attemptedAt) := by
  unfold sightings at h
  split at h
  · rw [List.mem_singleton.mp h]
    exact ⟨rfl, .inl rfl⟩
  · obtain ⟨f, hf, rfl⟩ := List.mem_map.mp h
    obtain ⟨hmem, hraw⟩ := List.mem_filter.mp hf
    exact ⟨rfl, .inr ⟨f, hmem, of_decide_eq_true hraw, rfl⟩⟩

theorem sighting_of_log {p : RawPayload} {f : FetchLog} (hf : f ∈ db.fetchLogs) (hp : f.rawPayloadId = p.id) :
    ⟨f.attemptedAt, f.id, p.id⟩ ∈ db.sightings p := by
  have hmem : f ∈ db.fetchLogs.filter fun f => f.rawPayloadId = p.id := List.mem_filter.mpr ⟨hf, decide_eq_true hp⟩
  unfold sightings
  split
  · next hnil =>
    rw [hnil] at hmem
    cases hmem
  · exact List.mem_map.mpr ⟨f, hmem, rfl⟩

/-- The latest source is a payload of the key, observed no earlier than any fetch of the key. -/
theorem latestSource_spec (hnum : db.Numbered) (h : db.latestSource src = some raw) (time : Int) :
    ∃ p, db.rawPayload raw = some p ∧ p.source = src ∧
      ∀ q ∈ db.rawPayloads, q.source = src → ∀ f ∈ db.fetchLogs, f.rawPayloadId = q.id → time ≤ f.attemptedAt →
        db.ObservedFrom raw time := by
  obtain ⟨a, ha, rfl⟩ := Option.map_eq_some_iff.mp h
  obtain ⟨hmem, hmax⟩ := latestSighting_spec ha
  obtain ⟨p, hp, hap⟩ := List.mem_flatMap.mp hmem
  obtain ⟨hpmem, hpsrc⟩ := List.mem_filter.mp hp
  obtain ⟨hraw, hseen⟩ := mem_sightings hap
  rw [hraw]
  refine ⟨p, hnum.found p hpmem, of_decide_eq_true hpsrc, fun q hq hqsrc f hf hfq htime => ?_⟩
  have hlate : f.attemptedAt ≤ a.time := hmax _ (List.mem_flatMap.mpr
    ⟨q, List.mem_filter.mpr ⟨hq, decide_eq_true hqsrc⟩, sighting_of_log hf hfq⟩)
  refine ⟨p, hnum.found p hpmem, ?_⟩
  rcases hseen with hfetched | ⟨g, hg, hgp, hat⟩
  · exact .inl (by omega)
  · exact .inr ⟨g, hg, hgp, by omega⟩

theorem latestLog_mem {fs : List FetchLog} {f : FetchLog} (h : latestLog fs = some f) : f ∈ fs := by
  induction fs generalizing f with
  | nil => cases h
  | cons g fs ih =>
    rw [latestLog] at h
    split at h
    · cases h
      exact List.mem_cons_self
    · next g' hg' =>
      split at h
      · cases h
        exact List.mem_cons_self
      · cases h
        exact List.mem_cons_of_mem _ (ih hg')

theorem latestLog_isSome {fs : List FetchLog} {f : FetchLog} (h : f ∈ fs) : (latestLog fs).isSome = true := by
  cases fs with
  | nil => cases h
  | cons g fs =>
    rw [latestLog]
    split
    · rfl
    · split <;> rfl

/-- A successful fetch of the job under the key. -/
def FetchedBy (db : Db) (job : Nat) (src : Source) (f : FetchLog) : Prop :=
  f.jobId = some job ∧ (db.rawPayload f.rawPayloadId).map RawPayload.source = some src

instance (db : Db) (job : Nat) (src : Source) (f : FetchLog) : Decidable (db.FetchedBy job src f) :=
  inferInstanceAs (Decidable (_ ∧ _))

theorem latestJobPayload_some (h : db.latestJobPayload job src = some raw) :
    ∃ f ∈ db.fetchLogs, db.FetchedBy job src f ∧ f.rawPayloadId = raw := by
  obtain ⟨f, hf, rfl⟩ := Option.map_eq_some_iff.mp h
  obtain ⟨hmem, hby⟩ := List.mem_filter.mp (latestLog_mem hf)
  exact ⟨f, hmem, of_decide_eq_true hby, rfl⟩

theorem latestJobPayload_none (h : db.latestJobPayload job src = none) :
    ∀ f ∈ db.fetchLogs, ¬ db.FetchedBy job src f := by
  intro f hf hby
  have hmem : f ∈ db.fetchLogs.filter fun f => db.FetchedBy job src f :=
    List.mem_filter.mpr ⟨hf, decide_eq_true hby⟩
  exact Option.isSome_iff_ne_none.mp (latestLog_isSome hmem) (Option.map_eq_none_iff.mp h)

end Db
end ChessCrawl.Monthly
