import ChessCrawl.Jobs.Acquisition

/-! What the archive retains for a bounded parent: a response adds at most one occurrence, to the unit that it was
asked for. -/
namespace ChessCrawl.Jobs
open ChessCrawl.Lib
set_option autoImplicit false

/-! ## Bounded parents -/

theorem Params.pop_lookup {key key' : String} (hne : key ≠ key') (p : Params) : (p.pop key').lookup key = p.lookup key := by
  induction p with
  | nil => rfl
  | cons entry rest ih =>
    obtain ⟨k, v⟩ := entry
    unfold Params.pop at ih ⊢
    rw [List.filter_cons]
    by_cases hk : key = k
    · rw [if_pos (by simpa [← hk] using hne), hk, List.lookup_cons_self, List.lookup_cons_self]
    · have hbeq : (key == k) = false := by simpa using hk
      rw [List.lookup_cons, hbeq, ← ih]
      split
      · rw [List.lookup_cons, hbeq]
      · rfl

theorem Job.Same.boundedParent {j j' : Job} (h : j.Same j') : j'.boundedParent = j.boundedParent := by
  have hmode : ∀ k : Job, k.params.lookup "collection_mode" = k.childParams.lookup "collection_mode" := by
    intro k
    unfold Job.childParams
    rw [Params.pop_lookup (by decide), Params.pop_lookup (by decide)]
  unfold Job.boundedParent
  rw [hmode, hmode, h.kind, h.params]

theorem Job.Same.user {T : Text} {j j' : Job} (h : j.Same j') : j'.user T = j.user T := by
  unfold Job.user
  rw [h.target]

/-- A normalization of a job. -/
def Job.childOf (c : Job) (id : Nat) : Bool := c.parentJobId = some id && c.kind = .normalizePayload

theorem Job.Same.childOf {c c' : Job} (h : c.Same c') (id : Nat) : c'.childOf id = c.childOf id := by
  unfold Job.childOf
  rw [h.parentJobId, h.kind]

/-- The claim of a bounded parent waits for its children. -/
theorem admissible_quiet {db : Db} {now : Int} {maxActiveJobs : Nat} {j : Job}
    (h : db.admissible now maxActiveJobs j = true) (hj : j.boundedParent = true) :
    ∀ c ∈ db.jobs, c.childOf j.id = true → c.state.terminal = true := by
  intro c hc hchild
  unfold Db.admissible Db.processingReady at h
  simp only [Bool.and_eq_true, Bool.not_eq_true', Bool.and_eq_false_iff] at h
  unfold Job.boundedParent at hj
  simp only [Bool.and_eq_true] at hj
  have hmode : j.bounded = true := by
    unfold Job.bounded
    split at hj
    · next hnone => rw [hnone]
    · next mode hmode =>
      have htext : mode = .text "bounded" := by simpa using hj.2
      rw [hmode, htext]
      rfl
  rcases h.1.1.2.1 with (hkind | hbounded) | hlive
  · rw [hj.1] at hkind
    cases hkind
  · rw [hmode] at hbounded
    cases hbounded
  · have hdead := List.any_eq_false.mp hlive c hc
    unfold Job.childOf at hchild
    simp only [Bool.and_eq_true] at hchild hdead
    simpa [JobState.terminal, hchild] using hdead

/-! ## The archive -/

section Archive
variable {T : Text} {r : Archive} {j : Job} {u : SourceUnit}

/-- Bodies and logs are added. -/
structure Archive.Extends (r r' : Archive) : Prop where
  bodies : r.bodies <+: r'.bodies
  logs : r.logs <+: r'.logs
  seq : r.bodySeq ≤ r'.bodySeq

/-- Ids come from sequences, and a log names a body that is there. -/
structure Archive.Sound (r : Archive) : Prop where
  issued : ∀ b ∈ r.bodies, b.id ≤ r.bodySeq
  unique : ∀ b ∈ r.bodies, ∀ b' ∈ r.bodies, b.id = b'.id → b = b'
  stored : ∀ l ∈ r.logs, ∀ raw, l.rawPayloadId = some raw → raw ≤ r.bodySeq

theorem Archive.mem_occurrences {l : FetchLog} : l ∈ r.occurrences T j u ↔ l ∈ r.logs ∧ l.jobId = some j.id ∧
    successful l.statusCode = true ∧ ∃ b ∈ r.bodies, l.rawPayloadId = some b.id ∧ u.accepts T j b.key = true := by
  unfold Archive.occurrences
  simp only [List.mem_filter, Bool.and_eq_true, decide_eq_true_eq, List.any_eq_true, and_assoc]

theorem Job.Same.occurrences {j' : Job} (h : j.Same j') : r.occurrences T j' u = r.occurrences T j u := by
  have haccepts : ∀ key, u.accepts T j' key = u.accepts T j key := by
    intro key
    unfold SourceUnit.accepts
    rw [h.user]
  unfold Archive.occurrences
  simp only [haccepts, h.id]

theorem Archive.Extends.occurrences {r' : Archive} (h : r.Extends r') {l : FetchLog} (hl : l ∈ r.occurrences T j u) :
    l ∈ r'.occurrences T j u := by
  rw [Archive.mem_occurrences] at hl ⊢
  obtain ⟨hmem, hjob, hok, b, hb, hrest⟩ := hl
  exact ⟨h.logs.subset hmem, hjob, hok, b, h.bodies.subset hb, hrest⟩

theorem Archive.Extends.trans {r' r'' : Archive} (h : r.Extends r') (h' : r'.Extends r'') : r.Extends r'' :=
  ⟨h.bodies.trans h'.bodies, h.logs.trans h'.logs, Nat.le_trans h.seq h'.seq⟩

theorem SourceUnit.accepts_month (T : Text) (j : Job) (i : Int) (y m : Nat) (key : SourceKey) :
    (SourceUnit.month i y m).accepts T j key = decide (key = .month (j.user T) y m) := by
  cases key <;> rfl

/-- Units that share a body share all. -/
theorem SourceUnit.accepts_key {v : SourceUnit} (h : v.accepts T j (u.key T j) = true) :
    r.occurrences T j v = r.occurrences T j u := by
  have hkeys : ∀ key, v.accepts T j key = u.accepts T j key := by
    intro key
    cases v with
    | month i y m =>
      cases u with
      | month i' y' m' =>
        rw [SourceUnit.accepts_month, decide_eq_true_eq] at h
        cases h
        rw [SourceUnit.accepts_month, SourceUnit.accepts_month]
      | stream => simp [SourceUnit.accepts_month, SourceUnit.key] at h
    | stream =>
      cases u with
      | month => simp [SourceUnit.accepts, SourceUnit.key] at h
      | stream => cases key <;> rfl
  unfold Archive.occurrences
  simp only [hkeys]

theorem SourceUnit.accepts_self (T : Text) (j : Job) (u : SourceUnit) : u.accepts T j (u.key T j) = true := by
  cases u with
  | month => simp [SourceUnit.accepts_month, SourceUnit.key]
  | stream => rfl

theorem latestRawPayloadId_body {key : SourceKey} {raw : Nat} (h : r.latestRawPayloadId key = some raw) :
    ∃ b ∈ r.bodies, b.id = raw ∧ b.key = key := by
  obtain ⟨o, ho, rfl⟩ := Option.map_eq_some_iff.mp h
  have hmem := List.argmax_mem ho
  obtain ⟨b, hb, hobs⟩ := List.mem_flatMap.mp hmem
  simp only [List.mem_filter, decide_eq_true_eq] at hb
  refine ⟨b, hb.1, ?_, hb.2⟩
  unfold Archive.observations at hobs
  split at hobs
  · rw [List.mem_singleton.mp hobs]
  · obtain ⟨l, _, rfl⟩ := List.mem_map.mp hobs
    rfl

/-- The archive behind a response: a body of its key, or none. -/
structure Archive.Stored (r : Archive) (key : SourceKey) (raw : Option Nat) (r' : Archive) : Prop where
  extends_ : r.Extends r'
  logs : r'.logs = r.logs
  fresh : ∀ b ∈ r'.bodies, b.id ≤ r.bodySeq → b ∈ r.bodies
  sound : r.Sound → r'.Sound
  body : ∀ id, raw = some id → ∃ b ∈ r'.bodies, b.id = id ∧ b.key = key

theorem storeRawPayload_stored (r : Archive) (key : SourceKey) (bodyHash : String) (fetchedAt : Int) :
    r.Stored key (some (r.storeRawPayload key bodyHash fetchedAt).1) (r.storeRawPayload key bodyHash fetchedAt).2 := by
  unfold Archive.storeRawPayload
  split
  · next b hb =>
    refine ⟨⟨List.prefix_refl _, List.prefix_refl _, Nat.le_refl _⟩, rfl, fun _ hb _ => hb, id, ?_⟩
    rintro _ ⟨⟩
    have hkey := List.find?_some hb
    simp only [Bool.and_eq_true, decide_eq_true_eq] at hkey
    exact ⟨b, List.mem_of_find?_eq_some hb, rfl, hkey.1⟩
  · refine ⟨⟨List.prefix_append _ _, List.prefix_refl _, Nat.le_succ _⟩, rfl, fun b hb hle => ?_, fun h => ?_, ?_⟩
    · rcases List.mem_append.mp hb with hb | hb
      · exact hb
      · rw [List.mem_singleton.mp hb] at hle
        simp only at hle
        omega
    · refine ⟨?_, ?_, fun l hl raw hraw => Nat.le_succ_of_le (h.stored l hl raw hraw)⟩
      · intro b hb
        rcases List.mem_append.mp hb with hb | hb
        · exact Nat.le_succ_of_le (h.issued b hb)
        · rw [List.mem_singleton.mp hb]
      · intro b hb b' hb' hid
        rcases List.mem_append.mp hb with hb | hb <;> rcases List.mem_append.mp hb' with hb' | hb'
        · exact h.unique b hb b' hb' hid
        · have := h.issued b hb
          rw [List.mem_singleton.mp hb'] at hid
          simp only at hid
          omega
        · have := h.issued b' hb'
          rw [List.mem_singleton.mp hb] at hid
          simp only at hid
          omega
        · rw [List.mem_singleton.mp hb, List.mem_singleton.mp hb']
    · rintro _ ⟨⟩
      exact ⟨_, List.mem_append_right _ List.mem_cons_self, rfl, rfl⟩

theorem persistResponse_stored (r : Archive) (jobId : Option Nat) (key : SourceKey) (x : Record) :
    ∃ stored : Archive, r.Stored key (r.persistResponse jobId key x).1 stored ∧
      ((r.persistResponse jobId key x).1.isSome = true → successful (some x.status) = true) ∧
      (r.persistResponse jobId key x).2 = { stored with
        logs := r.logs ++ x.logs r.logSeq jobId (r.persistResponse jobId key x).1
        logSeq := r.logSeq + x.attempts.length } := by
  unfold Archive.persistResponse
  dsimp only
  split
  · next h200 =>
    have hstored := storeRawPayload_stored r key x.bodyHash x.attemptedAt
    refine ⟨_, hstored, fun _ => by simp [successful, h200], ?_⟩
    rw [hstored.logs]
  split
  · next h304 =>
    refine ⟨r, ⟨⟨List.prefix_refl _, List.prefix_refl _, Nat.le_refl _⟩, rfl, fun _ hb _ => hb, id, ?_⟩,
      fun _ => by simp [successful, h304], rfl⟩
    intro id hid
    exact latestRawPayloadId_body hid
  · refine ⟨r, ⟨⟨List.prefix_refl _, List.prefix_refl _, Nat.le_refl _⟩, rfl, fun _ hb _ => hb, id, ?_⟩, nofun, rfl⟩
    exact nofun

/-- The log of the answer of a record. -/
def Record.answer (x : Record) (seq : Nat) (jobId : Option Nat) (raw : Nat) : FetchLog :=
  ⟨seq + x.attempts.length, jobId, some x.status, some raw, x.attemptedAt⟩

theorem Record.mem_logs {x : Record} {seq : Nat} {jobId raw : Option Nat} {l : FetchLog}
    (hl : l ∈ x.logs seq jobId raw) : l.jobId = jobId ∧ (l.rawPayloadId = raw ∨ l.rawPayloadId = none) := by
  obtain ⟨⟨a, i⟩, _, rfl⟩ := List.mem_map.mp hl
  refine ⟨rfl, ?_⟩
  dsimp only
  split
  · exact .inl rfl
  · exact .inr rfl

/-- Only the last attempt is kept. -/
theorem Record.logs_filter {x : Record} {seq raw : Nat} {jobId : Option Nat}
    (hok : successful (some x.status) = true) (test : FetchLog → Bool)
    (htest : ∀ l, test l = true → successful l.statusCode = true) :
    (x.logs seq jobId (some raw)).filter test =
      if test (x.answer seq jobId raw) then [x.answer seq jobId raw] else [] := by
  have hzero : x.status ≠ 0 := by
    rintro h
    rw [h] at hok
    cases hok
  have hlogs : x.logs seq jobId (some raw) =
      (x.earlier.zipIdx.map fun a =>
        (⟨seq + 1 + a.2, jobId, a.1.1, if successful a.1.1 then some raw else none, a.1.2⟩ : FetchLog)) ++
      [x.answer seq jobId raw] := by
    unfold Record.logs Record.attempts Record.answer
    rw [List.zipIdx_append, List.map_append]
    simp only [List.zipIdx_cons, List.zipIdx_nil, List.map_cons, List.map_nil, if_neg hzero, hok, if_pos, Record.attempts,
      List.length_append, List.length_singleton]
    congr 3
    omega
  rw [hlogs, List.filter_append, List.filter_cons, List.filter_nil]
  have hearlier : (x.earlier.zipIdx.map fun a =>
      (⟨seq + 1 + a.2, jobId, a.1.1, if successful a.1.1 then some raw else none, a.1.2⟩ : FetchLog)).filter test = [] := by
    refine List.filter_eq_nil_iff.mpr fun l hl htrue => ?_
    obtain ⟨⟨a, i⟩, ha, rfl⟩ := List.mem_map.mp hl
    have hmem : a ∈ x.earlier := List.mem_of_getElem? (List.mem_zipIdx_iff_getElem?.mp ha)
    have := htest _ htrue
    rw [x.retried a hmem] at this
    cases this
  rw [hearlier, List.nil_append]

/-- A log reads the same bodies after a response. -/
theorem Archive.Stored.occurrences {key : SourceKey} {raw : Option Nat} {stored : Archive} (h : r.Stored key raw stored)
    (hr : r.Sound) (T : Text) (j : Job) (v : SourceUnit) (new : List FetchLog) (seq : Nat) :
    Archive.occurrences T { stored with logs := r.logs ++ new, logSeq := seq } j v =
      r.occurrences T j v ++ new.filter fun l => l.jobId = some j.id && successful l.statusCode &&
        stored.bodies.any fun b => l.rawPayloadId = some b.id && v.accepts T j b.key := by
  unfold Archive.occurrences
  dsimp only
  rw [List.filter_append]
  congr 1
  refine List.filter_congr fun l hl => ?_
  congr 1
  rw [Bool.eq_iff_iff, List.any_eq_true, List.any_eq_true]
  constructor
  · rintro ⟨b, hb, hbody⟩
    refine ⟨b, h.fresh b hb ?_, hbody⟩
    simp only [Bool.and_eq_true, decide_eq_true_eq] at hbody
    exact hr.stored l hl b.id hbody.1
  · rintro ⟨b, hb, hbody⟩
    exact ⟨b, h.extends_.bodies.subset hb, hbody⟩

/-- A response adds nothing to the occurrences of another job. -/
theorem persistResponse_other (hr : r.Sound) {jobId : Option Nat} {key : SourceKey} {x : Record}
    (hjob : jobId ≠ some j.id) (v : SourceUnit) :
    (r.persistResponse jobId key x).2.occurrences T j v = r.occurrences T j v := by
  obtain ⟨stored, hstored, _, heq⟩ := persistResponse_stored r jobId key x
  rw [heq, hstored.occurrences hr, List.filter_eq_nil_iff.mpr, List.append_nil]
  intro l hl hkeep
  simp only [Bool.and_eq_true, decide_eq_true_eq] at hkeep
  exact hjob ((Record.mem_logs hl).1.symm.trans hkeep.1.1)

/-- What a response adds to the occurrences of its job. -/
theorem persistResponse_own (hr : r.Sound) {x : Record} (v : SourceUnit) :
    (r.persistResponse (some j.id) (u.key T j) x).2.occurrences T j v = r.occurrences T j v ++
      match (r.persistResponse (some j.id) (u.key T j) x).1 with
      | some raw => if v.accepts T j (u.key T j) then [x.answer r.logSeq (some j.id) raw] else []
      | none => [] := by
  obtain ⟨stored, hstored, hok, heq⟩ := persistResponse_stored r (some j.id) (u.key T j) x
  rw [heq, hstored.occurrences hr]
  congr 1
  revert hstored hok
  generalize (r.persistResponse (some j.id) (u.key T j) x).1 = raw
  intro hstored hok
  cases raw with
  | none =>
    refine List.filter_eq_nil_iff.mpr fun l hl hkeep => ?_
    simp only [Bool.and_eq_true, List.any_eq_true, decide_eq_true_eq] at hkeep
    obtain ⟨_, b, _, hraw, _⟩ := hkeep
    rcases (Record.mem_logs hl).2 with hnone | hnone
    · cases hraw.symm.trans hnone
    · cases hraw.symm.trans hnone
  | some raw =>
    dsimp only
    obtain ⟨b, hb, hid, hkey⟩ := hstored.body raw rfl
    rw [Record.logs_filter (hok rfl) _ fun l hl => by
      simp only [Bool.and_eq_true] at hl
      exact hl.1.2]
    refine if_congr ?_ rfl rfl
    simp only [Record.answer, Bool.and_eq_true, decide_eq_true_eq, hok rfl, true_and, List.any_eq_true]
    constructor
    · rintro ⟨b', hb', hraw, haccepts⟩
      have hraw' : raw = b'.id := by simpa using hraw
      have hbody := (hstored.sound hr).unique b' hb' b hb (hraw'.symm.trans hid.symm)
      rwa [hbody, hkey] at haccepts
    · intro haccepts
      exact ⟨b, hb, by simp [hid], by rw [hkey]; exact haccepts⟩

theorem persistResponse_extends (jobId : Option Nat) (key : SourceKey) (x : Record) :
    r.Extends (r.persistResponse jobId key x).2 := by
  obtain ⟨stored, hstored, _, heq⟩ := persistResponse_stored r jobId key x
  rw [heq]
  exact ⟨hstored.extends_.bodies, List.prefix_append _ _, hstored.extends_.seq⟩

theorem persistResponse_sound (hr : r.Sound) (jobId : Option Nat) (key : SourceKey) (x : Record) :
    (r.persistResponse jobId key x).2.Sound := by
  obtain ⟨stored, hstored, _, heq⟩ := persistResponse_stored r jobId key x
  have hsound := hstored.sound hr
  rw [heq]
  refine ⟨hsound.issued, hsound.unique, fun l hl raw hraw => ?_⟩
  rcases List.mem_append.mp hl with hl | hl
  · exact Nat.le_trans (hr.stored l hl raw hraw) hstored.extends_.seq
  · rcases (Record.mem_logs hl).2 with hlog | hlog
    · obtain ⟨b, hb, hid, _⟩ := hstored.body raw (hlog.symm.trans hraw)
      rw [← hid]
      exact hsound.issued b hb
    · cases hlog.symm.trans hraw

end Archive
end ChessCrawl.Jobs
