import ChessCrawl.Normalize.Attribution

/-! Certification of a payload. The closing transaction counts the items of the current observation, so
what resets and stale workers did to the items before it does not matter: a payload is marked only while
every pointer of its body has an item of that observation, and an item never gives way to an older one. -/
namespace ChessCrawl.Normalize
open ChessCrawl.Lib
set_option autoImplicit false

/-! ## Observations -/

theorem foldr_max_append (xs ys : List Nat) :
    (xs ++ ys).foldr max 0 = max (xs.foldr max 0) (ys.foldr max 0) := by
  induction xs with
  | nil => simp
  | cons x xs ih =>
    simp only [List.cons_append, List.foldr_cons, ih]
    omega

/-- A later observation only raises the current one, whatever its id. -/
theorem observationId_append (a : Archive) (log : FetchLog) (rawId : Nat) :
    a.observationId rawId ≤ Archive.observationId { a with logs := a.logs ++ [log] } rawId := by
  unfold Archive.observationId
  simp only [List.filter_append, List.map_append, foldr_max_append]
  omega

/-- Bodies stay, and observations only arrive. -/
structure Archive.Extends (a a' : Archive) : Prop where
  raws : ∀ rawId raw, a.raw rawId = some raw → ∃ raw', a'.raw rawId = some raw' ∧ raw'.pointers = raw.pointers
  observations : ∀ rawId, a.observationId rawId ≤ a'.observationId rawId

theorem SameBodies.extends {a a' : Archive} (h : SameBodies a a') : a.Extends a' := by
  refine ⟨fun rawId raw hraw => ⟨raw, ?_, rfl⟩, fun rawId => ?_⟩
  · unfold Archive.raw at hraw ⊢
    rw [h.raws]
    exact hraw
  · unfold Archive.observationId
    rw [h.logs]

/-- Marking a payload changes neither its identity nor its body. -/
theorem mapRaws_raw (a : Archive) (rawId : Nat) (mark : RawPayload → RawPayload)
    (hid : ∀ r, (mark r).id = r.id) (id : Nat) :
    Archive.raw { a with raws := a.raws.map fun r => if r.id = rawId then mark r else r } id =
      (a.raw id).map fun r => if r.id = rawId then mark r else r := by
  unfold Archive.raw
  rw [List.find?_map]
  congr 2
  funext r
  by_cases hr : r.id = rawId <;> simp [hr, hid]

theorem mapRaws_extends (a : Archive) (rawId : Nat) (mark : RawPayload → RawPayload)
    (hid : ∀ r, (mark r).id = r.id) (hbody : ∀ r, (mark r).pointers = r.pointers) :
    a.Extends { a with raws := a.raws.map fun r => if r.id = rawId then mark r else r } := by
  refine ⟨fun id raw hraw => ?_, fun id => Nat.le_refl _⟩
  rw [mapRaws_raw a rawId mark hid, hraw]
  refine ⟨_, rfl, ?_⟩
  by_cases hr : raw.id = rawId <;> simp [hr, hbody]

theorem storePayload_extends {a a' : Archive} {raw : RawPayload} (h : a.storePayload raw = some a') :
    a.Extends a' ∧ a' = { a with raws := a.raws ++ [raw] } ∧ raw.status = .pending := by
  unfold Archive.storePayload at h
  split at h
  · next hnew =>
    cases h
    refine ⟨⟨fun id r hr => ⟨r, ?_, rfl⟩, fun id => Nat.le_refl _⟩, rfl, hnew.2.1⟩
    unfold Archive.raw at hr ⊢
    rw [List.find?_append, hr]
    rfl
  · cases h

theorem observe_extends {a a' : Archive} {log : FetchLog} (h : a.observe log = some a') :
    a.Extends a' ∧ a'.raws = a.raws := by
  unfold Archive.observe at h
  split at h
  · cases h
    exact ⟨⟨fun id r hr => ⟨r, hr, rfl⟩, observationId_append a log⟩, rfl⟩
  · cases h

/-! ## Items -/

/-- One row for each primary key, and none of an observation that is yet to come. -/
structure ItemsOk (db : Db) : Prop where
  keys : (db.items.map NormalizationItem.key).Nodup
  observed : ∀ i ∈ db.items, i.observationId ≤ db.archive.observationId i.rawPayloadId

theorem mem_markItem {db : Db} {item i : NormalizationItem} (h : i ∈ (db.markItem item).items) :
    i ∈ db.items ∨ i = item := by
  unfold Db.markItem at h
  dsimp only at h
  split at h
  · obtain ⟨j, hj, heq⟩ := List.mem_map.mp h
    split at heq
    · exact .inr heq.symm
    · subst heq
      exact .inl hj
  · rcases List.mem_append.mp h with hold | hnew
    · exact .inl hold
    · exact .inr (List.mem_singleton.mp hnew)

theorem markItem_keys {db : Db} (item : NormalizationItem) (h : (db.items.map NormalizationItem.key).Nodup) :
    ((db.markItem item).items.map NormalizationItem.key).Nodup := by
  unfold Db.markItem
  dsimp only
  split
  · have hsame : (db.items.map fun i => if i.key = item.key ∧ item.observationId ≥ i.observationId then item
        else i).map NormalizationItem.key = db.items.map NormalizationItem.key := by
      rw [List.map_map]
      refine List.map_congr_left fun i _ => ?_
      simp only [Function.comp_apply]
      split
      · next hkey => exact hkey.1.symm
      · rfl
    rw [hsame]
    exact h
  · next hnew =>
    rw [List.map_append]
    refine List.nodup_append.mpr ⟨h, List.nodup_singleton _, fun k hk k' hk' heq => ?_⟩
    obtain ⟨i, hi, rfl⟩ := List.mem_map.mp hk
    have hitem : k' = item.key := List.mem_singleton.mp hk'
    exact hnew (List.any_eq_true.mpr ⟨i, hi, decide_eq_true (heq.trans hitem)⟩)

/-- An item of a later observation survives. -/
theorem markItem_newer {db : Db} {item i : NormalizationItem} (hi : i ∈ db.items)
    (hlt : item.observationId < i.observationId) : i ∈ (db.markItem item).items := by
  unfold Db.markItem
  dsimp only
  split
  · refine List.mem_map.mpr ⟨i, hi, if_neg fun hover => ?_⟩
    have hge := hover.2
    omega
  · exact List.mem_append_left _ hi

theorem ItemsOk.extends {db db' : Db} (h : ItemsOk db) (hitems : db'.items = db.items)
    (ha : db.archive.Extends db'.archive) : ItemsOk db' := by
  refine ⟨?_, fun i hi => ?_⟩
  · rw [hitems]
    exact h.keys
  · rw [hitems] at hi
    exact Nat.le_trans (h.observed i hi) (ha.observations i.rawPayloadId)

/-! ## Closing -/

/-- Every pointer of the body has an item of the parser version and of the current observation. -/
def Covered (db : Db) (rawId : Nat) (parserVersion : String) (pointers : List String) : Prop :=
  ∀ p ∈ pointers, ∃ i ∈ db.items, i.rawPayloadId = rawId ∧ i.parserVersion = parserVersion ∧
    i.jsonPointer = p ∧ i.observationId = db.archive.observationId rawId

theorem covers_covered {db : Db} {rawId observed : Nat} {parserVersion : String} {pointers : List String}
    (hcurrent : db.archive.observationId rawId = observed)
    (h : covers pointers (db.processedItems rawId parserVersion observed) = true) :
    Covered db rawId parserVersion pointers := by
  intro p hp
  unfold covers at h
  obtain ⟨entry, hmem, hpointer⟩ := List.any_eq_true.mp (List.all_eq_true.mp h p hp)
  unfold Db.processedItems at hmem
  obtain ⟨i, hi, rfl⟩ := List.mem_map.mp hmem
  obtain ⟨hitem, hkey⟩ := List.mem_filter.mp hi
  obtain ⟨hraw, hversion, hobs⟩ := of_decide_eq_true hkey
  exact ⟨i, hitem, hraw, hversion, of_decide_eq_true hpointer, hobs.trans hcurrent.symm⟩

/-- The closing transaction either changes nothing or certifies a covered payload. -/
theorem certify_cases (db : Db) (rawId : Nat) (parserVersion : String) (observed : Nat)
    (pointers : List String) (empty : Bool) :
    db.certify rawId parserVersion observed pointers empty = db ∨
      (db.archive.observationId rawId = observed ∧ Covered db rawId parserVersion pointers ∧
        (db.certify rawId parserVersion observed pointers empty).items = db.items ∧
        (db.certify rawId parserVersion observed pointers empty).archive =
          db.archive.updateRawPayloadStatus rawId (if empty then .skipped else .parsed) parserVersion) := by
  unfold Db.certify Db.finishNormalization
  by_cases hfin : db.archive.observationId rawId = observed ∧
      covers pointers (db.processedItems rawId parserVersion observed) = true
  · right
    rw [if_pos hfin]
    exact ⟨hfin.1, covers_covered hfin.1 hfin.2, rfl, rfl⟩
  · left
    rw [if_neg hfin]

theorem updateRawPayloadStatus_extends (a : Archive) (rawId : Nat) (status : Status) (parserVersion : String) :
    a.Extends (a.updateRawPayloadStatus rawId status parserVersion) :=
  mapRaws_extends a rawId (fun r => { r with status := status, parserVersion := some parserVersion })
    (fun _ => rfl) fun _ => rfl

/-! ## Beginning -/

/-- Beginning reads the current observation; a reset drops items and marks the payload pending. -/
theorem beginNormalization_cases {db db' : Db} {rawId observed : Nat} {parserVersion : String}
    (h : db.beginNormalization rawId parserVersion = .ok (observed, db')) :
    observed = db.archive.observationId rawId ∧ db.archive.Extends db'.archive ∧
      (∀ i ∈ db'.items, i ∈ db.items) ∧ (db'.items.map NormalizationItem.key).Sublist
        (db.items.map NormalizationItem.key) ∧
      (∀ i ∈ db.items, i.rawPayloadId ≠ rawId → i ∈ db'.items) ∧
      (∀ id raw, db'.archive.raw id = some raw → db.archive.raw id = some raw ∨ raw.status = .pending) := by
  unfold Db.beginNormalization at h
  split at h
  · cases h
  next raw hraw =>
  cases h
  refine ⟨rfl, ?_⟩
  split
  · refine ⟨mapRaws_extends db.archive rawId (fun r => { r with status := .pending }) (fun _ => rfl) fun _ => rfl,
      fun i hi => (List.mem_filter.mp hi).1, List.filter_sublist.map _, fun i hi hne => ?_, fun id r hr => ?_⟩
    · refine List.mem_filter.mpr ⟨hi, decide_eq_true fun hkey => hne hkey.1⟩
    · change Archive.raw { db.archive with raws := db.archive.raws.map _ } id = some r at hr
      rw [mapRaws_raw db.archive rawId (fun r => { r with status := .pending }) fun _ => rfl] at hr
      obtain ⟨old, hold, heq⟩ := Option.map_eq_some_iff.mp hr
      split at heq
      · subst heq
        exact .inr rfl
      · subst heq
        exact .inl hold
  · exact ⟨SameBodies.extends ⟨rfl, rfl⟩, fun i hi => hi, .refl _, fun i hi _ => hi, fun id r hr => .inl hr⟩

/-! ## The invariant -/

/-- A running call knows the pointers of its body and began under an observation of it. -/
structure Call.Bound (c : Call) (a : Archive) : Prop where
  observed : c.observed ≤ a.observationId c.request.rawId
  pointers : ∃ raw, a.raw c.request.rawId = some raw ∧ c.pointers = raw.pointers

theorem Call.Bound.extends {c : Call} {a a' : Archive} (h : c.Bound a) (ha : a.Extends a') : c.Bound a' := by
  obtain ⟨raw, hraw, hpointers⟩ := h.pointers
  obtain ⟨raw', hraw', hsame⟩ := ha.raws _ _ hraw
  exact ⟨Nat.le_trans h.observed (ha.observations _), raw', hraw', hpointers.trans hsame.symm⟩

theorem Call.Bound.keeps {c c' : Call} {a : Archive} (h : c.Bound a) (hk : c.Keeps c') : c'.Bound a := by
  refine ⟨?_, ?_⟩
  · rw [hk.observed, hk.request]
    exact h.observed
  · rw [hk.pointers, hk.request]
    exact h.pointers

structure CheckpointsOk (s : World) : Prop where
  items : ItemsOk s.db
  calls : ∀ w c, s.calls w = some c → c.phase ≠ .returned → c.Bound s.db.archive

/-- A call that has returned takes no step. -/
theorem act_running {c : Call} {db : Db} {a : Act} {r : Option Call × Db} (h : c.act db a = some r) :
    c.phase ≠ .returned := by
  intro hphase
  cases a <;> simp [Call.act, hphase] at h

/-! ## What one step does to bodies and items -/

/-- The frame of a step of a call: bodies stay, and items only change by a mark of the call's own. -/
structure Checkpointed (c : Call) (db db' : Db) : Prop where
  archive : db.archive.Extends db'.archive
  items : db'.items = db.items ∨ ∃ pointer gameId, db'.items =
    (db.markItem ⟨c.request.rawId, c.request.parserVersion, pointer, c.observed, gameId⟩).items

theorem wroteGame_checkpointed {c : Call} {db db' : Db} {g : NormalizedGame} {pointer : String}
    {written : Written} (h : WroteGame c db g pointer written db') : Checkpointed c db db' := by
  cases h with
  | excluded => exact ⟨SameBodies.extends ⟨rfl, rfl⟩, .inl rfl⟩
  | refreshed hreserve hstored =>
    obtain ⟨L, rfl⟩ := reserveGame_db hreserve
    exact ⟨hstored.bodies.extends, .inr ⟨_, _, hstored.items⟩⟩
  | acquired _ _ _ hreserve hstored hattr =>
    obtain ⟨L, rfl⟩ := reserveGame_db hreserve
    have hsame := attribute_attributed hattr
    refine ⟨?_, .inr ⟨_, _, hsame.items.trans hstored.items⟩⟩
    rw [hsame.archive]
    exact hstored.bodies.extends

theorem moved_checkpointed {c : Call} {c' : Option Call} {db db' : Db} (h : Moved c db c' db') :
    Checkpointed c db db' := by
  have hrefl : Checkpointed c db db := ⟨SameBodies.extends ⟨rfl, rfl⟩, .inl rfl⟩
  cases h with
  | raised => exact hrefl
  | kept => exact hrefl
  | paid => exact ⟨SameBodies.extends ⟨rfl, rfl⟩, .inl rfl⟩
  | wrote _ hwrite => exact wroteGame_checkpointed (writeGame_wrote hwrite)
  | finished =>
    rcases certify_cases db c.request.rawId c.request.parserVersion c.observed c.pointers
      c.pointers.isEmpty with hsame | ⟨_, _, hitems, harchive⟩
    · rw [hsame]
      exact hrefl
    · refine ⟨?_, .inl hitems⟩
      rw [harchive]
      apply updateRawPayloadStatus_extends

/-- The call that a step leaves is still the same call of the same body. -/
theorem moved_bound {c d : Call} {db db' : Db} (h : Moved c db (some d) db') (hc : c.Bound db'.archive) :
    d.Bound db'.archive := by
  cases h with
  | kept hk => exact hc.keeps hk
  | paid hk => exact hc.keeps hk
  | wrote _ _ =>
    refine ⟨?_, ?_⟩
    · cases ‹Written› <;> exact hc.observed
    · cases ‹Written› <;> exact hc.pointers
  | finished => exact ⟨hc.observed, hc.pointers⟩

theorem Checkpointed.itemsOk {c : Call} {db db' : Db} (h : Checkpointed c db db') (hdb : ItemsOk db)
    (hc : c.Bound db.archive) : ItemsOk db' := by
  rcases h.items with hsame | ⟨pointer, gameId, hmark⟩
  · exact hdb.extends hsame h.archive
  · refine ⟨?_, fun i hi => ?_⟩
    · rw [hmark]
      exact markItem_keys _ hdb.keys
    · rw [hmark] at hi
      refine Nat.le_trans ?_ (h.archive.observations i.rawPayloadId)
      rcases mem_markItem hi with hold | rfl
      · exact hdb.observed i hold
      · exact hc.observed

theorem Checkpointed.newer {c : Call} {db db' : Db} (h : Checkpointed c db db') {i : NormalizationItem}
    (hi : i ∈ db.items) (hlt : c.observed < i.observationId) : i ∈ db'.items := by
  rcases h.items with hsame | ⟨pointer, gameId, hmark⟩
  · rw [hsame]
    exact hi
  · rw [hmark]
    exact markItem_newer hi hlt

/-! ## Runs -/

theorem CheckpointsOk.same_calls {s t : World} (hs : CheckpointsOk s) (hcalls : t.calls = s.calls)
    (hitems : t.db.items = s.db.items) (ha : s.db.archive.Extends t.db.archive) : CheckpointsOk t := by
  refine ⟨hs.items.extends hitems ha, fun w c hc hrunning => ?_⟩
  rw [hcalls] at hc
  exact (hs.calls w c hc hrunning).extends ha

theorem startCall_checkpoints {db db' : Db} {q : Request} {c : Call} (hdb : ItemsOk db)
    (h : db.startCall q = .ok (c, db')) : ItemsOk db' ∧ db.archive.Extends db'.archive ∧
      (c.phase ≠ .returned → c.Bound db'.archive) := by
  obtain ⟨_, hrequest, _, _, raw, hraw, ⟨_, hpointers, hbegin⟩ | ⟨hphase, rfl⟩⟩ := startCall_cases h
  · obtain ⟨hobserved, ha, hmem, hkeys, _⟩ := beginNormalization_cases hbegin
    refine ⟨⟨hkeys.nodup hdb.keys, fun i hi => ?_⟩, ha, fun _ => ?_⟩
    · exact Nat.le_trans (hdb.observed i (hmem i hi)) (ha.observations i.rawPayloadId)
    · refine Call.Bound.extends ⟨?_, raw, ?_, hpointers⟩ ha
      · rw [hrequest]
        exact Nat.le_of_eq hobserved
      · rw [hrequest]
        exact hraw
  · exact ⟨hdb, SameBodies.extends ⟨rfl, rfl⟩, fun hrunning => absurd hphase hrunning⟩

theorem checkpointsOk_step {s t : World} {e : Event} (hs : CheckpointsOk s) (h : Stepped s e t) :
    CheckpointsOk t := by
  have hrefl : s.db.archive.Extends s.db.archive := SameBodies.extends ⟨rfl, rfl⟩
  cases h with
  | storePayload hstore => exact hs.same_calls rfl rfl (storePayload_extends hstore).1
  | observe hobserve => exact hs.same_calls rfl rfl (observe_extends hobserve).1
  | createRun => exact hs.same_calls rfl rfl hrefl
  | upsert hupsert => exact hs.same_calls rfl rfl (upsertGame_bodies hupsert).extends
  | associate hall =>
    have hsame := associateAll_attributed hall
    refine hs.same_calls rfl hsame.items ?_
    rw [hsame.archive]
    exact hrefl
  | ledger => exact hs.same_calls rfl rfl hrefl
  | start _ hstart =>
    obtain ⟨hitems, ha, hbound⟩ := startCall_checkpoints hs.items hstart
    refine ⟨hitems, fun w c hc hrunning => ?_⟩
    rcases setCall_calls hc with hold | ⟨_, hnew⟩
    · exact (hs.calls w c hold hrunning).extends ha
    · cases hnew
      exact hbound hrunning
  | act hcall hact =>
    have hbefore := hs.calls _ _ hcall (act_running hact)
    have hframe := moved_checkpointed (act_moved hact)
    refine ⟨hframe.itemsOk hs.items hbefore, fun w c hc hrunning => ?_⟩
    rcases setCall_calls hc with hold | ⟨_, hnew⟩
    · exact (hs.calls w c hold hrunning).extends hframe.archive
    · subst hnew
      exact moved_bound (act_moved hact) (hbefore.extends hframe.archive)
  | abandon =>
    refine ⟨hs.items, fun w c hc hrunning => ?_⟩
    rcases setCall_calls hc with hold | ⟨_, hnew⟩
    · exact hs.calls w c hold hrunning
    · cases hnew

theorem checkpointsOk_of_reachable {s : World} (h : Reachable normalizers s) : CheckpointsOk s := by
  refine Reachable.invariant (I := CheckpointsOk) ?_
    (fun s e t hI hstep => checkpointsOk_step hI (step_stepped hstep)) h
  rintro _ rfl
  exact ⟨⟨List.nodup_nil, fun i hi => absurd hi List.not_mem_nil⟩, fun w c hc => nomatch hc⟩

/-! ## What sets a status -/

/-- The closing check of a call, on the tables as they are. -/
def Call.closes (c : Call) (db : Db) : Bool :=
  (db.finishNormalization c.request.rawId c.request.parserVersion c.observed c.pointers).1

theorem Call.closes_iff {c : Call} {db : Db} : c.closes db = true ↔
    db.archive.observationId c.request.rawId = c.observed ∧
      covers c.pointers (db.processedItems c.request.rawId c.request.parserVersion c.observed) = true := by
  unfold Call.closes Db.finishNormalization
  split
  · next h => exact ⟨fun _ => h, fun _ => rfl⟩
  · next h => exact ⟨fun hf => (nomatch hf), fun hc => absurd hc h⟩

/-- A step of a call leaves all payloads, or its closing check passed and it marked its own. -/
theorem moved_raws {c : Call} {c' : Option Call} {db db' : Db} (h : Moved c db c' db') :
    db'.archive.raws = db.archive.raws ∨
      (c.closes db = true ∧ ∃ status,
        db'.archive = db.archive.updateRawPayloadStatus c.request.rawId status c.request.parserVersion) := by
  cases h with
  | raised => exact .inl rfl
  | kept => exact .inl rfl
  | paid => exact .inl rfl
  | wrote _ hwrite =>
    left
    cases writeGame_wrote hwrite with
    | excluded => rfl
    | refreshed hreserve hstored =>
      obtain ⟨L, rfl⟩ := reserveGame_db hreserve
      exact hstored.bodies.raws
    | acquired _ _ _ hreserve hstored hattr =>
      obtain ⟨L, rfl⟩ := reserveGame_db hreserve
      rw [(attribute_attributed hattr).archive]
      exact hstored.bodies.raws
  | finished =>
    by_cases hclose : c.closes db = true
    · refine .inr ⟨hclose, if c.pointers.isEmpty then .skipped else .parsed, ?_⟩
      unfold Db.certify Db.finishNormalization
      rw [if_pos (Call.closes_iff.mp hclose)]
    · left
      unfold Db.certify Db.finishNormalization
      rw [if_neg (mt Call.closes_iff.mpr hclose)]

theorem raw_of_raws {a a' : Archive} (h : a'.raws = a.raws) (rawId : Nat) : a'.raw rawId = a.raw rawId := by
  unfold Archive.raw
  rw [h]

/-- A payload that is not pending after a step was so before it, or some call closed it. -/
theorem step_status {s t : World} {e : Event} {rawId : Nat} {raw : RawPayload} (h : Stepped s e t)
    (hraw : t.db.archive.raw rawId = some raw) (hstatus : raw.status ≠ .pending) :
    s.db.archive.raw rawId = some raw ∨
      ∃ w a c, e = .act w a ∧ s.calls w = some c ∧ c.phase ≠ .returned ∧ c.closes s.db = true ∧
        c.request.rawId = rawId ∧ raw.parserVersion = some c.request.parserVersion ∧
        ∃ old, s.db.archive.raw rawId = some old ∧ raw.pointers = old.pointers := by
  cases h with
  | storePayload hstore =>
    left
    obtain ⟨_, rfl, hpending⟩ := storePayload_extends hstore
    unfold Archive.raw at hraw ⊢
    rw [List.find?_append] at hraw
    rcases Option.or_eq_some_iff.mp hraw with hold | ⟨_, hnew⟩
    · exact hold
    · rw [List.mem_singleton.mp (List.mem_of_find?_eq_some hnew)] at hstatus
      exact absurd hpending hstatus
  | observe hobserve =>
    left
    rw [← raw_of_raws (observe_extends hobserve).2]
    exact hraw
  | upsert hupsert =>
    left
    rw [← raw_of_raws (upsertGame_bodies hupsert).raws]
    exact hraw
  | associate hall =>
    left
    rw [← (associateAll_attributed hall).archive]
    exact hraw
  | createRun => exact .inl hraw
  | ledger => exact .inl hraw
  | abandon => exact .inl hraw
  | start _ hstart =>
    left
    obtain ⟨_, _, _, _, _, _, ⟨_, _, hbegin⟩ | ⟨_, rfl⟩⟩ := startCall_cases hstart
    · obtain ⟨_, _, _, _, _, hold⟩ := beginNormalization_cases hbegin
      exact (hold rawId raw hraw).resolve_right hstatus
    · exact hraw
  | @act w a c _ db hcall hact =>
    rcases moved_raws (act_moved hact) with hsame | ⟨hclose, status, harchive⟩
    · left
      rw [← raw_of_raws hsame]
      exact hraw
    · change db.archive.raw rawId = some raw at hraw
      rw [harchive] at hraw
      unfold Archive.updateRawPayloadStatus at hraw
      rw [mapRaws_raw s.db.archive c.request.rawId
        (fun r => { r with status := status, parserVersion := some c.request.parserVersion }) fun _ => rfl] at hraw
      obtain ⟨old, hold, heq⟩ := Option.map_eq_some_iff.mp hraw
      have hid : old.id = rawId := by simpa using List.find?_some hold
      split at heq
      · next hmine =>
        subst heq
        exact .inr ⟨w, a, c, rfl, hcall, act_running hact, hclose, hmine.symm.trans hid, rfl, old, hold, rfl⟩
      · subst heq
        exact .inl hold

/-! ## Certification in every run -/

/-- Items have one row for each key. -/
theorem ItemsOk.unique {db : Db} (h : ItemsOk db) {i j : NormalizationItem} (hi : i ∈ db.items)
    (hj : j ∈ db.items) (hkey : j.key = i.key) : j = i :=
  List.inj_on_of_nodup_map h.keys hj hi hkey

theorem closes_covered {s : World} {w : Nat} {c : Call} (hs : CheckpointsOk s) (hc : s.calls w = some c)
    (hrunning : c.phase ≠ .returned) (hclose : c.closes s.db = true) :
    c.observed = s.db.archive.observationId c.request.rawId ∧
      ∃ raw, s.db.archive.raw c.request.rawId = some raw ∧
        Covered s.db c.request.rawId c.request.parserVersion raw.pointers := by
  obtain ⟨hcurrent, hcovers⟩ := Call.closes_iff.mp hclose
  obtain ⟨raw, hraw, hpointers⟩ := (hs.calls w c hc hrunning).pointers
  refine ⟨hcurrent.symm, raw, hraw, ?_⟩
  rw [← hpointers]
  exact covers_covered hcurrent hcovers

theorem certified_by_current_observation {s : World} (h : Reachable normalizers s) :
    (∀ w c, s.calls w = some c → c.phase ≠ .returned → c.closes s.db = true →
      c.observed = s.db.archive.observationId c.request.rawId ∧
        ∃ raw, s.db.archive.raw c.request.rawId = some raw ∧
          Covered s.db c.request.rawId c.request.parserVersion raw.pointers) ∧
    (∀ e t rawId raw, s.step e = some t → t.db.archive.raw rawId = some raw → raw.status ≠ .pending →
      s.db.archive.raw rawId = some raw ∨
        ∃ w a c, e = .act w a ∧ s.calls w = some c ∧ c.closes s.db = true ∧ c.request.rawId = rawId ∧
          raw.parserVersion = some c.request.parserVersion ∧
          c.observed = s.db.archive.observationId rawId ∧
          Covered s.db rawId c.request.parserVersion raw.pointers) ∧
    (∀ w c a t i, s.calls w = some c → s.step (.act w a) = some t → i ∈ s.db.items →
      c.observed < i.observationId → i ∈ t.db.items ∧ ∀ j ∈ t.db.items, j.key = i.key → j = i) ∧
    (∀ w q t c i, s.step (.start w q) = some t → t.calls w = some c → i ∈ s.db.items →
      c.observed < i.observationId → i ∈ t.db.items) := by
  have hok := checkpointsOk_of_reachable h
  refine ⟨fun w c hc hrunning hclose => closes_covered hok hc hrunning hclose, ?_, ?_, ?_⟩
  · intro e t rawId raw hstep hraw hstatus
    rcases step_status (step_stepped hstep) hraw hstatus with
      hold | ⟨w, a, c, he, hc, hrunning, hclose, rfl, hversion, old, hold, hpointers⟩
    · exact .inl hold
    · right
      obtain ⟨hcurrent, body, hbody, hcovered⟩ := closes_covered hok hc hrunning hclose
      have hsame : body = old := Option.some.inj (hbody.symm.trans hold)
      subst hsame
      rw [← hpointers] at hcovered
      exact ⟨w, a, c, he, hc, hclose, rfl, hversion, hcurrent, hcovered⟩
  · intro w c a t i hc hstep hi hlt
    have hstepped := step_stepped hstep
    have hnext := checkpointsOk_step hok hstepped
    cases hstepped with
    | act hc' hact =>
      have hsame : _ = c := Option.some.inj (hc'.symm.trans hc)
      subst hsame
      have hkept := (moved_checkpointed (act_moved hact)).newer hi hlt
      exact ⟨hkept, fun j hj hkey => hnext.items.unique hkept hj hkey⟩
  · intro w q t c i hstep hc hi hlt
    cases step_stepped hstep with
    | start _ hstart =>
      rw [setCall_self] at hc
      cases hc
      obtain ⟨_, _, _, _, _, _, ⟨_, _, hbegin⟩ | ⟨_, rfl⟩⟩ := startCall_cases hstart
      · obtain ⟨hobserved, _, _, _, hothers, _⟩ := beginNormalization_cases hbegin
        refine hothers i hi fun hraw => ?_
        -- nothing is newer than the observation that the call has just read
        have hle := hok.items.observed i hi
        rw [hraw, ← hobserved] at hle
        omega
      · exact hi

/-- The statements of a call for a game that it writes. -/
def oneGame (w : Nat) : List Event := [.act w .preflight, .act w (.pay 0), .act w (.write 0)]

def twoGameMonth : RawPayload :=
  ⟨1, .chessCom, .monthlyArchive,
    [⟨.chessCom, some "a", none, "hash-a", ⟨true, none, false, none, "chess", "180"⟩, none, none, false, false,
      none, "revision-a"⟩,
     ⟨.chessCom, some "b", none, "hash-b", ⟨true, none, false, none, "chess", "180"⟩, none, none, false, false,
      none, "revision-b"⟩], 50, .pending, none⟩

/-- The body is observed again while worker 0 is between its two games; worker 1 starts over, worker 0
writes its second item late and cannot close, and worker 1 replaces that item. -/
def observedAgain : List Event :=
  List.flatten [
    [.storePayload twoGameMonth, .observe ⟨1, 1, 200, 50⟩,
      .start 0 ⟨1, none, none, none, true, "v5/e1", "e1"⟩, .act 0 .checkpoint, .act 0 .retain], oneGame 0,
    [.observe ⟨2, 1, 304, 60⟩, .start 1 ⟨1, none, none, none, true, "v5/e1", "e1"⟩, .act 1 .checkpoint,
      .act 1 .retain], oneGame 1, oneGame 0, [.act 0 .finish], oneGame 1]

theorem certified_by_current_observation_again : ∃ s t raw, Reachable normalizers s ∧
    s.db.archive.raw 1 = some twoGameMonth ∧ s.step (.act 1 .finish) = some t ∧
    t.db.archive.raw 1 = some raw ∧ raw = { twoGameMonth with status := .parsed, parserVersion := some "v5/e1" } ∧
    Covered s.db 1 "v5/e1" twoGameMonth.pointers := by
  obtain ⟨s, hs, hp⟩ := Reach.of_exec normalizers (fun _ _ => True) (s := World.initial) rfl observedAgain
    (fun s => decide (s.db.archive.raw 1 = some twoGameMonth ∧
      (s.step (.act 1 .finish)).map (fun t => t.db.archive.raw 1) =
        some (some { twoGameMonth with status := .parsed, parserVersion := some "v5/e1" }))) (by decide +kernel)
  obtain ⟨hbefore, hafter⟩ := of_decide_eq_true hp
  obtain ⟨t, hstep, hraw⟩ := Option.map_eq_some_iff.mp hafter
  refine ⟨s, t, _, hs, hbefore, hstep, hraw, rfl, ?_⟩
  rcases (certified_by_current_observation hs).2.1 _ t 1 _ hstep hraw (by decide) with
    hold | ⟨_, _, c, _, _, _, _, hversion, _, hcovered⟩
  · rw [hbefore] at hold
    exact absurd (Option.some.inj hold) (by decide)
  · have hsame : "v5/e1" = c.request.parserVersion := Option.some.inj hversion
    rw [← hsame] at hcovered
    exact hcovered

end ChessCrawl.Normalize
