import ChessCrawl.Storage.Preservation
import ChessCrawl.Lib.Cursor

/-! Relocation and transfer where nobody else writes: whole calls with their results, and what it takes until nothing is
left to move. No call can fail there, because a store has under a key of evidence only what the key spells, and the
registry has for it only the metadata of these bytes. -/
namespace ChessCrawl.Storage
open ChessCrawl.Lib
set_option autoImplicit false

/-! ## Whole calls -/

/-- What `_prepare_transfer` publishes for a source. -/
def Prepared.moved (source : Prepared) (target : Location) : Prepared :=
  { source with location := target, objectKey := .source source.storedHash }

/-- `put` and the read behind it. -/
def Objects.publish (o : Objects) (cd : Codec) (p : Prepared) (encoded : Bytes) : Option Objects :=
  (o.put p.place encoded).bind fun o => if o.published cd p then some o else none

/-- One round of `transfer_archive_objects`. -/
def transferRow (cd : Codec) (target : Location) (x : Db × Objects) (row : ObjectRow) : Option (Db × Objects) :=
  (x.2.read row.object.place row.object.storedBytes).bind fun encoded =>
    if (decode cd row.object encoded).isSome then
      (x.2.publish cd (row.object.moved target) encoded).bind fun o =>
        (x.1.registerTransfer row.id row.object (row.object.moved target)).map fun db => (db, o)
    else none

/-- `has_more` and `next_after_object_id` of a `TransferResult`. -/
structure TransferResult where
  hasMore : Bool
  nextAfterObjectId : Nat

/-- `transfer_archive_objects` -/
def transferArchiveObjects (cd : Codec) (target : Location) (batchSize afterObjectId : Nat) (x : Db × Objects) :
    Option (TransferResult × Db × Objects) :=
  let rows := x.1.foreignObjects target afterObjectId (batchSize + 1)
  let batch := rows.take batchSize
  (batch.foldlM (transferRow cd target) x).map fun y =>
    (⟨batchSize < rows.length, (batch.getLast?.map ObjectRow.id).getD afterObjectId⟩, y)

/-- A sweep hands the cursor of each call to the next one, until a call says that there is no more. -/
def sweep (cd : Codec) (target : Location) (batchSize : Nat) : Nat → Nat → Db × Objects → Option (Db × Objects)
  | 0, _, _ => none
  | calls + 1, afterObjectId, x =>
    (transferArchiveObjects cd target batchSize afterObjectId x).bind fun y =>
      if y.1.hasMore then sweep cd target batchSize calls y.1.nextAfterObjectId y.2 else some y.2

/-- `_relocate_payload`; `v` is the compressor's version for a payload. -/
def relocatePayload (cd : Codec) (v : Nat → Nat) (target : Location) (x : Db × Objects) (id : Nat) :
    Option (Db × Objects) :=
  (x.1.payload id).bind fun row =>
    match row.content with
    | .external _ => some x
    | .inline .. =>
      (x.1.readRawPayload x.2 cd id).bind fun body =>
        (x.2.publish cd (prepare cd (v id) target .source body).1 (prepare cd (v id) target .source body).2).bind fun o =>
          (x.1.registerRelocatedPayload id (prepare cd (v id) target .source body).1).map fun db => (db, o)

/-- `relocate_raw_payloads`, with its `has_more`. -/
def relocateRawPayloads (cd : Codec) (v : Nat → Nat) (target : Location) (batchSize : Nat) (x : Db × Objects) :
    Option (Bool × Db × Objects) :=
  ((x.1.inlineBatch batchSize).foldlM (relocatePayload cd v target) x).map fun y =>
    (!(y.1.inlineBatch 1).isEmpty, y)

/-- Calls of `relocate_raw_payloads` until one says that there is no more. -/
def drain (cd : Codec) (v : Nat → Nat) (target : Location) (batchSize : Nat) : Nat → Db × Objects → Option (Db × Objects)
  | 0, _ => none
  | calls + 1, x =>
    (relocateRawPayloads cd v target batchSize x).bind fun y =>
      if y.1 then drain cd v target batchSize calls y.2 else some y.2

/-! ## The same in steps -/

section Runs
variable {cd : Codec} {s : State} {n : Nat}

/-- A session that goes on alone. -/
def alone (n v k : Nat) : List Event := List.replicate k (.step n v false)

theorem publish_some {o o' : Objects} {p : Prepared} {encoded : Bytes} (h : o.publish cd p encoded = some o') :
    o.put p.place encoded = some o' ∧ o'.published cd p = true := by
  obtain ⟨q, hput, hif⟩ := Option.bind_eq_some_iff.mp h
  split at hif
  · next hpublished =>
    cases hif
    exact ⟨hput, hpublished⟩
  · cases hif

theorem step_of_pc {v : Nat} {admitted : Bool} {pc : Pc} (hn : s.sessions n = some pc) :
    s.step cd (.step n v admitted) = some (s.advance cd n v admitted pc) := by
  simp [State.step, hn]

/-- A publication by itself: two steps bring it to its transaction. -/
theorem publish_run (v : Nat) {p : Prepared} {encoded : Bytes} {purpose : Purpose} {o : Objects}
    (hn : s.sessions n = some (.putting p encoded purpose)) (h : s.objects.publish cd p encoded = some o) :
    ∃ t, exec (evidence cd) (fun _ _ => True) s (alone n v 2) = some t ∧ t.db = s.db ∧ t.objects = o ∧
      t.sessions n = some (.registering p purpose) := by
  obtain ⟨hput, hpublished⟩ := publish_some h
  let s₁ := ({ s with objects := o } : State).move n (some (.verifying p purpose))
  have h₁ : s.step cd (.step n v false) = some s₁ := by
    rw [step_of_pc hn]
    simp [State.advance, hput, s₁]
  have hn₁ : s₁.sessions n = some (.verifying p purpose) := by simp [s₁, State.move]
  have h₂ : s₁.step cd (.step n v false) = some (s₁.move n (some (.registering p purpose))) := by
    have hpublished₁ : s₁.objects.published cd p = true := hpublished
    rw [step_of_pc hn₁]
    simp [State.advance, hpublished₁]
  refine ⟨s₁.move n (some (.registering p purpose)), ?_, rfl, rfl, by simp [State.move]⟩
  simp only [alone, List.replicate, exec_cons, evidence, if_true, h₁, h₂, Option.bind_some]
  rfl

theorem exec_append {es fs : List Event} {t : State} (h : exec (evidence cd) (fun _ _ => True) s es = some t) :
    exec (evidence cd) (fun _ _ => True) s (es ++ fs) = exec (evidence cd) (fun _ _ => True) t fs := by
  unfold exec at h ⊢
  rw [List.foldlM_append, h]
  rfl

/-- A round of a transfer is what its session does in four steps with nobody in between. -/
theorem transferRow_run {target : Location} {row : ObjectRow} {rest : List ObjectRow} {x : Db × Objects}
    (hn : s.sessions n = some (.transferring target (row :: rest)))
    (h : transferRow cd target (s.db, s.objects) row = some x) :
    ∃ t, exec (evidence cd) (fun _ _ => True) s (alone n 0 4) = some t ∧ (t.db, t.objects) = x ∧
      t.sessions n = some (.transferring target rest) := by
  obtain ⟨encoded, hread, hif⟩ := Option.bind_eq_some_iff.mp h
  split at hif
  · next hdecode =>
    obtain ⟨o, hpublish, hmap⟩ := Option.bind_eq_some_iff.mp hif
    obtain ⟨db, hregister, rfl⟩ := Option.map_eq_some_iff.mp hmap
    simp only at hread hregister
    let s₁ := s.move n (some (.putting (row.object.moved target) encoded (.transfer row target rest)))
    have h₁ : s.step cd (.step n 0 false) = some s₁ := by
      rw [step_of_pc hn]
      simp [State.advance, hread, hdecode, s₁, Prepared.moved]
    have hn₁ : s₁.sessions n = some (.putting (row.object.moved target) encoded (.transfer row target rest)) := by
      simp [s₁, State.move]
    obtain ⟨s₃, h₃, hdb, hobjects, hn₃⟩ := publish_run 0 hn₁ (o := o) hpublish
    have h₄ : s₃.step cd (.step n 0 false) = some (s₃.commit n db (some (.transferring target rest))) := by
      rw [step_of_pc hn₃]
      have hregister₃ : s₃.db.registerTransfer row.id row.object (row.object.moved target) = some db := by
        rw [hdb]
        exact hregister
      simp [State.advance, State.register, hregister₃]
    refine ⟨s₃.commit n db (some (.transferring target rest)), ?_, ?_, by simp [State.commit, State.move]⟩
    · rw [show alone n 0 4 = [.step n 0 false] ++ (alone n 0 2 ++ [.step n 0 false]) from rfl,
        exec_append (t := s₁) (by simp [exec_cons, evidence, h₁]; rfl), exec_append h₃]
      simp [exec_cons, evidence, h₄]
      rfl
    · simp [State.commit, State.move, hobjects]
  · cases hif

/-- A round of a relocation is one step for a payload that is in a store, and five for another one. -/
theorem relocatePayload_run {v : Nat → Nat} {target : Location} {id : Nat} {rest : List Nat} {x : Db × Objects}
    (hn : s.sessions n = some (.relocating target (id :: rest)))
    (h : relocatePayload cd v target (s.db, s.objects) id = some x) :
    ∃ k t, exec (evidence cd) (fun _ _ => True) s (alone n (v id) k) = some t ∧ (t.db, t.objects) = x ∧
      t.sessions n = some (.relocating target rest) := by
  obtain ⟨row, hrow, hmatch⟩ := Option.bind_eq_some_iff.mp h
  simp only at hrow
  cases hcontent : row.content with
  | external objectId =>
    simp only [hcontent] at hmatch
    cases hmatch
    refine ⟨1, s.move n (some (.relocating target rest)), ?_, rfl, by simp [State.move]⟩
    have h₁ : s.step cd (.step n (v id) false) = some (s.move n (some (.relocating target rest))) := by
      rw [step_of_pc hn]
      simp [State.advance, hrow, hcontent]
    simp [alone, exec_cons, evidence, h₁]
    rfl
  | inline compression rawBody =>
    simp only [hcontent] at hmatch
    obtain ⟨body, hread, hmatch⟩ := Option.bind_eq_some_iff.mp hmatch
    obtain ⟨o, hpublish, hmap⟩ := Option.bind_eq_some_iff.mp hmatch
    obtain ⟨db, hregister, rfl⟩ := Option.map_eq_some_iff.mp hmap
    have hbody : (Db.decodeBody cd compression rawBody).bind (Db.checkBody cd row) = some body := by
      simpa [Db.readRawPayload, hrow, hcontent] using hread
    let s₁ := s.move n (some (.reading (.payload id) (.relocation target rest)))
    let s₂ := s₁.move n (some (.putting (prepare cd (v id) target .source body).1 (prepare cd (v id) target .source body).2
      (.relocation id target rest)))
    have h₁ : s.step cd (.step n (v id) false) = some s₁ := by
      rw [step_of_pc hn]
      simp [State.advance, hrow, hcontent, s₁]
    have hn₁ : s₁.sessions n = some (.reading (.payload id) (.relocation target rest)) := by simp [s₁, State.move]
    have h₂ : s₁.step cd (.step n (v id) false) = some s₂ := by
      rw [step_of_pc hn₁]
      have hrow₁ : s₁.db.payload id = some row := hrow
      simp [State.advance, State.select, hrow₁, hcontent, hbody, State.answer, s₂]
    have hn₂ : s₂.sessions n = some (.putting (prepare cd (v id) target .source body).1
        (prepare cd (v id) target .source body).2 (.relocation id target rest)) := by simp [s₂, State.move]
    obtain ⟨s₄, h₄, hdb, hobjects, hn₄⟩ := publish_run (v id) hn₂ (o := o) hpublish
    have h₅ : s₄.step cd (.step n (v id) false) = some (s₄.commit n db (some (.relocating target rest))) := by
      rw [step_of_pc hn₄]
      have hregister₄ : s₄.db.registerRelocatedPayload id (prepare cd (v id) target .source body).1 = some db := by
        rw [hdb]
        exact hregister
      simp [State.advance, State.register, hregister₄]
    refine ⟨5, s₄.commit n db (some (.relocating target rest)), ?_, by simp [State.commit, State.move, hobjects],
      by simp [State.commit, State.move]⟩
    rw [show alone n (v id) 5 = [.step n (v id) false, .step n (v id) false] ++
        (alone n (v id) 2 ++ [.step n (v id) false]) from rfl,
      exec_append (t := s₂) (by simp [exec_cons, evidence, h₁, h₂]; rfl), exec_append h₄]
    simp [exec_cons, evidence, h₅]
    rfl

end Runs

/-! ## No failures -/

variable {cd : Codec} {db : Db} {o : Objects}

/-- What quiet calls rely on; every reachable state has it. -/
structure Sound (cd : Codec) (x : Db × Objects) : Prop where
  ok : x.1.Ok cd x.2
  addressed : x.2.Addressed cd

theorem sound_of_reachable (hcd : cd.Lawful) {s : State} (h : Reachable (evidence cd) s) : Sound cd (s.db, s.objects) :=
  ⟨(inv_of_reachable hcd h).db, (inv_of_reachable hcd h).addressed⟩

/-- Bytes have one reading. -/
theorem decode_unique {p q : Prepared} {encoded a b : Bytes} (hp : decode cd p encoded = some a)
    (hq : decode cd q encoded = some b) :
    p.storedHash = q.storedHash ∧ p.bodyHash = q.bodyHash ∧ p.bodyBytes = q.bodyBytes := by
  have hwhole : ∀ {r : Prepared} {c : Bytes}, decode cd r encoded = some c → cd.decompress encoded = some c := by
    intro r c hr
    unfold decode at hr
    split at hr
    · cases hr
    · obtain ⟨full, hfull, hbody⟩ := Option.bind_eq_some_iff.mp hr
      dsimp only at hbody
      split at hbody
      · cases hbody
      · next hok =>
        cases hbody
        simp only [not_or, ne_eq, not_not, List.length_take] at hok
        rw [List.take_of_length_le (by omega)]
        exact hfull
  obtain rfl := Option.some.inj ((hwhole hp).symm.trans (hwhole hq))
  obtain ⟨hp₁, hp₂, hp₃⟩ := decode_some hp
  obtain ⟨hq₁, hq₂, hq₃⟩ := decode_some hq
  exact ⟨hp₁.symm.trans hq₁, hp₃.symm.trans hq₃, hp₂.symm.trans hq₂⟩

/-- Nothing stands in the way of a publication under its own digest. -/
theorem publish_ok (hcd : cd.Lawful) (h : o.Addressed cd) {p : Prepared} {encoded body : Bytes}
    (hkey : p.objectKey = .source p.storedHash) (hsize : encoded.length = p.storedBytes)
    (hdecode : decode cd p encoded = some body) :
    ∃ o', o.publish cd p encoded = some o' ∧ o.Keeps o' ∧ o'.Addressed cd ∧ o'.Source cd p := by
  have hdigest := (decode_some hdecode).1
  obtain ⟨o', hput⟩ : ∃ o', o.put p.place encoded = some o' := by
    unfold Objects.put
    split
    · exact ⟨_, rfl⟩
    · next old hold =>
      have hsame : old = encoded := by
        have hspelled := h p.location p.storedHash old (by rw [← hold, Prepared.place, hkey])
        exact hcd.digest (hspelled.trans hdigest.symm)
      exact ⟨o, if_pos hsame⟩
  obtain ⟨hplace, hold⟩ := put_some hput
  have haddressed : p.Addressed := by
    intro hash heq
    rw [hkey] at heq
    exact (ObjectKey.source.inj heq).symm
  refine ⟨o', ?_, fun q b _ hq => hold q b hq, put_addressed h haddressed hdecode hput, ?_, body,
    readArchiveBody_of hplace hsize hdecode⟩
  · have hpublished : o'.published cd p = true := by
      simp [Objects.published, Objects.read, hplace, Option.filter, hsize, hdigest]
    simp [Objects.publish, hput, hpublished]
  · rw [hkey]
    rfl

/-- The registry has no other metadata for the bytes of a place. -/
theorem registerArchiveObject_total (h : db.Ok cd o) {p : Prepared} (hp : o.Source cd p) :
    ∃ id db', db.registerArchiveObject p = some (id, db') := by
  unfold Db.registerArchiveObject
  split
  · exact ⟨_, _, rfl⟩
  · next old hfound =>
    have hmem := List.mem_of_find?_eq_some hfound
    have hplace : old.object.place = p.place := by simpa using List.find?_some hfound
    have hkey : old.object.objectKey.isSource = true := by
      rw [show old.object.objectKey = p.objectKey from congrArg Prod.snd hplace]
      exact hp.1
    obtain ⟨_, a, ha⟩ := h.source old hmem hkey
    obtain ⟨_, b, hb⟩ := hp
    obtain ⟨e, he, hesize, hedecode⟩ := readArchiveBody_some ha
    obtain ⟨f, hf, hfsize, hfdecode⟩ := readArchiveBody_some hb
    rw [hplace, hf] at he
    obtain rfl := Option.some.inj he
    obtain ⟨h₁, h₂, h₃⟩ := decode_unique hedecode hfdecode
    exact ⟨old.id, db, if_neg (by simp [h₁, h₂, h₃, ← hesize, hfsize])⟩

theorem registerArchiveObject_objects {p : Prepared} {id : Nat} {db' : Db} (h : db.registerArchiveObject p = some (id, db')) :
    ∀ y ∈ db'.objects, y ∈ db.objects ∨ y.object = p := by
  unfold Db.registerArchiveObject at h
  split at h
  · cases h
    intro y hy
    obtain hy | hy := List.mem_append.mp hy
    · exact .inl hy
    · obtain rfl := List.mem_singleton.mp hy
      exact .inr rfl
  · split at h
    · cases h
    · cases h
      exact fun y hy => .inl hy

/-! ## Sweeps -/

/-- The objects of evidence that are not where they should be. -/
def Db.Foreign (db : Db) (target : Location) (y : ObjectRow) : Prop :=
  y ∈ db.objects ∧ db.referenced y.id = true ∧ y.object.location ≠ target

/-- A cutover succeeds, leaves nothing of its source behind and makes nothing else foreign. -/
theorem registerTransfer_total (h : db.Ok cd o) {row : ObjectRow} (hrow : db.object row.id = some row) {p : Prepared}
    (hp : o.Source cd p) (hne : row.object.location ≠ p.location) :
    ∃ db', db.registerTransfer row.id row.object p = some db' ∧
      ∀ y, db'.Foreign p.location y → db.Foreign p.location y ∧ y.id ≠ row.id := by
  cases href : db.referenced row.id with
  | false =>
    refine ⟨db, by simp [Db.registerTransfer, hrow, href], fun y hy => ⟨hy, fun hid => ?_⟩⟩
    rw [← hid, hy.2.1] at href
    cases href
  | true =>
    obtain ⟨targetId, mid, hregister⟩ := registerArchiveObject_total h hp
    obtain ⟨hok, hgrows, htarget, hpayloads, himports, _⟩ := registerArchiveObject_ok h (fun _ => hp) hregister
    have hrow' := hgrows.object _ _ hrow
    have hids : targetId ≠ row.id := by
      intro hid
      rw [hid, hrow'] at htarget
      exact hne (by rw [Option.some.inj htarget])
    -- a payload of the source has its fingerprint, so the first update misses none
    have hleft : ∀ r ∈ (mid.repoint row.id targetId row.object).payloads, r.content ≠ .external row.id := by
      intro q hq hcontent
      obtain ⟨r, hr, rfl⟩ := List.mem_map.mp hq
      split at hcontent
      · exact hids (Content.external.inj hcontent)
      · next hstays =>
        have hbody := hok.payload r hr
        unfold Db.BodyOk at hbody
        rw [hcontent] at hbody
        obtain ⟨x, hx, _, hfingerprint⟩ := hbody
        obtain rfl := Option.some.inj (hrow'.symm.trans hx)
        obtain ⟨hhash, hbytes⟩ := Prod.mk.inj hfingerprint
        exact hstays ⟨hcontent, hhash.symm, hbytes.symm⟩
    refine ⟨mid.repoint row.id targetId row.object, ?_, fun y hy => ?_⟩
    · simpa [Db.registerTransfer, hrow, href, hregister] using hleft
    · obtain ⟨hmem, hreferenced, hlocation⟩ := hy
      have hytarget : y.id ≠ targetId := by
        intro hid
        have hyrow := hok.object_of_mem hmem
        rw [hid, htarget] at hyrow
        exact hlocation (by rw [← Option.some.inj hyrow])
      have hold : y ∈ db.objects := by
        obtain hold | hnew := registerArchiveObject_objects hregister y hmem
        · exact hold
        · exact absurd (by rw [hnew]) hlocation
      simp only [Db.referenced, Bool.or_eq_true, List.any_eq_true, decide_eq_true_eq] at hreferenced
      obtain ⟨q, hq, hcontent⟩ | ⟨q, hq, hid⟩ := hreferenced
      · have hsource : y.id ≠ row.id := fun hid => hleft q hq (by rw [hcontent, hid])
        obtain ⟨r, hr, rfl⟩ := List.mem_map.mp hq
        split at hcontent
        · exact absurd (Content.external.inj hcontent).symm hytarget
        · have : db.referenced y.id = true := by
            simp only [Db.referenced, Bool.or_eq_true, List.any_eq_true, decide_eq_true_eq]
            exact .inl ⟨r, hpayloads ▸ hr, hcontent⟩
          exact ⟨⟨hold, this, hlocation⟩, hsource⟩
      · obtain ⟨r, hr, rfl⟩ := List.mem_map.mp hq
        split at hid
        · exact absurd hid.symm hytarget
        · next hstays =>
          have : db.referenced y.id = true := by
            simp only [Db.referenced, Bool.or_eq_true, List.any_eq_true, decide_eq_true_eq]
            exact .inr ⟨r, himports ▸ hr, hid⟩
          exact ⟨⟨hold, this, hlocation⟩, fun hrowId => hstays (hid.trans hrowId)⟩

/-- The work of a sweep. -/
def Db.foreignIds (db : Db) (target : Location) : List Nat :=
  (db.objects.filter fun r => r.object.location ≠ target && db.referenced r.id).map ObjectRow.id

theorem mem_foreignIds {target : Location} {id : Nat} :
    id ∈ db.foreignIds target ↔ ∃ z, db.Foreign target z ∧ z.id = id := by
  simp only [Db.foreignIds, List.mem_map, List.mem_filter, Bool.and_eq_true, decide_eq_true_eq, Db.Foreign]
  constructor
  · rintro ⟨z, ⟨hz, hne, href⟩, rfl⟩
    exact ⟨z, ⟨hz, href, hne⟩, rfl⟩
  · rintro ⟨z, ⟨hz, href, hne⟩, rfl⟩
    exact ⟨z, ⟨hz, hne, href⟩, rfl⟩

theorem foreignIds_sorted (h : db.Ok cd o) (target : Location) : (db.foreignIds target).Pairwise (· < ·) :=
  h.objectIds.sublist ((List.filter_sublist).map _)

theorem foreignObjects_ids (db : Db) (target : Location) (afterObjectId limit : Nat) :
    (db.foreignObjects target afterObjectId limit).map ObjectRow.id =
      batchOf (db.foreignIds target) afterObjectId limit := by
  unfold Db.foreignObjects batchOf Db.foreignIds
  rw [List.map_take, List.filter_map, List.filter_filter]
  simp only [Function.comp_def, Bool.and_assoc]

/-- A row as the query of a call returns it. -/
def Db.Selected (db : Db) (target : Location) (row : ObjectRow) : Prop :=
  db.object row.id = some row ∧ row.object.objectKey.isSource = true ∧ row.object.location ≠ target

theorem Db.Selected.mono {db' : Db} {target : Location} {row : ObjectRow} (h : db.Selected target row) (hgrows : db.Grows db') :
    db'.Selected target row := ⟨hgrows.object _ _ h.1, h.2⟩

theorem selected_of_foreignObjects (h : db.Ok cd o) {target : Location} {afterObjectId limit : Nat} {r : ObjectRow}
    (hr : r ∈ db.foreignObjects target afterObjectId limit) : db.Selected target r := by
  obtain ⟨hmem, hselected⟩ := List.mem_filter.mp (List.mem_of_mem_take hr)
  simp only [Bool.and_eq_true, decide_eq_true_eq] at hselected
  exact ⟨h.object_of_mem hmem, source_of_referenced h hmem hselected.2, hselected.1.2⟩

/-- A round ends well, and its object is foreign no more. -/
theorem transferRow_total (hcd : cd.Lawful) {target : Location} (x : Db × Objects) (row : ObjectRow) (h : Sound cd x)
    (hrow : x.1.Selected target row) :
    ∃ y, transferRow cd target x row = some y ∧ Sound cd y ∧ x.1.Grows y.1 ∧
      ∀ id, id ∈ y.1.foreignIds target → id ∈ x.1.foreignIds target ∧ id ≠ row.id := by
  obtain ⟨hobject, hkey, hne⟩ := hrow
  obtain ⟨_, body, hbody⟩ := h.ok.source row (mem_of_object hobject).1 hkey
  obtain ⟨encoded, hplace, hsize, hdecode⟩ := readArchiveBody_some hbody
  have hmoved : decode cd (row.object.moved target) encoded = some body := hdecode
  obtain ⟨o, hpublish, hkeeps, haddressed, hsource⟩ := publish_ok hcd h.addressed (p := row.object.moved target) rfl hsize hmoved
  have hok := h.ok.mono hkeeps
  obtain ⟨db, hregister, hforeign⟩ := registerTransfer_total hok hobject hsource hne
  have hsame : (row.object.moved target).fingerprint = row.object.fingerprint := rfl
  obtain ⟨hok', hgrows⟩ := registerTransfer_ok hok hsource hsame hregister
  refine ⟨(db, o), ?_, ⟨hok', haddressed⟩, hgrows, fun id hid => ?_⟩
  · have hread : x.2.read row.object.place row.object.storedBytes = some encoded := by
      simp [Objects.read, hplace, Option.filter, hsize]
    simp [transferRow, hread, hdecode, hpublish, hregister]
  · obtain ⟨z, hz, rfl⟩ := mem_foreignIds.mp hid
    obtain ⟨hz, hrest⟩ := hforeign z hz
    exact ⟨mem_foreignIds.mpr ⟨z, hz, rfl⟩, hrest⟩

/-- A call over a prefix without foreign objects leaves a longer one behind, or none at all in the end. -/
theorem transferArchiveObjects_total (hcd : cd.Lawful) {target : Location} {batchSize afterObjectId : Nat} {x : Db × Objects}
    (hsize : 1 ≤ batchSize) (h : Sound cd x) (hswept : ∀ id ∈ x.1.foreignIds target, afterObjectId < id) :
    ∃ r y, transferArchiveObjects cd target batchSize afterObjectId x = some (r, y) ∧ Sound cd y ∧ x.1.Grows y.1 ∧
      (r.hasMore = false → y.1.foreignIds target = []) ∧
      (r.hasMore = true → (∀ id ∈ y.1.foreignIds target, r.nextAfterObjectId < id) ∧
        (y.1.foreignIds target).length < (x.1.foreignIds target).length) := by
  let rows := x.1.foreignObjects target afterObjectId (batchSize + 1)
  let batch := rows.take batchSize
  have hids : rows.map ObjectRow.id = batchOf (x.1.foreignIds target) afterObjectId (batchSize + 1) :=
    foreignObjects_ids _ _ _ _
  have hbatch : batch.map ObjectRow.id = batchOf (x.1.foreignIds target) afterObjectId batchSize := by
    rw [List.map_take, hids, batchOf, batchOf, List.take_take, Nat.min_eq_left (Nat.le_succ _)]
  have hsorted := foreignIds_sorted h.ok target
  have hselected : ∀ r ∈ batch, x.1.Selected target r := fun r hr =>
    selected_of_foreignObjects h.ok (List.mem_of_mem_take (show r ∈ rows.take batchSize from hr))
  obtain ⟨y, hy, hsound, hgrows, hleft⟩ := foldlM_finishes (fun x y => x.1.Grows y.1)
    (fun x => x.1.Selected target) (fun x id => id ∈ x.1.foreignIds target) ObjectRow.id (fun x => Db.Grows.refl x.1)
    (fun _ _ _ => Db.Grows.trans) (fun _ _ _ hgrows hrow => hrow.mono hgrows) (transferRow_total hcd) h hselected
  refine ⟨⟨batchSize < rows.length, (batch.getLast?.map ObjectRow.id).getD afterObjectId⟩, y, ?_, hsound, hgrows,
    fun hmore => ?_, fun hmore => ?_⟩
  · change (batch.foldlM (transferRow cd target) x).map _ = _
    rw [hy]
    rfl
  · -- the query had no more than one batch to return, so nothing stands behind it
    have hlength : rows.length ≤ batchSize := by simpa using hmore
    refine List.eq_nil_iff_forall_not_mem.mpr fun id hid => ?_
    obtain ⟨hold, hbatched⟩ := hleft id hid
    have hafter := hswept id hold
    have hshort : (batchOf (x.1.foreignIds target) afterObjectId (batchSize + 1)).length < batchSize + 1 := by
      rw [← hids, List.length_map]
      omega
    obtain hpassed | hmem := batchOf_all hshort hold
    · omega
    · rw [← hids] at hmem
      exact hbatched (by rwa [show batch = rows from List.take_of_length_le hlength])
  · have hlength : batchSize < rows.length := by simpa using hmore
    have hfull : batch.length = batchSize := by
      rw [List.length_take]
      omega
    have hne : batch ≠ [] := List.ne_nil_of_length_pos (by omega)
    refine ⟨fun id hid => ?_, ?_⟩
    · obtain ⟨hold, hbatched⟩ := hleft id hid
      have hsplit : batchOf (x.1.foreignIds target) afterObjectId batchSize =
          batch.dropLast.map ObjectRow.id ++ (batch.getLast hne).id :: [] := by
        rw [← hbatch, ← List.map_singleton (f := ObjectRow.id), ← List.map_append, List.dropLast_append_getLast]
      simp only [List.getLast?_eq_some_getLast hne, Option.map_some, Option.getD_some]
      by_contra hle
      obtain heq | hlt := Nat.eq_or_lt_of_le (Nat.le_of_not_lt hle)
      · exact hbatched (heq ▸ List.mem_map_of_mem (List.getLast_mem hne))
      · obtain hpassed | hdone := batchOf_before hsorted hsplit hold hlt
        · have := hswept id hold
          omega
        · rw [List.map_dropLast] at hdone
          exact hbatched (List.dropLast_subset _ hdone)
    · have hnodup : (batch.map ObjectRow.id).Nodup := by
        rw [hbatch]
        exact ((hsorted.imp Nat.ne_of_lt).filter _).sublist (List.take_sublist _ _)
      have hwork : ∀ id ∈ batch.map ObjectRow.id, id ∈ x.1.foreignIds target := by
        rw [hbatch]
        exact fun id hid => (mem_of_mem_batchOf hid).1
      have := length_left ((foreignIds_sorted hsound.ok target).imp Nat.ne_of_lt) hnodup hwork hleft
      rw [List.length_map, hfull] at this
      omega

/-- Enough calls leave nothing foreign, and cost nothing that could be read. -/
theorem sweep_total (hcd : cd.Lawful) {target : Location} {batchSize : Nat} (hsize : 1 ≤ batchSize) (calls : Nat) :
    ∀ {afterObjectId : Nat} {x : Db × Objects}, Sound cd x → (∀ id ∈ x.1.foreignIds target, afterObjectId < id) →
      (x.1.foreignIds target).length < calls →
      ∃ y, sweep cd target batchSize calls afterObjectId x = some y ∧ Sound cd y ∧ x.1.Grows y.1 ∧
        y.1.foreignIds target = [] := by
  induction calls with
  | zero => exact fun _ _ hcalls => absurd hcalls (Nat.not_lt_zero _)
  | succ calls ih =>
    intro afterObjectId x h hswept hcalls
    obtain ⟨r, y, hcall, hsound, hgrows, hdone, hmore⟩ := transferArchiveObjects_total hcd hsize h hswept
    cases hr : r.hasMore with
    | false => exact ⟨y, by simp [sweep, hcall, hr], hsound, hgrows, hdone hr⟩
    | true =>
      obtain ⟨hswept', hshorter⟩ := hmore hr
      obtain ⟨z, hz, hsound', hgrows', hnone⟩ := ih hsound hswept' (by omega)
      exact ⟨z, by simp [sweep, hcall, hr, hz], hsound', hgrows.trans hgrows', hnone⟩

/-! ## Drains -/

/-- The payloads that the database still holds itself. -/
def Db.inlineIds (db : Db) : List Nat :=
  (db.payloads.filter fun r => match r.content with
    | .inline .. => true
    | .external _ => false).map RawPayload.id

theorem inlineBatch_eq (db : Db) (batchSize : Nat) : db.inlineBatch batchSize = db.inlineIds.take batchSize := rfl

theorem mem_inlineIds {id : Nat} :
    id ∈ db.inlineIds ↔ ∃ r ∈ db.payloads, r.id = id ∧ ∀ objectId, r.content ≠ .external objectId := by
  simp only [Db.inlineIds, List.mem_map, List.mem_filter]
  constructor
  · rintro ⟨r, ⟨hr, hinline⟩, rfl⟩
    refine ⟨r, hr, rfl, fun objectId hcontent => ?_⟩
    rw [hcontent] at hinline
    cases hinline
  · rintro ⟨r, hr, rfl, hcontent⟩
    refine ⟨r, ⟨hr, ?_⟩, rfl⟩
    cases hr' : r.content with
    | inline compression rawBody => rfl
    | external objectId => exact absurd hr' (hcontent objectId)

theorem inlineIds_nodup (h : db.Ok cd o) : db.inlineIds.Nodup :=
  h.payloadIds.sublist ((List.filter_sublist).map _)

theorem payload_of_inlineIds (h : db.Ok cd o) {id : Nat} (hid : id ∈ db.inlineIds) : (db.payload id).isSome = true := by
  obtain ⟨r, hr, rfl, _⟩ := mem_inlineIds.mp hid
  rw [h.payload_of_mem hr]
  rfl

/-- The last inline copy of a payload is released, and no other one's. -/
theorem registerRelocatedPayload_total (h : db.Ok cd o) {id : Nat} {row : RawPayload} (hrow : db.payload id = some row)
    {p : Prepared} (hp : o.Source cd p) (hsame : row.fingerprint = p.fingerprint) :
    ∃ db', db.registerRelocatedPayload id p = some db' ∧ ∀ i, i ∈ db'.inlineIds → i ∈ db.inlineIds ∧ i ≠ id := by
  obtain ⟨hhash, hbytes⟩ := Prod.mk.inj hsame
  cases hcontent : row.content with
  | external objectId =>
    refine ⟨db, by simp [Db.registerRelocatedPayload, hrow, hcontent], fun i hi => ⟨hi, fun heq => ?_⟩⟩
    obtain ⟨r, hr, hid, hinline⟩ := mem_inlineIds.mp hi
    have hfound := h.payload_of_mem hr
    rw [hid, heq, hrow] at hfound
    exact hinline objectId (Option.some.inj hfound ▸ hcontent)
  | inline compression rawBody =>
    obtain ⟨objectId, mid, hregister⟩ := registerArchiveObject_total h hp
    obtain ⟨_, _, _, hpayloads, _⟩ := registerArchiveObject_ok h (fun _ => hp) hregister
    refine ⟨mid.setContent id (.external objectId), ?_, fun i hi => ?_⟩
    · simp [Db.registerRelocatedPayload, hrow, hcontent, hhash, hbytes, hregister]
    · obtain ⟨q, hq, hid, hinline⟩ := mem_inlineIds.mp hi
      obtain ⟨r, hr, rfl⟩ := List.mem_map.mp hq
      split at hinline
      · exact absurd rfl (hinline objectId)
      · next hne =>
        rw [if_neg hne] at hid
        obtain rfl := hid
        exact ⟨mem_inlineIds.mpr ⟨r, hpayloads ▸ hr, rfl, hinline⟩, hne⟩

theorem relocatePayload_total (hcd : cd.Lawful) (v : Nat → Nat) (target : Location) (x : Db × Objects) (id : Nat)
    (h : Sound cd x) (hrow : (x.1.payload id).isSome = true) :
    ∃ y, relocatePayload cd v target x id = some y ∧ Sound cd y ∧ x.1.Grows y.1 ∧
      ∀ i, i ∈ y.1.inlineIds → i ∈ x.1.inlineIds ∧ i ≠ id := by
  obtain ⟨row, hrow⟩ := Option.isSome_iff_exists.mp hrow
  have hfingerprint : x.1.fingerprint (.payload id) = some row.fingerprint := by simp [Db.fingerprint, hrow]
  obtain ⟨body, hbody, hread⟩ := h.ok.read hfingerprint
  have hlength : (prepare cd (v id) target .source body).2.length =
      (prepare cd (v id) target .source body).1.storedBytes := rfl
  obtain ⟨o, hpublish, hkeeps, haddressed, hsource⟩ := publish_ok hcd h.addressed rfl hlength
    (decode_prepare hcd (v id) target .source body)
  have hok := h.ok.mono hkeeps
  have hsame : row.fingerprint = (prepare cd (v id) target .source body).1.fingerprint := hbody.symm
  obtain ⟨db, hregister, hinline⟩ := registerRelocatedPayload_total hok hrow hsource hsame
  cases hcontent : row.content with
  | external objectId =>
    have heq : db = x.1 := by simpa [Db.registerRelocatedPayload, hrow, hcontent, eq_comm] using hregister
    exact ⟨x, by simp [relocatePayload, hrow, hcontent], h, Db.Grows.refl _, heq ▸ hinline⟩
  | inline compression rawBody =>
    obtain ⟨hok', hgrows⟩ := registerRelocatedPayload_ok hok hsource hregister
    have hread' : x.1.readRawPayload x.2 cd id = some body := hread
    exact ⟨(db, o), by simp [relocatePayload, hrow, hcontent, hread', hpublish, hregister], ⟨hok', haddressed⟩, hgrows,
      hinline⟩

theorem payload_grows {db' : Db} (h : db.Grows db') {id : Nat} (hrow : (db.payload id).isSome = true) :
    (db'.payload id).isSome = true := by
  obtain ⟨row, hrow⟩ := Option.isSome_iff_exists.mp hrow
  have hfingerprint : db.fingerprint (.payload id) = some row.fingerprint := by simp [Db.fingerprint, hrow]
  obtain ⟨row', hrow', _⟩ := Option.map_eq_some_iff.mp (h.fingerprint _ _ hfingerprint)
  rw [hrow']
  rfl

theorem relocateRawPayloads_total (hcd : cd.Lawful) (v : Nat → Nat) (target : Location) {batchSize : Nat}
    {x : Db × Objects} (hsize : 1 ≤ batchSize) (h : Sound cd x) :
    ∃ more y, relocateRawPayloads cd v target batchSize x = some (more, y) ∧ Sound cd y ∧ x.1.Grows y.1 ∧
      (more = false → y.1.inlineIds = []) ∧ (more = true → y.1.inlineIds.length < x.1.inlineIds.length) := by
  let batch := x.1.inlineIds.take batchSize
  have hwork : ∀ id ∈ batch, id ∈ x.1.inlineIds := fun id hid => List.mem_of_mem_take hid
  obtain ⟨y, hy, hsound, hgrows, hleft⟩ := foldlM_finishes (fun x y => x.1.Grows y.1)
    (fun x id => (x.1.payload id).isSome = true) (fun x id => id ∈ x.1.inlineIds) id (fun x => Db.Grows.refl x.1)
    (fun _ _ _ => Db.Grows.trans) (fun _ _ _ hgrows hrow => payload_grows hgrows hrow)
    (relocatePayload_total hcd v target) h fun id hid => payload_of_inlineIds h.ok (hwork id hid)
  rw [List.map_id] at hleft
  have hmore : (y.1.inlineBatch 1).isEmpty = true ↔ y.1.inlineIds = [] := by
    simp [inlineBatch_eq, List.isEmpty_iff, List.take_eq_nil_iff]
  refine ⟨!(y.1.inlineBatch 1).isEmpty, y, ?_, hsound, hgrows, fun heq => ?_, fun heq => ?_⟩
  · change (batch.foldlM (relocatePayload cd v target) x).map _ = _
    rw [hy]
    rfl
  · exact hmore.mp (by simpa using heq)
  · obtain ⟨id, hid⟩ : ∃ id, id ∈ y.1.inlineIds := by
      refine List.exists_mem_of_ne_nil _ fun hnil => ?_
      rw [hmore.mpr hnil] at heq
      cases heq
    have hpos : 0 < x.1.inlineIds.length := List.length_pos_of_mem (hleft id hid).1
    have hbatch : 0 < batch.length := by
      rw [List.length_take]
      omega
    have hlength : y.1.inlineIds.length + batch.length ≤ x.1.inlineIds.length :=
      length_left (inlineIds_nodup hsound.ok) ((inlineIds_nodup h.ok).sublist (List.take_sublist _ _)) hwork hleft
    omega

theorem drain_total (hcd : cd.Lawful) (v : Nat → Nat) (target : Location) {batchSize : Nat} (hsize : 1 ≤ batchSize)
    (calls : Nat) : ∀ {x : Db × Objects}, Sound cd x → x.1.inlineIds.length < calls →
      ∃ y, drain cd v target batchSize calls x = some y ∧ Sound cd y ∧ x.1.Grows y.1 ∧ y.1.inlineIds = [] := by
  induction calls with
  | zero => exact fun _ hcalls => absurd hcalls (Nat.not_lt_zero _)
  | succ calls ih =>
    intro x h hcalls
    obtain ⟨more, y, hcall, hsound, hgrows, hdone, hmore⟩ := relocateRawPayloads_total hcd v target hsize h
    cases more with
    | false => exact ⟨y, by simp [drain, hcall], hsound, hgrows, hdone rfl⟩
    | true =>
      have hshorter := hmore rfl
      obtain ⟨z, hz, hsound', hgrows', hnone⟩ := ih hsound (by omega)
      exact ⟨z, by simp [drain, hcall, hz], hsound', hgrows.trans hgrows', hnone⟩

/-! ## Whole calls in a run -/

section Calls
variable {s : State} {n : Nat} {target : Location} {batchSize : Nat}

theorem reachable_next {e : Event} {t : State} (h : Reachable (evidence cd) s) (hstep : s.step cd e = some t) :
    Reachable (evidence cd) t := Reach.next h trivial hstep

theorem transferBatch_run {rows : List ObjectRow} {y : Db × Objects} (h : Reachable (evidence cd) s)
    (hn : s.sessions n = some (.transferring target rows)) (hy : rows.foldlM (transferRow cd target) (s.db, s.objects) = some y) :
    ∃ t, Reachable (evidence cd) t ∧ (t.db, t.objects) = y ∧ t.sessions n = none := by
  induction rows generalizing s with
  | nil =>
    have hstep : s.step cd (.step n 0 false) = some (s.close n) := by
      rw [step_of_pc hn]
      rfl
    exact ⟨s.close n, reachable_next h hstep, Option.some.inj hy, by simp [State.close, State.move]⟩
  | cons row rows ih =>
    rw [List.foldlM_cons] at hy
    obtain ⟨u, hu, hrest⟩ := Option.bind_eq_some_iff.mp hy
    obtain ⟨t, ht, rfl, hpc⟩ := transferRow_run hn hu
    exact ih (h.exec _ ht) hpc hrest

theorem transfer_run {afterObjectId : Nat} {r : TransferResult} {y : Db × Objects} (h : Reachable (evidence cd) s)
    (hn : s.sessions n = none) (hsize : 1 ≤ batchSize ∧ batchSize ≤ 10000)
    (hy : transferArchiveObjects cd target batchSize afterObjectId (s.db, s.objects) = some (r, y)) :
    ∃ t, Reachable (evidence cd) t ∧ (t.db, t.objects) = y ∧ t.sessions n = none := by
  obtain ⟨z, hz, heq⟩ := Option.map_eq_some_iff.mp hy
  obtain rfl := (Prod.mk.inj heq).2
  have hbatch : (s.db.foreignObjects target afterObjectId (batchSize + 1)).take batchSize =
      s.db.foreignObjects target afterObjectId batchSize := by
    rw [Db.foreignObjects, Db.foreignObjects, List.take_take, Nat.min_eq_left (Nat.le_succ _)]
  rw [hbatch] at hz
  have hstep : s.step cd (.transfer n target batchSize afterObjectId) =
      some (s.move n (some (.transferring target (s.db.foreignObjects target afterObjectId batchSize)))) := by
    simp [State.step, Event.start, hsize, hn]
  refine transferBatch_run (reachable_next h hstep) ?_ hz
  simp [State.move]

theorem sweep_run (hsize : 1 ≤ batchSize ∧ batchSize ≤ 10000) (calls : Nat) :
    ∀ {afterObjectId : Nat} {s : State} {y : Db × Objects}, Reachable (evidence cd) s → s.sessions n = none →
      sweep cd target batchSize calls afterObjectId (s.db, s.objects) = some y →
      ∃ t, Reachable (evidence cd) t ∧ (t.db, t.objects) = y ∧ t.sessions n = none := by
  induction calls with
  | zero => exact fun _ _ hy => by cases hy
  | succ calls ih =>
    intro afterObjectId s y h hn hy
    obtain ⟨⟨r, u⟩, hcall, hrest⟩ := Option.bind_eq_some_iff.mp hy
    obtain ⟨t, ht, rfl, hpc⟩ := transfer_run h hn hsize hcall
    split at hrest
    · exact ih ht hpc hrest
    · exact ⟨t, ht, Option.some.inj hrest, hpc⟩

theorem relocateBatch_run {v : Nat → Nat} {ids : List Nat} {y : Db × Objects} (h : Reachable (evidence cd) s)
    (hn : s.sessions n = some (.relocating target ids))
    (hy : ids.foldlM (relocatePayload cd v target) (s.db, s.objects) = some y) :
    ∃ t, Reachable (evidence cd) t ∧ (t.db, t.objects) = y ∧ t.sessions n = none := by
  induction ids generalizing s with
  | nil =>
    have hstep : s.step cd (.step n 0 false) = some (s.close n) := by
      rw [step_of_pc hn]
      rfl
    exact ⟨s.close n, reachable_next h hstep, Option.some.inj hy, by simp [State.close, State.move]⟩
  | cons id ids ih =>
    rw [List.foldlM_cons] at hy
    obtain ⟨u, hu, hrest⟩ := Option.bind_eq_some_iff.mp hy
    obtain ⟨k, t, ht, rfl, hpc⟩ := relocatePayload_run hn hu
    exact ih (h.exec _ ht) hpc hrest

theorem relocate_run {v : Nat → Nat} {more : Bool} {y : Db × Objects} (h : Reachable (evidence cd) s)
    (hn : s.sessions n = none) (hsize : 1 ≤ batchSize ∧ batchSize ≤ 10000)
    (hy : relocateRawPayloads cd v target batchSize (s.db, s.objects) = some (more, y)) :
    ∃ t, Reachable (evidence cd) t ∧ (t.db, t.objects) = y ∧ t.sessions n = none := by
  obtain ⟨z, hz, heq⟩ := Option.map_eq_some_iff.mp hy
  obtain rfl := (Prod.mk.inj heq).2
  have hstep : s.step cd (.relocate n target batchSize) =
      some (s.move n (some (.relocating target (s.db.inlineBatch batchSize)))) := by
    simp [State.step, Event.start, hsize, hn]
  refine relocateBatch_run (reachable_next h hstep) ?_ hz
  simp [State.move]

theorem drain_run {v : Nat → Nat} (hsize : 1 ≤ batchSize ∧ batchSize ≤ 10000) (calls : Nat) :
    ∀ {s : State} {y : Db × Objects}, Reachable (evidence cd) s → s.sessions n = none →
      drain cd v target batchSize calls (s.db, s.objects) = some y →
      ∃ t, Reachable (evidence cd) t ∧ (t.db, t.objects) = y ∧ t.sessions n = none := by
  induction calls with
  | zero => exact fun _ _ hy => by cases hy
  | succ calls ih =>
    intro s y h hn hy
    obtain ⟨⟨more, u⟩, hcall, hrest⟩ := Option.bind_eq_some_iff.mp hy
    obtain ⟨t, ht, rfl, hpc⟩ := relocate_run h hn hsize hcall
    split at hrest
    · exact ih ht hpc hrest
    · exact ⟨t, ht, Option.some.inj hrest, hpc⟩

/-- What can be read is of the evidence. -/
theorem fingerprint_of_read (h : db.Ok cd o) {e : Evidence} {body : Bytes} (hread : db.readEvidence o cd e = some body) :
    db.fingerprint e = some (fingerprintOf cd body) := by
  cases hfingerprint : db.fingerprint e with
  | none =>
    cases e with
    | payload id =>
      have hrow : db.payload id = none := Option.map_eq_none_iff.mp hfingerprint
      simp [Db.readEvidence, Db.readRawPayload, hrow] at hread
    | backup id workspaceId =>
      obtain ⟨row, hrow, hrest⟩ := Option.bind_eq_some_iff.mp hread
      obtain ⟨x, hx, _⟩ := Option.bind_eq_some_iff.mp hrest
      simp [Db.fingerprint, hrow, hx] at hfingerprint
  | some f =>
    obtain ⟨b, rfl, hb⟩ := h.read hfingerprint
    rw [Option.some.inj (hread.symm.trans hb)]

theorem reads_grow (hcd : cd.Lawful) {db' : Db} {o' : Objects} (h : db.Ok cd o) (h' : db'.Ok cd o') (hgrows : db.Grows db')
    {e : Evidence} {body : Bytes} (hread : db.readEvidence o cd e = some body) : db'.readEvidence o' cd e = some body := by
  obtain ⟨b, hsame, hb⟩ := h'.read (hgrows.fingerprint _ _ (fingerprint_of_read h hread))
  rw [hb, fingerprintOf_injective hcd hsame]

/-- From any reachable archive, and with every other session at rest, a sweep from zero with enough calls meets no error
and leaves nothing that evidence refers to outside of its target; all that could be read is read as before. -/
theorem sweep_collects (hcd : cd.Lawful) (h : Reachable (evidence cd) s) (hn : s.sessions n = none)
    (hsize : 1 ≤ batchSize ∧ batchSize ≤ 10000) {calls : Nat} (hcalls : s.db.objects.length < calls) (target : Location) :
    ∃ t, Reachable (evidence cd) t ∧ sweep cd target batchSize calls 0 (s.db, s.objects) = some (t.db, t.objects) ∧
      (∀ row ∈ t.db.objects, t.db.referenced row.id = true → row.object.location = target) ∧
      ∀ e body, s.db.readEvidence s.objects cd e = some body → t.db.readEvidence t.objects cd e = some body := by
  have hsound := sound_of_reachable hcd h
  have hpositive : ∀ id ∈ s.db.foreignIds target, 0 < id := by
    intro id hid
    obtain ⟨z, hz, rfl⟩ := mem_foreignIds.mp hid
    exact (hsound.ok.objectBound z hz.1).1
  have hcount : (s.db.foreignIds target).length < calls := by
    unfold Db.foreignIds
    rw [List.length_map]
    exact Nat.lt_of_le_of_lt (List.length_filter_le _ _) hcalls
  obtain ⟨y, hy, hsound', hgrows, hnone⟩ := sweep_total hcd hsize.1 calls hsound hpositive hcount
  obtain ⟨t, ht, rfl, _⟩ := sweep_run hsize calls h hn hy
  refine ⟨t, ht, hy, fun row hrow href => ?_, fun e body hread => reads_grow hcd hsound.ok hsound'.ok hgrows hread⟩
  by_contra hne
  have := mem_foreignIds.mpr ⟨row, ⟨hrow, href, hne⟩, rfl⟩
  rw [hnone] at this
  cases this

/-- Under the same conditions a relocation that is repeated often enough meets no error and releases every inline body. -/
theorem drain_empties (hcd : cd.Lawful) (h : Reachable (evidence cd) s) (hn : s.sessions n = none)
    (hsize : 1 ≤ batchSize ∧ batchSize ≤ 10000) {calls : Nat} (hcalls : s.db.payloads.length < calls) (v : Nat → Nat)
    (target : Location) :
    ∃ t, Reachable (evidence cd) t ∧ drain cd v target batchSize calls (s.db, s.objects) = some (t.db, t.objects) ∧
      (∀ r ∈ t.db.payloads, ∃ objectId, r.content = .external objectId) ∧
      ∀ e body, s.db.readEvidence s.objects cd e = some body → t.db.readEvidence t.objects cd e = some body := by
  have hsound := sound_of_reachable hcd h
  have hcount : s.db.inlineIds.length < calls := by
    unfold Db.inlineIds
    rw [List.length_map]
    exact Nat.lt_of_le_of_lt (List.length_filter_le _ _) hcalls
  obtain ⟨y, hy, hsound', hgrows, hnone⟩ := drain_total hcd v target hsize.1 calls hsound hcount
  obtain ⟨t, ht, rfl, _⟩ := drain_run hsize calls h hn hy
  refine ⟨t, ht, hy, fun r hr => ?_, fun e body hread => reads_grow hcd hsound.ok hsound'.ok hgrows hread⟩
  by_contra hinline
  have := mem_inlineIds.mpr ⟨r, hr, rfl, fun objectId hcontent => hinline ⟨objectId, hcontent⟩⟩
  rw [hnone] at this
  cases this

end Calls

/-! ## A small archive -/

/-- One payload is in the database and another one in a store. -/
def stocked : List Event :=
  [.store 0 ⟨⟨"lichess", "user_games", "lichess:user:ann", "public"⟩, emptyObject, none⟩ none, .step 0 0 false,
    .store 1 ⟨⟨"chesscom", "monthly_archive", "chesscom:user:bea:2024-05", "public"⟩, [91, 93], none⟩
      (some ⟨.localFiles, "/srv/archive"⟩), .step 1 0 false, .step 1 0 false, .step 1 0 false, .step 1 0 false]

theorem stocked_reachable : ∃ s, Reachable (evidence sample) s ∧ s.sessions 0 = none ∧
    s.db.payloads.map RawPayload.content = [.inline .none emptyObject, .external 1] ∧
    s.db.objects.length = 1 ∧ s.db.readEvidence s.objects sample (.payload 1) = some emptyObject ∧
    s.db.readEvidence s.objects sample (.payload 2) = some [91, 93] := by
  obtain ⟨s, hreach, hs⟩ := Reach.of_exec (evidence sample) (fun _ _ => True)
    (s := ⟨.empty, fun _ => none, fun _ => none, [], [], []⟩) rfl stocked
    (fun s => (s.sessions 0).isNone &&
      decide (s.db.payloads.map RawPayload.content = [.inline .none emptyObject, .external 1] ∧ s.db.objects.length = 1 ∧
        s.db.readEvidence s.objects sample (.payload 1) = some emptyObject ∧
        s.db.readEvidence s.objects sample (.payload 2) = some [91, 93])) (by decide +kernel)
  obtain ⟨hfree, hs⟩ := Bool.and_eq_true_iff.mp hs
  exact ⟨s, hreach, Option.isNone_iff_eq_none.mp hfree, of_decide_eq_true hs⟩

theorem sweep_collects_stocked : ∃ s t : State, Reachable (evidence sample) s ∧
    sweep sample ⟨.s3, "archive"⟩ 1 2 0 (s.db, s.objects) = some (t.db, t.objects) ∧
    (∀ row ∈ t.db.objects, t.db.referenced row.id = true → row.object.location = ⟨.s3, "archive"⟩) ∧
    t.db.readEvidence t.objects sample (.payload 2) = some [91, 93] := by
  obtain ⟨s, hreach, hfree, _, hobjects, _, hread⟩ := stocked_reachable
  have hsize : 1 ≤ 1 ∧ 1 ≤ 10000 := by decide
  have hcalls : s.db.objects.length < 2 := by omega
  obtain ⟨t, _, hsweep, hall, hreads⟩ := sweep_collects sample_lawful hreach hfree hsize hcalls ⟨.s3, "archive"⟩
  exact ⟨s, t, hreach, hsweep, hall, hreads _ _ hread⟩

theorem drain_empties_stocked : ∃ s t : State, Reachable (evidence sample) s ∧
    s.db.payloads.map RawPayload.content = [.inline .none emptyObject, .external 1] ∧
    drain sample (fun _ => 0) ⟨.s3, "archive"⟩ 100 3 (s.db, s.objects) = some (t.db, t.objects) ∧
    (∀ r ∈ t.db.payloads, ∃ objectId, r.content = .external objectId) ∧
    t.db.readEvidence t.objects sample (.payload 1) = some emptyObject := by
  obtain ⟨s, hreach, hfree, hcontents, _, hread, _⟩ := stocked_reachable
  have hpayloads : s.db.payloads.length = 2 := by
    rw [← List.length_map (f := RawPayload.content), hcontents]
    rfl
  have hsize : 1 ≤ 100 ∧ 100 ≤ 10000 := by decide
  have hcalls : s.db.payloads.length < 3 := by omega
  obtain ⟨t, _, hdrain, hall, hreads⟩ := drain_empties sample_lawful hreach hfree hsize hcalls (fun _ => 0) ⟨.s3, "archive"⟩
  exact ⟨s, t, hreach, hcontents, hdrain, hall, hreads _ _ hread⟩

end ChessCrawl.Storage
