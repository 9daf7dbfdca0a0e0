import ChessCrawl.Storage.Moves
import Mathlib.Data.List.Nodup

/-! An evidence has one fingerprint from the moment it is stored, the digest and the size of its bytes. Every
transaction changes at most where bytes are, keeps every fingerprint, and leaves each body where its row says. -/
namespace ChessCrawl.Storage
open ChessCrawl.Lib
set_option autoImplicit false

variable {cd : Codec}

/-! ## Objects -/

theorem decode_some {p : Prepared} {encoded body : Bytes} (h : decode cd p encoded = some body) :
    cd.digest encoded = p.storedHash ∧ body.length = p.bodyBytes ∧ cd.digest body = p.bodyHash := by
  unfold decode at h
  split at h
  · cases h
  · next hstored =>
    obtain ⟨full, _, hbody⟩ := Option.bind_eq_some_iff.mp h
    dsimp only at hbody
    split at hbody
    · cases hbody
    · next hok =>
      cases hbody
      simp only [not_or, ne_eq, not_not] at hok hstored
      exact ⟨hstored, hok⟩

theorem decode_prepare (hcd : cd.Lawful) (v : Nat) (location : Location) (key : String → ObjectKey) (body : Bytes) :
    decode cd (prepare cd v location key body).1 (prepare cd v location key body).2 = some body := by
  have htake : body.take (body.length + 1) = body := List.take_of_length_le (by omega)
  simp [decode, prepare, hcd.roundTrip, htake]

theorem put_some {o o' : Objects} {place : Location × ObjectKey} {body : Bytes} (h : o.put place body = some o') :
    o' place = some body ∧ ∀ q b, o q = some b → o' q = some b := by
  unfold Objects.put at h
  split at h
  · next hnone =>
    cases h
    refine ⟨Function.update_self .., fun q b hq => ?_⟩
    rw [Function.update_of_ne, hq]
    rintro rfl
    rw [hnone] at hq
    cases hq
  · next old hold =>
    split at h
    · next heq =>
      cases h
      exact ⟨hold.trans (congrArg some heq), fun _ _ hq => hq⟩
    · cases h

theorem readArchiveBody_of {o : Objects} {p : Prepared} {encoded body : Bytes} (hplace : o p.place = some encoded)
    (hsize : encoded.length = p.storedBytes) (hdecode : decode cd p encoded = some body) :
    o.readArchiveBody cd p = some body := by
  simp [Objects.readArchiveBody, Objects.read, hplace, Option.filter, hsize, hdecode]

theorem readArchiveBody_some {o : Objects} {p : Prepared} {body : Bytes} (h : o.readArchiveBody cd p = some body) :
    ∃ encoded, o p.place = some encoded ∧ encoded.length = p.storedBytes ∧ decode cd p encoded = some body := by
  obtain ⟨encoded, hread, hdecode⟩ := Option.bind_eq_some_iff.mp h
  obtain ⟨hplace, hsize⟩ := Option.filter_eq_some_iff.mp hread
  exact ⟨encoded, hplace, by simpa using hsize, hdecode⟩

/-- Every object under a key of evidence stays as it is. -/
def Objects.Keeps (o o' : Objects) : Prop := ∀ q b, q.2.isSource = true → o q = some b → o' q = some b

theorem Objects.Keeps.refl (o : Objects) : o.Keeps o := fun _ _ _ h => h

/-- An object under a key of evidence has the digest that the key spells. -/
def Objects.Addressed (o : Objects) (cd : Codec) : Prop :=
  ∀ location hash b, o (location, .source hash) = some b → cd.digest b = hash

/-- The key of a publication spells its stored hash. -/
def Prepared.Addressed (p : Prepared) : Prop := ∀ hash, p.objectKey = .source hash → hash = p.storedHash

theorem addressed_source {location : Location} {hash bodyHash : String} {bodyBytes storedBytes : Nat} :
    (Prepared.mk location (.source hash) bodyHash hash bodyBytes storedBytes).Addressed := by
  intro h heq
  cases heq
  rfl

theorem addressed_artifact {location : Location} {workspaceId : String} {jobId attempt : Nat} {hash bodyHash storedHash : String}
    {bodyBytes storedBytes : Nat} :
    (Prepared.mk location (.artifact workspaceId jobId attempt hash) bodyHash storedHash bodyBytes storedBytes).Addressed := by
  intro h heq
  cases heq

/-- A publication keeps what the stores spell. -/
theorem put_addressed {o o' : Objects} {p : Prepared} {encoded body : Bytes} (h : o.Addressed cd) (hp : p.Addressed)
    (hdecode : decode cd p encoded = some body) (hput : o.put p.place encoded = some o') : o'.Addressed cd := by
  intro location hash b hb
  unfold Objects.put at hput
  split at hput
  · cases hput
    by_cases heq : (location, ObjectKey.source hash) = p.place
    · rw [heq, Function.update_self] at hb
      cases hb
      rw [hp hash (Prod.mk.inj heq).2.symm]
      exact (decode_some hdecode).1
    · rw [Function.update_of_ne heq] at hb
      exact h location hash b hb
  · split at hput
    · cases hput
      exact h location hash b hb
    · cases hput

/-- The object is there, whole and under a key of evidence. -/
def Objects.Source (o : Objects) (cd : Codec) (p : Prepared) : Prop :=
  p.objectKey.isSource = true ∧ ∃ body, o.readArchiveBody cd p = some body

theorem Objects.Source.mono {o o' : Objects} {p : Prepared} (h : o.Source cd p) (hkeeps : o.Keeps o') :
    o'.Source cd p := by
  obtain ⟨hkey, body, hread⟩ := h
  obtain ⟨encoded, hplace, hsize, hdecode⟩ := readArchiveBody_some hread
  exact ⟨hkey, body, readArchiveBody_of (hkeeps _ _ hkey hplace) hsize hdecode⟩

theorem Objects.Source.read {o : Objects} {p : Prepared} (h : o.Source cd p) :
    ∃ body, o.readArchiveBody cd p = some body ∧ cd.digest body = p.bodyHash ∧ body.length = p.bodyBytes := by
  obtain ⟨_, body, hread⟩ := h
  obtain ⟨encoded, _, _, hdecode⟩ := readArchiveBody_some hread
  obtain ⟨_, hlength, hdigest⟩ := decode_some hdecode
  exact ⟨body, hread, hdigest, hlength⟩

/-! ## Fingerprints -/

/-- Digest and size of the bytes. -/
abbrev Fingerprint := String × Nat

def Prepared.fingerprint (p : Prepared) : Fingerprint := (p.bodyHash, p.bodyBytes)

def RawPayload.fingerprint (r : RawPayload) : Fingerprint := (r.bodyHash, r.bodyBytes)

def fingerprintOf (cd : Codec) (body : Bytes) : Fingerprint := (cd.digest body, body.length)

theorem fingerprint_of_check {r : RawPayload} {raw body : Bytes} (h : Db.checkBody cd r raw = some body) :
    fingerprintOf cd body = r.fingerprint := by
  unfold Db.checkBody at h
  split at h
  · cases h
  · next hok =>
    cases h
    simp only [not_or, ne_eq, not_not] at hok
    exact Prod.ext hok.1 hok.2

namespace Db

def fingerprint (db : Db) : Evidence → Option Fingerprint
  | .payload id => (db.payload id).map RawPayload.fingerprint
  | .backup id workspaceId =>
    (db.backup id workspaceId).bind fun r => (db.object r.archiveObjectId).map fun x => x.object.fingerprint

/-- What every transaction keeps: the registry and the fingerprints. -/
structure Grows (db db' : Db) : Prop where
  object : ∀ id x, db.object id = some x → db'.object id = some x
  fingerprint : ∀ e f, db.fingerprint e = some f → db'.fingerprint e = some f

theorem Grows.refl (db : Db) : db.Grows db := ⟨fun _ _ h => h, fun _ _ h => h⟩

theorem Grows.trans {db db' db'' : Db} (h : db.Grows db') (h' : db'.Grows db'') : db.Grows db'' :=
  ⟨fun id x hx => h'.object id x (h.object id x hx), fun e f hf => h'.fingerprint e f (h.fingerprint e f hf)⟩

/-- A payload's bytes are where its row says. -/
def BodyOk (cd : Codec) (db : Db) (r : RawPayload) : Prop :=
  match r.content with
  | .inline compression rawBody => ∃ body, (decodeBody cd compression rawBody).bind (checkBody cd r) = some body
  | .external objectId => ∃ x, db.object objectId = some x ∧ x.object.objectKey.isSource = true ∧
      x.object.fingerprint = r.fingerprint

/-- An import names an object of evidence. -/
def BackupOk (db : Db) (r : ArchiveImport) : Prop :=
  ∃ x, db.object r.archiveObjectId = some x ∧ x.object.objectKey.isSource = true

structure Ok (cd : Codec) (db : Db) (o : Objects) : Prop where
  objectIds : (db.objects.map ObjectRow.id).Pairwise (· < ·)
  objectBound : ∀ x ∈ db.objects, 0 < x.id ∧ x.id ≤ db.objectSeq
  source : ∀ x ∈ db.objects, x.object.objectKey.isSource = true → o.Source cd x.object
  payloadIds : (db.payloads.map RawPayload.id).Nodup
  payloadBound : ∀ r ∈ db.payloads, r.id ≤ db.payloadSeq
  payload : ∀ r ∈ db.payloads, BodyOk cd db r
  importBound : ∀ r ∈ db.imports, r.id ≤ db.importSeq
  backup : ∀ r ∈ db.imports, BackupOk db r

end Db

variable {db db' : Db} {o o' : Objects}

theorem mem_of_object {id : Nat} {x : ObjectRow} (h : db.object id = some x) : x ∈ db.objects ∧ x.id = id :=
  ⟨List.mem_of_find?_eq_some h, by simpa using List.find?_some h⟩

theorem mem_of_payload {id : Nat} {r : RawPayload} (h : db.payload id = some r) : r ∈ db.payloads ∧ r.id = id :=
  ⟨List.mem_of_find?_eq_some h, by simpa using List.find?_some h⟩

theorem mem_of_backup {id : Nat} {workspaceId : String} {r : ArchiveImport} (h : db.backup id workspaceId = some r) :
    r ∈ db.imports ∧ r.id = id ∧ r.workspaceId = workspaceId :=
  ⟨List.mem_of_find?_eq_some h, by simpa using List.find?_some h⟩

theorem Db.Ok.object_of_mem (h : db.Ok cd o) {x : ObjectRow} (hx : x ∈ db.objects) : db.object x.id = some x := by
  obtain hnone | ⟨y, hy⟩ := Option.eq_none_or_eq_some (db.object x.id)
  · simp only [Db.object, List.find?_eq_none] at hnone
    exact absurd (by simp) (hnone x hx)
  · obtain ⟨hmem, hid⟩ := mem_of_object hy
    rw [hy, List.inj_on_of_nodup_map (h.objectIds.imp Nat.ne_of_lt) hmem hx hid]

theorem Db.Ok.payload_of_mem (h : db.Ok cd o) {r : RawPayload} (hr : r ∈ db.payloads) : db.payload r.id = some r := by
  obtain hnone | ⟨y, hy⟩ := Option.eq_none_or_eq_some (db.payload r.id)
  · simp only [Db.payload, List.find?_eq_none] at hnone
    exact absurd (by simp) (hnone r hr)
  · obtain ⟨hmem, hid⟩ := mem_of_payload hy
    rw [hy, List.inj_on_of_nodup_map h.payloadIds hmem hr hid]

theorem Db.Ok.mono (h : db.Ok cd o) (hkeeps : o.Keeps o') : db.Ok cd o' :=
  { h with source := fun x hx hkey => (h.source x hx hkey).mono hkeeps }

theorem bodyOk_mono {r : RawPayload} (h : db.BodyOk cd r) (hgrows : db.Grows db') : db'.BodyOk cd r := by
  unfold Db.BodyOk at h ⊢
  split at h
  · exact h
  · obtain ⟨x, hx, hrest⟩ := h
    exact ⟨x, hgrows.object _ _ hx, hrest⟩

theorem backupOk_mono {r : ArchiveImport} (h : db.BackupOk r) (hgrows : db.Grows db') : db'.BackupOk r := by
  obtain ⟨x, hx, hkey⟩ := h
  exact ⟨x, hgrows.object _ _ hx, hkey⟩

/-- Evidence with a fingerprint can be read at once, and what is read has the fingerprint. -/
theorem Db.Ok.read (h : db.Ok cd o) {e : Evidence} {f : Fingerprint} (hf : db.fingerprint e = some f) :
    ∃ body, fingerprintOf cd body = f ∧ db.readEvidence o cd e = some body := by
  cases e with
  | payload id =>
    obtain ⟨r, hr, rfl⟩ := Option.map_eq_some_iff.mp hf
    have hbody := h.payload r (mem_of_payload hr).1
    unfold Db.BodyOk at hbody
    unfold Db.readEvidence Db.readRawPayload
    cases hcontent : r.content with
    | inline compression rawBody =>
      rw [hcontent] at hbody
      obtain ⟨body, hread⟩ := hbody
      refine ⟨body, ?_, ?_⟩
      · obtain ⟨raw, _, hcheck⟩ := Option.bind_eq_some_iff.mp hread
        exact fingerprint_of_check hcheck
      · simp [hr, hcontent, hread]
    | external objectId =>
      rw [hcontent] at hbody
      obtain ⟨x, hx, hkey, hfingerprint⟩ := hbody
      obtain ⟨body, hread, hdigest, hlength⟩ := (h.source x (mem_of_object hx).1 hkey).read
      obtain ⟨hhash, hbytes⟩ := Prod.mk.inj hfingerprint
      refine ⟨body, Prod.ext (hdigest.trans hhash) (hlength.trans hbytes), ?_⟩
      simp [hr, hcontent, hx, hread, Db.checkBody, hdigest, hlength, hhash, hbytes]
  | backup id workspaceId =>
    obtain ⟨r, hr, hmap⟩ := Option.bind_eq_some_iff.mp hf
    obtain ⟨x, hx, rfl⟩ := Option.map_eq_some_iff.mp hmap
    obtain ⟨y, hy, hkey⟩ := h.backup r (mem_of_backup hr).1
    obtain rfl := Option.some.inj (hx.symm.trans hy)
    obtain ⟨body, hread, hdigest, hlength⟩ := (h.source x (mem_of_object hx).1 hkey).read
    exact ⟨body, Prod.ext hdigest hlength, by simp [Db.readEvidence, Db.readImportBackup, hr, hx, hread]⟩

/-! ## Transactions -/

/-- The registry gives out one id for a place, with exactly the bytes of the publication. -/
theorem registerArchiveObject_ok (h : db.Ok cd o) {p : Prepared} {id : Nat}
    (hp : p.objectKey.isSource = true → o.Source cd p) (heq : db.registerArchiveObject p = some (id, db')) :
    db'.Ok cd o ∧ db.Grows db' ∧ db'.object id = some ⟨id, p⟩ ∧ db'.payloads = db.payloads ∧ db'.imports = db.imports ∧
      db'.payloadSeq = db.payloadSeq ∧ db'.importSeq = db.importSeq := by
  unfold Db.registerArchiveObject at heq
  split at heq
  · cases heq
    have hfresh : db.object (db.objectSeq + 1) = none := by
      simp only [Db.object, List.find?_eq_none, decide_eq_true_eq]
      intro x hx hid
      have := h.objectBound x hx
      omega
    have hold : ∀ id x, db.object id = some x →
        (db.objects ++ [ObjectRow.mk (db.objectSeq + 1) p]).find? (fun r => r.id = id) = some x := by
      intro id x hx
      rw [List.find?_append, show db.objects.find? (fun r => r.id = id) = some x from hx, Option.some_or]
    have hgrows : db.Grows { db with
        objects := db.objects ++ [⟨db.objectSeq + 1, p⟩]
        objectSeq := db.objectSeq + 1 } := by
      refine ⟨hold, fun e f hf => ?_⟩
      cases e with
      | payload id => exact hf
      | backup id workspaceId =>
        obtain ⟨r, hr, hmap⟩ := Option.bind_eq_some_iff.mp hf
        obtain ⟨x, hx, rfl⟩ := Option.map_eq_some_iff.mp hmap
        refine Option.bind_eq_some_iff.mpr ⟨r, hr, ?_⟩
        exact Option.map_eq_some_iff.mpr ⟨x, hold _ _ hx, rfl⟩
    refine ⟨⟨?_, ?_, ?_, h.payloadIds, h.payloadBound, fun r hr => bodyOk_mono (h.payload r hr) hgrows, h.importBound,
      fun r hr => backupOk_mono (h.backup r hr) hgrows⟩, hgrows, ?_, rfl, rfl, rfl, rfl⟩
    · rw [List.map_append, List.map_singleton, List.pairwise_append]
      refine ⟨h.objectIds, List.pairwise_singleton .., fun i hi j hj => ?_⟩
      obtain ⟨x, hx, rfl⟩ := List.mem_map.mp hi
      have := h.objectBound x hx
      have : j = db.objectSeq + 1 := List.mem_singleton.mp hj
      omega
    · simp only [List.mem_append, List.mem_singleton]
      rintro x (hx | rfl)
      · exact ⟨(h.objectBound x hx).1, Nat.le_succ_of_le (h.objectBound x hx).2⟩
      · exact ⟨Nat.succ_pos _, Nat.le_refl _⟩
    · simp only [List.mem_append, List.mem_singleton]
      rintro x (hx | rfl) hkey
      · exact h.source x hx hkey
      · exact hp hkey
    · change (db.objects ++ [ObjectRow.mk (db.objectSeq + 1) p]).find? (fun r => r.id = db.objectSeq + 1) = _
      rw [List.find?_append, show db.objects.find? (fun r => r.id = db.objectSeq + 1) = none from hfresh]
      simp
  · next old hfound =>
    split at heq
    · cases heq
    · next hsame =>
      cases heq
      have hmem := List.mem_of_find?_eq_some hfound
      have hplace : old.object.place = p.place := by simpa using List.find?_some hfound
      have hobject : old.object = p := by
        obtain ⟨oid, ⟨_, _, _, _, _, _⟩⟩ := old
        obtain ⟨_, _, _, _, _, _⟩ := p
        simp_all [Prepared.place]
      have hrow := h.object_of_mem hmem
      refine ⟨h, Db.Grows.refl _, ?_, rfl, rfl, rfl, rfl⟩
      rw [hrow, ← hobject]

/-- Updates that keep every fingerprint, and put every body where its row says. -/
theorem rewire_ok (h : db.Ok cd o) {f : RawPayload → RawPayload} {g : ArchiveImport → ArchiveImport}
    (hf : ∀ r, (f r).id = r.id ∧ (f r).fingerprint = r.fingerprint) (hbody : ∀ r ∈ db.payloads, db.BodyOk cd (f r))
    (hg : ∀ r, (g r).id = r.id ∧ (g r).workspaceId = r.workspaceId)
    (hbackup : ∀ r ∈ db.imports, ∃ x y, db.object r.archiveObjectId = some x ∧
      db.object (g r).archiveObjectId = some y ∧ y.object.objectKey.isSource = true ∧
      y.object.fingerprint = x.object.fingerprint) :
    Db.Ok cd { db with
        payloads := db.payloads.map f
        imports := db.imports.map g } o ∧
      db.Grows { db with
        payloads := db.payloads.map f
        imports := db.imports.map g } := by
  refine ⟨⟨h.objectIds, h.objectBound, h.source, ?_, ?_, ?_, ?_, ?_⟩, ⟨fun _ _ hx => hx, fun e v hv => ?_⟩⟩
  · rw [List.map_map, show RawPayload.id ∘ f = RawPayload.id from funext fun r => (hf r).1]
    exact h.payloadIds
  · intro q hq
    obtain ⟨r, hr, rfl⟩ := List.mem_map.mp hq
    rw [(hf r).1]
    exact h.payloadBound r hr
  · intro q hq
    obtain ⟨r, hr, rfl⟩ := List.mem_map.mp hq
    exact hbody r hr
  · intro q hq
    obtain ⟨r, hr, rfl⟩ := List.mem_map.mp hq
    rw [(hg r).1]
    exact h.importBound r hr
  · intro q hq
    obtain ⟨r, hr, rfl⟩ := List.mem_map.mp hq
    obtain ⟨_, y, _, hy, hkey, _⟩ := hbackup r hr
    exact ⟨y, hy, hkey⟩
  · cases e with
    | payload id =>
      obtain ⟨r, hr, rfl⟩ := Option.map_eq_some_iff.mp hv
      refine Option.map_eq_some_iff.mpr ⟨f r, ?_, (hf r).2⟩
      change (db.payloads.map f).find? (fun r => r.id = id) = _
      rw [List.find?_map, show (fun r : RawPayload => decide (r.id = id)) ∘ f = fun r => decide (r.id = id) from
        funext fun r => by simp [(hf r).1], show db.payloads.find? _ = some r from hr]
      rfl
    | backup id workspaceId =>
      obtain ⟨r, hr, hmap⟩ := Option.bind_eq_some_iff.mp hv
      obtain ⟨x, hx, rfl⟩ := Option.map_eq_some_iff.mp hmap
      obtain ⟨x', y, hx', hy, _, hfingerprint⟩ := hbackup r (mem_of_backup hr).1
      obtain rfl := Option.some.inj (hx.symm.trans hx')
      refine Option.bind_eq_some_iff.mpr ⟨g r, ?_, Option.map_eq_some_iff.mpr ⟨y, hy, hfingerprint⟩⟩
      change (db.imports.map g).find? (fun r => r.id = id && r.workspaceId = workspaceId) = _
      rw [List.find?_map, show (fun r : ArchiveImport => decide (r.id = id) && decide (r.workspaceId = workspaceId)) ∘ g =
        fun r => decide (r.id = id) && decide (r.workspaceId = workspaceId) from
        funext fun r => by simp [(hg r).1, (hg r).2], show db.imports.find? _ = some r from hr]
      rfl

/-- The row that `insert` adds is found under its id. -/
theorem insertPayload_ok (h : db.Ok cd o) {record : Record} {content : Content}
    (hbody : db.BodyOk cd ⟨db.payloadSeq + 1, record.source, cd.digest record.body, record.body.length, content⟩) :
    (db.insertPayload cd record content).2.Ok cd o ∧ db.Grows (db.insertPayload cd record content).2 ∧
      (db.insertPayload cd record content).2.fingerprint (.payload (db.insertPayload cd record content).1) =
        some (fingerprintOf cd record.body) := by
  let row : RawPayload := ⟨db.payloadSeq + 1, record.source, cd.digest record.body, record.body.length, content⟩
  have hgrows : db.Grows (db.insertPayload cd record content).2 := by
    refine ⟨fun _ _ hx => hx, fun e f hf => ?_⟩
    cases e with
    | payload id =>
      obtain ⟨r, hr, rfl⟩ := Option.map_eq_some_iff.mp hf
      refine Option.map_eq_some_iff.mpr ⟨r, ?_, rfl⟩
      change (db.payloads ++ [row]).find? (fun r => r.id = id) = some r
      rw [List.find?_append, show db.payloads.find? (fun r => r.id = id) = some r from hr, Option.some_or]
    | backup id workspaceId => exact hf
  refine ⟨⟨h.objectIds, h.objectBound, h.source, ?_, ?_, ?_, h.importBound, h.backup⟩, hgrows, ?_⟩
  · change ((db.payloads ++ [row]).map RawPayload.id).Nodup
    rw [List.map_append, List.map_singleton, List.nodup_append]
    refine ⟨h.payloadIds, List.nodup_singleton _, fun i hi j hj hij => ?_⟩
    obtain ⟨r, hr, rfl⟩ := List.mem_map.mp hi
    have := h.payloadBound r hr
    have : j = db.payloadSeq + 1 := List.mem_singleton.mp hj
    omega
  · change ∀ r ∈ db.payloads ++ [row], r.id ≤ db.payloadSeq + 1
    simp only [List.mem_append, List.mem_singleton]
    rintro r (hr | rfl)
    · have := h.payloadBound r hr
      omega
    · exact Nat.le_refl _
  · change ∀ r ∈ db.payloads ++ [row], Db.BodyOk cd _ r
    simp only [List.mem_append, List.mem_singleton]
    rintro r (hr | rfl)
    · exact bodyOk_mono (h.payload r hr) hgrows
    · exact bodyOk_mono hbody hgrows
  · have hnone : db.payloads.find? (fun r => r.id = db.payloadSeq + 1) = none := by
      simp only [List.find?_eq_none, decide_eq_true_eq]
      intro r hr hid
      have := h.payloadBound r hr
      omega
    change ((db.payloads ++ [row]).find? fun r => r.id = db.payloadSeq + 1).map RawPayload.fingerprint = _
    rw [List.find?_append, hnone]
    simp [row, RawPayload.fingerprint, fingerprintOf]

theorem encodeBody_ok (hcd : cd.Lawful) (v : Nat) (record : Record) (id : Nat) :
    db.BodyOk cd ⟨id, record.source, cd.digest record.body, record.body.length, Db.encodeBody cd v record.body⟩ := by
  unfold Db.BodyOk Db.encodeBody
  split
  · next compression rawBody heq =>
    refine ⟨record.body, ?_⟩
    split at heq
    · cases heq
      simp [Db.decodeBody, Db.checkBody]
    · cases heq
      simp [Db.decodeBody, Db.checkBody, hcd.roundTrip]
  · next heq => split at heq <;> cases heq

theorem storeRawPayload_ok (hcd : cd.Lawful) (h : db.Ok cd o) {v : Nat} {record : Record} {external : Bool}
    {prepared : Option Prepared} {id : Nat} (hp : ∀ p, prepared = some p → o.Source cd p)
    (heq : db.storeRawPayload cd v record external prepared = some (id, db')) :
    db'.Ok cd o ∧ db.Grows db' ∧ db'.fingerprint (.payload id) = some (fingerprintOf cd record.body) := by
  unfold Db.storeRawPayload at heq
  split at heq
  · next row hfound =>
    cases heq
    have hmem := List.mem_of_find?_eq_some hfound
    have hhash : row.bodyHash = cd.digest record.body := by
      have := List.find?_some hfound
      simp only [Bool.and_eq_true, decide_eq_true_eq] at this
      exact this.2
    have hrow : db.fingerprint (.payload row.id) = some row.fingerprint := by
      simp [Db.fingerprint, h.payload_of_mem hmem]
    -- the bytes of the row that was there have the digest of these, so they are these
    obtain ⟨body, hbody, _⟩ := h.read hrow
    have hsame : body = record.body := hcd.digest ((Prod.mk.inj hbody).1.trans hhash)
    rw [hsame] at hbody
    exact ⟨h, Db.Grows.refl _, hrow.trans (congrArg some hbody.symm)⟩
  · split at heq
    · split at heq
      · cases heq
      · cases heq
        exact insertPayload_ok h (encodeBody_ok hcd v record _)
    · next p =>
      split at heq
      · cases heq
      · next hsame =>
        simp only [not_or, ne_eq, not_not] at hsame
        obtain ⟨⟨oid, mid⟩, hregister, heq⟩ := Option.map_eq_some_iff.mp heq
        obtain ⟨hok, hgrows, hobject, hpayloads, _⟩ := registerArchiveObject_ok h (fun _ => hp p rfl) hregister
        have hbody : mid.BodyOk cd
            ⟨mid.payloadSeq + 1, record.source, cd.digest record.body, record.body.length, .external oid⟩ :=
          ⟨_, hobject, (hp p rfl).1, Prod.ext hsame.1 hsame.2⟩
        obtain ⟨hok', hgrows', hfingerprint⟩ := insertPayload_ok hok hbody
        cases heq
        exact ⟨hok', hgrows.trans hgrows', hfingerprint⟩

theorem registerImport_ok (h : db.Ok cd o) {workspaceId : String} {p : Prepared} {id : Nat} (hp : o.Source cd p)
    (heq : db.registerImport workspaceId p = some (id, db')) :
    db'.Ok cd o ∧ db.Grows db' ∧ db'.fingerprint (.backup id workspaceId) = some p.fingerprint := by
  obtain ⟨⟨oid, mid⟩, hregister, heq⟩ := Option.map_eq_some_iff.mp heq
  obtain ⟨hok, hgrows, hobject, _⟩ := registerArchiveObject_ok h (fun _ => hp) hregister
  cases heq
  let row : ArchiveImport := ⟨mid.importSeq + 1, workspaceId, oid⟩
  have hnext : mid.Grows { mid with
      imports := mid.imports ++ [row]
      importSeq := mid.importSeq + 1 } := by
    refine ⟨fun _ _ hx => hx, fun e f hf => ?_⟩
    cases e with
    | payload id => exact hf
    | backup id workspaceId =>
      obtain ⟨r, hr, hmap⟩ := Option.bind_eq_some_iff.mp hf
      refine Option.bind_eq_some_iff.mpr ⟨r, ?_, hmap⟩
      change (mid.imports ++ [row]).find? (fun r => r.id = id && r.workspaceId = workspaceId) = some r
      rw [List.find?_append, show mid.imports.find? (fun r => r.id = id && r.workspaceId = workspaceId) = some r from hr,
        Option.some_or]
  refine ⟨⟨hok.objectIds, hok.objectBound, hok.source, hok.payloadIds, hok.payloadBound, hok.payload, ?_, ?_⟩,
    hgrows.trans hnext, ?_⟩
  · change ∀ r ∈ mid.imports ++ [row], r.id ≤ mid.importSeq + 1
    simp only [List.mem_append, List.mem_singleton]
    rintro r (hr | rfl)
    · exact Nat.le_succ_of_le (hok.importBound r hr)
    · exact Nat.le_refl _
  · change ∀ r ∈ mid.imports ++ [row], Db.BackupOk _ r
    simp only [List.mem_append, List.mem_singleton]
    rintro r (hr | rfl)
    · exact hok.backup r hr
    · exact ⟨_, hobject, hp.1⟩
  · have hnone : mid.imports.find? (fun r => r.id = mid.importSeq + 1 && r.workspaceId = workspaceId) = none := by
      simp only [List.find?_eq_none, Bool.and_eq_true, decide_eq_true_eq]
      rintro r hr ⟨hid, _⟩
      have := hok.importBound r hr
      omega
    refine Option.bind_eq_some_iff.mpr ⟨row, ?_, Option.map_eq_some_iff.mpr ⟨_, hobject, rfl⟩⟩
    change (mid.imports ++ [row]).find? (fun r => r.id = mid.importSeq + 1 && r.workspaceId = workspaceId) = _
    rw [List.find?_append, hnone]
    simp [row]

theorem setContent_ok (h : db.Ok cd o) {id : Nat} {content : Content} {row : RawPayload} (hrow : db.payload id = some row)
    (hbody : db.BodyOk cd { row with content := content }) :
    (db.setContent id content).Ok cd o ∧ db.Grows (db.setContent id content) := by
  have heq : db.setContent id content = { db with
      payloads := db.payloads.map fun r => if r.id = id then { r with content := content } else r
      imports := db.imports.map fun r => r } := by
    simp [Db.setContent]
  rw [heq]
  refine rewire_ok h (fun r => ?_) (fun r hr => ?_) (fun _ => ⟨rfl, rfl⟩) fun r hr => ?_
  · split
    · exact ⟨rfl, rfl⟩
    · exact ⟨rfl, rfl⟩
  · split
    · next hid =>
      have : r = row := by
        have hfound := h.payload_of_mem hr
        rw [hid, hrow] at hfound
        exact (Option.some.inj hfound).symm
      rw [this]
      exact hbody
    · exact h.payload r hr
  · obtain ⟨x, hx, hkey⟩ := h.backup r hr
    exact ⟨x, x, hx, hx, hkey, rfl⟩

theorem registerRelocatedPayload_ok (h : db.Ok cd o) {id : Nat} {p : Prepared} (hp : o.Source cd p)
    (heq : db.registerRelocatedPayload id p = some db') : db'.Ok cd o ∧ db.Grows db' := by
  unfold Db.registerRelocatedPayload at heq
  split at heq
  · cases heq
  · next row hrow =>
    split at heq
    · cases heq
      exact ⟨h, Db.Grows.refl _⟩
    · split at heq
      · cases heq
      · next hsame =>
        simp only [not_or, ne_eq, not_not] at hsame
        obtain ⟨⟨oid, mid⟩, hregister, heq⟩ := Option.map_eq_some_iff.mp heq
        obtain ⟨hok, hgrows, hobject, hpayloads, _⟩ := registerArchiveObject_ok h (fun _ => hp) hregister
        cases heq
        have hrow' : mid.payload id = some row := by
          unfold Db.payload
          rw [hpayloads]
          exact hrow
        have hbody : mid.BodyOk cd { row with content := .external oid } :=
          ⟨_, hobject, hp.1, Prod.ext hsame.1.symm hsame.2.symm⟩
        obtain ⟨hok', hgrows'⟩ := setContent_ok hok hrow' hbody
        exact ⟨hok', hgrows.trans hgrows'⟩

/-- Payloads with the fingerprint of the source move, and so do all imports of it. -/
theorem repoint_ok (h : db.Ok cd o) {sourceId targetId : Nat} {source p : Prepared}
    (hsource : db.object sourceId = some ⟨sourceId, source⟩) (htarget : db.object targetId = some ⟨targetId, p⟩)
    (hkey : p.objectKey.isSource = true) (hsame : p.fingerprint = source.fingerprint) :
    (db.repoint sourceId targetId source).Ok cd o ∧ db.Grows (db.repoint sourceId targetId source) := by
  refine rewire_ok h (fun r => ?_) (fun r hr => ?_) (fun r => ?_) fun r hr => ?_
  · split
    · exact ⟨rfl, rfl⟩
    · exact ⟨rfl, rfl⟩
  · split
    · next hmoved => exact ⟨_, htarget, hkey, hsame.trans (Prod.ext hmoved.2.1.symm hmoved.2.2.symm)⟩
    · exact h.payload r hr
  · split
    · exact ⟨rfl, rfl⟩
    · exact ⟨rfl, rfl⟩
  · obtain ⟨x, hx, hold⟩ := h.backup r hr
    split
    · next hid =>
      rw [hid] at hx ⊢
      obtain rfl := Option.some.inj (hsource.symm.trans hx)
      exact ⟨_, _, hsource, htarget, hkey, hsame⟩
    · exact ⟨x, x, hx, hx, hold, rfl⟩

theorem registerTransfer_ok (h : db.Ok cd o) {sourceId : Nat} {source p : Prepared} (hp : o.Source cd p)
    (hsame : p.fingerprint = source.fingerprint) (heq : db.registerTransfer sourceId source p = some db') :
    db'.Ok cd o ∧ db.Grows db' := by
  unfold Db.registerTransfer at heq
  split at heq
  · cases heq
  · next current hcurrent =>
    split at heq
    · cases heq
    · next hobject =>
      simp only [ne_eq, not_not] at hobject
      split at heq
      · cases heq
        exact ⟨h, Db.Grows.refl _⟩
      · obtain ⟨⟨targetId, mid⟩, hregister, heq⟩ := Option.bind_eq_some_iff.mp heq
        obtain ⟨hok, hgrows, htarget, _⟩ := registerArchiveObject_ok h (fun _ => hp) hregister
        have hsource : mid.object sourceId = some ⟨sourceId, source⟩ := by
          rw [hgrows.object sourceId current hcurrent, ← hobject, ← (mem_of_object hcurrent).2]
        dsimp only at heq
        split at heq
        · cases heq
        · cases heq
          obtain ⟨hok', hgrows'⟩ := repoint_ok hok hsource htarget hp.1 hsame
          exact ⟨hok', hgrows.trans hgrows'⟩

theorem setChunks_ok (h : db.Ok cd o) (chunks : List ChunkRow) :
    Db.Ok cd { db with chunks := chunks } o ∧ db.Grows { db with chunks := chunks } :=
  ⟨⟨h.objectIds, h.objectBound, h.source, h.payloadIds, h.payloadBound, h.payload, h.importBound, h.backup⟩,
    ⟨fun _ _ hx => hx, fun e _ hf => by cases e <;> exact hf⟩⟩

theorem addArtifactChunk_ok (h : db.Ok cd o) {jobId ordinal : Nat} {p : Prepared} (hp : p.objectKey.isSource = false)
    (heq : db.addArtifactChunk jobId ordinal p = some db') : db'.Ok cd o ∧ db.Grows db' := by
  obtain ⟨⟨oid, mid⟩, hregister, heq⟩ := Option.bind_eq_some_iff.mp heq
  obtain ⟨hok, hgrows, _⟩ := registerArchiveObject_ok h (fun hkey => by simp [hp] at hkey) hregister
  dsimp only at heq
  split at heq
  · cases heq
  · cases heq
    obtain ⟨hok', hgrows'⟩ := setChunks_ok hok (mid.chunks ++ [⟨jobId, ordinal, oid⟩])
    exact ⟨hok', hgrows.trans hgrows'⟩

end ChessCrawl.Storage
