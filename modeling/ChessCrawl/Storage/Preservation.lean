import ChessCrawl.Storage.Fingerprints

/-! What is kept stays readable, in every interleaving of the operations and with crashes between any two of their
steps. Only artifacts' objects are deleted, and their keys are none of the keys under which evidence is published. -/
namespace ChessCrawl.Storage
open ChessCrawl.Lib
set_option autoImplicit false

variable {cd : Codec} {db db' : Db} {o o' : Objects}

/-! ## Sessions -/

/-- What a publication relies on. -/
def Purpose.Ok (cd : Codec) (p : Prepared) : Purpose → Prop
  | .payload _ | .relocation .. => p.objectKey.isSource = true
  | .transfer source _ _ => p.objectKey.isSource = true ∧ p.fingerprint = source.object.fingerprint
  | .backup _ body => p.objectKey.isSource = true ∧ p.fingerprint = fingerprintOf cd body
  | .chunk .. => p.objectKey.isSource = false

/-- The rows that a transfer has selected are of the registry and under keys of evidence. -/
def Purpose.Selected (db : Db) : Purpose → Prop
  | .transfer source _ rest => ∀ x ∈ source :: rest, db.object x.id = some x ∧ x.object.objectKey.isSource = true
  | _ => True

/-- The row that a read has selected, and its evidence, have one fingerprint. -/
def Db.Selects (db : Db) (e : Evidence) (row : Option RawPayload) (p : Prepared) : Prop :=
  db.fingerprint e = some p.fingerprint ∧ ∀ r, row = some r → r.fingerprint = p.fingerprint

def Pc.Ok (cd : Codec) (db : Db) (o : Objects) : Pc → Prop
  | .putting p encoded purpose => (∃ body, decode cd p encoded = some body) ∧ encoded.length = p.storedBytes ∧
      p.Addressed ∧ purpose.Ok cd p ∧ purpose.Selected db
  | .verifying p purpose | .registering p purpose => (p.objectKey.isSource = true → o.Source cd p) ∧
      purpose.Ok cd p ∧ purpose.Selected db
  | .resolving e row objectId _ => ∃ x, db.object objectId = some x ∧ x.object.objectKey.isSource = true ∧
      db.Selects e row x.object
  | .fetching e row p _ => o.Source cd p ∧ db.Selects e row p
  | .transferring _ rows => ∀ x ∈ rows, db.object x.id = some x ∧ x.object.objectKey.isSource = true
  | .checking _ _ row _ | .deleting _ _ row _ => row.object.object.objectKey.isSource = false
  | _ => True

theorem Purpose.Selected.mono {purpose : Purpose} (h : purpose.Selected db) (hgrows : db.Grows db') :
    purpose.Selected db' := by
  cases purpose with
  | transfer source target rest =>
    intro x hx
    obtain ⟨hobject, hkey⟩ := h x hx
    exact ⟨hgrows.object _ _ hobject, hkey⟩
  | _ => trivial

theorem Db.Selects.mono {e : Evidence} {row : Option RawPayload} {p : Prepared} (h : db.Selects e row p)
    (hgrows : db.Grows db') : db'.Selects e row p := ⟨hgrows.fingerprint _ _ h.1, h.2⟩

theorem Pc.Ok.mono {pc : Pc} (h : pc.Ok cd db o) (hgrows : db.Grows db') (hkeeps : o.Keeps o') : pc.Ok cd db' o' := by
  cases pc with
  | putting p encoded purpose => exact ⟨h.1, h.2.1, h.2.2.1, h.2.2.2.1, h.2.2.2.2.mono hgrows⟩
  | verifying p purpose => exact ⟨fun hkey => (h.1 hkey).mono hkeeps, h.2.1, h.2.2.mono hgrows⟩
  | registering p purpose => exact ⟨fun hkey => (h.1 hkey).mono hkeeps, h.2.1, h.2.2.mono hgrows⟩
  | resolving e row objectId reader =>
    obtain ⟨x, hx, hkey, hselects⟩ := h
    exact ⟨x, hgrows.object _ _ hx, hkey, hselects.mono hgrows⟩
  | fetching e row p reader => exact ⟨h.1.mono hkeeps, h.2.mono hgrows⟩
  | transferring target rows =>
    intro x hx
    obtain ⟨hobject, hkey⟩ := h x hx
    exact ⟨hgrows.object _ _ hobject, hkey⟩
  | checking workspaceId jobId row rest => exact h
  | deleting workspaceId jobId row rest => exact h
  | _ => trivial

/-! ## The invariant -/

/-- A read never finds damage, and returns the bytes that its evidence stands for. -/
def Db.Answers (cd : Codec) (db : Db) (e : Evidence) : Outcome → Prop
  | .returned body => db.fingerprint e = some (fingerprintOf cd body)
  | .missing => True
  | .corrupt => False

structure State.Inv (cd : Codec) (s : State) : Prop where
  db : s.db.Ok cd s.objects
  addressed : s.objects.Addressed cd
  sessions : ∀ n pc, s.sessions n = some pc → pc.Ok cd s.db s.objects
  stored : ∀ x ∈ s.stored, s.db.fingerprint x.1 = some (fingerprintOf cd x.2)
  reads : ∀ x ∈ s.reads, s.db.Answers cd x.1 x.2
  deleted : ∀ q ∈ s.deleted, q.2.isSource = false

theorem Db.Answers.mono {e : Evidence} {x : Outcome} (h : db.Answers cd e x) (hgrows : db.Grows db') :
    db'.Answers cd e x := by
  cases x with
  | returned body => exact hgrows.fingerprint _ _ h
  | missing => trivial
  | corrupt => exact h

namespace State.Inv
variable {s : State}

/-- One session moves on, over tables that grow and stores that keep the evidence. -/
theorem next (h : s.Inv cd) {n : Nat} {pc : Option Pc} (hok : db'.Ok cd o') (haddressed : o'.Addressed cd) (hgrows : s.db.Grows db')
    (hkeeps : s.objects.Keeps o') (hpc : ∀ pc', pc = some pc' → pc'.Ok cd db' o')
    {stored : List (Evidence × Bytes)} (hstored : ∀ x ∈ stored, x ∈ s.stored ∨ db'.fingerprint x.1 = some (fingerprintOf cd x.2))
    {reads : List (Evidence × Outcome)} (hreads : ∀ x ∈ reads, x ∈ s.reads ∨ db'.Answers cd x.1 x.2)
    {deleted : List (Location × ObjectKey)} (hdeleted : ∀ q ∈ deleted, q ∈ s.deleted ∨ q.2.isSource = false) :
    State.Inv cd ⟨db', o', Function.update s.sessions n pc, stored, reads, deleted⟩ where
  db := hok
  addressed := haddressed
  sessions m pc' hm := by
    by_cases heq : m = n
    · subst heq
      exact hpc pc' (by simpa using hm)
    · have hold : s.sessions m = some pc' := (Function.update_of_ne heq pc s.sessions).symm.trans hm
      exact (h.sessions m pc' hold).mono hgrows hkeeps
  stored x hx := by
    obtain hold | hnew := hstored x hx
    · exact hgrows.fingerprint _ _ (h.stored x hold)
    · exact hnew
  reads x hx := by
    obtain hold | hnew := hreads x hx
    · exact (h.reads x hold).mono hgrows
    · exact hnew
  deleted q hq := (hdeleted q hq).elim (h.deleted q) id

theorem move (h : s.Inv cd) {n : Nat} {pc : Option Pc} (hpc : ∀ pc', pc = some pc' → pc'.Ok cd s.db s.objects) :
    (s.move n pc).Inv cd :=
  h.next h.db h.addressed (Db.Grows.refl _) (Objects.Keeps.refl _) hpc (fun _ => .inl) (fun _ => .inl) fun _ => .inl

theorem close (h : s.Inv cd) (n : Nat) : (s.close n).Inv cd := h.move (by simp)

theorem commit (h : s.Inv cd) {n : Nat} {pc : Option Pc} (hok : db'.Ok cd s.objects) (hgrows : s.db.Grows db')
    (hpc : ∀ pc', pc = some pc' → pc'.Ok cd db' s.objects) : (s.commit n db' pc).Inv cd :=
  h.next hok h.addressed hgrows (Objects.Keeps.refl _) hpc (fun _ => .inl) (fun _ => .inl) fun _ => .inl

theorem keep (h : s.Inv cd) {n : Nat} {e : Evidence} {body : Bytes} (hok : db'.Ok cd s.objects) (hgrows : s.db.Grows db')
    (he : db'.fingerprint e = some (fingerprintOf cd body)) : (s.keep n db' e body).Inv cd := by
  refine h.next hok h.addressed hgrows (Objects.Keeps.refl _) (by simp) (fun x hx => ?_) (fun _ => .inl) fun _ => .inl
  obtain hx | hx := List.mem_append.mp hx
  · exact .inl hx
  · obtain rfl := List.mem_singleton.mp hx
    exact .inr he

theorem answer (hcd : cd.Lawful) (h : s.Inv cd) {n v : Nat} {e : Evidence} {x : Outcome} (hx : s.db.Answers cd e x)
    (reader : Reader) : (s.answer cd n v e x reader).Inv cd := by
  cases reader with
  | caller =>
    refine h.next h.db h.addressed (Db.Grows.refl _) (Objects.Keeps.refl _) (by simp) (fun _ => .inl) (fun y hy => ?_) fun _ => .inl
    obtain hy | hy := List.mem_append.mp hy
    · exact .inl hy
    · obtain rfl := List.mem_singleton.mp hy
      exact .inr hx
  | relocation target rest =>
    cases e with
    | backup id workspaceId => exact h.close n
    | payload id =>
      cases x with
      | returned body =>
        apply h.move
        intro pc' hpc
        cases hpc
        exact ⟨⟨body, decode_prepare hcd v target .source body⟩, rfl, addressed_source, rfl, trivial⟩
      | missing => exact h.close n
      | corrupt => exact h.close n

theorem select (hcd : cd.Lawful) (h : s.Inv cd) (n v : Nat) (e : Evidence) (reader : Reader) :
    (s.select cd n v e reader).Inv cd := by
  cases e with
  | payload id =>
    unfold State.select
    dsimp only
    split
    · apply h.answer hcd
      trivial
    · next row hrow =>
      have hbody := h.db.payload row (mem_of_payload hrow).1
      unfold Db.BodyOk at hbody
      have hfingerprint : s.db.fingerprint (.payload id) = some row.fingerprint := by simp [Db.fingerprint, hrow]
      split
      · next compression rawBody hcontent =>
        rw [hcontent] at hbody
        obtain ⟨body, hread⟩ := hbody
        rw [hread]
        obtain ⟨raw, _, hcheck⟩ := Option.bind_eq_some_iff.mp hread
        apply h.answer hcd
        exact hfingerprint.trans (congrArg some (fingerprint_of_check hcheck).symm)
      · next objectId hcontent =>
        rw [hcontent] at hbody
        obtain ⟨x, hx, hkey, hsame⟩ := hbody
        refine h.move fun pc' hpc => ?_
        cases hpc
        exact ⟨x, hx, hkey, hfingerprint.trans (congrArg some hsame.symm), by simp [hsame]⟩
  | backup id workspaceId =>
    unfold State.select
    dsimp only
    split
    · apply h.answer hcd
      trivial
    · next row hrow =>
      obtain ⟨x, hx, hkey⟩ := h.db.backup row (mem_of_backup hrow).1
      refine h.move fun pc' hpc => ?_
      cases hpc
      exact ⟨x, hx, hkey, by simp [Db.fingerprint, hrow, hx], by simp⟩

theorem register (hcd : cd.Lawful) (h : s.Inv cd) {n : Nat} {p : Prepared} {purpose : Purpose}
    (hn : s.sessions n = some (.registering p purpose)) (v : Nat) (admitted : Bool) :
    (s.register cd n v admitted p purpose).Inv cd := by
  obtain ⟨hsource, hpurpose, hselected⟩ := h.sessions n _ hn
  unfold State.register
  split
  · split
    · next id db hstore =>
      obtain ⟨hok, hgrows, hfingerprint⟩ := storeRawPayload_ok hcd h.db
        (fun q hq => by cases hq; exact hsource hpurpose) hstore
      exact h.keep hok hgrows hfingerprint
    · exact h.close n
  · split
    · next db hstore =>
      obtain ⟨hok, hgrows⟩ := registerRelocatedPayload_ok h.db (hsource hpurpose) hstore
      refine h.commit hok hgrows fun pc' hpc => ?_
      cases hpc
      trivial
    · exact h.close n
  · split
    · next source target rest _ _ db hstore =>
      obtain ⟨hok, hgrows⟩ := registerTransfer_ok h.db (hsource hpurpose.1) hpurpose.2 hstore
      refine h.commit hok hgrows fun pc' hpc => ?_
      cases hpc
      intro x hx
      obtain ⟨hobject, hkey⟩ := hselected x (List.mem_cons_of_mem _ hx)
      exact ⟨hgrows.object _ _ hobject, hkey⟩
    · exact h.close n
  · split
    · next id db hstore =>
      obtain ⟨hok, hgrows, hfingerprint⟩ := registerImport_ok h.db (hsource hpurpose.1) hstore
      exact h.keep hok hgrows (hfingerprint.trans (congrArg some hpurpose.2))
    · exact h.close n
  · split
    · next db hstore =>
      split at hstore
      · obtain ⟨hok, hgrows⟩ := addArtifactChunk_ok h.db hpurpose hstore
        exact h.commit hok hgrows (by simp)
      · cases hstore
    · exact h.close n

/-- A place of evidence holds, after a publication, the object that was published. -/
theorem put (h : s.Inv cd) {n : Nat} {p : Prepared} {encoded : Bytes} {purpose : Purpose}
    (hn : s.sessions n = some (.putting p encoded purpose)) (hput : s.objects.put p.place encoded = some o') :
    (({ s with objects := o' } : State).move n (some (.verifying p purpose))).Inv cd := by
  obtain ⟨⟨body, hdecode⟩, hsize, haddressed, hpurpose, hselected⟩ := h.sessions n _ hn
  obtain ⟨hplace, hold⟩ := put_some hput
  have hkeeps : s.objects.Keeps o' := fun q b _ hq => hold q b hq
  refine h.next (h.db.mono hkeeps) (put_addressed h.addressed haddressed hdecode hput) (Db.Grows.refl _) hkeeps (fun pc' hpc => ?_) (fun _ => .inl) (fun _ => .inl)
    fun _ => .inl
  cases hpc
  exact ⟨fun hkey => ⟨hkey, body, readArchiveBody_of hplace hsize hdecode⟩, hpurpose, hselected⟩

theorem delete (h : s.Inv cd) {n jobId : Nat} {workspaceId : String} {row : PageRow} {rest : List PageRow}
    (hkey : row.object.object.objectKey.isSource = false) :
    (({ s with
      objects := s.objects.delete row.object.object.place
      deleted := s.deleted ++ [row.object.object.place] } : State).move n
        (some (.removing workspaceId jobId row rest))).Inv cd := by
  have hkeeps : s.objects.Keeps (s.objects.delete row.object.object.place) := by
    intro q b hq hb
    unfold Objects.delete
    rw [Function.update_of_ne, hb]
    rintro rfl
    rw [show row.object.object.place.2.isSource = false from hkey] at hq
    cases hq
  have haddressed : (s.objects.delete row.object.object.place).Addressed cd := by
    intro location hash b hb
    unfold Objects.delete at hb
    by_cases heq : (location, ObjectKey.source hash) = row.object.object.place
    · rw [heq, Function.update_self] at hb
      cases hb
    · rw [Function.update_of_ne heq] at hb
      exact h.addressed location hash b hb
  refine h.next (h.db.mono hkeeps) haddressed (Db.Grows.refl _) hkeeps (fun pc' hpc => ?_) (fun _ => .inl) (fun _ => .inl)
    fun q hq => ?_
  · cases hpc
    trivial
  · obtain hq | hq := List.mem_append.mp hq
    · exact .inl hq
    · obtain rfl := List.mem_singleton.mp hq
      exact .inr hkey

theorem advance (hcd : cd.Lawful) (h : s.Inv cd) {n : Nat} {pc : Pc} (hn : s.sessions n = some pc) (v : Nat)
    (admitted : Bool) : (s.advance cd n v admitted pc).Inv cd := by
  have hpc := h.sessions n pc hn
  cases pc with
  | looking record target =>
    unfold State.advance
    dsimp only
    split
    · exact h.move (by simp [Pc.Ok])
    · refine h.move fun pc' heq => ?_
      cases heq
      exact ⟨⟨record.body, decode_prepare hcd v target .source record.body⟩, rfl, addressed_source, rfl, trivial⟩
  | storing record external =>
    unfold State.advance
    dsimp only
    split
    · next id db hstore =>
      obtain ⟨hok, hgrows, hfingerprint⟩ := storeRawPayload_ok hcd h.db (by simp) hstore
      exact h.keep hok hgrows hfingerprint
    · exact h.close n
  | putting p encoded purpose =>
    unfold State.advance
    dsimp only
    split
    · next o' hput => exact h.put hn hput
    · exact h.close n
  | verifying p purpose =>
    unfold State.advance
    dsimp only
    split
    · refine h.move fun pc' heq => ?_
      cases heq
      exact hpc
    · exact h.close n
  | registering p purpose => exact h.register hcd hn v admitted
  | reading e reader => exact h.select hcd n v e reader
  | resolving e row objectId reader =>
    obtain ⟨x, hx, hkey, hselects⟩ := hpc
    unfold State.advance
    simp only [hx]
    refine h.move fun pc' heq => ?_
    cases heq
    exact ⟨h.db.source x (mem_of_object hx).1 hkey, hselects⟩
  | fetching e row p reader =>
    obtain ⟨hsource, hfingerprint, hrow⟩ := hpc
    obtain ⟨body, hread, hdigest, hlength⟩ := hsource.read
    have hcheck : (s.objects.readArchiveBody cd p).bind
        (fun body => row.elim (some body) fun row => Db.checkBody cd row body) = some body := by
      rw [hread]
      cases row with
      | none => rfl
      | some r =>
        obtain ⟨hhash, hbytes⟩ := Prod.mk.inj (hrow r rfl)
        simp [Db.checkBody, hdigest, hlength, hhash, hbytes]
    unfold State.advance
    simp only [hcheck]
    have hsame : p.fingerprint = fingerprintOf cd body := Prod.ext hdigest.symm hlength.symm
    apply h.answer hcd
    exact hfingerprint.trans (congrArg some hsame)
  | relocating target ids =>
    unfold State.advance
    dsimp only
    split
    · exact h.close n
    · split
      · exact h.close n
      · split
        · exact h.move (by simp [Pc.Ok])
        · exact h.move (by simp [Pc.Ok])
  | transferring target rows =>
    unfold State.advance
    dsimp only
    split
    · exact h.close n
    · next row rest =>
      split
      · exact h.close n
      · next encoded hread =>
        split
        · next hdecode =>
          obtain ⟨body, hdecode⟩ := Option.isSome_iff_exists.mp hdecode
          have hsize : encoded.length = row.object.storedBytes := by
            simpa using (Option.filter_eq_some_iff.mp hread).2
          refine h.move fun pc' heq => ?_
          cases heq
          exact ⟨⟨body, hdecode⟩, hsize, addressed_source, ⟨rfl, rfl⟩, hpc⟩
        · exact h.close n
  | authorizing workspaceId jobId rows =>
    unfold State.advance
    dsimp only
    split
    · exact h.close n
    · next row rest =>
      split
      · next hadmits =>
        refine h.move fun pc' heq => ?_
        cases heq
        -- the prefix of an artifact is no prefix of a source's key
        have hkey := (Bool.and_eq_true_iff.mp hadmits).2
        unfold ObjectKey.inArtifact at hkey
        change row.object.object.objectKey.isSource = false
        split at hkey
        · cases hkey
        · next heq =>
          rw [heq]
          rfl
      · exact h.close n
  | checking workspaceId jobId row rest =>
    unfold State.advance
    dsimp only
    split
    · exact h.close n
    · refine h.move fun pc' heq => ?_
      cases heq
      exact hpc
  | deleting workspaceId jobId row rest => exact h.delete hpc
  | removing workspaceId jobId row rest =>
    obtain ⟨hok, hgrows⟩ := setChunks_ok h.db
      (s.db.chunks.filter fun c => !(c.jobId = jobId && c.ordinal = row.ordinal))
    exact h.commit hok hgrows (by simp [Pc.Ok])

end State.Inv

/-! ## Every run -/

variable {s t : State}

/-- What source evidence refers to is an object of evidence. -/
theorem source_of_referenced (h : db.Ok cd o) {x : ObjectRow} (hx : x ∈ db.objects) (href : db.referenced x.id = true) :
    x.object.objectKey.isSource = true := by
  have hrow := h.object_of_mem hx
  simp only [Db.referenced, Bool.or_eq_true, List.any_eq_true, decide_eq_true_eq] at href
  obtain ⟨r, hr, hcontent⟩ | ⟨r, hr, hid⟩ := href
  · have hbody := h.payload r hr
    unfold Db.BodyOk at hbody
    rw [hcontent] at hbody
    obtain ⟨y, hy, hkey, _⟩ := hbody
    rwa [Option.some.inj (hrow.symm.trans hy)]
  · obtain ⟨y, hy, hkey⟩ := h.backup r hr
    rw [hid] at hy
    rwa [Option.some.inj (hrow.symm.trans hy)]

theorem start_ok (hcd : cd.Lawful) (h : s.Inv cd) {e : Event} {n : Nat} {pc : Pc} (hstart : e.start s cd = some (n, pc)) :
    pc.Ok cd s.db s.objects := by
  cases e with
  | store m record target =>
    unfold Event.start at hstart
    dsimp only at hstart
    split at hstart
    · cases hstart
    · cases target <;> cases hstart <;> trivial
  | backup m v workspaceId body target =>
    cases hstart
    exact ⟨⟨body, decode_prepare hcd v target .source body⟩, rfl, addressed_source, ⟨rfl, rfl⟩, trivial⟩
  | chunk m v workspaceId jobId attempt ordinal part target =>
    cases hstart
    exact ⟨⟨part, decode_prepare hcd v target (.artifact workspaceId jobId attempt) part⟩, rfl, addressed_artifact, rfl, trivial⟩
  | read m e =>
    cases hstart
    trivial
  | relocate m target batchSize =>
    unfold Event.start at hstart
    dsimp only at hstart
    split at hstart
    · cases hstart
      trivial
    · cases hstart
  | transfer m target batchSize afterObjectId =>
    unfold Event.start at hstart
    dsimp only at hstart
    split at hstart
    · cases hstart
      intro x hx
      have hmem := List.mem_filter.mp (List.mem_of_mem_take hx)
      exact ⟨h.db.object_of_mem hmem.1, source_of_referenced h.db hmem.1 (by
        have := hmem.2
        simp only [Bool.and_eq_true] at this
        exact this.2)⟩
    · cases hstart
  | delete m workspaceId jobId limit =>
    cases hstart
    trivial
  | step => cases hstart
  | crash => cases hstart

theorem step_inv (hcd : cd.Lawful) (h : s.Inv cd) {e : Event} (hstep : s.step cd e = some t) : t.Inv cd := by
  unfold State.step at hstep
  split at hstep
  · obtain ⟨pc, hpc, rfl⟩ := Option.map_eq_some_iff.mp hstep
    exact h.advance hcd hpc _ _
  · cases hstep
    exact h.close _
  · obtain ⟨⟨n, pc⟩, hstart, hmove⟩ := Option.bind_eq_some_iff.mp hstep
    split at hmove
    · cases hmove
      refine h.move fun pc' heq => ?_
      cases heq
      exact start_ok hcd h hstart
    · cases hmove

theorem inv_of_reachable (hcd : cd.Lawful) (h : Reachable (evidence cd) s) : s.Inv cd := by
  apply Reachable.invariant (I := State.Inv cd) _ _ h
  · rintro s rfl
    constructor
    · constructor <;> simp [Db.empty]
    all_goals simp [Objects.Addressed]
  · intro s e t hI hstep
    exact step_inv hcd hI hstep

/-! ## Rows and what was stored -/

/-- The evidence that has a row. -/
def Db.kept (db : Db) : List Evidence :=
  db.payloads.map (fun r => .payload r.id) ++ db.imports.map fun r => .backup r.id r.workspaceId

theorem kept_of_fingerprint {e : Evidence} {f : Fingerprint} (h : db.fingerprint e = some f) : e ∈ db.kept := by
  cases e with
  | payload id =>
    obtain ⟨r, hr, _⟩ := Option.map_eq_some_iff.mp h
    obtain ⟨hmem, rfl⟩ := mem_of_payload hr
    exact List.mem_append_left _ (List.mem_map_of_mem hmem)
  | backup id workspaceId =>
    obtain ⟨r, hr, _⟩ := Option.bind_eq_some_iff.mp h
    obtain ⟨hmem, rfl, rfl⟩ := mem_of_backup hr
    exact List.mem_append_right _ (List.mem_map_of_mem hmem)

theorem registerArchiveObject_kept {p : Prepared} {id : Nat} (h : db.registerArchiveObject p = some (id, db')) :
    db'.kept = db.kept := by
  unfold Db.registerArchiveObject at h
  split at h
  · cases h
    rfl
  · split at h
    all_goals cases h
    rfl

/-- A row more. -/
def Db.Adds (db db' : Db) (e : Evidence) : Prop := ∀ x ∈ db'.kept, x ∈ db.kept ∨ x = e

theorem insertPayload_adds (db : Db) (record : Record) (content : Content) :
    db.Adds (db.insertPayload cd record content).2 (.payload (db.insertPayload cd record content).1) := by
  intro x hx
  simp only [Db.insertPayload, Db.kept, List.map_append, List.map_cons, List.map_nil, List.mem_append,
    List.mem_singleton] at hx ⊢
  tauto

theorem storeRawPayload_adds {v : Nat} {record : Record} {external : Bool} {prepared : Option Prepared} {id : Nat}
    (h : db.storeRawPayload cd v record external prepared = some (id, db')) : db.Adds db' (.payload id) := by
  unfold Db.storeRawPayload at h
  split at h
  · cases h
    exact fun x hx => .inl hx
  · split at h
    · split at h
      · cases h
      · cases h
        exact insertPayload_adds db record _
    · split at h
      · cases h
      · obtain ⟨⟨oid, mid⟩, hregister, h⟩ := Option.map_eq_some_iff.mp h
        cases h
        intro x hx
        rw [← registerArchiveObject_kept hregister]
        exact insertPayload_adds mid record _ x hx

theorem registerImport_adds {workspaceId : String} {p : Prepared} {id : Nat}
    (h : db.registerImport workspaceId p = some (id, db')) : db.Adds db' (.backup id workspaceId) := by
  obtain ⟨⟨oid, mid⟩, hregister, h⟩ := Option.map_eq_some_iff.mp h
  cases h
  intro x hx
  rw [← registerArchiveObject_kept hregister]
  simp only [Db.kept, List.map_append, List.map_cons, List.map_nil, List.mem_append, List.mem_singleton] at hx ⊢
  tauto

theorem registerRelocatedPayload_kept {id : Nat} {p : Prepared} (h : db.registerRelocatedPayload id p = some db') :
    db'.kept = db.kept := by
  unfold Db.registerRelocatedPayload at h
  split at h
  · cases h
  · split at h
    · cases h
      rfl
    · split at h
      · cases h
      · obtain ⟨⟨oid, mid⟩, hregister, rfl⟩ := Option.map_eq_some_iff.mp h
        rw [← registerArchiveObject_kept hregister]
        unfold Db.kept Db.setContent
        rw [List.map_map]
        congr 2
        funext r
        dsimp only [Function.comp]
        split <;> rfl

theorem repoint_kept (db : Db) (sourceId targetId : Nat) (source : Prepared) :
    (db.repoint sourceId targetId source).kept = db.kept := by
  unfold Db.kept Db.repoint
  rw [List.map_map, List.map_map]
  congr 2
  all_goals
    funext r
    dsimp only [Function.comp]
    split <;> rfl

theorem registerTransfer_kept {sourceId : Nat} {source p : Prepared} (h : db.registerTransfer sourceId source p = some db') :
    db'.kept = db.kept := by
  unfold Db.registerTransfer at h
  split at h
  · cases h
  split at h
  · cases h
  split at h
  · cases h
    rfl
  · obtain ⟨⟨oid, mid⟩, hregister, h⟩ := Option.bind_eq_some_iff.mp h
    dsimp only at h
    split at h
    · cases h
    · cases h
      rw [repoint_kept, registerArchiveObject_kept hregister]

theorem addArtifactChunk_kept {jobId ordinal : Nat} {p : Prepared} (h : db.addArtifactChunk jobId ordinal p = some db') :
    db'.kept = db.kept := by
  obtain ⟨⟨oid, mid⟩, hregister, h⟩ := Option.bind_eq_some_iff.mp h
  dsimp only at h
  split at h
  · cases h
  · cases h
    have hkept := registerArchiveObject_kept hregister
    exact hkept

/-- Every row has been stored by an operation that has returned, since the row and the answer come with one commit. -/
def State.Logged (s : State) : Prop := ∀ e ∈ s.db.kept, ∃ body, (e, body) ∈ s.stored

theorem State.Logged.commit (h : s.Logged) {n : Nat} {pc : Option Pc} (hkept : db'.kept = s.db.kept) :
    (s.commit n db' pc).Logged := by
  intro e he
  exact h e (hkept ▸ he)

theorem State.Logged.keep (h : s.Logged) {n : Nat} {e : Evidence} {body : Bytes} (hadds : s.db.Adds db' e) :
    (s.keep n db' e body).Logged := by
  intro x hx
  obtain hold | rfl := hadds x hx
  · obtain ⟨b, hb⟩ := h x hold
    exact ⟨b, List.mem_append_left _ hb⟩
  · exact ⟨body, List.mem_append_right _ (List.mem_singleton_self _)⟩

theorem State.Logged.answer (h : s.Logged) {n v : Nat} {e : Evidence} {x : Outcome} {reader : Reader} :
    (s.answer cd n v e x reader).Logged := by
  unfold State.answer
  split
  · exact h
  · split
    all_goals exact h

theorem State.Logged.select (h : s.Logged) {n v : Nat} {e : Evidence} {reader : Reader} :
    (s.select cd n v e reader).Logged := by
  unfold State.select
  split
  · split
    · exact h.answer
    · split
      · split
        all_goals exact h.answer
      · exact h
  · split
    · exact h.answer
    · exact h

theorem State.Logged.register (h : s.Logged) {n v : Nat} {admitted : Bool} {p : Prepared} {purpose : Purpose} :
    (s.register cd n v admitted p purpose).Logged := by
  unfold State.register
  split
  · split
    · next hstore => exact h.keep (storeRawPayload_adds hstore)
    · exact h
  · split
    · next hstore => exact h.commit (registerRelocatedPayload_kept hstore)
    · exact h
  · split
    · next hstore => exact h.commit (registerTransfer_kept hstore)
    · exact h
  · split
    · next hstore => exact h.keep (registerImport_adds hstore)
    · exact h
  · split
    · next hstore =>
      split at hstore
      · exact h.commit (addArtifactChunk_kept hstore)
      · cases hstore
    · exact h

theorem State.Logged.advance (h : s.Logged) {n v : Nat} {admitted : Bool} {pc : Pc} :
    (s.advance cd n v admitted pc).Logged := by
  cases pc with
  | storing record external =>
    unfold State.advance
    dsimp only
    split
    · next hstore => exact h.keep (storeRawPayload_adds hstore)
    · exact h
  | registering p purpose => exact h.register
  | reading e reader => exact h.select
  | resolving e row objectId reader =>
    unfold State.advance
    dsimp only
    split
    · exact h
    · exact h.answer
  | fetching e row p reader =>
    unfold State.advance
    dsimp only
    split
    all_goals exact h.answer
  | removing workspaceId jobId row rest => exact h.commit rfl
  | deleting workspaceId jobId row rest => exact h
  | looking | putting | verifying | checking =>
    unfold State.advance
    dsimp only
    split
    all_goals exact h
  | relocating | transferring =>
    unfold State.advance
    dsimp only
    split
    · exact h
    · split
      · exact h
      · split
        all_goals exact h
  | authorizing =>
    unfold State.advance
    dsimp only
    split
    · exact h
    · split
      all_goals exact h

theorem logged_of_reachable (h : Reachable (evidence cd) s) : s.Logged := by
  apply Reachable.invariant (I := State.Logged) _ _ h
  · rintro s rfl e he
    cases he
  · intro s e t hI hstep
    change s.step cd e = some t at hstep
    unfold State.step at hstep
    split at hstep
    · obtain ⟨pc, _, rfl⟩ := Option.map_eq_some_iff.mp hstep
      exact hI.advance
    · cases hstep
      exact hI
    · obtain ⟨⟨n, pc⟩, _, hmove⟩ := Option.bind_eq_some_iff.mp hstep
      split at hmove
      · cases hmove
        exact hI
      · cases hmove

/-! ## Reads -/

/-- The steps that a read for a caller has still to make. -/
def Pc.readSteps (e : Evidence) : Pc → Option Nat
  | .reading e' .caller => if e' = e then some 3 else none
  | .resolving e' _ _ .caller => if e' = e then some 2 else none
  | .fetching e' _ _ .caller => if e' = e then some 1 else none
  | _ => none

theorem fingerprintOf_injective (hcd : cd.Lawful) {a b : Bytes} (h : fingerprintOf cd a = fingerprintOf cd b) : a = b :=
  hcd.digest (Prod.mk.inj h).1

theorem readEvidence_of_stored (hcd : cd.Lawful) (h : s.Inv cd) {e : Evidence} {body : Bytes} (hstored : (e, body) ∈ s.stored) :
    s.db.readEvidence s.objects cd e = some body := by
  obtain ⟨b, hsame, hread⟩ := h.db.read (h.stored _ hstored)
  rw [hread, fingerprintOf_injective hcd hsame]

/-- A read of stored evidence returns its bytes or comes nearer to its end. -/
theorem read_advances (hcd : cd.Lawful) (h : s.Inv cd) {e : Evidence} {body : Bytes} (hstored : (e, body) ∈ s.stored)
    {n k : Nat} {pc : Pc} (hn : s.sessions n = some pc) (hk : pc.readSteps e = some k) (v : Nat) (admitted : Bool) :
    ∃ t, s.step cd (.step n v admitted) = some t ∧ (t.reads = s.reads ++ [(e, .returned body)] ∨
      ∃ pc' j, t.sessions n = some pc' ∧ pc'.readSteps e = some j ∧ j < k) := by
  have hfingerprint := h.stored _ hstored
  have hpc := h.sessions n pc hn
  refine ⟨s.advance cd n v admitted pc, by simp [State.step, hn], ?_⟩
  unfold Pc.readSteps at hk
  split at hk
  · next e' =>
    split at hk
    · next heq =>
      obtain rfl := heq
      cases hk
      cases e' with
      | payload id =>
        obtain ⟨row, hrow, hsame⟩ := Option.map_eq_some_iff.mp hfingerprint
        have hbody := h.db.payload row (mem_of_payload hrow).1
        unfold Db.BodyOk at hbody
        cases hcontent : row.content with
        | inline compression rawBody =>
          rw [hcontent] at hbody
          obtain ⟨b, hread⟩ := hbody
          obtain ⟨raw, _, hcheck⟩ := Option.bind_eq_some_iff.mp hread
          obtain rfl := fingerprintOf_injective hcd ((fingerprint_of_check hcheck).trans hsame)
          left
          simp [State.advance, State.select, hrow, hcontent, hread, State.answer]
        | external objectId =>
          right
          exact ⟨.resolving (.payload id) (some row) objectId .caller, 2,
            by simp [State.advance, State.select, hrow, hcontent, State.move], by simp [Pc.readSteps], by omega⟩
      | backup id workspaceId =>
        obtain ⟨row, hrow, _⟩ := Option.bind_eq_some_iff.mp hfingerprint
        right
        exact ⟨.resolving (.backup id workspaceId) none row.archiveObjectId .caller, 2,
          by simp [State.advance, State.select, hrow, State.move], by simp [Pc.readSteps], by omega⟩
    · cases hk
  · next e' row objectId =>
    split at hk
    · next heq =>
      obtain rfl := heq
      cases hk
      obtain ⟨x, hx, _⟩ := hpc
      right
      exact ⟨.fetching e' row x.object .caller, 1, by simp [State.advance, hx, State.move], by simp [Pc.readSteps],
        by omega⟩
    · cases hk
  · next e' row p =>
    split at hk
    · next heq =>
      obtain rfl := heq
      cases hk
      obtain ⟨hsource, hselected, hrow⟩ := hpc
      obtain ⟨b, hread, hdigest, hlength⟩ := hsource.read
      have hsame : fingerprintOf cd b = p.fingerprint := Prod.ext hdigest hlength
      obtain rfl := fingerprintOf_injective hcd
        (hsame.trans (Option.some.inj (hselected.symm.trans hfingerprint)))
      left
      cases row with
      | none => simp [State.advance, hread, State.answer]
      | some r =>
        obtain ⟨hhash, hbytes⟩ := Prod.mk.inj (hrow r rfl)
        simp [State.advance, hread, State.answer, Db.checkBody, hdigest, hlength, hhash, hbytes]
    · cases hk
  · cases hk

/-- In every run of stores, relocations, transfers, imports, artifact publications and artifact deletions: what was
stored is read back at any moment; a read across other operations never meets damage, returns only the bytes that were
stored, and goes on to return them; and no deleted object is one that a payload or an import refers to. -/
theorem evidence_preserved (hcd : cd.Lawful) (h : Reachable (evidence cd) s) :
    (∀ e body, (e, body) ∈ s.stored → s.db.readEvidence s.objects cd e = some body) ∧
    (∀ e x, (e, x) ∈ s.reads → x ≠ .corrupt ∧
      ∀ body, x = .returned body → (e, body) ∈ s.stored ∧ ∀ body', (e, body') ∈ s.stored → body' = body) ∧
    (∀ e body, (e, body) ∈ s.stored → ∀ n pc k, s.sessions n = some pc → pc.readSteps e = some k → ∀ v admitted,
      ∃ t, s.step cd (.step n v admitted) = some t ∧ (t.reads = s.reads ++ [(e, .returned body)] ∨
        ∃ pc' j, t.sessions n = some pc' ∧ pc'.readSteps e = some j ∧ j < k)) ∧
    ∀ q ∈ s.deleted, q.2.isSource = false ∧
      ∀ row ∈ s.db.objects, s.db.referenced row.id = true → row.object.place ≠ q := by
  have hinv := inv_of_reachable hcd h
  refine ⟨fun e body hstored => ?_, fun e x hx => ?_, fun e body hstored n pc k hn hk v admitted => ?_, fun q hq => ?_⟩
  · exact readEvidence_of_stored hcd hinv hstored
  · have hanswers := hinv.reads _ hx
    refine ⟨fun hcorrupt => ?_, fun body heq => ?_⟩
    · subst hcorrupt
      exact hanswers
    · subst heq
      have honly : ∀ body', (e, body') ∈ s.stored → body' = body := by
        intro body' hstored
        have hsame : some (fingerprintOf cd body') = some (fingerprintOf cd body) :=
          (hinv.stored _ hstored).symm.trans hanswers
        exact fingerprintOf_injective hcd (Option.some.inj hsame)
      obtain ⟨body', hstored⟩ := logged_of_reachable h e (kept_of_fingerprint hanswers)
      exact ⟨honly body' hstored ▸ hstored, honly⟩
  · exact read_advances hcd hinv hstored hn hk v admitted
  · have hkey := hinv.deleted q hq
    refine ⟨hkey, fun row hrow href hplace => ?_⟩
    have hsource := source_of_referenced hinv.db hrow href
    rw [← hplace] at hkey
    exact absurd hsource (by rw [show row.object.objectKey.isSource = false from hkey]; simp)

/-! ## One payload on its way through two stores -/

def emptyObject : Bytes := [123, 125, 10]

def emptyObjectGzip : Bytes :=
  [31, 139, 8, 0, 0, 0, 0, 0, 2, 3, 171, 174, 229, 2, 0, 6, 176, 161, 221, 3, 0, 0, 0]

def spelled (body : Bytes) : String := String.ofList ('x' :: body.map Char.ofUInt8)

/-- `gzip` and `hashlib` at this body, and something that obeys the same laws elsewhere. -/
def sample : Codec where
  compress _ body := if body = emptyObject then emptyObjectGzip else 0 :: body
  decompress encoded :=
    if encoded = emptyObjectGzip then some emptyObject
    else
      match encoded with
      | 0 :: body => some body
      | _ => none
  sha256 body :=
    if body = emptyObject then "ca3d163bab055381827226140568f3bef7eaac187cebd76878e0b63e9e442356"
    else if body = emptyObjectGzip then "37a641f5b71f361a83c4bb5aae7e62bb31dff4340708786bd20df2313b0f1173"
    else spelled body

theorem ofUInt8_injective (a b : UInt8) (h : Char.ofUInt8 a = Char.ofUInt8 b) : a = b :=
  UInt8.toUInt32_inj.mp (congrArg Char.val h)

theorem spelled_injective (a b : Bytes) (h : spelled a = spelled b) : a = b := by
  have hlist := String.ofList_injective h
  exact List.map_injective_iff.mpr ofUInt8_injective (List.cons.inj hlist).2

theorem spelled_head (body : Bytes) : (spelled body).toList.head? = some 'x' := by
  simp [spelled]

theorem sample_lawful : sample.Lawful where
  roundTrip v body := by
    by_cases h : body = emptyObject
    · simp [sample, h]
    · have hne : ¬ (0 :: body = emptyObjectGzip) := fun hne => by cases hne
      simp [sample, h, hne]
  injective a b hab := by
    have hne : emptyObjectGzip ≠ emptyObject := by decide
    have hhead := congrArg (fun s : String => s.toList.head?) hab
    unfold sample at hab hhead
    dsimp only at hab hhead
    by_cases ha : a = emptyObject <;> by_cases hb : b = emptyObject
    · rw [ha, hb]
    · by_cases hb' : b = emptyObjectGzip <;> simp [ha, hb, hb', hne, spelled_head] at hhead
    · by_cases ha' : a = emptyObjectGzip <;> simp [ha, hb, ha', hne, spelled_head] at hhead
    · by_cases ha' : a = emptyObjectGzip <;> by_cases hb' : b = emptyObjectGzip
      · rw [ha', hb']
      · simp [ha', hb, hb', hne, spelled_head] at hhead
      · simp [ha, ha', hb', hne, spelled_head] at hhead
      · simp only [ha, ha', hb, hb', if_false] at hab
        exact spelled_injective a b hab

/-- A payload is stored inline, moves into one store and then into another one, and is read. -/
def journey : List Event :=
  [.store 0 ⟨⟨"lichess", "user_games", "lichess:user:ann", "public"⟩, emptyObject, none⟩ none, .step 0 0 false,
    .relocate 1 ⟨.localFiles, "/srv/archive"⟩ 100, .step 1 0 false, .step 1 0 false, .step 1 0 false, .step 1 0 false,
    .step 1 0 false, .read 2 (.payload 1), .step 2 0 false, .step 2 0 false, .step 1 0 false,
    .transfer 1 ⟨.s3, "archive"⟩ 100 0, .step 1 0 false, .step 1 0 false, .step 1 0 false, .step 1 0 false,
    .step 2 0 false]

theorem evidence_preserved_journey : ∃ s, Reachable (evidence sample) s ∧
    s.db.payloads.map RawPayload.content = [.external 2] ∧ s.stored = [(.payload 1, emptyObject)] ∧
    s.reads = [(.payload 1, .returned emptyObject)] ∧
    s.db.readEvidence s.objects sample (.payload 1) = some emptyObject := by
  obtain ⟨s, hreach, hs⟩ := Reach.of_exec (evidence sample) (fun _ _ => True)
    (s := ⟨.empty, fun _ => none, fun _ => none, [], [], []⟩) rfl journey
    (fun s => decide (s.db.payloads.map RawPayload.content = [.external 2] ∧ s.stored = [(.payload 1, emptyObject)] ∧
      s.reads = [(.payload 1, .returned emptyObject)])) (by decide +kernel)
  obtain ⟨hcontent, hstored, hreads⟩ := of_decide_eq_true hs
  exact ⟨s, hreach, hcontent, hstored, hreads,
    (evidence_preserved sample_lawful hreach).1 _ _ (by rw [hstored]; exact List.mem_singleton_self _)⟩

end ChessCrawl.Storage
