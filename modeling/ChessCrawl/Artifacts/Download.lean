import ChessCrawl.Artifacts.Parts

/-! The verified download of an export artifact: what ends normally is whole, and what is there is read. -/
namespace ChessCrawl.Artifacts
set_option autoImplicit false

/-! ## Reading -/

/-- `_read_archive_body`: the stored bytes are checked before and after they are decompressed. -/
def readArchiveReference (cd : Codec) (store : Key → Option Bytes) (key : Key) (row : ObjectRow) : Except String Bytes :=
  match store key with
  | none => .error "Archive object not found"
  | some encoded =>
    if encoded.length ≠ row.storedBytes then .error "Archive object size mismatch"
    else if cd.digest encoded ≠ row.storedHash then .error "Archive object checksum mismatch"
    else
      match cd.decompress encoded with
      | none => .error "Not a gzipped file"
      | some stream =>
        let body := stream.take (row.bodyBytes + 1)
        if body.length ≠ row.bodyBytes ∨ cd.digest body ≠ row.bodyHash then
          .error "Archive body checksum or size mismatch"
        else .ok body

/-- `chunk_page`, with the objects that it joins. -/
def Db.chunkReferences (db : Db) (job after limit : Nat) : List (ChunkRow × ObjectRow) :=
  (db.chunkPage job after limit).filterMap fun row => (db.objects row.key).map fun object => (row, object)

/-- What one call sees: the tables and the store at its three accesses, and whether its lifetime is over at its checks. -/
structure View where
  page : State
  read : State
  again : State
  late : Bool
  lateAfter : Bool

/-- The fields of `ArtifactDownload` that its calls change; `hashed` is what the hash has been fed. -/
structure Download where
  ordinal : Nat
  bodyBytes : Nat
  hashed : Bytes
  attempt : Option Nat
  complete : Bool
deriving DecidableEq, Repr

def Download.start : Download := ⟨0, 0, [], none, false⟩

/-- The reader after a part. -/
def Download.after (d : Download) (row : ChunkRow) (body : Bytes) : Download :=
  ⟨row.ordinal, d.bodyBytes + body.length, d.hashed ++ body, some row.key.attempt, false⟩

/-- `_finish` -/
def Download.finish (cd : Codec) (m : Unsigned) (d : Download) : Except String Download :=
  if d.ordinal ≠ m.chunkCount ∨ d.bodyBytes ≠ m.bodyBytes ∨ cd.digest d.hashed ≠ m.contentHash then
    .error "Artifact content checksum or size mismatch"
  else .ok { d with complete := true }

/-- `_read_next` -/
def Download.readNext (cd : Codec) (m : Unsigned) (ws : String) (job : Nat) (v : View) (d : Download) :
    Except String (Option Bytes × Download) :=
  if d.complete then .ok (none, d)
  else
    match v.page.db.chunkReferences job d.ordinal 1 with
    | [] => (d.finish cd m).map fun d => (none, d)
    | (row, object) :: _ =>
      let expectedBytes := min chunkBytes (m.bodyBytes - d.bodyBytes)
      if row.ordinal ≠ d.ordinal + 1 ∨ m.chunkCount < row.ordinal ∨ object.bodyBytes ≠ expectedBytes ∨ expectedBytes = 0 ∨
          ¬ (1 ≤ object.storedBytes ∧ object.storedBytes ≤ chunkBytes + 65536) then
        .error "Artifact chunk order or bounds are invalid"
      else if row.key.workspaceId ≠ ws ∨ row.key.jobId ≠ job ∨ row.key.attempt = 0 ∨
          row.key.storedHash ≠ object.storedHash ∨ d.attempt.any (fun attempt => row.key.attempt ≠ attempt) = true then
        .error "Artifact object is outside its private namespace"
      else
        match readArchiveReference cd v.read.store row.key object with
        | .error e => .error e
        | .ok body =>
          if v.lateAfter then .error "Artifact download lifetime expired"
          else
            let d' := d.after row body
            if row.ordinal = m.chunkCount then
              if v.again.db.chunkReferences job row.ordinal 1 = [] then
                (d'.finish cd m).map fun d => (some body, d)
              else .error "Artifact has unlisted chunks"
            else .ok (some body, d')

/-- How a download stands after some calls. -/
inductive Outcome
  | more (d : Download) (yielded : List Bytes)
  | done (yielded : List Bytes)
  | failed (error : String)
deriving DecidableEq, Repr

/-- The calls of `__next__`, one for each view. -/
def download (cd : Codec) (m : Unsigned) (ws : String) (job : Nat) : List View → Download → List Bytes → Outcome
  | [], d, yielded => .more d yielded
  | v :: views, d, yielded =>
    if v.late then .failed "Artifact download lifetime expired"
    else
      match d.readNext cd m ws job v with
      | .error e => .failed e
      | .ok (none, _) => .done yielded
      | .ok (some body, d) => download cd m ws job views d (yielded ++ [body])

/-! ## What ends normally is whole -/

variable {cd : Codec} {m : Unsigned} {ws : String} {job : Nat}

/-- What the reader has yielded so far is what it has hashed and counted. -/
def Download.Tallies (cd : Codec) (m : Unsigned) (d : Download) (yielded : List Bytes) : Prop :=
  d.hashed = yielded.flatten ∧ d.bodyBytes = yielded.flatten.length ∧
    (d.complete = true → d.bodyBytes = m.bodyBytes ∧ cd.digest d.hashed = m.contentHash)

theorem finish_ok {d d' : Download} (h : d.finish cd m = .ok d') :
    d' = { d with complete := true } ∧ d.bodyBytes = m.bodyBytes ∧ cd.digest d.hashed = m.contentHash := by
  unfold Download.finish at h
  split at h
  · cases h
  · next hgo =>
    cases h
    simp only [not_or, not_not] at hgo
    exact ⟨rfl, hgo.2.1, hgo.2.2⟩

/-- A call that does not fail is at the end, or reads a part and is checked again at the last one. -/
theorem readNext_cases {v : View} {d d' : Download} {out : Option Bytes} (h : d.readNext cd m ws job v = .ok (out, d')) :
    out = none ∧ (d.complete = true ∨ d.finish cd m = .ok d') ∨
      ∃ row body, out = some body ∧ (d' = d.after row body ∨ (d.after row body).finish cd m = .ok d') := by
  unfold Download.readNext at h
  split at h
  · next hdone =>
    cases h
    exact .inl ⟨rfl, .inl hdone⟩
  split at h
  · cases hfinish : d.finish cd m with
    | error e =>
      rw [hfinish] at h
      cases h
    | ok d'' =>
      rw [hfinish] at h
      cases h
      exact .inl ⟨rfl, .inr rfl⟩
  next row object rest hpage =>
  dsimp only at h
  split at h
  · cases h
  split at h
  · cases h
  split at h
  · cases h
  next body hread =>
  split at h
  · cases h
  split at h
  · split at h
    · cases hfinish : (d.after row body).finish cd m with
      | error e =>
        rw [hfinish] at h
        cases h
      | ok d'' =>
        rw [hfinish] at h
        cases h
        exact .inr ⟨row, body, rfl, .inr hfinish⟩
    · cases h
  · cases h
    exact .inr ⟨row, body, rfl, .inl rfl⟩

theorem readNext_tallies {v : View} {d d' : Download} {out : Option Bytes} {yielded : List Bytes}
    (hd : d.Tallies cd m yielded) (h : d.readNext cd m ws job v = .ok (out, d')) :
    (out = none → d.bodyBytes = m.bodyBytes ∧ cd.digest d.hashed = m.contentHash) ∧
      ∀ body, out = some body → d'.Tallies cd m (yielded ++ [body]) := by
  obtain ⟨hhash, hcount, hcomplete⟩ := hd
  rcases readNext_cases h with ⟨rfl, hend⟩ | ⟨row, body, rfl, hnext⟩
  · refine ⟨fun _ => ?_, fun _ h => by cases h⟩
    rcases hend with hdone | hfinish
    · exact hcomplete hdone
    · exact (finish_ok hfinish).2
  · refine ⟨(fun h => by cases h), fun b hb => ?_⟩
    cases hb
    have hhash' : d.hashed ++ body = (yielded ++ [body]).flatten := by
      rw [hhash, List.flatten_append, List.flatten_singleton]
    have hcount' : d.bodyBytes + body.length = (yielded ++ [body]).flatten.length := by
      rw [hcount, List.flatten_append, List.flatten_singleton, List.length_append]
    rcases hnext with rfl | hfinish
    · exact ⟨hhash', hcount', fun h => by cases h⟩
    · obtain ⟨rfl, hbytes, hdigest⟩ := finish_ok hfinish
      exact ⟨hhash', hcount', fun _ => ⟨hbytes, hdigest⟩⟩

/-- Whatever a download has seen, when it ends normally its bytes are those of the manifest. -/
theorem download_whole {views : List View} {d : Download} {before yielded : List Bytes}
    (hd : d.Tallies cd m before) (h : download cd m ws job views d before = .done yielded) :
    yielded.flatten.length = m.bodyBytes ∧ cd.digest yielded.flatten = m.contentHash := by
  induction views generalizing d before with
  | nil => cases h
  | cons v views ih =>
    rw [download] at h
    split at h
    · cases h
    · split at h
      · cases h
      · next d' hread =>
        cases h
        have hend := (readNext_tallies hd hread).1 rfl
        rw [hd.2.1, hd.1] at hend
        exact hend
      · next body d' hread => exact ih ((readNext_tallies hd hread).2 body rfl) h

/-! ## What is published is read -/

/-- `gzip` gives back what it was given, grows a chunk by at most 65536 bytes and writes a header; the digests are
hexadecimal SHA-256. -/
structure Codec.Lawful (cd : Codec) : Prop where
  roundTrip : ∀ body, cd.decompress (cd.compress body) = some body
  bounded : ∀ body, body.length ≤ chunkBytes → (cd.compress body).length ≤ body.length + 65536
  header : ∀ body, 1 ≤ (cd.compress body).length
  hex : ∀ body, validDigest (cd.digest body) = true

/-- The parts of a body are there, at one place. -/
structure Whole (cd : Codec) (s : State) (job : Nat) (at' : Place) (body : Bytes) : Prop where
  rows : s.db.chunks job = rowsOf cd at' 0 (partsOf body)
  stored : ∀ part ∈ partsOf body, Stored cd s at' part

section Forward
variable {s : State} {at' : Place} {body : Bytes} {before after : List Bytes} {part : Bytes}

theorem page_rowsOf (cd : Codec) (at' : Place) (before rest : List Bytes) :
    (rowsOf cd at' 0 (before ++ rest)).filter (fun r => before.length < r.ordinal) =
      rowsOf cd at' before.length rest := by
  rw [rowsOf_append, Nat.zero_add, List.filter_append, List.filter_eq_nil_iff.mpr, List.nil_append]
  · exact List.filter_eq_self.mpr fun r hr => decide_eq_true (mem_rowsOf hr).1
  · intro r hr
    have := (mem_rowsOf hr).2.1
    simp
    omega

theorem Whole.page (h : Whole cd s job at' body) (hcut : partsOf body = before ++ part :: after) :
    s.db.chunkReferences job before.length 1 =
      [(⟨before.length + 1, at'.key cd part⟩, at'.row cd part)] := by
  have hobject := (h.stored part (by rw [hcut]; simp)).1
  unfold Db.chunkReferences Db.chunkPage
  rw [h.rows, hcut, page_rowsOf, rowsOf, List.take_succ_cons, List.take_zero, List.filterMap_cons, hobject,
    List.filterMap_nil]
  rfl

theorem Whole.page_end (h : Whole cd s job at' body) : s.db.chunkReferences job (partsOf body).length 1 = [] := by
  unfold Db.chunkReferences Db.chunkPage
  rw [h.rows]
  have := page_rowsOf cd at' (partsOf body) []
  rw [List.append_nil] at this
  rw [this]
  rfl

theorem readArchiveReference_stored (hlaw : cd.Lawful) (h : Stored cd s at' part) :
    readArchiveReference cd s.store (at'.key cd part) (at'.row cd part) = .ok part := by
  have htake : part.take (part.length + 1) = part := List.take_of_length_le (by omega)
  unfold readArchiveReference
  rw [h.2]
  dsimp only
  have hsize : ¬ (cd.compress part).length ≠ (at'.row cd part).storedBytes := fun h => h rfl
  have hhash : ¬ cd.digest (cd.compress part) ≠ (at'.row cd part).storedHash := fun h => h rfl
  rw [if_neg hsize, if_neg hhash, hlaw.roundTrip]
  dsimp only
  rw [Place.row_bodyBytes, htake, if_neg]
  rintro (hlen | hhash)
  · exact hlen rfl
  · exact hhash rfl

end Forward

/-- The reader stands after the parts `before`. -/
structure Download.Reads (d : Download) (attempt : Nat) (before rest : List Bytes) : Prop where
  ordinal : d.ordinal = before.length
  bodyBytes : d.bodyBytes = before.flatten.length
  hashed : d.hashed = before.flatten
  attempt : ∀ k, d.attempt = some k → k = attempt
  complete : d.complete = true → rest = []

/-- A call sees the parts at each of its accesses, within its lifetime. -/
structure View.Sees (cd : Codec) (v : View) (job : Nat) (at' : Place) (body : Bytes) : Prop where
  page : Whole cd v.page job at' body
  read : Whole cd v.read job at' body
  again : Whole cd v.again job at' body
  late : v.late = false
  lateAfter : v.lateAfter = false

section Reader
variable {at' : Place} {x : Snapshot} {before after : List Bytes} {part : Bytes} {d : Download} {v : View}

/-- The reader at the end accepts what it has read. -/
theorem finish_whole (hd : d.Reads at'.attempt (partsOf x.body) []) :
    d.finish cd (manifestOf cd x (partsOf x.body).length).content = .ok { d with complete := true } := by
  unfold Download.finish
  rw [if_neg]
  rw [hd.ordinal, hd.bodyBytes, hd.hashed, partsOf_flatten]
  rintro (h | h | h) <;> exact h rfl

theorem readNext_end (hv : v.Sees cd job at' x.body) (hd : d.Reads at'.attempt (partsOf x.body) []) :
    ∃ d', d.readNext cd (manifestOf cd x (partsOf x.body).length).content ws job v = .ok (none, d') := by
  unfold Download.readNext
  split
  · exact ⟨d, rfl⟩
  · rw [hd.ordinal, hv.page.page_end]
    dsimp only
    rw [finish_whole hd]
    exact ⟨_, rfl⟩

theorem readNext_part (hlaw : cd.Lawful) (hws : at'.workspaceId = ws) (hjob : at'.jobId = job) (hpos : 1 ≤ at'.attempt)
    (hv : v.Sees cd job at' x.body) (hcut : partsOf x.body = before ++ part :: after)
    (hd : d.Reads at'.attempt before (part :: after)) :
    ∃ d', d.readNext cd (manifestOf cd x (partsOf x.body).length).content ws job v = .ok (some part, d') ∧
      d'.Reads at'.attempt (before ++ [part]) after := by
  obtain ⟨hlen, hpart⟩ := partsOf_part hcut
  have hcount : (partsOf x.body).length = before.length + after.length + 1 := by
    rw [hcut, List.length_append, List.length_cons]
    omega
  have hcomplete : ¬ d.complete = true := fun h => by cases hd.complete h
  have hsmall : (cd.compress part).length ≤ chunkBytes + 65536 := by
    have := hlaw.bounded part (by omega)
    omega
  have hheader := hlaw.header part
  have hnext : (d.after ⟨before.length + 1, at'.key cd part⟩ part).Reads at'.attempt (before ++ [part]) after := by
    refine ⟨?_, ?_, ?_, fun k hk => (Option.some.inj hk).symm, fun h => by cases h⟩
    · rw [List.length_append, List.length_singleton]
      rfl
    · rw [List.flatten_append, List.flatten_singleton, List.length_append, ← hd.bodyBytes]
      rfl
    · rw [List.flatten_append, List.flatten_singleton, ← hd.hashed]
      rfl
  have hbounds : ¬ ((⟨before.length + 1, at'.key cd part⟩ : ChunkRow).ordinal ≠ before.length + 1 ∨
      (manifestOf cd x (partsOf x.body).length).content.chunkCount <
        (⟨before.length + 1, at'.key cd part⟩ : ChunkRow).ordinal ∨
      (at'.row cd part).bodyBytes ≠
        min chunkBytes ((manifestOf cd x (partsOf x.body).length).content.bodyBytes - d.bodyBytes) ∨
      min chunkBytes ((manifestOf cd x (partsOf x.body).length).content.bodyBytes - d.bodyBytes) = 0 ∨
      ¬ (1 ≤ (at'.row cd part).storedBytes ∧ (at'.row cd part).storedBytes ≤ chunkBytes + 65536)) := by
    rw [hd.bodyBytes]
    show ¬ (before.length + 1 ≠ before.length + 1 ∨ (partsOf x.body).length < before.length + 1 ∨
      part.length ≠ min chunkBytes (x.body.length - before.flatten.length) ∨
      min chunkBytes (x.body.length - before.flatten.length) = 0 ∨
      ¬ (1 ≤ (cd.compress part).length ∧ (cd.compress part).length ≤ chunkBytes + 65536))
    omega
  have hplace : ¬ ((at'.key cd part).workspaceId ≠ ws ∨ (at'.key cd part).jobId ≠ job ∨ (at'.key cd part).attempt = 0 ∨
      (at'.key cd part).storedHash ≠ (at'.row cd part).storedHash ∨
      d.attempt.any (fun attempt => (at'.key cd part).attempt ≠ attempt) = true) := by
    rintro (h | h | h | h | h)
    · exact h hws
    · exact h hjob
    · rw [Place.key_attempt] at h
      omega
    · exact h rfl
    · obtain ⟨k, hk, hne⟩ := (Option.any_eq_true _ _).mp h
      rw [hd.attempt k hk, Place.key_attempt] at hne
      exact of_decide_eq_true hne rfl
  unfold Download.readNext
  rw [if_neg hcomplete, hd.ordinal, hv.page.page hcut]
  dsimp only
  rw [if_neg hbounds, if_neg hplace, readArchiveReference_stored hlaw (hv.read.stored part (by rw [hcut]; simp))]
  dsimp only
  rw [hv.lateAfter, if_neg Bool.false_ne_true]
  by_cases hlast : before.length + 1 = (partsOf x.body).length
  · -- The last part: no further row is there, and the totals are checked.
    have hnil : after = [] := List.length_eq_zero_iff.mp (by omega)
    subst hnil
    have hall : partsOf x.body = before ++ [part] := hcut
    have hagain : v.again.db.chunkReferences job (before.length + 1) 1 = [] := by
      rw [hlast]
      exact hv.again.page_end
    rw [← hall] at hnext
    rw [if_pos (show before.length + 1 = (manifestOf cd x (partsOf x.body).length).content.chunkCount from hlast),
      if_pos hagain, finish_whole hnext]
    exact ⟨_, rfl, hall ▸ ⟨hnext.ordinal, hnext.bodyBytes, hnext.hashed, hnext.attempt, fun _ => rfl⟩⟩
  · rw [if_neg (show ¬ before.length + 1 = (manifestOf cd x (partsOf x.body).length).content.chunkCount from hlast)]
    exact ⟨_, rfl, hnext⟩

/-- A call for each part and one for the end yield the parts. -/
theorem download_parts (hlaw : cd.Lawful) (hws : at'.workspaceId = ws) (hjob : at'.jobId = job) (hpos : 1 ≤ at'.attempt)
    {views : List View} {rest : List Bytes} (hviews : ∀ v ∈ views, v.Sees cd job at' x.body)
    (hcalls : rest.length < views.length) (hcut : partsOf x.body = before ++ rest) (hd : d.Reads at'.attempt before rest) :
    download cd (manifestOf cd x (partsOf x.body).length).content ws job views d before = .done (partsOf x.body) := by
  induction rest generalizing views before d with
  | nil =>
    rw [List.append_nil] at hcut
    rw [← hcut] at hd ⊢
    cases views with
    | nil => cases hcalls
    | cons v views =>
      have hv := hviews v List.mem_cons_self
      obtain ⟨d', hread⟩ := readNext_end hv hd
      rw [download, hv.late, if_neg Bool.false_ne_true, hread]
  | cons part rest ih =>
    cases views with
    | nil => cases hcalls
    | cons v views =>
      have hv := hviews v List.mem_cons_self
      obtain ⟨d', hread, hd'⟩ := readNext_part hlaw hws hjob hpos hv hcut hd
      rw [download, hv.late, if_neg Bool.false_ne_true, hread]
      refine ih (fun w hw => hviews w (List.mem_cons_of_mem _ hw)) (Nat.lt_of_succ_lt_succ hcalls) ?_ hd'
      rw [hcut, List.append_assoc]
      rfl

end Reader

end ChessCrawl.Artifacts
