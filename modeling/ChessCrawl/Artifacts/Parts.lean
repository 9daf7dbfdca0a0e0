import ChessCrawl.Artifacts.Sessions

/-! The parts of a body: how it is cut, and the rows and objects that hold it. -/
namespace ChessCrawl.Artifacts
set_option autoImplicit false

/-! ## Cutting -/

/-- The bodies that `binary.read(CHUNK_BYTES)` returns until it returns none. -/
def partsOf (body : Bytes) : List Bytes :=
  if body = [] then [] else body.take chunkBytes :: partsOf (body.drop chunkBytes)
termination_by body.length
decreasing_by
  rename_i h
  have : 0 < body.length := List.length_pos_iff.mpr h
  rw [List.length_drop]
  unfold chunkBytes
  omega

theorem partsOf_nil : partsOf [] = [] := by
  rw [partsOf, if_pos rfl]

theorem partsOf_cons {body : Bytes} (h : body ≠ []) :
    partsOf body = body.take chunkBytes :: partsOf (body.drop chunkBytes) := by
  rw [partsOf, if_neg h]

theorem partsOf_flatten (body : Bytes) : (partsOf body).flatten = body := by
  induction body using partsOf.induct with
  | case1 => rw [partsOf_nil, List.flatten_nil]
  | case2 body h ih => rw [partsOf_cons h, List.flatten_cons, ih, List.take_append_drop]

theorem partsOf_length (body : Bytes) : (partsOf body).length = (body.length + chunkBytes - 1) / chunkBytes := by
  induction body using partsOf.induct with
  | case1 =>
    rw [partsOf_nil]
    rfl
  | case2 body h ih =>
    have hpos : 0 < body.length := List.length_pos_iff.mpr h
    rw [partsOf_cons h, List.length_cons, ih, List.length_drop]
    unfold chunkBytes
    omega

/-- The bytes that the parts before a position hold, and the length of the part at it. -/
theorem partsOf_part {body : Bytes} {before after : List Bytes} {part : Bytes}
    (h : partsOf body = before ++ part :: after) :
    part.length = min chunkBytes (body.length - before.flatten.length) ∧ 0 < part.length := by
  induction before generalizing body with
  | nil =>
    have hne : body ≠ [] := by
      rintro rfl
      rw [partsOf_nil] at h
      cases h
    rw [partsOf_cons hne] at h
    obtain ⟨rfl, _⟩ := List.cons.inj h
    have hpos : 0 < body.length := List.length_pos_iff.mpr hne
    simp only [List.length_take, List.flatten_nil, List.length_nil, Nat.sub_zero, true_and]
    unfold chunkBytes
    omega
  | cons first before ih =>
    have hne : body ≠ [] := by
      rintro rfl
      rw [partsOf_nil] at h
      cases h
    rw [partsOf_cons hne] at h
    obtain ⟨rfl, hrest⟩ := List.cons.inj h
    obtain ⟨hlen, hpos⟩ := ih hrest
    refine ⟨?_, hpos⟩
    rw [hlen, List.length_drop, List.flatten_cons, List.length_append, List.length_take]
    omega

/-! ## Rows -/

/-- Where one attempt puts its parts. -/
structure Place where
  location : String
  workspaceId : String
  jobId : Nat
  attempt : Nat
deriving DecidableEq, Repr

def Place.key (cd : Codec) (at' : Place) (part : Bytes) : Key :=
  (objectOf cd at'.location at'.workspaceId at'.jobId at'.attempt part).1

def Place.row (cd : Codec) (at' : Place) (part : Bytes) : ObjectRow :=
  (objectOf cd at'.location at'.workspaceId at'.jobId at'.attempt part).2

@[simp] theorem Place.key_attempt (cd : Codec) (at' : Place) (part : Bytes) : (at'.key cd part).attempt = at'.attempt :=
  rfl

@[simp] theorem Place.row_bodyBytes (cd : Codec) (at' : Place) (part : Bytes) :
    (at'.row cd part).bodyBytes = part.length := rfl

/-- The chunk rows of the parts, numbered after `start`. -/
def rowsOf (cd : Codec) (at' : Place) (start : Nat) : List Bytes → List ChunkRow
  | [] => []
  | part :: parts => ⟨start + 1, at'.key cd part⟩ :: rowsOf cd at' (start + 1) parts

variable {cd : Codec} {at' : Place} {parts : List Bytes} {start : Nat}

theorem rowsOf_append (more : List Bytes) :
    rowsOf cd at' start (parts ++ more) = rowsOf cd at' start parts ++ rowsOf cd at' (start + parts.length) more := by
  induction parts generalizing start with
  | nil => rfl
  | cons part parts ih =>
    rw [List.cons_append, rowsOf, ih, rowsOf, List.cons_append, List.length_cons, Nat.add_right_comm, Nat.add_assoc]

@[simp] theorem rowsOf_length : (rowsOf cd at' start parts).length = parts.length := by
  induction parts generalizing start with
  | nil => rfl
  | cons part parts ih => rw [rowsOf, List.length_cons, List.length_cons, ih]

theorem mem_rowsOf {row : ChunkRow} (h : row ∈ rowsOf cd at' start parts) :
    start < row.ordinal ∧ row.ordinal ≤ start + parts.length ∧ ∃ part ∈ parts, row.key = at'.key cd part := by
  induction parts generalizing start with
  | nil => cases h
  | cons part parts ih =>
    rw [List.length_cons]
    rcases List.mem_cons.mp h with rfl | h
    · exact ⟨by dsimp only; omega, by dsimp only; omega, part, List.mem_cons_self, rfl⟩
    · obtain ⟨hlt, hle, part', hmem, hkey⟩ := ih h
      exact ⟨by omega, by omega, part', List.mem_cons_of_mem _ hmem, hkey⟩

/-- The parts are registered and their objects are there. -/
def Stored (cd : Codec) (s : State) (at' : Place) (part : Bytes) : Prop :=
  s.db.objects (at'.key cd part) = some (at'.row cd part) ∧ s.store (at'.key cd part) = some (cd.compress part)

/-- The total of the chunk rows is the length of what they hold. -/
theorem rowsOf_total {objects : Key → Option ObjectRow}
    (h : ∀ part ∈ parts, objects (at'.key cd part) = some (at'.row cd part)) :
    ((rowsOf cd at' start parts).map fun r => ((objects r.key).map ObjectRow.bodyBytes).getD 0).sum =
      parts.flatten.length := by
  induction parts generalizing start with
  | nil => rfl
  | cons part parts ih =>
    rw [rowsOf, List.map_cons, List.sum_cons, ih fun p hp => h p (List.mem_cons_of_mem _ hp),
      h part List.mem_cons_self, List.flatten_cons, List.length_append]
    rfl

end ChessCrawl.Artifacts
