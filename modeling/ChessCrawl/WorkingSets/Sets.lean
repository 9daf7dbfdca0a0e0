import ChessCrawl.WorkingSets.Selection

/-! The tables of working sets: `create_working_set` as one transaction, and the statements that the triggers refuse on a
completed set. -/
namespace ChessCrawl.WorkingSets
open ChessCrawl.Lib
set_option autoImplicit false

/-! ## Tables -/

structure SetRow where
  id : Nat
  workspaceId : Text
  name : Text
  filters : Json Numeric
  settings : Json Numeric
  inputSignature : Text
  memberCount : Nat

structure Submission where
  workspaceId : Text
  submissionNamespace : Text
  idempotencyKey : Text
  requestJson : Text
  workingSetId : Nat

structure Db where
  sets : List SetRow
  members : List Member
  submissions : List Submission
  nextId : Nat

namespace Db
variable (db : Db)

/-- `WHERE working_set_id = …` -/
def membersOf (id : Nat) : List Member := db.members.filter fun m => decide (m.workingSetId = id)

/-- `get_working_set` -/
def getWorkingSet (id : Nat) (workspaceId : Text) : Except Refusal SetRow :=
  match db.sets.find? fun r => decide (r.id = id) && decide (r.workspaceId = workspaceId) with
  | none => .error .workingSetNotFound
  | some row => .ok row

def submission (workspaceId submissionNamespace idempotencyKey : Text) : Option Submission :=
  db.submissions.find? fun s => decide (s.workspaceId = workspaceId) && decide (s.submissionNamespace = submissionNamespace) &&
    decide (s.idempotencyKey = idempotencyKey)

end Db

/-- What is not of this program: the doubles, SHA-256 and the order of keys in `jsonb`. -/
structure Host where
  D : Floats
  sha256 : Text → Text
  order : List (Text × Json Numeric) → List (Text × Json Numeric)

/-- `validate_workspace` -/
def validWorkspace (id : Text) : Bool :=
  decide (1 ≤ id.length ∧ id.length ≤ 100 ∧ id ≠ "public".toList) && id.all fun c => c.isAlphanum || c = '_' || c = '-'

/-! ## `create_working_set` -/

structure CreateCall (D : Floats) where
  workspaceId : Text
  name : Text
  filters : Filters
  settings : { v : Json (Number D) // v.Distinct }
  idempotencyKey : Text
  maxMembers : Int
  submissionNamespace : Text

section Create
variable (H : Host)

/-- `{"name": name, "filters": filters, "settings": settings}` -/
def CreateCall.request {D : Floats} (call : CreateCall D) : Json (Number D) :=
  .obj [("name".toList, .str call.name), ("filters".toList, call.filters.json), ("settings".toList, call.settings.1)]

def pending : Text := "pending".toList

/-- From the `INSERT` on: the members, the limit, the signature. -/
def insertSet (archive : Archive) (db : Db) (call : CreateCall H.D) (requestJson : Text) (playerId : Option Nat)
    (filters settings : Json Numeric) (head : Text) : Except Refusal (Db × SetRow) :=
  let id := db.nextId
  let rows := memberRows archive.games call.filters playerId id (call.maxMembers + 1).toNat
  if call.maxMembers < rows.length then .error .workingSetTooLarge
  else
    let members := db.members ++ rows
    let stored := members.filter fun m => decide (m.workingSetId = id)
    let (message, count) := readPages stored stored.length 0 (head, 0)
    let row : SetRow := ⟨id, call.workspaceId, call.name, filters, settings, H.sha256 message, count⟩
    .ok ({
      sets := db.sets ++ [row], members := members
      submissions := db.submissions ++
        [⟨call.workspaceId, call.submissionNamespace, call.idempotencyKey, requestJson, id⟩]
      nextId := id + 1 }, row)

/-- The set of a key that is used for the first time. The player is looked up in one statement and the members are selected
in another, so that other sessions may commit between the two: `lookup` and `archive` are what each of them sees. -/
def createNew (lookup archive : Archive) (db : Db) (call : CreateCall H.D) (requestJson : Text) :
    Except Refusal (Db × SetRow) := do
  let playerId ← playerOf lookup.users call.filters
  let filters ← toJsonb H.order (call.filters.json : Json (Number H.D))
  let settings ← toJsonb H.order call.settings.1
  let head ← canonical (signatureHead call.filters : Json (Number H.D))
  if plain call.name then insertSet H archive db call requestJson playerId filters settings head
  else .error .untranslatableCharacter

/-- `create_working_set`: the tables afterwards, the set, and whether it is replayed. -/
def createWorkingSet (lookup archive : Archive) (db : Db) (call : CreateCall H.D) : Except Refusal (Db × SetRow × Bool) :=
  if call.maxMembers < 1 then .error .invalidLimit
  else if !validWorkspace call.workspaceId then .error .invalidWorkspace
  else if !(plain call.submissionNamespace && plain call.idempotencyKey) then .error .untranslatableCharacter
  else do
    let requestJson ← canonical call.request
    match db.submission call.workspaceId call.submissionNamespace call.idempotencyKey with
    | some existing =>
      if existing.requestJson ≠ requestJson then .error .idempotencyConflict
      else do
        let row ← db.getWorkingSet existing.workingSetId call.workspaceId
        pure (db, row, true)
    | none => do
      let (db', row) ← createNew H lookup archive db call requestJson
      pure (db', row, false)

end Create

/-! ## The triggers -/

/-- Neither trigger refuses, and the set is there. -/
def Db.openSet (db : Db) (id : Nat) : Bool :=
  match db.sets.find? fun r => decide (r.id = id) with
  | none => false
  | some row => decide (row.inputSignature = pending)

/-- A call, or a statement on the tables; what its two statements see of the games goes with each call. -/
inductive Event (D : Floats)
  | create (lookup archive : Archive) (call : CreateCall D)
  | updateSet (id : Nat) (row : SetRow)
  | insertMember (m : Member)
  | updateMember (old new : Member)
  | deleteMember (m : Member)

/-- What is refused changes nothing. -/
def step (H : Host) (db : Db) : Event H.D → Option Db
  | .create lookup archive call =>
    match createWorkingSet H lookup archive db call with
    | .error _ => some db
    | .ok (db', _, _) => some db'
  | .updateSet id row =>
    some (if db.openSet id then { db with sets := db.sets.map fun r => if r.id = id then { row with id := id } else r } else db)
  | .insertMember m => some (if db.openSet m.workingSetId then { db with members := db.members ++ [m] } else db)
  | .updateMember old new =>
    some (if db.openSet old.workingSetId && db.openSet new.workingSetId then
      { db with members := db.members.map fun m => if m = old then new else m } else db)
  | .deleteMember m =>
    some (if db.openSet m.workingSetId then { db with members := db.members.filter fun n => decide (n ≠ m) } else db)

def system (H : Host) : System Db (Event H.D) where
  init db := db = ⟨[], [], [], 0⟩
  step := step H

/-! ## What a call does -/

section Calls
variable {H : Host}

/-- A value as a `jsonb` column has it. -/
def storedJson (H : Host) (v : Json (Number H.D)) : Json Numeric := v.normal.rebuild (fun n => n.literal.numeric) H.order

/-- The filters as the column has them. -/
def storedFilters (H : Host) (f : Filters) : Json Numeric := storedJson H f.json

structure Sound (H : Host) (db : Db) : Prop where
  sets_lt : ∀ r ∈ db.sets, r.id < db.nextId
  members_lt : ∀ m ∈ db.members, m.workingSetId < db.nextId
  ids : (db.sets.map SetRow.id).Nodup
  signed : ∀ r ∈ db.sets, ∃ f : Filters, r.filters = storedFilters H f ∧
    r.inputSignature = H.sha256 (signatureText H.D f (db.membersOf r.id))
  submitted : ∀ s ∈ db.submissions, ∃ r ∈ db.sets, r.id = s.workingSetId ∧ r.workspaceId = s.workspaceId

/-- The row of a call whose set has these members. -/
structure RowOf (H : Host) (call : CreateCall H.D) (row : SetRow) (members : List Member) : Prop where
  workspaceId : row.workspaceId = call.workspaceId
  name : row.name = call.name
  filters : row.filters = storedFilters H call.filters
  settings : row.settings = storedJson H call.settings.1
  inputSignature : row.inputSignature = H.sha256 (signatureText H.D call.filters members)
  memberCount : row.memberCount = members.length

/-- A new set beside the old ones, with these members. -/
structure Created (H : Host) (db db' : Db) (call : CreateCall H.D) (row : SetRow) (rows : List Member) : Prop where
  sets : db'.sets = db.sets ++ [row]
  id : row.id = db.nextId
  nextId : db'.nextId = db.nextId + 1
  members : db'.members = db.members ++ rows
  own : ∀ m ∈ rows, m.workingSetId = row.id
  rowOf : RowOf H call row rows
  submissions : db'.submissions = db.submissions ++
    [⟨call.workspaceId, call.submissionNamespace, call.idempotencyKey, text call.request, row.id⟩]

theorem filter_old {db : Db} (h : ∀ m ∈ db.members, m.workingSetId < db.nextId) (rows : List Member)
    (hrows : ∀ m ∈ rows, m.workingSetId = db.nextId) :
    (db.members ++ rows).filter (fun m => decide (m.workingSetId = db.nextId)) = rows := by
  have hold : db.members.filter (fun m => decide (m.workingSetId = db.nextId)) = [] := by
    rw [List.filter_eq_nil_iff]
    intro m hm
    have := h m hm
    simp only [decide_eq_true_eq]
    omega
  rw [List.filter_append, hold, List.nil_append, List.filter_eq_self]
  exact fun m hm => decide_eq_true (hrows m hm)

theorem memberRows_pos {games : List Game} {f : Filters} {playerId : Option Nat} {setId limit : Nat} {m : Member}
    (h : m ∈ memberRows games f playerId setId limit) : 0 < m.ordinal := by
  have hmem := List.mem_map_of_mem (f := fun m : Member => (m.ordinal, some m.gameVersionId)) h
  rw [memberRows_spec] at hmem
  obtain ⟨p, hp, hpm⟩ := List.mem_map.mp hmem
  have hle := List.le_snd_of_mem_zipIdx (List.mem_of_mem_take hp)
  have hordinal : p.2 = m.ordinal := congrArg Prod.fst hpm
  omega

theorem insertSet_ok {archive : Archive} {db db' : Db} {call : CreateCall H.D} {requestJson head : Text} {playerId : Option Nat}
    {filters settings : Json Numeric} {row : SetRow} (hdb : ∀ m ∈ db.members, m.workingSetId < db.nextId)
    (hrequest : requestJson = text call.request) (hfilters : filters = storedFilters H call.filters)
    (hsettings : settings = storedJson H call.settings.1)
    (hhead : head = text (signatureHead call.filters : Json (Number H.D)))
    (h : insertSet H archive db call requestJson playerId filters settings head = .ok (db', row)) :
    ∃ rows, rows = memberRows archive.games call.filters playerId row.id (call.maxMembers + 1).toNat ∧
      ¬ call.maxMembers < rows.length ∧ Created H db db' call row rows := by
  unfold insertSet at h
  dsimp only at h
  split at h
  · cases h
  · next hfits =>
    have hown : ∀ m ∈ memberRows archive.games call.filters playerId db.nextId (call.maxMembers + 1).toNat,
        m.workingSetId = db.nextId := fun m hm => memberRows_setId hm
    have hsorted := memberRows_sorted archive.games call.filters playerId db.nextId (call.maxMembers + 1).toNat
    have hpos : (memberRows archive.games call.filters playerId db.nextId (call.maxMembers + 1).toNat).filter
        (fun m => decide (0 < m.ordinal)) = memberRows archive.games call.filters playerId db.nextId
          (call.maxMembers + 1).toNat := by
      rw [List.filter_eq_self]
      exact fun m hm => decide_eq_true (memberRows_pos hm)
    rw [filter_old hdb _ hown, readPages_spec hsorted _ 0 (head, 0) (by rw [hpos]), hpos] at h
    cases h
    refine ⟨_, rfl, hfits, rfl, rfl, rfl, rfl, hown, ⟨rfl, rfl, hfilters, hsettings, ?_, ?_⟩, ?_⟩
    · rw [hhead]
      rfl
    · simp
    · rw [hrequest]

theorem createNew_ok {lookup archive : Archive} {db db' : Db} {call : CreateCall H.D} {requestJson : Text} {row : SetRow}
    (hdb : ∀ m ∈ db.members, m.workingSetId < db.nextId) (hrequest : requestJson = text call.request)
    (h : createNew H lookup archive db call requestJson = .ok (db', row)) :
    ∃ playerId rows, playerOf lookup.users call.filters = .ok playerId ∧
      rows = memberRows archive.games call.filters playerId row.id (call.maxMembers + 1).toNat ∧
      ¬ call.maxMembers < rows.length ∧ Created H db db' call row rows := by
  unfold createNew at h
  obtain ⟨playerId, hplayer, h⟩ := bind_ok h
  obtain ⟨filters, hfilters, h⟩ := bind_ok h
  obtain ⟨settings, hsettings, h⟩ := bind_ok h
  obtain ⟨head, hhead, h⟩ := bind_ok h
  split at h
  · obtain ⟨rows, hrows⟩ := insertSet_ok hdb hrequest (toJsonb_ok hfilters) (toJsonb_ok hsettings) (canonical_ok hhead).2 h
    exact ⟨playerId, rows, hplayer, hrows⟩
  · cases h

/-- A call that returns has stored a new set, or has found the one of its key. -/
theorem createWorkingSet_ok {lookup archive : Archive} {db db' : Db} {call : CreateCall H.D} {row : SetRow} {replayed : Bool}
    (hdb : ∀ m ∈ db.members, m.workingSetId < db.nextId)
    (h : createWorkingSet H lookup archive db call = .ok (db', row, replayed)) :
    (replayed = true ∧ db' = db ∧ row ∈ db.sets ∧ ∃ s, s ∈ db.submissions ∧ s.workspaceId = call.workspaceId ∧
      s.submissionNamespace = call.submissionNamespace ∧ s.idempotencyKey = call.idempotencyKey ∧
      s.requestJson = text call.request ∧ s.workingSetId = row.id) ∨
    (replayed = false ∧ ∃ playerId rows, playerOf lookup.users call.filters = .ok playerId ∧
      rows = memberRows archive.games call.filters playerId row.id (call.maxMembers + 1).toNat ∧
      ¬ call.maxMembers < rows.length ∧ Created H db db' call row rows) := by
  unfold createWorkingSet at h
  split at h
  · cases h
  split at h
  · cases h
  split at h
  · cases h
  obtain ⟨requestJson, hrequest, h⟩ := bind_ok h
  split at h
  · next existing hexisting =>
    split at h
    · cases h
    · next hsame =>
      obtain ⟨row', hrow, h⟩ := bind_ok h
      cases h
      unfold Db.getWorkingSet at hrow
      split at hrow
      · cases hrow
      · next r hfind =>
        cases hrow
        have hmatch := List.find?_some hfind
        have hkey := List.find?_some hexisting
        simp only [Bool.and_eq_true, decide_eq_true_eq] at hmatch hkey
        exact .inl ⟨rfl, rfl, List.mem_of_find?_eq_some hfind, existing, List.mem_of_find?_eq_some hexisting, hkey.1.1, hkey.1.2,
          hkey.2, (not_not.mp hsame).trans (canonical_ok hrequest).2, hmatch.1.symm⟩
  · obtain ⟨⟨db₁, row₁⟩, hnew, h⟩ := bind_ok h
    cases h
    exact .inr ⟨rfl, createNew_ok hdb (canonical_ok hrequest).2 hnew⟩

end Calls

/-! ## Why a call fails -/

section Failures
variable {H : Host}

/-- A call that the database and the encoders take. -/
structure Acceptable {D : Floats} (call : CreateCall D) : Prop where
  limit : 1 ≤ call.maxMembers
  workspace : validWorkspace call.workspaceId = true
  keys : plain call.submissionNamespace = true ∧ plain call.idempotencyKey = true
  name : plain call.name = true
  writable : call.request.parts.all writable = true
  storable : (call.filters.json : Json (Number D)).parts.all storable = true ∧ call.settings.1.parts.all storable = true

/-- The key has been used for something else. -/
def Conflicting (db : Db) {D : Floats} (call : CreateCall D) : Prop :=
  ∃ s, db.submission call.workspaceId call.submissionNamespace call.idempotencyKey = some s ∧
    s.requestJson ≠ text call.request

theorem writable_one {D : Floats} : writable (.num (.int 1) : Json (Number D)) = true := by
  unfold writable
  dsimp only
  rw [decide_eq_true_iff, Int.natAbs_one]
  exact Nat.one_lt_pow (by decide) (by decide)

theorem request_filters {D : Floats} {call : CreateCall D} (h : call.request.parts.all writable = true) :
    (signatureHead call.filters : Json (Number D)).parts.all writable = true := by
  rw [List.all_eq_true] at h ⊢
  intro v hv
  unfold signatureHead at hv
  rw [Json.parts_obj, List.mem_cons, List.flatMap_cons, List.flatMap_cons, List.flatMap_nil, List.append_nil,
    List.mem_append] at hv
  obtain rfl | hv | hv := hv
  · rfl
  · rw [List.mem_singleton.mp hv]
    exact writable_one
  · refine h v ?_
    unfold CreateCall.request
    rw [Json.parts_obj]
    simp [hv]

theorem canonical_eq {D : Floats} {v : Json (Number D)} (h : v.parts.all writable = true) : canonical v = .ok (text v) :=
  if_pos h

theorem toJsonb_eq {D : Floats} (order : List (Text × Json Numeric) → List (Text × Json Numeric)) {v : Json (Number D)}
    (h : v.parts.all storable = true) : ∃ j, toJsonb order v = .ok j :=
  ⟨_, if_pos h⟩

theorem createNew_error {lookup archive : Archive} {db : Db} {call : CreateCall H.D} (hcall : Acceptable call)
    {requestJson : Text} {e : Refusal} (h : createNew H lookup archive db call requestJson = .error e) :
    (e = .ambiguousPlayerAlias ∧ Ambiguous lookup.users call.filters) ∨
    (e = .workingSetTooLarge ∧ ∃ playerId, Player lookup.users call.filters playerId ∧
      call.maxMembers < (selected archive.games call.filters playerId).length) := by
  unfold createNew at h
  obtain hplayer | ⟨playerId, hplayer, h⟩ := bind_error h
  · exact .inl (playerOf_error lookup.accounts hplayer)
  obtain ⟨filters, hfilters⟩ := toJsonb_eq H.order hcall.storable.1
  obtain ⟨settings, hsettings⟩ := toJsonb_eq H.order hcall.storable.2
  have hhead := canonical_eq (request_filters hcall.writable)
  obtain hbad | ⟨_, _, h⟩ := bind_error h
  · exact nomatch hfilters.symm.trans hbad
  obtain hbad | ⟨_, _, h⟩ := bind_error h
  · exact nomatch hsettings.symm.trans hbad
  obtain hbad | ⟨_, _, h⟩ := bind_error h
  · exact nomatch hhead.symm.trans hbad
  rw [if_pos hcall.name] at h
  unfold insertSet at h
  dsimp only at h
  split at h
  · next hlarge =>
    cases h
    rw [memberRows_length] at hlarge
    have hlimit := hcall.limit
    exact .inr ⟨rfl, playerId, playerOf_ok hplayer, by omega⟩
  · cases h

/-- A call fails for what it asks, for its key, for a name of several accounts, or for too many games. -/
theorem createWorkingSet_error {lookup archive : Archive} {db : Db} (hdb : Sound H db) {call : CreateCall H.D} {e : Refusal}
    (h : createWorkingSet H lookup archive db call = .error e) :
    ¬ Acceptable call ∨ (e = .idempotencyConflict ∧ Conflicting db call) ∨
    (e = .ambiguousPlayerAlias ∧ Ambiguous lookup.users call.filters) ∨
    (e = .workingSetTooLarge ∧ ∃ playerId, Player lookup.users call.filters playerId ∧
      call.maxMembers < (selected archive.games call.filters playerId).length) := by
  by_cases hcall : Acceptable call
  · right
    have hcanonical := canonical_eq hcall.writable
    have hlimit := hcall.limit
    unfold createWorkingSet at h
    rw [if_neg (by omega), hcall.workspace, if_neg (by decide), hcall.keys.1, hcall.keys.2, if_neg (by decide)] at h
    obtain hbad | ⟨requestJson, hrequest, h⟩ := bind_error h
    · exact nomatch hcanonical.symm.trans hbad
    have hsame : requestJson = text call.request := (canonical_ok hrequest).2
    subst hsame
    cases hkey : db.submission call.workspaceId call.submissionNamespace call.idempotencyKey with
    | none =>
      rw [hkey] at h
      obtain hnew | ⟨_, _, h⟩ := bind_error h
      · exact .inr (createNew_error hcall hnew)
      · cases h
    | some existing =>
      rw [hkey] at h
      dsimp only at h
      split at h
      · next hne =>
        cases h
        exact .inl ⟨rfl, existing, hkey, hne⟩
      · -- The set of a key is there, so that it is found.
        obtain ⟨r, hr, hid, hworkspace⟩ := hdb.submitted existing (List.mem_of_find?_eq_some hkey)
        have hkeyed := List.find?_some hkey
        simp only [Bool.and_eq_true, decide_eq_true_eq] at hkeyed
        obtain hset | ⟨_, _, h⟩ := bind_error h
        · unfold Db.getWorkingSet at hset
          split at hset
          · next hnone =>
            have := List.find?_eq_none.mp hnone r hr
            simp only [Bool.and_eq_true, decide_eq_true_eq, not_and] at this
            exact absurd (hworkspace.trans hkeyed.1.1) (this hid)
          · cases hset
        · cases h
  · exact .inl hcall

end Failures

/-! ## Runs -/

section Runs
variable {H : Host}

/-- The other sets keep their members. -/
theorem Created.membersOf {db db' : Db} {call : CreateCall H.D} {row : SetRow} {rows : List Member}
    (h : Created H db db' call row rows) (hdb : Sound H db) {r : SetRow} (hr : r ∈ db.sets) : db'.membersOf r.id = db.membersOf r.id := by
  have hlt := hdb.sets_lt r hr
  have hnone : rows.filter (fun m => decide (m.workingSetId = r.id)) = [] := by
    rw [List.filter_eq_nil_iff]
    intro m hm
    have := h.own m hm
    have := h.id
    simp only [decide_eq_true_eq]
    omega
  unfold Db.membersOf
  rw [h.members, List.filter_append, hnone, List.append_nil]

/-- The new set has its own members. -/
theorem Created.membersOf_new {db db' : Db} {call : CreateCall H.D} {row : SetRow} {rows : List Member}
    (h : Created H db db' call row rows) (hdb : Sound H db) : db'.membersOf row.id = rows := by
  unfold Db.membersOf
  rw [h.members, h.id]
  exact filter_old hdb.members_lt rows fun m hm => (h.own m hm).trans h.id

theorem Created.sound {db db' : Db} {call : CreateCall H.D} {row : SetRow} {rows : List Member}
    (h : Created H db db' call row rows) (hdb : Sound H db) : Sound H db' := by
  refine ⟨fun r hr => ?_, fun m hm => ?_, ?_, fun r hr => ?_, fun s hs => ?_⟩
  · rw [h.nextId]
    rw [h.sets] at hr
    obtain hr | hr := List.mem_append.mp hr
    · have := hdb.sets_lt r hr
      omega
    · rw [List.mem_singleton.mp hr, h.id]
      omega
  · rw [h.nextId]
    rw [h.members] at hm
    obtain hm | hm := List.mem_append.mp hm
    · have := hdb.members_lt m hm
      omega
    · rw [h.own m hm, h.id]
      omega
  · rw [h.sets, List.map_append]
    refine List.Nodup.append hdb.ids (List.nodup_singleton _) ?_
    intro id hid hnew
    obtain ⟨r, hr, rfl⟩ := List.mem_map.mp hid
    have hlt := hdb.sets_lt r hr
    rw [List.mem_singleton.mp hnew, h.id] at hlt
    omega
  · rw [h.sets] at hr
    obtain hr | hr := List.mem_append.mp hr
    · rw [h.membersOf hdb hr]
      exact hdb.signed r hr
    · rw [List.mem_singleton.mp hr, h.membersOf_new hdb]
      exact ⟨call.filters, h.rowOf.filters, h.rowOf.inputSignature⟩
  · rw [h.submissions] at hs
    obtain hs | hs := List.mem_append.mp hs
    · obtain ⟨r, hr, hsame⟩ := hdb.submitted s hs
      exact ⟨r, by rw [h.sets]; exact List.mem_append_left _ hr, hsame⟩
    · rw [List.mem_singleton.mp hs]
      exact ⟨row, by rw [h.sets]; exact List.mem_append_right _ List.mem_cons_self, rfl, h.rowOf.workspaceId⟩

/-- All sets of these tables are completed, so that the triggers refuse each statement. -/
theorem Sound.closed {db : Db} (hdb : Sound H db) (hpending : ∀ t, H.sha256 t ≠ pending) (id : Nat) : db.openSet id = false := by
  unfold Db.openSet
  split
  · rfl
  · next row hrow =>
    obtain ⟨f, _, hsigned⟩ := hdb.signed row (List.mem_of_find?_eq_some hrow)
    rw [hsigned]
    exact decide_eq_false (hpending _)

/-- One step adds a set, or changes nothing. -/
theorem step_cases {db db' : Db} (hdb : Sound H db) (hpending : ∀ t, H.sha256 t ≠ pending) {e : Event H.D}
    (h : step H db e = some db') : db' = db ∨ ∃ call row rows, Created H db db' call row rows := by
  cases e with
  | create lookup archive call =>
    unfold step at h
    dsimp only at h
    split at h
    · cases h
      exact .inl rfl
    · next db₁ row replayed hok =>
      cases h
      obtain ⟨_, rfl, _⟩ | ⟨_, playerId, rows, _, _, _, hcreated⟩ := createWorkingSet_ok hdb.members_lt hok
      · exact .inl rfl
      · exact .inr ⟨_, _, _, hcreated⟩
  | updateSet id row =>
    unfold step at h
    dsimp only at h
    rw [hdb.closed hpending, if_neg Bool.false_ne_true] at h
    cases h
    exact .inl rfl
  | insertMember m =>
    unfold step at h
    dsimp only at h
    rw [hdb.closed hpending, if_neg Bool.false_ne_true] at h
    cases h
    exact .inl rfl
  | updateMember old new =>
    unfold step at h
    dsimp only at h
    rw [hdb.closed hpending, Bool.false_and, if_neg Bool.false_ne_true] at h
    cases h
    exact .inl rfl
  | deleteMember m =>
    unfold step at h
    dsimp only at h
    rw [hdb.closed hpending, if_neg Bool.false_ne_true] at h
    cases h
    exact .inl rfl

theorem sound_reachable (hpending : ∀ t, H.sha256 t ≠ pending) {db : Db} (h : Reachable (system H) db) : Sound H db := by
  refine Reachable.invariant (fun db hdb => ?_) (fun db e db' hdb he => ?_) h
  · rw [show db = _ from hdb]
    refine ⟨?_, ?_, List.nodup_nil, ?_, ?_⟩
    all_goals exact fun _ hmem => absurd hmem List.not_mem_nil
  · obtain rfl | ⟨call, row, rows, hcreated⟩ := step_cases hdb hpending he
    · exact hdb
    · exact hcreated.sound hdb

/-- A set and its members as they were. -/
def Unchanged (db db' : Db) : Prop := ∀ r ∈ db.sets, r ∈ db'.sets ∧ db'.membersOf r.id = db.membersOf r.id

theorem unchanged_step {db db' : Db} (hdb : Sound H db) (hpending : ∀ t, H.sha256 t ≠ pending) {e : Event H.D}
    (h : step H db e = some db') : Unchanged db db' := by
  obtain rfl | ⟨call, row, rows, hcreated⟩ := step_cases hdb hpending h
  · exact fun r hr => ⟨hr, rfl⟩
  · intro r hr
    refine ⟨?_, hcreated.membersOf hdb hr⟩
    rw [hcreated.sets]
    exact List.mem_append_left _ hr

theorem unchanged_run (hpending : ∀ t, H.sha256 t ≠ pending) {db db' : Db} {es : List (Event H.D)}
    (hdb : Reachable (system H) db) (h : Trace (system H) (fun _ _ => True) db es db') : Unchanged db db' := by
  induction h with
  | nil s => exact fun r hr => ⟨hr, rfl⟩
  | @cons s t u e es _ hstep hrest ih =>
    intro r hr
    obtain ⟨hr', hmembers⟩ := unchanged_step (sound_reachable hpending hdb) hpending hstep r hr
    obtain ⟨hr'', hmembers'⟩ := ih (.next hdb trivial hstep) r hr'
    exact ⟨hr'', hmembers'.trans hmembers⟩

end Runs

/-! ## Signatures of results -/

section Results

/-- The object that `result_signature` is the digest of. -/
def resultKey {D : Floats} (inputs implementation version : Text) (workingSet calculation : Json (Number D)) :
    Json (Number D) :=
  .obj [("schema".toList, .num (.int 1)), ("inputs".toList, .str inputs), ("implementation".toList, .str implementation),
    ("version".toList, .str version),
    ("settings".toList, .obj [("working_set".toList, workingSet), ("calculation".toList, calculation)])]

/-- `result_signature` -/
def resultSignature (H : Host) (workingSet : SetRow) (implementation version : Text) (settings : Json (Number H.D)) :
    Except Refusal Text :=
  (canonical (resultKey workingSet.inputSignature implementation version (fromJsonb workingSet.settings) settings)).map H.sha256

/-- The object says all that it is made of. -/
theorem resultKey_unique {D : Floats} {inputs inputs' implementation implementation' version version' : Text}
    {workingSet workingSet' calculation calculation' : Json (Number D)}
    (h : (resultKey inputs implementation version workingSet calculation).normal =
      (resultKey inputs' implementation' version' workingSet' calculation').normal) :
    inputs = inputs' ∧ implementation = implementation' ∧ version = version' ∧ workingSet.normal = workingSet'.normal ∧
      calculation.normal = calculation'.normal := by
  have hinputs := Json.normal_field h (k := "inputs".toList) (v := .str inputs) (w := .str inputs') (by simp) (by simp) (by simp)
  have himplementation := Json.normal_field h (k := "implementation".toList) (v := .str implementation)
    (w := .str implementation') (by simp) (by simp) (by simp)
  have hversion := Json.normal_field h (k := "version".toList) (v := .str version) (w := .str version') (by simp) (by simp)
    (by simp)
  have hsettings := Json.normal_field h (k := "settings".toList)
    (v := .obj [("working_set".toList, workingSet), ("calculation".toList, calculation)])
    (w := .obj [("working_set".toList, workingSet'), ("calculation".toList, calculation')]) (by simp) (by simp) (by simp)
  have hset := Json.normal_field hsettings (k := "working_set".toList) (v := workingSet) (w := workingSet') (by simp) (by simp)
    (by simp)
  have hcalculation := Json.normal_field hsettings (k := "calculation".toList) (v := calculation) (w := calculation') (by simp)
    (by simp) (by simp)
  exact ⟨Json.str.inj hinputs, Json.str.inj himplementation, Json.str.inj hversion, hset, hcalculation⟩

theorem resultSignature_unique {H : Host} (hD : H.D.Lawful) (hsha : Function.Injective H.sha256) {w w' : SetRow}
    {implementation implementation' version version' : Text} {settings settings' : Json (Number H.D)} {signature : Text}
    (h : resultSignature H w implementation version settings = .ok signature)
    (h' : resultSignature H w' implementation' version' settings' = .ok signature) :
    w.inputSignature = w'.inputSignature ∧ implementation = implementation' ∧ version = version' ∧
      (fromJsonb w.settings : Json (Number H.D)).normal = (fromJsonb w'.settings).normal ∧
      settings.normal = settings'.normal := by
  have hread : ∀ {w : SetRow} {implementation version : Text} {settings : Json (Number H.D)},
      resultSignature H w implementation version settings = .ok signature →
      signature = H.sha256 (text (resultKey w.inputSignature implementation version (fromJsonb w.settings) settings)) := by
    intro w implementation version settings h
    unfold resultSignature at h
    cases hc : canonical (resultKey w.inputSignature implementation version (fromJsonb w.settings) settings) with
    | error e =>
      rw [hc] at h
      cases h
    | ok t =>
      rw [hc] at h
      cases h
      rw [(canonical_ok hc).2]
  exact resultKey_unique ((text_eq_iff hD).mp (hsha ((hread h).symm.trans (hread h'))))

end Results

/-! ## Selection, signature and permanence -/

/-- The games that match a filter, in the order of their ids. -/
structure Matching (archive : Archive) (f : Filters) (playerId : Option Nat) (games : List Game) : Prop where
  sorted : games.Pairwise fun g h => g.id < h.id
  all : ∀ g, g ∈ games ↔ g ∈ archive.games ∧ Matches f playerId g

theorem selected_matching (archive : Archive) (f : Filters) (playerId : Option Nat) :
    Matching archive f playerId (selected archive.games f playerId) :=
  ⟨selected_sorted archive.ids f playerId, fun _ => mem_selected⟩

/-- In every state of every run: what a call that fails leaves and why it fails; what a call returns; that signatures tell
sets and results apart; and that a set never changes. -/
theorem working_sets_exact {H : Host} (hD : H.D.Lawful) (hsha : Function.Injective H.sha256)
    (hpending : ∀ t, H.sha256 t ≠ pending) {db : Db} (h : Reachable (system H) db) :
    (∀ lookup archive call e, createWorkingSet H lookup archive db call = .error e →
      (system H).step db (.create lookup archive call) = some db ∧
      (¬ Acceptable call ∨ (e = .idempotencyConflict ∧ Conflicting db call) ∨
        (e = .ambiguousPlayerAlias ∧ Ambiguous lookup.users call.filters) ∨
        (e = .workingSetTooLarge ∧ ∃ playerId games, Player lookup.users call.filters playerId ∧
          Matching archive call.filters playerId games ∧ call.maxMembers < games.length))) ∧
    (∀ lookup archive call db' row, createWorkingSet H lookup archive db call = .ok (db', row, true) →
      db' = db ∧ row ∈ db.sets ∧
      ∃ s ∈ db.submissions, s.workspaceId = call.workspaceId ∧ s.submissionNamespace = call.submissionNamespace ∧
        s.idempotencyKey = call.idempotencyKey ∧ s.requestJson = text call.request ∧ s.workingSetId = row.id) ∧
    (∀ lookup archive call db' row, createWorkingSet H lookup archive db call = .ok (db', row, false) →
      db'.sets = db.sets ++ [row] ∧ row ∉ db.sets ∧ RowOf H call row (db'.membersOf row.id) ∧
      db'.submissions = db.submissions ++
        [⟨call.workspaceId, call.submissionNamespace, call.idempotencyKey, text call.request, row.id⟩] ∧
      ∃ playerId games, Player lookup.users call.filters playerId ∧ Matching archive call.filters playerId games ∧
        games.length ≤ call.maxMembers ∧
        (db'.membersOf row.id).map (fun m => (m.ordinal, some m.gameVersionId)) =
          (games.zipIdx 1).map fun p => (p.2, p.1.currentVersionId)) ∧
    (∀ r ∈ db.sets, ∀ r' ∈ db.sets, r.inputSignature = r'.inputSignature → r.filters = r'.filters ∧
      (db.membersOf r.id).map (fun m => (m.ordinal, m.gameVersionId)) =
        (db.membersOf r'.id).map fun m => (m.ordinal, m.gameVersionId)) ∧
    (∀ w w' implementation implementation' version version' settings settings' signature,
      resultSignature H w implementation version settings = .ok signature →
      resultSignature H w' implementation' version' settings' = .ok signature →
      w.inputSignature = w'.inputSignature ∧ implementation = implementation' ∧ version = version' ∧
        (fromJsonb w.settings : Json (Number H.D)).normal = (fromJsonb w'.settings).normal ∧
        settings.normal = settings'.normal) ∧
    (∀ es db', Trace (system H) (fun _ _ => True) db es db' → Unchanged db db') := by
  have hsound := sound_reachable hpending h
  refine ⟨fun lookup archive call e he => ⟨?_, ?_⟩, fun lookup archive call db' row hok => ?_,
    fun lookup archive call db' row hok => ?_, fun r hr r' hr' hsame => ?_,
    fun w w' i i' v v' s s' signature hw hw' => resultSignature_unique hD hsha hw hw',
    fun es db' hrun => unchanged_run hpending h hrun⟩
  · show step H db (.create lookup archive call) = some db
    unfold step
    dsimp only
    rw [he]
  · obtain hcall | hconflict | hambiguous | ⟨rfl, playerId, hplayer, hlarge⟩ := createWorkingSet_error hsound he
    · exact .inl hcall
    · exact .inr (.inl hconflict)
    · exact .inr (.inr (.inl hambiguous))
    · exact .inr (.inr (.inr ⟨rfl, playerId, _, hplayer, selected_matching archive call.filters playerId, hlarge⟩))
  · obtain ⟨_, hdb, hrow, hsubmission⟩ | ⟨hfalse, _⟩ := createWorkingSet_ok hsound.members_lt hok
    · exact ⟨hdb, hrow, hsubmission⟩
    · cases hfalse
  · obtain ⟨htrue, _⟩ | ⟨_, playerId, rows, hplayer, hrows, hfits, hcreated⟩ := createWorkingSet_ok hsound.members_lt hok
    · cases htrue
    · have hlength := memberRows_length archive.games call.filters playerId row.id (call.maxMembers + 1).toNat
      have hspec := memberRows_spec archive.games call.filters playerId row.id (call.maxMembers + 1).toNat
      have hmembers := hcreated.membersOf_new hsound
      rw [← hrows] at hlength hspec
      have hcount : (selected archive.games call.filters playerId).length ≤ call.maxMembers := by omega
      refine ⟨hcreated.sets, fun hold => ?_, ?_, hcreated.submissions, playerId,
        selected archive.games call.filters playerId, playerOf_ok hplayer, selected_matching archive call.filters playerId,
        hcount, ?_⟩
      · have := hsound.sets_lt row hold
        have := hcreated.id
        omega
      · rw [hmembers]
        exact hcreated.rowOf
      · rw [hmembers, hspec, List.take_of_length_le]
        rw [List.length_zipIdx]
        omega
  · obtain ⟨f, hf, hsigned⟩ := hsound.signed r hr
    obtain ⟨f', hf', hsigned'⟩ := hsound.signed r' hr'
    have htext := hsha (hsigned.symm.trans (hsame.trans hsigned'))
    obtain ⟨rfl, hmembers⟩ := signatureText_unique hD htext
    exact ⟨hf.trans hf'.symm, hmembers⟩

/-! ## A name of two accounts -/

/-- The digest is taken for a text with a mark of its own. -/
def plainHost : Host := ⟨twoFloats, fun t => 'x' :: t, id⟩

def everyGame : Filters := ⟨none, none, none, none, none, none, none, by decide⟩

def oneGame : Archive where
  games := [⟨4, "lichess".toList, some 100, "blitz".toList, "standard".toList, 1, some 7, []⟩]
  users := []
  ids := by decide
  versions := by decide
  accounts := by decide

theorem distinct_empty : Json.Distinct (.obj [] : Json (Number plainHost.D)) := by
  intro fields hfields
  rw [Json.obj.inj (List.mem_singleton.mp hfields)]
  exact List.nodup_nil

/-- No condition and no settings. -/
def plainCall (filters : Filters) : CreateCall plainHost.D :=
  ⟨"local".toList, "all".toList, filters, ⟨.obj [], distinct_empty⟩, "key".toList, 10, "api".toList⟩

theorem oneGame_exact : ∃ (db' : Db) (row : SetRow) (games : List Game),
    createWorkingSet plainHost oneGame oneGame ⟨[], [], [], 0⟩ (plainCall everyGame) = .ok (db', row, false) ∧
    RowOf plainHost (plainCall everyGame) row (db'.membersOf row.id) ∧ games.length ≤ (plainCall everyGame).maxMembers ∧
    (db'.membersOf row.id).map (fun m => (m.ordinal, some m.gameVersionId)) =
      (games.zipIdx 1).map fun p => (p.2, p.1.currentVersionId) := by
  have hcreated : ((createWorkingSet plainHost oneGame oneGame ⟨[], [], [], 0⟩ (plainCall everyGame)).toOption.map fun r => r.2.2) =
      some false := by decide +kernel
  obtain ⟨⟨db', row, replayed⟩, hok, hreplayed⟩ := Option.map_eq_some_iff.mp hcreated
  cases hreplayed
  have hexact := working_sets_exact (H := plainHost) twoFloats_lawful (fun _ _ h => (List.cons.inj h).2)
    (fun t h => absurd (List.cons.inj h).1 (by decide)) (Reach.start rfl : Reachable (system plainHost) ⟨[], [], [], 0⟩)
  obtain ⟨_, _, hrow, _, playerId, games, _, _, hcount, hmembers⟩ :=
    hexact.2.2.1 oneGame oneGame (plainCall everyGame) db' row (toOption_some hok)
  exact ⟨db', row, games, toOption_some hok, hrow, hcount, hmembers⟩

/-- Two accounts that were once called the same. -/
def renamed : Archive where
  games := []
  users := [⟨1, "lichess".toList, "ann".toList, ["bob".toList]⟩, ⟨2, "lichess".toList, "cid".toList, ["bob".toList]⟩]
  ids := by decide
  versions := by decide
  accounts := by decide

def bob : Filters := ⟨some "lichess".toList, some "bob".toList, none, none, none, none, none, by decide⟩

theorem renamed_refused :
    createWorkingSet plainHost renamed renamed ⟨[], [], [], 0⟩ (plainCall bob) = .error .ambiguousPlayerAlias ∧
      ∀ playerId, (selected renamed.games bob playerId).length ≤ 10 := by
  refine ⟨rfl, fun playerId => ?_⟩
  exact Nat.zero_le 10

end ChessCrawl.WorkingSets
