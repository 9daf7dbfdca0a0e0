import ChessCrawl.WorkingSets.Sets

/-! `save_result`: results under their signature, and the comparison of an output with the one that was stored. -/
namespace ChessCrawl.WorkingSets
open ChessCrawl.Lib
set_option autoImplicit false

/-! ## Tables -/

structure ResultRow where
  id : Nat
  workspaceId : Text
  inputSignature : Text
  implementation : Text
  implementationVersion : Text
  settings : Json Numeric
  resultSignature : Text
  output : Json Numeric
  storedBytes : Nat
  createdAt : Int

/-- `analysis_results` with `UNIQUE(workspace_id, result_signature)`. -/
structure ResultTable where
  rows : List ResultRow
  nextId : Nat
  unique : rows.Pairwise fun r s => ¬ (r.workspaceId = s.workspaceId ∧ r.resultSignature = s.resultSignature)

namespace ResultTable

def find (t : ResultTable) (workspaceId signature : Text) : Option ResultRow :=
  t.rows.find? fun r => decide (r.workspaceId = workspaceId) && decide (r.resultSignature = signature)

theorem not_mem_of_find {t : ResultTable} {workspaceId signature : Text} (h : t.find workspaceId signature = none) :
    ∀ r ∈ t.rows, ¬ (r.workspaceId = workspaceId ∧ r.resultSignature = signature) := by
  intro r hr
  have := List.find?_eq_none.mp h r hr
  simpa using this

/-- A row under a signature that is not there. -/
def insert (t : ResultTable) (row : ResultRow) (h : t.find row.workspaceId row.resultSignature = none) : ResultTable where
  rows := t.rows ++ [row]
  nextId := t.nextId + 1
  unique := by
    refine List.pairwise_append.mpr ⟨t.unique, List.pairwise_singleton _ _, fun r hr s hs => ?_⟩
    rw [List.mem_singleton.mp hs]
    exact not_mem_of_find h r hr

/-- A row is found under its own signature. -/
theorem find_of_mem {t : ResultTable} {row : ResultRow} (h : row ∈ t.rows) :
    t.find row.workspaceId row.resultSignature = some row := by
  have hunique := t.unique
  unfold find
  induction hrows : t.rows generalizing t with
  | nil =>
    rw [hrows] at h
    cases h
  | cons r rows ih =>
    rw [hrows] at h hunique
    obtain ⟨hhead, htail⟩ := List.pairwise_cons.mp hunique
    rw [List.find?_cons]
    obtain rfl | h := List.mem_cons.mp h
    · simp
    · have hne := hhead row h
      rw [show (decide (r.workspaceId = row.workspaceId) && decide (r.resultSignature = row.resultSignature)) = false by simpa using hne]
      exact ih (t := ⟨rows, 0, htail⟩) h htail rfl

end ResultTable

/-! ## `save_result` -/

structure Limits where
  maxAnalysisResults : Int
  maxAnalysisResultBytes : Int

structure SaveCall (D : Floats) where
  workingSetId : Nat
  workspaceId : Text
  implementation : Text
  implementationVersion : Text
  settings : { v : Json (Number D) // v.Distinct }
  output : { v : Json (Number D) // v.Distinct }

section Save
variable (H : Host)

/-- `{"working_set": …, "calculation": …}` -/
def settingsJson {D : Floats} (workingSet : SetRow) (settings : Json (Number D)) : Json (Number D) :=
  .obj [("working_set".toList, fromJsonb workingSet.settings), ("calculation".toList, settings)]

/-- The rows that are counted against the quotas. -/
def retained (t : ResultTable) (workspaceId : Text) (limits : Limits) : List ResultRow :=
  ((t.rows.filter fun r => decide (r.workspaceId = workspaceId)).insertionSort fun r s =>
    r.createdAt < s.createdAt ∨ r.createdAt = s.createdAt ∧ r.id ≤ s.id).take limits.maxAnalysisResults.toNat

def octetLength (t : Text) : Nat := (t.map Char.utf8Size).sum

/-- `analysis_result_bytes`, with the length of a text of `jsonb` as a parameter. -/
def analysisResultBytes (octets : Json Numeric → Nat) (settings output : Json Numeric)
    (implementation implementationVersion workspaceId : Text) : Nat :=
  octets settings + octets output + octetLength implementation + octetLength implementationVersion +
    octetLength workspaceId + 128

/-- A result under a signature that is not there. -/
def insertResult (octets : Json Numeric → Nat) (limits : Limits) (now : Int) (t : ResultTable) (call : SaveCall H.D)
    (workingSet : SetRow) (signature : Text) (h : t.find call.workspaceId signature = none) :
    Except Refusal (ResultTable × ResultRow) := do
  let _ ← canonical (settingsJson workingSet call.settings.1)
  let _ ← canonical call.output.1
  let settings ← toJsonb H.order (settingsJson workingSet call.settings.1)
  let output ← toJsonb H.order call.output.1
  let bytes := analysisResultBytes octets settings output call.implementation call.implementationVersion call.workspaceId
  let used := retained t call.workspaceId limits
  if !(plain call.implementation && plain call.implementationVersion) then .error .untranslatableCharacter
  else if limits.maxAnalysisResults < used.length + 1 ∨
      limits.maxAnalysisResultBytes < (used.map ResultRow.storedBytes).sum + bytes then .error .quotaExceeded
  else
    let row : ResultRow := ⟨t.nextId, call.workspaceId, workingSet.inputSignature, call.implementation,
      call.implementationVersion, settings, signature, output, bytes, now⟩
    .ok (t.insert row h, row)

/-- `save_result`: the table afterwards, the row, and whether it is replayed. -/
def saveResult (octets : Json Numeric → Nat) (limits : Limits) (now : Int) (db : Db) (t : ResultTable) (call : SaveCall H.D) :
    Except Refusal (ResultTable × ResultRow × Bool) := do
  let workingSet ← db.getWorkingSet call.workingSetId call.workspaceId
  let signature ← resultSignature H workingSet call.implementation call.implementationVersion call.settings.1
  match h : t.find call.workspaceId signature with
  | some existing => do
    let before ← canonical (fromJsonb existing.output : Json (Number H.D))
    let after ← canonical call.output.1
    if before ≠ after then .error .resultConflict else pure (t, existing, true)
  | none => do
    let (t', row) ← insertResult H octets limits now t call workingSet signature h
    pure (t', row, false)

end Save

/-! ## Outputs that come back -/

section Returned
variable {H : Host}

/-- A number that a column gives back can be written. -/
theorem stored_writable {D : Floats} (hD : D.Lawful) {n : Number D} (hn : writable (.num n) = true) :
    writable (.num n.stored) = true := by
  cases n with
  | int n => rwa [Number.stored_int]
  | float x =>
    by_cases hlarge : 16 < D.point x
    · have hwhole : (D.repr x).numeric.literal.isWhole = true :=
        (Literal.numeric_isWhole _).mpr ((repr_exp hD x).mpr hlarge)
      have hcoeff : (D.repr x).numeric.literal.coeff < 10 ^ 4300 := by
        obtain ⟨k, hdigits, hexp, hk⟩ := repr_value x
        have hpos := (repr_exp hD x).mpr hlarge
        have hzero : k = 0 := by omega
        have hbounded := hD.bounded x
        rw [Numeric.literal_coeff, Literal.numeric_natAbs, if_pos hpos, hdigits, hzero, pow_zero, mul_one]
        calc D.digits x * 10 ^ (D.repr x).exp.toNat
            < 10 ^ decimalWidth (D.digits x) * 10 ^ (D.repr x).exp.toNat :=
              Nat.mul_lt_mul_of_pos_right (lt_pow_decimalWidth _) (Nat.pow_pos (by decide))
          _ = 10 ^ (decimalWidth (D.digits x) + (D.repr x).exp.toNat) := (Nat.pow_add _ _ _).symm
          _ ≤ 10 ^ 4300 := Nat.pow_le_pow_right (by decide) (by omega)
      have hstored : ∃ k : Int, (Number.float x : Number D).stored = .int k ∧ k.natAbs = (D.repr x).numeric.literal.coeff := by
        refine ⟨_, if_pos hwhole, ?_⟩
        split
        · exact (Int.natAbs_neg _).trans (Int.natAbs_natCast _)
        · exact Int.natAbs_natCast _
      obtain ⟨k, hk, habs⟩ := hstored
      rw [hk]
      unfold writable
      exact decide_eq_true (habs ▸ hcoeff)
    · have hfloat : ∃ y, (Number.float x : Number D).stored = .float y := by
        have hwhole : ¬ (D.repr x).numeric.literal.isWhole = true := by
          rw [Literal.numeric_isWhole, repr_exp hD]
          exact hlarge
        exact ⟨_, if_neg hwhole⟩
      obtain ⟨y, hy⟩ := hfloat
      rw [hy]
      rfl

theorem fromJsonb_writable {D : Floats} (hD : D.Lawful) {order : List (Text × Json Numeric) → List (Text × Json Numeric)}
    (horder : ∀ l, (order l).Perm l) {v : Json (Number D)} (h : v.parts.all writable = true) :
    (fromJsonb (v.normal.rebuild (fun n => n.literal.numeric) order) : Json (Number D)).parts.all writable = true := by
  rw [List.all_eq_true] at h ⊢
  intro w hw
  cases w with
  | num m =>
    obtain ⟨d, hd, rfl⟩ := Json.num_mem_rebuild (fun _ => List.Perm.refl _) hw
    obtain ⟨n, hn, rfl⟩ := Json.num_mem_rebuild horder hd
    obtain ⟨n', hn', rfl⟩ := Json.num_mem_rebuild Json.sortFields_perm hn
    exact stored_writable hD (h _ hn')
  | _ => rfl

/-- What an inserted row holds. -/
theorem insertResult_ok {octets : Json Numeric → Nat} {limits : Limits} {now : Int} {t t' : ResultTable} {call : SaveCall H.D}
    {workingSet : SetRow} {signature : Text} {h : t.find call.workspaceId signature = none} {row : ResultRow}
    (hok : insertResult H octets limits now t call workingSet signature h = .ok (t', row)) :
    row.workspaceId = call.workspaceId ∧ row.resultSignature = signature ∧ call.output.1.parts.all writable = true ∧
      row.output = call.output.1.normal.rebuild (fun n => n.literal.numeric) H.order ∧ row ∈ t'.rows := by
  unfold insertResult at hok
  obtain ⟨_, _, hok⟩ := bind_ok hok
  obtain ⟨_, hwritten, hok⟩ := bind_ok hok
  obtain ⟨settings, _, hok⟩ := bind_ok hok
  obtain ⟨output, houtput, hok⟩ := bind_ok hok
  dsimp only at hok
  split at hok
  · cases hok
  · split at hok
    · cases hok
    · cases hok
      exact ⟨rfl, rfl, (canonical_ok hwritten).1, toJsonb_ok houtput, List.mem_append_right _ List.mem_cons_self⟩

/-- What a call compares, when there is a row under its signature. -/
theorem saveResult_existing {octets : Json Numeric → Nat} {limits : Limits} {now : Int} {db : Db} {t : ResultTable}
    {call : SaveCall H.D} {workingSet : SetRow} {signature : Text} {existing : ResultRow}
    (hset : db.getWorkingSet call.workingSetId call.workspaceId = .ok workingSet)
    (hsignature : resultSignature H workingSet call.implementation call.implementationVersion call.settings.1 = .ok signature)
    (hfind : t.find call.workspaceId signature = some existing)
    (hbefore : (fromJsonb existing.output : Json (Number H.D)).parts.all writable = true)
    (hafter : call.output.1.parts.all writable = true) :
    saveResult H octets limits now db t call =
      if text (fromJsonb existing.output : Json (Number H.D)) ≠ text call.output.1 then .error .resultConflict
      else .ok (t, existing, true) := by
  unfold saveResult
  rw [ok_bind hset, ok_bind hsignature]
  split
  · next found hfound =>
    have hsame : found = existing := Option.some.inj (hfound.symm.trans hfind)
    subst hsame
    rw [ok_bind (canonical_eq hbefore), ok_bind (canonical_eq hafter)]
    rfl
  · next hnone => exact nomatch hnone.symm.trans hfind

end Returned

/-! ## Saving twice -/

/-- A result under the signature of a call is there. -/
def AlreadySaved (H : Host) (db : Db) (t : ResultTable) (call : SaveCall H.D) : Prop :=
  ∃ workingSet signature, db.getWorkingSet call.workingSetId call.workspaceId = .ok workingSet ∧
    resultSignature H workingSet call.implementation call.implementationVersion call.settings.1 = .ok signature ∧
    (t.find call.workspaceId signature).isSome = true

/-- A second call is replayed exactly if the result was there before the first, or the column keeps every number of the
output. -/
theorem saved_twice_iff {H : Host} (hD : H.D.Lawful) (horder : ∀ l, (H.order l).Perm l) {octets : Json Numeric → Nat}
    {limits limits' : Limits} {now now' : Int} {db db' : Db} {t t₁ t₂ : ResultTable} {call : SaveCall H.D} {row : ResultRow}
    {replayed : Bool} (hfirst : saveResult H octets limits now db t call = .ok (t₁, row, replayed))
    (hset : db'.getWorkingSet call.workingSetId call.workspaceId = db.getWorkingSet call.workingSetId call.workspaceId)
    (hretained : row ∈ t₂.rows) :
    saveResult H octets limits' now' db' t₂ call = .ok (t₂, row, true) ↔
      AlreadySaved H db t call ∨ ∀ n, .num n ∈ call.output.1.parts → n.Kept := by
  unfold saveResult at hfirst
  obtain ⟨workingSet, hworkingSet, hfirst⟩ := bind_ok hfirst
  obtain ⟨signature, hsignature, hfirst⟩ := bind_ok hfirst
  split at hfirst
  · -- The first call was replayed itself, and the second does the same.
    next existing hfind =>
    obtain ⟨before, hbefore, hfirst⟩ := bind_ok hfirst
    obtain ⟨after, hafter, hfirst⟩ := bind_ok hfirst
    split at hfirst
    · cases hfirst
    · next hsame =>
      cases hfirst
      have hkey := List.find?_some hfind
      simp only [Bool.and_eq_true, decide_eq_true_eq] at hkey
      have hfind' := ResultTable.find_of_mem hretained
      rw [hkey.1, hkey.2] at hfind'
      obtain ⟨hall, htext⟩ := canonical_ok hbefore
      obtain ⟨hall', htext'⟩ := canonical_ok hafter
      rw [saveResult_existing (hset.trans hworkingSet) hsignature hfind' hall hall', ← htext, ← htext', if_neg hsame]
      exact iff_of_true rfl (.inl ⟨workingSet, signature, hworkingSet, hsignature, by rw [hfind]; rfl⟩)
  · next hnone =>
    obtain ⟨⟨t', row'⟩, hinsert, hfirst⟩ := bind_ok hfirst
    cases hfirst
    obtain ⟨hworkspace, hsigned, hwritable, houtput, _⟩ := insertResult_ok hinsert
    have hfind := ResultTable.find_of_mem hretained
    rw [hworkspace, hsigned] at hfind
    have hback : (fromJsonb row.output : Json (Number H.D)).parts.all writable = true := by
      rw [houtput]
      exact fromJsonb_writable hD horder hwritable
    have hnew : ¬ AlreadySaved H db t call := by
      rintro ⟨workingSet', signature', hworkingSet', hsignature', hfound⟩
      cases hworkingSet.symm.trans hworkingSet'
      cases hsignature.symm.trans hsignature'
      rw [hnone] at hfound
      cases hfound
    rw [saveResult_existing (hset.trans hworkingSet) hsignature hfind hback hwritable, or_iff_right hnew, houtput,
      ← text_fromJsonb_iff hD horder call.output.2]
    split
    · next hne => exact iff_of_false (fun h => nomatch h) hne
    · next heq => exact iff_of_true rfl (not_not.mp heq)

theorem saveResult_mem {H : Host} {octets : Json Numeric → Nat} {limits : Limits} {now : Int} {db : Db} {t t' : ResultTable}
    {call : SaveCall H.D} {row : ResultRow} {replayed : Bool}
    (h : saveResult H octets limits now db t call = .ok (t', row, replayed)) : row ∈ t'.rows := by
  unfold saveResult at h
  obtain ⟨workingSet, _, h⟩ := bind_ok h
  obtain ⟨signature, _, h⟩ := bind_ok h
  split at h
  · next existing hfind =>
    obtain ⟨_, _, h⟩ := bind_ok h
    obtain ⟨_, _, h⟩ := bind_ok h
    split at h
    · cases h
    · cases h
      exact List.mem_of_find?_eq_some hfind
  · obtain ⟨⟨t₁, row₁⟩, hinsert, h⟩ := bind_ok h
    cases h
    exact (insertResult_ok hinsert).2.2.2.2

/-! ## Two outputs -/

def sampleDb : Db := ⟨[⟨0, "local".toList, "all".toList, .obj [], .obj [], "signature".toList, 0⟩], [], [], 1⟩

def noResults : ResultTable := ⟨[], 0, List.Pairwise.nil⟩

theorem distinct_number (x : Bool) :
    Json.Distinct (.obj [("x".toList, .num (.float x))] : Json (Number plainHost.D)) := by
  intro fields hfields
  obtain h | h := List.mem_cons.mp hfields
  · rw [Json.obj.inj h]
    exact List.nodup_singleton _
  · cases List.mem_singleton.mp h

/-- A result whose output is one number. -/
def numberCall (x : Bool) : SaveCall plainHost.D where
  workingSetId := 0
  workspaceId := "local".toList
  implementation := "engine".toList
  implementationVersion := "1".toList
  settings := ⟨.obj [], distinct_empty⟩
  output := ⟨.obj [("x".toList, .num (.float x))], distinct_number x⟩

def sampleLimits : Limits := ⟨1000, 1000⟩

/-- The flag of a first call, and whether a second raises `result_conflict`. -/
def savedTwice (x : Bool) : Option (Bool × Bool) :=
  match saveResult plainHost (fun _ => 10) sampleLimits 0 sampleDb noResults (numberCall x) with
  | .error _ => none
  | .ok (t, _, replayed) =>
    some (replayed, match saveResult plainHost (fun _ => 10) sampleLimits 1 sampleDb t (numberCall x) with
      | .error e => decide (e = .resultConflict)
      | .ok _ => false)

theorem half_saved_twice : ∃ (t : ResultTable) (row : ResultRow),
    saveResult plainHost (fun _ => 10) sampleLimits 0 sampleDb noResults (numberCall false) = .ok (t, row, false) ∧
      saveResult plainHost (fun _ => 10) sampleLimits 1 sampleDb t (numberCall false) = .ok (t, row, true) := by
  have hsaved : ((saveResult plainHost (fun _ => 10) sampleLimits 0 sampleDb noResults (numberCall false)).toOption.map
      fun r => r.2.2) = some false := by decide +kernel
  obtain ⟨⟨t, row, replayed⟩, hok, hreplayed⟩ := Option.map_eq_some_iff.mp hsaved
  cases hreplayed
  have hfirst := toOption_some hok
  refine ⟨t, row, hfirst, ?_⟩
  refine (saved_twice_iff twoFloats_lawful (fun _ => List.Perm.refl _) hfirst rfl (saveResult_mem hfirst)).mpr (.inr fun n hn => ?_)
  obtain h | h := List.mem_cons.mp hn
  · cases h
  · rw [Json.num.inj (List.mem_singleton.mp h)]
    refine ⟨fun hneg => Bool.false_ne_true hneg.1, ?_⟩
    show ((5 : Nat) : Rat) * (10 : Rat) ^ ((0 : Int) - decimalWidth 5) < 10 ^ 16
    rw [show decimalWidth 5 = 1 by decide]
    norm_num

theorem large_conflicts : ∃ (t : ResultTable) (row : ResultRow),
    saveResult plainHost (fun _ => 10) sampleLimits 0 sampleDb noResults (numberCall true) = .ok (t, row, false) ∧
      row ∈ t.rows ∧
      saveResult plainHost (fun _ => 10) sampleLimits 1 sampleDb t (numberCall true) = .error .resultConflict := by
  have hrun : savedTwice true = some (false, true) := by decide +kernel
  unfold savedTwice at hrun
  split at hrun
  · cases hrun
  · next t row replayed hfirst =>
    obtain ⟨hreplayed, hsecond⟩ := Prod.mk.inj (Option.some.inj hrun)
    subst hreplayed
    refine ⟨t, row, hfirst, saveResult_mem hfirst, ?_⟩
    split at hsecond
    · next e he => rw [he, of_decide_eq_true hsecond]
    · cases hsecond

end ChessCrawl.WorkingSets
