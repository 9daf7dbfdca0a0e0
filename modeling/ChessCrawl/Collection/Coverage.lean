import ChessCrawl.Collection.Store
import ChessCrawl.Lib.Latest
import ChessCrawl.Lib.Run
import Mathlib.Data.Prod.Lex
import Mathlib.Data.Int.Order.Basic
import Mathlib.Order.Bounds.Defs

/-! `record_coverage` on the whole `collection_coverage` table, with its constraints. Its one conditional update is two
registers: `history` keeps the widest complete window that is open below, every other unit keeps the call of the
latest clock. -/
namespace ChessCrawl.Collection.Coverage
open ChessCrawl.Lib
set_option autoImplicit false

/-- The arguments of `record_coverage`. -/
structure Call where
  provider : String
  username : String
  unit : String
  state : String
  rawPayloadId : Option Nat
  parserVersion : Option String
  error : Option String
  sinceMs : Option Int
  untilMs : Option Int
  isSealed : Bool
  now : Int
deriving DecidableEq, Repr

/-- The primary key. -/
structure Key where
  provider : String
  usernameNormalized : String
  unitKey : String
deriving DecidableEq, Repr

/-- The columns that an update takes from its call. -/
structure Facts where
  state : CoverageState
  parserVersion : Option String
  fetchedAt : Int
  error : Option String
  windowSinceMs : Option Int
  windowUntilMs : Option Int
  isSealed : Bool
deriving DecidableEq, Repr

structure Row where
  rawPayloadId : Option Nat
  facts : Facts
deriving DecidableEq, Repr

/-- `collection_coverage`, with the rows that its foreign keys name. -/
structure Table where
  providers : List String
  rawPayloads : List Nat
  rows : Key → Option Row

inductive Violation
  | check (column : String)
  | outOfRange (column : String)
  | foreignKey (column : String)
deriving DecidableEq, Repr

/-- `CHECK(state IN ('pending','complete','missing','error'))` -/
def stateOf : String → Option CoverageState
  | "pending" => some .pending
  | "complete" => some .complete
  | "missing" => some .missing
  | "error" => some .error
  | _ => none

def bigint (n : Int) : Bool := -2 ^ 63 ≤ n && n < 2 ^ 63

/-- The columns of a call, as the constraints of the table let them in. -/
def Call.facts (c : Call) : Except Violation Facts :=
  if !bigint c.now then .error (.outOfRange "fetched_at")
  else if c.sinceMs.any fun n => !bigint n then .error (.outOfRange "window_since_ms")
  else if c.untilMs.any fun n => !bigint n then .error (.outOfRange "window_until_ms")
  else match stateOf c.state with
    | none => .error (.check "state")
    | some state =>
      if c.sinceMs.any fun n => n < 0 then .error (.check "window_since_ms")
      else if c.untilMs.any fun n => n < 0 then .error (.check "window_until_ms")
      else if c.sinceMs.any fun since => c.untilMs.any fun stop => stop < since then .error (.check "window")
      else .ok ⟨state, c.parserVersion, c.now, c.error, c.sinceMs, c.untilMs, c.isSealed⟩

/-- A comparison of nullable columns is true only between values. -/
def holds (test : Int → Int → Bool) (a b : Option Int) : Bool := a.any fun x => b.any fun y => test x y

/-- The condition of the update. -/
def replaces (unitKey : String) (old new : Facts) : Bool :=
  if unitKey = "history" then
    new.state = .complete && new.windowSinceMs.isNone && new.windowUntilMs.isSome &&
      (old.state ≠ .complete || old.windowSinceMs.isSome || old.windowUntilMs.isNone ||
        holds (fun x y => y < x) new.windowUntilMs old.windowUntilMs ||
        (holds (fun x y => x = y) new.windowUntilMs old.windowUntilMs && old.fetchedAt ≤ new.fetchedAt))
  else old.fetchedAt ≤ new.fetchedAt

section Model
variable (lower : String → String)

def Call.key (c : Call) : Key := ⟨c.provider, lower c.username, c.unit⟩

def Table.put (t : Table) (key : Key) (row : Row) : Except Violation Table :=
  if !(key.provider ∈ t.providers) then .error (.foreignKey "provider")
  else if row.rawPayloadId.any fun id => !(id ∈ t.rawPayloads) then .error (.foreignKey "raw_payload_id")
  else .ok { t with rows := Function.update t.rows key (some row) }

/-- `record_coverage` -/
def Table.recordCoverage (t : Table) (c : Call) : Except Violation Table := do
  let facts ← c.facts
  match t.rows (c.key lower) with
  | none => t.put (c.key lower) ⟨c.rawPayloadId, facts⟩
  | some old =>
    if replaces c.unit old.facts facts then t.put (c.key lower) ⟨c.rawPayloadId.or old.rawPayloadId, facts⟩
    else .ok t

/-- A table with the calls that it accepted; a call that raises leaves both. -/
def recordAll (t : Table) (calls : List Call) : Table × List Call :=
  calls.foldl (fun x c => match x.1.recordCoverage lower c with
    | .ok t => (t, x.2 ++ [c])
    | .error _ => x) (t, [])

def Table.empty (providers : List String) (rawPayloads : List Nat) : Table := ⟨providers, rawPayloads, fun _ => none⟩

end Model

/-! ## One key -/

/-- A complete window that is open below and closed above. -/
def Facts.isOpen (f : Facts) : Bool := f.state = .complete && f.windowSinceMs.isNone && f.windowUntilMs.isSome

/-- The columns of a key after a call that names it. -/
def merge (unitKey : String) : Option Facts → Facts → Option Facts
  | none, new => some new
  | some old, new => if replaces unitKey old new then some new else some old

/-- The order of complete windows. -/
def Facts.reach (f : Facts) : Int ×ₗ Int := toLex (f.windowUntilMs.getD 0, f.fetchedAt)

theorem merge_other {unitKey : String} (h : unitKey ≠ "history") : merge unitKey = keepLatest Facts.fetchedAt := by
  funext old new
  cases old with
  | none => rfl
  | some old => simp [merge, keepLatest, replaces, h]

theorem Facts.isOpen_iff {f : Facts} : f.isOpen = true ↔
    f.state = .complete ∧ f.windowSinceMs = none ∧ ∃ stop, f.windowUntilMs = some stop := by
  simp [Facts.isOpen, Option.isSome_iff_exists, and_assoc]

/-- On open windows the condition of `history` compares their ends and then the clocks. -/
theorem replaces_history {old new : Facts} (hold : old.isOpen = true) (hnew : new.isOpen = true) :
    replaces "history" old new = decide (old.reach ≤ new.reach) := by
  obtain ⟨hos, hosince, ostop, hostop⟩ := Facts.isOpen_iff.mp hold
  obtain ⟨hns, hnsince, nstop, hnstop⟩ := Facts.isOpen_iff.mp hnew
  rw [Bool.eq_iff_iff, decide_eq_true_eq]
  unfold Facts.reach
  rw [Prod.Lex.toLex_le_toLex]
  simp only [replaces, holds, hos, hosince, hostop, hns, hnsince, hnstop, if_true, Option.isNone_none, Option.isSome_some,
    Option.any_some, Option.getD_some, decide_true, decide_false, Bool.true_and, Bool.false_or, Option.isSome_none,
    Option.isNone_some, ne_eq, not_true_eq_false, Bool.or_eq_true, Bool.and_eq_true, decide_eq_true_eq]
  constructor
  · rintro (hlt | ⟨heq, hle⟩)
    · exact .inl hlt
    · exact .inr ⟨heq.symm, hle⟩
  · rintro (hlt | ⟨heq, hle⟩)
    · exact .inl hlt
    · exact .inr ⟨heq.symm, hle⟩

theorem replaces_closed {old new : Facts} (hnew : new.isOpen = false) : replaces "history" old new = false := by
  simp only [Facts.isOpen] at hnew
  simp only [replaces, if_true, hnew, Bool.false_and]

theorem replaces_open {old new : Facts} (hold : old.isOpen = false) (hnew : new.isOpen = true) :
    replaces "history" old new = true := by
  obtain ⟨hns, hnsince, nstop, hnstop⟩ := Facts.isOpen_iff.mp hnew
  simp only [Facts.isOpen, Bool.and_eq_false_iff, decide_eq_false_iff_not] at hold
  rcases hold with (hold | hold) | hold
  · simp [replaces, hns, hnsince, hnstop, hold]
  · have hsome : old.windowSinceMs.isSome = true := by simpa using hold
    simp [replaces, hns, hnsince, hnstop, hsome]
  · have hnone : old.windowUntilMs.isNone = true := by simpa using hold
    simp [replaces, hns, hnsince, hnstop, hnone]

/-- The open row of `history` is a register of the open calls. -/
theorem merge_history (old : Option Facts) (new : Facts) : (merge "history" old new).filter Facts.isOpen =
    if new.isOpen then keepLatest Facts.reach (old.filter Facts.isOpen) new else old.filter Facts.isOpen := by
  cases old with
  | none => cases hnew : new.isOpen <;> simp [merge, keepLatest, hnew]
  | some old =>
    cases hnew : new.isOpen with
    | false => simp [merge, replaces_closed hnew]
    | true =>
      cases hold : old.isOpen with
      | false =>
        simp only [merge, replaces_open hold hnew, keepLatest, Option.filter_some, hold, hnew, if_true,
          Bool.false_eq_true, if_false]
      | true =>
        simp only [merge, replaces_history hold hnew, decide_eq_true_eq, keepLatest, Option.filter_some, hold, if_true]
        split
        · simp [hnew]
        · simp [hold]

theorem foldl_merge_history (calls : List Facts) : (calls.foldl (merge "history") none).filter Facts.isOpen =
    (calls.filter Facts.isOpen).foldl (keepLatest Facts.reach) none := by
  induction calls using List.reverseRecOn with
  | nil => rfl
  | append_singleton calls new ih =>
    rw [List.foldl_append, List.foldl_cons, List.foldl_nil, merge_history, ih, List.filter_append, List.foldl_append]
    cases hnew : new.isOpen <;> simp [hnew]

/-! ## Every sequence of calls -/

/-- The columns of a call, for a state that the table knows. -/
def Call.columns (c : Call) : Facts :=
  ⟨(stateOf c.state).getD .pending, c.parserVersion, c.now, c.error, c.sinceMs, c.untilMs, c.isSealed⟩

theorem Call.facts_ok {c : Call} {f : Facts} (h : c.facts = .ok f) : f = c.columns := by
  unfold Call.facts at h
  split at h
  · cases h
  split at h
  · cases h
  split at h
  · cases h
  split at h
  · cases h
  next state hstate =>
  split at h
  · cases h
  split at h
  · cases h
  split at h
  · cases h
  · cases h
    simp [Call.columns, hstate]

theorem Table.put_ok {t t' : Table} {key : Key} {row : Row} (h : t.put key row = .ok t') :
    t'.rows = Function.update t.rows key (some row) := by
  unfold Table.put at h
  split at h
  · cases h
  split at h
  · cases h
  · cases h
    rfl

section Calls
variable {lower : String → String} {t t' : Table}

/-- The columns that a key has. -/
def Table.facts (t : Table) (k : Key) : Option Facts := (t.rows k).map Row.facts

/-- An accepted call merges its columns into its key and touches no other. -/
theorem recordCoverage_facts {c : Call} (h : t.recordCoverage lower c = .ok t') (k : Key) :
    t'.facts k = if c.key lower = k then merge k.unitKey (t.facts k) c.columns else t.facts k := by
  obtain ⟨f, hf, h⟩ := bind_ok h
  rw [Call.facts_ok hf] at h
  split at h
  · next hrow =>
    unfold Table.facts
    rw [Table.put_ok h]
    split
    · next hk =>
      rw [← hk, hrow, Function.update_self]
      rfl
    · next hk => rw [Function.update_of_ne (Ne.symm hk)]
  · next old hrow =>
    split at h
    · next hrep =>
      unfold Table.facts
      rw [Table.put_ok h]
      split
      · next hk =>
        rw [← hk, hrow, Function.update_self]
        exact (if_pos hrep).symm
      · next hk => rw [Function.update_of_ne (Ne.symm hk)]
    · next hrep =>
      cases h
      split
      · next hk =>
        unfold Table.facts
        rw [← hk, hrow]
        exact (if_neg hrep).symm
      · rfl

/-- The calls of a key, in their order. -/
def callsOf (lower : String → String) (k : Key) (calls : List Call) : List Call :=
  calls.filter fun c => c.key lower = k

/-- The table holds the fold of the accepted calls. -/
def Reflects (lower : String → String) (x : Table × List Call) : Prop :=
  ∀ k, x.1.facts k = ((callsOf lower k x.2).map Call.columns).foldl (merge k.unitKey) none

theorem reflects_step {x : Table × List Call} (h : Reflects lower x) (c : Call) :
    Reflects lower (match x.1.recordCoverage lower c with
      | .ok t => (t, x.2 ++ [c])
      | .error _ => x) := by
  split
  · next t' hok =>
    intro k
    rw [recordCoverage_facts hok k, h k]
    unfold callsOf
    rw [List.filter_append, List.map_append, List.foldl_append]
    split
    · next hk => simp [hk]
    · next hk => simp [hk]
  · exact h

theorem recordAll_append (t : Table) (calls more : List Call) : recordAll lower t (calls ++ more) =
    more.foldl (fun x c => match x.1.recordCoverage lower c with
      | .ok t => (t, x.2 ++ [c])
      | .error _ => x) (recordAll lower t calls) := List.foldl_append

theorem recordAll_reflects (providers : List String) (rawPayloads : List Nat) (calls : List Call) :
    Reflects lower (recordAll lower (Table.empty providers rawPayloads) calls) := by
  induction calls using List.reverseRecOn with
  | nil => exact fun k => rfl
  | append_singleton calls c ih =>
    rw [recordAll_append]
    exact reflects_step ih c

/-- Accepted calls stay accepted. -/
theorem recordAll_log (lower : String → String) (t : Table) (calls more : List Call) :
    ∃ rest, (recordAll lower t (calls ++ more)).2 = (recordAll lower t calls).2 ++ rest := by
  induction more using List.reverseRecOn with
  | nil => exact ⟨[], by simp⟩
  | append_singleton more c ih =>
    obtain ⟨rest, ih⟩ := ih
    rw [← List.append_assoc, recordAll_append, List.foldl_cons, List.foldl_nil]
    split
    · exact ⟨rest ++ [c], by rw [ih, List.append_assoc]⟩
    · exact ⟨rest, ih⟩

/-- The calls that complete a window which is open below. -/
def Call.completes (c : Call) : Bool := c.columns.isOpen

end Calls

section Merge
variable (lower : String → String) (providers : List String) (rawPayloads : List Nat)

theorem IsLatest.of_map {xs : List Call} {f : Facts} (h : IsLatest Facts.fetchedAt (xs.map Call.columns) f) :
    ∃ c, c.columns = f ∧ IsLatest Call.now xs c := by
  obtain ⟨before, after, heq, hbefore, hafter⟩ := h.split
  obtain ⟨before', rest, rfl, rfl, hrest⟩ := List.map_eq_append_iff.mp heq
  obtain ⟨c, after', rfl, rfl, rfl⟩ := List.map_eq_cons_iff.mp hrest
  exact ⟨c, rfl, before', after', rfl, fun b hb => hbefore _ (List.mem_map_of_mem hb),
    fun a ha => hafter _ (List.mem_map_of_mem ha)⟩

/-- A unit other than `history`. -/
theorem other_latest {k : Key} (hk : k.unitKey ≠ "history") (calls : List Call) :
    let x := recordAll lower (Table.empty providers rawPayloads) calls
    (x.1.rows k = none → callsOf lower k x.2 = []) ∧ ∀ row, x.1.rows k = some row →
      ∃ c, c.columns = row.facts ∧ IsLatest Call.now (callsOf lower k x.2) c := by
  intro x
  have hreflects : x.1.facts k = _ := recordAll_reflects providers rawPayloads calls k
  rw [merge_other hk] at hreflects
  obtain ⟨hnone, hsome⟩ := foldl_keepLatest Facts.fetchedAt ((callsOf lower k x.2).map Call.columns)
  constructor
  · intro hrow
    refine List.map_eq_nil_iff.mp (hnone ?_)
    rw [← hreflects, Table.facts, hrow]
    rfl
  · intro row hrow
    refine IsLatest.of_map (hsome row.facts ?_)
    rw [← hreflects, Table.facts, hrow]
    rfl

/-- The `history` of an account. -/
theorem history_greatest {k : Key} (hk : k.unitKey = "history") (calls : List Call) :
    let x := recordAll lower (Table.empty providers rawPayloads) calls
    ((∃ row, x.1.rows k = some row ∧ row.facts.isOpen = true) ↔ ∃ c ∈ callsOf lower k x.2, c.completes = true) ∧
    ∀ row, x.1.rows k = some row → row.facts.isOpen = true → ∃ stop, row.facts.windowUntilMs = some stop ∧
      IsGreatest {u | ∃ c ∈ callsOf lower k x.2, c.completes = true ∧ c.untilMs = some u} stop := by
  intro x
  have hreflects : x.1.facts k = _ := recordAll_reflects providers rawPayloads calls k
  have hopen := foldl_merge_history ((callsOf lower k x.2).map Call.columns)
  rw [hk] at hreflects
  rw [← hreflects] at hopen
  obtain ⟨hnone, hsome⟩ := foldl_keepLatest Facts.reach
    (((callsOf lower k x.2).map Call.columns).filter Facts.isOpen)
  have hcalls : ∀ f, f ∈ ((callsOf lower k x.2).map Call.columns).filter Facts.isOpen ↔
      ∃ c ∈ callsOf lower k x.2, c.completes = true ∧ c.columns = f := by
    intro f
    rw [List.mem_filter, List.mem_map]
    constructor
    · rintro ⟨⟨c, hc, rfl⟩, hf⟩
      exact ⟨c, hc, hf, rfl⟩
    · rintro ⟨c, hc, hf, rfl⟩
      exact ⟨⟨c, hc, rfl⟩, hf⟩
  have hrow : ∀ row, x.1.rows k = some row → row.facts.isOpen = true →
      IsLatest Facts.reach (((callsOf lower k x.2).map Call.columns).filter Facts.isOpen) row.facts := by
    intro row hrow hfacts
    refine hsome row.facts ?_
    rw [← hopen, Table.facts, hrow, Option.map_some, Option.filter_some, if_pos hfacts]
  refine ⟨⟨?_, ?_⟩, ?_⟩
  · rintro ⟨row, hk, hfacts⟩
    obtain ⟨c, hc, hcomplete, _⟩ := (hcalls row.facts).mp (hrow row hk hfacts).mem
    exact ⟨c, hc, hcomplete⟩
  · rintro ⟨c, hc, hcomplete⟩
    have hmem := (hcalls c.columns).mpr ⟨c, hc, hcomplete, rfl⟩
    cases hfold : x.1.rows k with
    | none =>
      rw [Table.facts, hfold] at hopen
      rw [hnone hopen.symm] at hmem
      cases hmem
    | some row =>
      refine ⟨row, rfl, ?_⟩
      cases hfacts : row.facts.isOpen with
      | true => rfl
      | false =>
        rw [Table.facts, hfold, Option.map_some, Option.filter_some, hfacts] at hopen
        rw [hnone hopen.symm] at hmem
        cases hmem
  · intro row hk hfacts
    have hlatest := hrow row hk hfacts
    obtain ⟨_, _, stop, hstop⟩ := Facts.isOpen_iff.mp hfacts
    refine ⟨stop, hstop, ?_, ?_⟩
    · obtain ⟨c, hc, hcomplete, hcolumns⟩ := (hcalls row.facts).mp hlatest.mem
      exact ⟨c, hc, hcomplete, by rw [← hstop, ← hcolumns]; rfl⟩
    · rintro u ⟨c, hc, hcomplete, hu⟩
      have hle := hlatest.le c.columns ((hcalls c.columns).mpr ⟨c, hc, hcomplete, rfl⟩)
      have hends : c.columns.windowUntilMs = some u := hu
      unfold Facts.reach at hle
      rw [Prod.Lex.toLex_le_toLex, hends, hstop] at hle
      simp only [Option.getD_some] at hle
      omega

/-- The coverage upsert merges: whatever the calls, an open complete `history` stays one and ends at the greatest end of
the open completions that were made; every other unit shows the latest call of the greatest clock, and its clock never
goes back. -/
theorem coverage_upsert_merges (calls more : List Call) (k : Key) :
    let x := recordAll lower (Table.empty providers rawPayloads) calls
    let y := recordAll lower (Table.empty providers rawPayloads) (calls ++ more)
    (k.unitKey = "history" → ∀ row, x.1.rows k = some row → row.facts.isOpen = true →
      (∃ row', y.1.rows k = some row' ∧ row'.facts.isOpen = true) ∧
      ∃ stop, row.facts.windowUntilMs = some stop ∧
        IsGreatest {u | ∃ c ∈ callsOf lower k x.2, c.completes = true ∧ c.untilMs = some u} stop) ∧
    (k.unitKey = "history" → ∀ c ∈ callsOf lower k x.2, c.completes = true →
      ∃ row, x.1.rows k = some row ∧ row.facts.isOpen = true) ∧
    (k.unitKey ≠ "history" → (x.1.rows k = none → callsOf lower k x.2 = []) ∧ ∀ row, x.1.rows k = some row →
      (∃ c, c.columns = row.facts ∧ IsLatest Call.now (callsOf lower k x.2) c) ∧
      ∃ row', y.1.rows k = some row' ∧ row.facts.fetchedAt ≤ row'.facts.fetchedAt) := by
  intro x y
  obtain ⟨rest, hlog⟩ := recordAll_log lower (Table.empty providers rawPayloads) calls more
  have hgrows : ∀ c ∈ callsOf lower k x.2, c ∈ callsOf lower k y.2 := by
    intro c hc
    unfold callsOf at hc ⊢
    rw [hlog, List.filter_append]
    exact List.mem_append_left _ hc
  refine ⟨fun hk row hrow hfacts => ?_, fun hk c hc hcomplete => ?_, fun hk => ?_⟩
  · have hx := history_greatest lower providers rawPayloads hk calls
    have hy := history_greatest lower providers rawPayloads hk
      (calls ++ more)
    obtain ⟨c, hc, hcomplete⟩ := hx.1.mp ⟨row, hrow, hfacts⟩
    exact ⟨hy.1.mpr ⟨c, hgrows c hc, hcomplete⟩, hx.2 row hrow hfacts⟩
  · have hx := history_greatest lower providers rawPayloads hk calls
    exact hx.1.mpr ⟨c, hc, hcomplete⟩
  · obtain ⟨hnone, hsome⟩ := other_latest lower providers rawPayloads hk calls
    obtain ⟨hnone', hsome'⟩ := other_latest lower providers rawPayloads hk
      (calls ++ more)
    refine ⟨hnone, fun row hrow => ⟨hsome row hrow, ?_⟩⟩
    obtain ⟨c, hc, hlatest⟩ := hsome row hrow
    have hmem := hgrows c hlatest.mem
    cases hy : y.1.rows k with
    | none =>
      rw [hnone' hy] at hmem
      cases hmem
    | some row' =>
      obtain ⟨c', hc', hlatest'⟩ := hsome' row' hy
      refine ⟨row', rfl, ?_⟩
      rw [← hc, ← hc']
      exact hlatest'.le c hmem

end Merge

/-- Three completions of one history: the second ends earlier, the third has the older clock. -/
def delayedCompletions : List Call :=
  [⟨"lichess", "samename", "history", "complete", none, none, none, none, some 200999, false, 200⟩,
    ⟨"lichess", "samename", "history", "complete", none, none, none, none, some 200111, false, 200⟩,
    ⟨"lichess", "samename", "history", "complete", none, none, none, none, some 300000, false, 199⟩]

theorem coverage_upsert_merges_delayed :
    let x := recordAll id (Table.empty ["lichess"] []) delayedCompletions
    ∃ row, x.1.rows ⟨"lichess", "samename", "history"⟩ = some row ∧ row.facts.windowUntilMs = some 300000 ∧
      IsGreatest {u | ∃ c ∈ callsOf id ⟨"lichess", "samename", "history"⟩ x.2, c.completes = true ∧ c.untilMs = some u}
        300000 := by
  intro x
  have hrow : x.1.rows ⟨"lichess", "samename", "history"⟩ =
      some ⟨none, ⟨.complete, none, 199, none, none, some 300000, false⟩⟩ := by decide +kernel
  have hall := coverage_upsert_merges id ["lichess"] [] delayedCompletions [] ⟨"lichess", "samename", "history"⟩
  obtain ⟨_, stop, hstop, hgreatest⟩ := hall.1 rfl _ hrow rfl
  cases hstop
  exact ⟨_, hrow, rfl, hgreatest⟩

/-! ## The collection of one account -/

/-- The columns of a row of the collection model. -/
def rowColumns (row : CoverageRow) : Facts :=
  ⟨row.state, none, row.fetchedAt, row.error, row.windowSince, row.windowUntil, row.isSealed⟩

theorem replaces_agrees {name : UnitKey → String} (hname : ∀ unit, name unit = "history" ↔ unit = .history)
    (unit : UnitKey) (old new : CoverageRow) :
    Db.replaces unit old new = replaces (name unit) (rowColumns old) (rowColumns new) := by
  unfold replaces
  split
  · next hk =>
    rw [(hname unit).mp hk]
    simp only [Db.replaces, Db.historyAdvances]
    split
    · next stop hstate hsince hstop =>
      simp only [rowColumns, hstate, hsince, hstop, Option.isNone_none, Option.isSome_some, decide_true, Bool.true_and]
      split
      · next hold =>
        cases hend : old.windowUntil <;> simp [holds, hold.1, hold.2]
      · next hold =>
        rw [not_and_or] at hold
        rcases hold with hold | hold
        · simp [hold]
        · simp [Option.isSome_iff_ne_none, hold]
    · next hother =>
      cases hopen : (rowColumns new).isOpen with
      | false =>
        unfold Facts.isOpen at hopen
        rw [hopen, Bool.false_and]
      | true =>
        obtain ⟨hstate, hsince, stop, hstop⟩ := Facts.isOpen_iff.mp hopen
        exact (hother stop hstate hsince hstop).elim
  · next hk =>
    cases unit with
    | history => exact (hk ((hname .history).mpr rfl)).elim
    | _ => rfl

/-- The collection of an account merges its coverage by the same condition. -/
theorem collection_merges (db : Db) (name : UnitKey → String) (hname : ∀ unit, name unit = "history" ↔ unit = .history)
    (unit : UnitKey) (new : CoverageRow) : ((db.recordCoverage unit new).coverage unit).map rowColumns =
      merge (name unit) ((db.coverage unit).map rowColumns) (rowColumns new) := by
  unfold Db.recordCoverage
  split
  · next hrow => simp [hrow, merge]
  · next old hrow =>
    rw [replaces_agrees hname, hrow]
    simp only [merge, Option.map_some]
    split
    · simp [rowColumns]
    · rw [hrow, Option.map_some]

end ChessCrawl.Collection.Coverage
