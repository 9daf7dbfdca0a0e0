import ChessCrawl.Lib.Numeral
import Mathlib.Tactic.NormNum

/-! `canonical` of `storage/working_sets.py`: the texts of Python's numbers, and what is left of a number that has been in
a `jsonb` column. -/
namespace ChessCrawl.WorkingSets
open ChessCrawl.Lib
set_option autoImplicit false

abbrev Text := List Char

/-! ## Numbers -/

/-- The finite doubles. The shortest decimal that reads back as a double has the given digits, with the point after
`point` of them. -/
structure Floats where
  F : Type
  negative : F → Bool
  digits : F → Nat
  point : F → Int
  /-- `float` of a decimal with this sign and size. -/
  read : Bool → Rat → F

namespace Floats
variable (D : Floats)

def magnitude (x : D.F) : Rat := D.digits x * (10 : Rat) ^ (D.point x - decimalWidth (D.digits x))

structure Lawful : Prop where
  shortest : ∀ x, D.read (D.negative x) (D.magnitude x) = x
  zero : ∀ x, D.digits x = 0 → D.point x = 1
  positive : D.negative (D.read false 0) = false
  short : ∀ x, D.digits x < 10 ^ 17
  bounded : ∀ x, D.point x ≤ 309

/-- `float.__repr__` -/
def repr (x : D.F) : Literal :=
  let ds := Nat.toDigits 10 (D.digits x)
  let p := D.point x
  if -4 < p ∧ p ≤ 16 then
    if p ≤ 0 then ⟨D.negative x, ['0'], List.replicate (-p).toNat '0' ++ ds, none⟩
    else if p < ds.length then ⟨D.negative x, ds.take p.toNat, ds.drop p.toNat, none⟩
    else ⟨D.negative x, ds ++ List.replicate (p - ds.length).toNat '0', ['0'], none⟩
  else ⟨D.negative x, ds.take 1, ds.drop 1, some (p - 1)⟩

end Floats

inductive Number (D : Floats) where
  | int (n : Int)
  | float (x : D.F)

namespace Number
variable {D : Floats}

def literal : Number D → Literal
  | .int n => ⟨decide (n < 0), Nat.toDigits 10 n.natAbs, [], none⟩
  | .float x => D.repr x

/-- `json.loads` of a number. -/
def load (l : Literal) : Number D :=
  if l.isWhole then .int (if l.negative then -l.coeff else l.coeff) else .float (D.read l.negative l.magnitude)

/-- A number after it has been in a `jsonb` column. -/
def stored (n : Number D) : Number D := load n.literal.numeric.literal

end Number

/-! ## Texts of numbers -/

section Texts
variable {D : Floats}

theorem repr_negative (x : D.F) : (D.repr x).negative = D.negative x := by
  unfold Floats.repr
  dsimp only
  split
  · split
    · rfl
    · split <;> rfl
  · rfl

theorem repr_wellFormed (x : D.F) : (D.repr x).WellFormed := by
  have hds : ∀ c ∈ Nat.toDigits 10 (D.digits x), c.isDigit = true := fun c hc => isDigit_toDigits hc
  have hzeros : ∀ n, ∀ c ∈ List.replicate n '0', c.isDigit = true := by
    intro n c hc
    rw [List.eq_of_mem_replicate hc]
    decide
  have hzero : ∀ c ∈ ['0'], c.isDigit = true := by simp
  have htake : ∀ n, 0 < n → (Nat.toDigits 10 (D.digits x)).take n ≠ [] := by
    intro n hn hnil
    rw [List.take_eq_nil_iff] at hnil
    obtain h | h := hnil
    · omega
    · exact Nat.toDigits_ne_nil h
  unfold Floats.repr
  dsimp only
  split
  · split
    · exact ⟨hzero, List.cons_ne_nil _ _, fun c hc => (List.mem_append.mp hc).elim (hzeros _ c) (hds c)⟩
    · split
      · exact ⟨fun c hc => hds c (List.mem_of_mem_take hc), htake _ (by omega), fun c hc => hds c (List.mem_of_mem_drop hc)⟩
      · exact ⟨fun c hc => (List.mem_append.mp hc).elim (hds c) (hzeros _ c),
          fun hnil => Nat.toDigits_ne_nil (List.append_eq_nil_iff.mp hnil).1, hzero⟩
  · exact ⟨fun c hc => hds c (List.mem_of_mem_take hc), htake 1 (by decide), fun c hc => hds c (List.mem_of_mem_drop hc)⟩

/-- The literal of a double says its digits, at their place. -/
theorem repr_value (x : D.F) : ∃ k : Nat, (D.repr x).coeff = D.digits x * 10 ^ k ∧
    (D.repr x).exp = D.point x - decimalWidth (D.digits x) - k ∧
    (k = 0 ∨ D.point x ≤ 16 ∧ (D.repr x).exp = -1) := by
  have hread : Nat.ofDigitChars 10 (Nat.toDigits 10 (D.digits x)) 0 = D.digits x := Nat.ofDigitChars_ten_toDigits
  have hwidth : (Nat.toDigits 10 (D.digits x)).length = decimalWidth (D.digits x) := rfl
  have hpos := decimalWidth_pos (D.digits x)
  unfold Floats.repr Literal.coeff Literal.exp
  dsimp only
  split
  · split
    · refine ⟨0, ?_, ?_, .inl rfl⟩
      · show Nat.ofDigitChars 10 ('0' :: (List.replicate _ '0' ++ _)) 0 = _
        rw [Nat.ofDigitChars_cons, Nat.ofDigitChars_append]
        show Nat.ofDigitChars 10 _ (Nat.ofDigitChars 10 (List.replicate _ '0') 0) = _
        rw [Nat.ofDigitChars_replicate_zero, Nat.mul_zero, hread, pow_zero, mul_one]
      · rw [List.length_append, List.length_replicate, hwidth]
        show (0 : Int) - _ = _
        push_cast
        omega
    · split
      · refine ⟨0, ?_, ?_, .inl rfl⟩
        · rw [List.take_append_drop, hread, pow_zero, mul_one]
        · rw [List.length_drop, hwidth]
          show (0 : Int) - _ = _
          omega
      · next hrange _ hlong =>
        rw [hwidth] at hlong
        refine ⟨(D.point x - decimalWidth (D.digits x)).toNat + 1, ?_, ?_, .inr ⟨hrange.2, rfl⟩⟩
        · rw [List.append_assoc, Nat.ofDigitChars_append, hread, ← List.replicate_succ', Nat.ofDigitChars_replicate_zero,
            hwidth, mul_comm]
        · show (0 : Int) - 1 = _
          push_cast
          omega
  · refine ⟨0, ?_, ?_, .inl rfl⟩
    · rw [List.take_append_drop, hread, pow_zero, mul_one]
    · rw [List.length_drop, hwidth]
      show D.point x - 1 - _ = _
      omega

theorem repr_magnitude (x : D.F) : (D.repr x).magnitude = D.magnitude x := by
  obtain ⟨k, hcoeff, hexp, _⟩ := repr_value x
  unfold Literal.magnitude Floats.magnitude
  rw [hcoeff, hexp]
  push_cast
  rw [mul_assoc, ← zpow_natCast, ← zpow_add₀ (by norm_num)]
  congr 2
  ring

theorem repr_isWhole (x : D.F) : (D.repr x).isWhole = false := by
  have hpos := decimalWidth_pos (D.digits x)
  have hwidth : (Nat.toDigits 10 (D.digits x)).length = decimalWidth (D.digits x) := rfl
  unfold Floats.repr Literal.isWhole
  dsimp only
  split
  · split
    · rw [List.isEmpty_eq_false_iff.mpr, Bool.false_and]
      exact fun hnil => Nat.toDigits_ne_nil (List.append_eq_nil_iff.mp hnil).2
    · split
      · rw [List.isEmpty_eq_false_iff.mpr, Bool.false_and]
        rw [Ne, List.drop_eq_nil_iff]
        omega
      · rfl
  · exact Bool.and_false _

theorem repr_exponent {x : D.F} (h : -4 < D.point x ∧ D.point x ≤ 16) : (D.repr x).exponent = none := by
  unfold Floats.repr
  dsimp only
  rw [if_pos h]
  split
  · rfl
  · split <;> rfl

/-- A double has no digit after the point exactly from `10 ^ 16` on. -/
theorem repr_exp (hD : D.Lawful) (x : D.F) : 0 ≤ (D.repr x).exp ↔ 16 < D.point x := by
  have hwidth : decimalWidth (D.digits x) ≤ 17 := (decimalWidth_le_iff (by decide)).mpr (hD.short x)
  have hpos := decimalWidth_pos (D.digits x)
  obtain ⟨k, _, hexp, hk⟩ := repr_value x
  constructor
  · intro h
    by_contra hle
    by_cases hlow : D.point x ≤ -4
    · omega
    · have hexponent := repr_exponent (x := x) ⟨by omega, by omega⟩
      have hwhole := repr_isWhole x
      unfold Literal.isWhole at hwhole
      rw [hexponent, Option.isNone_none, Bool.and_true, List.isEmpty_eq_false_iff] at hwhole
      have hlen := List.length_pos_iff.mpr hwhole
      unfold Literal.exp at h
      rw [hexponent, Option.getD_none] at h
      omega
  · intro h
    omega

end Texts

/-! ## Numbers after a round trip -/

namespace Number
variable {D : Floats}

theorem literal_wellFormed (n : Number D) : n.literal.WellFormed := by
  cases n with
  | int n => exact ⟨fun c hc => isDigit_toDigits hc, Nat.toDigits_ne_nil, fun _ hc => nomatch hc⟩
  | float x => exact repr_wellFormed x

theorem int_coeff (n : Int) : (literal (.int n : Number D)).coeff = n.natAbs := by
  unfold Literal.coeff literal
  rw [List.append_nil]
  exact Nat.ofDigitChars_ten_toDigits

theorem int_signed (n : Int) : (if decide (n < 0) then -(n.natAbs : Int) else n.natAbs) = n := by
  by_cases h : n < 0
  · rw [decide_eq_true h, if_pos rfl]
    omega
  · rw [decide_eq_false h, if_neg Bool.false_ne_true]
    omega

/-- What is written of a number is read as that number. -/
theorem load_literal (hD : D.Lawful) (n : Number D) : load n.literal = n := by
  cases n with
  | int n =>
    have hwhole : (literal (.int n : Number D)).isWhole = true := rfl
    unfold load
    rw [if_pos hwhole, int_coeff]
    exact congrArg Number.int (int_signed n)
  | float x =>
    unfold load
    rw [show (literal (.float x)).isWhole = false from repr_isWhole x, if_neg Bool.false_ne_true]
    show Number.float (D.read (D.repr x).negative (D.repr x).magnitude) = _
    rw [repr_negative, repr_magnitude, hD.shortest]

theorem literals (hD : D.Lawful) : Literals fun n : Number D => n.literal.print := by
  refine ⟨fun n => Literal.print_ne_nil n.literal_wellFormed, fun n => Literal.numeral_print n.literal_wellFormed, ?_⟩
  intro m n h
  have hliteral : m.literal = n.literal := Literal.print_unique m.literal_wellFormed n.literal_wellFormed h
  rw [← load_literal hD m, ← load_literal hD n, hliteral]

theorem stored_int (n : Int) : stored (.int n : Number D) = .int n := by
  have hexp : (literal (.int n : Number D)).exp = 0 := rfl
  have hwhole : (literal (.int n : Number D)).numeric.literal.isWhole = true :=
    (Literal.numeric_isWhole _).mpr hexp.ge
  have hcoeff : (literal (.int n : Number D)).numeric.literal.coeff = n.natAbs := by
    rw [Numeric.literal_coeff, Literal.numeric_natAbs, if_pos hexp.ge, hexp, int_coeff]
    exact Nat.mul_one _
  have hneg : (literal (.int n : Number D)).numeric.literal.negative = decide (n < 0) := by
    rw [Literal.numeric_negative, int_coeff]
    show (decide (n < 0) && decide (n.natAbs ≠ 0)) = _
    rw [Bool.eq_iff_iff, Bool.and_eq_true, decide_eq_true_iff, decide_eq_true_iff]
    omega
  unfold stored load
  rw [if_pos hwhole, hcoeff, hneg]
  exact congrArg Number.int (int_signed n)

theorem magnitude_eq_zero (x : D.F) : D.magnitude x = 0 ↔ D.digits x = 0 := by
  unfold Floats.magnitude
  rw [mul_eq_zero, or_iff_left (zpow_ne_zero _ (by norm_num)), Nat.cast_eq_zero]

theorem repr_coeff_eq_zero (x : D.F) : (D.repr x).coeff = 0 ↔ D.digits x = 0 := by
  obtain ⟨k, hcoeff, _⟩ := repr_value x
  rw [hcoeff, Nat.mul_eq_zero, or_iff_left (Nat.pow_pos (by decide)).ne']

/-- A double comes back exactly if it is neither the negative zero nor from `10 ^ 16` on. -/
theorem stored_float (hD : D.Lawful) (x : D.F) :
    stored (.float x) = .float x ↔ ¬ (D.negative x = true ∧ D.digits x = 0) ∧ D.point x ≤ 16 := by
  have hwhole : (D.repr x).numeric.literal.isWhole = true ↔ 16 < D.point x :=
    (Literal.numeric_isWhole _).trans (repr_exp hD x)
  have hmagnitude : (D.repr x).numeric.literal.magnitude = D.magnitude x :=
    (Literal.numeric_magnitude _).trans (repr_magnitude x)
  have hneg : (D.repr x).numeric.literal.negative = (D.negative x && decide (D.digits x ≠ 0)) := by
    rw [Literal.numeric_negative, repr_negative, decide_not, decide_not, decide_eq_decide.mpr (repr_coeff_eq_zero x)]
  unfold stored load
  rw [show (literal (.float x)) = D.repr x from rfl]
  by_cases hlarge : 16 < D.point x
  · rw [if_pos (hwhole.mpr hlarge)]
    refine iff_of_false (fun h => nomatch h) ?_
    omega
  · rw [if_neg (fun h => hlarge (hwhole.mp h)), hmagnitude, hneg]
    by_cases hzero : D.digits x = 0
    · have hread : D.magnitude x = 0 := (magnitude_eq_zero x).mpr hzero
      rw [decide_eq_false (not_not.mpr hzero), Bool.and_false]
      cases hsign : D.negative x with
      | false =>
        have hshort := hD.shortest x
        rw [hsign] at hshort
        rw [hshort]
        exact iff_of_true rfl ⟨fun h => Bool.false_ne_true h.1, by omega⟩
      | true =>
        refine iff_of_false (fun h => ?_) fun h => h.1 ⟨rfl, hzero⟩
        have hpositive := hD.positive
        rw [← hread, Number.float.inj h, hsign] at hpositive
        cases hpositive
    · rw [decide_eq_true hzero, Bool.and_true, hD.shortest]
      exact iff_of_true rfl ⟨fun h => hzero h.2, by omega⟩

theorem magnitude_lt (hD : D.Lawful) (x : D.F) : D.magnitude x < 10 ^ 16 ↔ D.point x ≤ 16 := by
  by_cases hzero : D.digits x = 0
  · have hpoint := hD.zero x hzero
    rw [(magnitude_eq_zero x).mpr hzero]
    exact iff_of_true (by norm_num) (by omega)
  · have hpos := decimalWidth_pos (D.digits x)
    have hlow : 10 ^ (decimalWidth (D.digits x) - 1) ≤ D.digits x := by
      by_contra hlt
      have hone : 0 < decimalWidth (D.digits x) - 1 := by
        by_contra h
        rw [Nat.eq_zero_of_not_pos h, pow_zero] at hlt
        omega
      have := (decimalWidth_le_iff hone).mpr (not_le.mp hlt)
      omega
    have hhigh := lt_pow_decimalWidth (D.digits x)
    unfold Floats.magnitude
    generalize decimalWidth (D.digits x) = w at *
    constructor
    · intro h
      by_contra hpoint
      have hlow' : (10 : Rat) ^ (w - 1) ≤ D.digits x := by exact_mod_cast hlow
      have hge : (10 : Rat) ^ (16 : Nat) ≤ D.digits x * (10 : Rat) ^ (D.point x - w) :=
        calc (10 : Rat) ^ (16 : Nat) = (10 : Rat) ^ ((16 : Nat) : Int) := (zpow_natCast _ _).symm
          _ ≤ (10 : Rat) ^ ((w - 1 : Nat) + (D.point x - w) : Int) := zpow_le_zpow_right₀ (by norm_num) (by omega)
          _ = (10 : Rat) ^ (w - 1) * (10 : Rat) ^ (D.point x - w) := by rw [zpow_add₀ (by norm_num), zpow_natCast]
          _ ≤ D.digits x * (10 : Rat) ^ (D.point x - w) := mul_le_mul_of_nonneg_right hlow' (zpow_nonneg (by norm_num) _)
      exact absurd h (not_lt.mpr hge)
    · intro hpoint
      have hhigh' : (D.digits x : Rat) < (10 : Rat) ^ w := by exact_mod_cast hhigh
      calc (D.digits x : Rat) * (10 : Rat) ^ (D.point x - w)
          < (10 : Rat) ^ w * (10 : Rat) ^ (D.point x - w) := mul_lt_mul_of_pos_right hhigh' (zpow_pos (by norm_num) _)
        _ = (10 : Rat) ^ (D.point x) := by rw [← zpow_natCast, ← zpow_add₀ (by norm_num)]; congr 1; ring
        _ ≤ (10 : Rat) ^ ((16 : Nat) : Int) := zpow_le_zpow_right₀ (by norm_num) hpoint
        _ = 10 ^ 16 := zpow_natCast _ _

/-- Numbers that a `jsonb` column keeps as they are. -/
def Kept : Number D → Prop
  | .int _ => True
  | .float x => ¬ (D.negative x = true ∧ D.magnitude x = 0) ∧ D.magnitude x < 10 ^ 16

theorem stored_eq_iff (hD : D.Lawful) (n : Number D) : n.stored = n ↔ n.Kept := by
  cases n with
  | int n => exact iff_of_true (stored_int n) trivial
  | float x =>
    show _ ↔ ¬ (D.negative x = true ∧ D.magnitude x = 0) ∧ D.magnitude x < 10 ^ 16
    rw [stored_float hD, magnitude_eq_zero, magnitude_lt hD]

end Number

/-! ## Values -/

inductive Refusal
  | valueError | invalidLimit | invalidWorkspace | untranslatableCharacter | idempotencyConflict | ambiguousPlayerAlias
  | workingSetTooLarge | workingSetNotFound | resultConflict | quotaExceeded
deriving DecidableEq, Repr

section Values
variable {D : Floats}

/-- `int.__repr__` refuses more than 4300 digits. -/
def writable : Json (Number D) → Bool
  | .num (.int n) => decide (n.natAbs < 10 ^ 4300)
  | _ => true

/-- The text of a value whose numbers can be written. -/
def text (v : Json (Number D)) : Text := Json.canonical (fun n => n.literal.print) v

/-- `canonical` -/
def canonical (v : Json (Number D)) : Except Refusal Text :=
  if v.parts.all writable then .ok (text v) else .error .valueError

/-- Texts without the character that PostgreSQL refuses. -/
def plain (t : Text) : Bool := !t.contains (Char.ofNat 0)

def storable : Json (Number D) → Bool
  | .str s => plain s
  | .obj fields => fields.all fun p => plain p.1
  | _ => true

/-- A canonical text in a `jsonb` column: exact numbers, and the fields of an object in the column's own order. -/
def toJsonb (order : List (Text × Json Numeric) → List (Text × Json Numeric)) (v : Json (Number D)) :
    Except Refusal (Json Numeric) :=
  if v.parts.all storable then .ok (v.normal.rebuild (fun n => n.literal.numeric) order)
  else .error .untranslatableCharacter

/-- `json.loads` of the text of a `jsonb` value. -/
def fromJsonb (v : Json Numeric) : Json (Number D) := v.rebuild (fun d => Number.load d.literal) id

theorem text_unique (hD : D.Lawful) {v w : Json (Number D)} {r s : Text} (hr : Stops r) (hs : Stops s)
    (h : text v ++ r = text w ++ s) : v.normal = w.normal ∧ r = s :=
  Json.print_unique (Number.literals hD) v.normal w.normal hr hs h

theorem text_eq_iff (hD : D.Lawful) {v w : Json (Number D)} : text v = text w ↔ v.normal = w.normal :=
  ⟨Json.canonical_injective (Number.literals hD), fun h => congrArg (Json.print _) h⟩

theorem canonical_ok {v : Json (Number D)} {t : Text} (h : canonical v = .ok t) : v.parts.all writable = true ∧ t = text v := by
  unfold canonical at h
  split at h
  · next hall =>
    cases h
    exact ⟨hall, rfl⟩
  · cases h

theorem toJsonb_ok {order : List (Text × Json Numeric) → List (Text × Json Numeric)} {v : Json (Number D)} {j : Json Numeric}
    (h : toJsonb order v = .ok j) : j = v.normal.rebuild (fun n => n.literal.numeric) order := by
  unfold toJsonb at h
  split at h
  · cases h
    rfl
  · cases h

/-- What is read back is the value with its numbers as the column gives them. -/
theorem normal_fromJsonb {order : List (Text × Json Numeric) → List (Text × Json Numeric)} (horder : ∀ l, (order l).Perm l)
    {v : Json (Number D)} (h : v.Distinct) :
    (fromJsonb (v.normal.rebuild (fun n => n.literal.numeric) order) : Json (Number D)).normal =
      v.rebuild Number.stored Json.sortFields := by
  have hnormal : v.normal.Distinct := Json.distinct_rebuild Json.sortFields_perm h
  have hcolumn := Json.distinct_rebuild (f := fun n : Number D => n.literal.numeric) horder hnormal
  unfold fromJsonb
  calc Json.normal _ = Json.rebuild (fun d => Number.load d.literal) Json.sortFields
          (v.normal.rebuild (fun n => n.literal.numeric) order) := Json.rebuild_rebuild (fun _ => List.Perm.refl _) hcolumn
    _ = Json.rebuild Number.stored Json.sortFields v.normal := Json.rebuild_rebuild horder hnormal
    _ = v.rebuild Number.stored Json.sortFields := Json.rebuild_rebuild Json.sortFields_perm h

/-- A value has the same text after a round trip exactly if the column keeps each of its numbers. -/
theorem text_fromJsonb_iff (hD : D.Lawful) {order : List (Text × Json Numeric) → List (Text × Json Numeric)}
    (horder : ∀ l, (order l).Perm l) {v : Json (Number D)} (h : v.Distinct) :
    text (fromJsonb (v.normal.rebuild (fun n => n.literal.numeric) order) : Json (Number D)) = text v ↔
      ∀ n, .num n ∈ v.parts → n.Kept := by
  rw [text_eq_iff hD, normal_fromJsonb horder h, Json.rebuild_eq_normal_iff h]
  exact forall_congr' fun n => imp_congr_right fun _ => Number.stored_eq_iff hD n

end Values

/-! ## Two doubles -/

/-- `0.5` and `1e16` -/
def twoFloats : Floats where
  F := Bool
  negative _ := false
  digits x := if x then 1 else 5
  point x := if x then 17 else 0
  read _ q := decide (q ≠ 1 / 2)

theorem twoFloats_lawful : twoFloats.Lawful := by
  have hone : decimalWidth 1 = 1 := by decide
  have hfive : decimalWidth 5 = 1 := by decide
  refine ⟨fun x => ?_, fun x h => ?_, rfl, fun x => ?_, fun x => ?_⟩
  · cases x with
    | false =>
      show decide ((((5 : Nat) : Rat) * (10 : Rat) ^ ((0 : Int) - decimalWidth 5)) ≠ 1 / 2) = false
      rw [hfive]
      norm_num
    | true =>
      show decide ((((1 : Nat) : Rat) * (10 : Rat) ^ ((17 : Int) - decimalWidth 1)) ≠ 1 / 2) = true
      rw [hone]
      norm_num
  · cases x <;> cases h
  · cases x
    · show 5 < 10 ^ 17
      decide
    · show 1 < 10 ^ 17
      decide
  · cases x <;> decide

end ChessCrawl.WorkingSets
