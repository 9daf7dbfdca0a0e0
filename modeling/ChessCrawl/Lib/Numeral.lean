import ChessCrawl.Lib.Decimal
import ChessCrawl.Lib.Json

/-! Decimal literals with a fraction and an exponent, what they say, and the exact numbers with a scale that a store makes
of them and writes without an exponent. -/
namespace ChessCrawl.Lib
set_option autoImplicit false

/-! ## Literals -/

/-- An empty fraction is none. -/
structure Literal where
  negative : Bool
  whole : List Char
  fraction : List Char
  exponent : Option Int
deriving DecidableEq, Repr

namespace Literal

/-- The sign and at least two digits. -/
def printExponent : Option Int → List Char
  | none => []
  | some e =>
    'e' :: (if e < 0 then '-' else '+') :: (if e.natAbs < 10 then '0' :: Nat.toDigits 10 e.natAbs else Nat.toDigits 10 e.natAbs)

def printFraction (fraction : List Char) : List Char := if fraction = [] then [] else '.' :: fraction

def print (l : Literal) : List Char :=
  (if l.negative then ['-'] else []) ++ (l.whole ++ (printFraction l.fraction ++ printExponent l.exponent))

structure WellFormed (l : Literal) : Prop where
  whole : ∀ c ∈ l.whole, c.isDigit = true
  ne_nil : l.whole ≠ []
  fraction : ∀ c ∈ l.fraction, c.isDigit = true

/-- The digits as a number. -/
def coeff (l : Literal) : Nat := Nat.ofDigitChars 10 (l.whole ++ l.fraction) 0

/-- The power of ten of the last digit. -/
def exp (l : Literal) : Int := l.exponent.getD 0 - l.fraction.length

def magnitude (l : Literal) : Rat := l.coeff * (10 : Rat) ^ l.exp

/-- Neither fraction nor exponent. -/
def isWhole (l : Literal) : Bool := l.fraction.isEmpty && l.exponent.isNone

end Literal

/-! ## Printing -/

theorem isDigit_toDigits {n : Nat} {c : Char} (h : c ∈ Nat.toDigits 10 n) : c.isDigit = true :=
  Nat.isDigit_of_mem_toDigits (by decide) (by decide) h

theorem toDigits_injective {m n : Nat} (h : Nat.toDigits 10 m = Nat.toDigits 10 n) : m = n := by
  have hread := congrArg (fun ds => Nat.ofDigitChars 10 ds 0) h
  simpa only [Nat.ofDigitChars_ten_toDigits] using hread

/-- Two texts that begin with digits and go on without one. -/
theorem digits_unique {ds es r s : List Char} (hds : ∀ c ∈ ds, c.isDigit = true) (hes : ∀ c ∈ es, c.isDigit = true)
    (hr : ∀ c, r.head? = some c → c.isDigit = false) (hs : ∀ c, s.head? = some c → c.isDigit = false)
    (h : ds ++ r = es ++ s) : ds = es ∧ r = s := by
  have htake : ∀ (l t : List Char), (∀ c ∈ l, c.isDigit = true) → (∀ c, t.head? = some c → c.isDigit = false) →
      (l ++ t).takeWhile Char.isDigit = l := by
    intro l t hl ht
    rw [List.takeWhile_append_of_pos hl]
    cases t with
    | nil => exact List.append_nil _
    | cons c t => rw [List.takeWhile_cons_of_neg (by rw [ht c rfl]; decide), List.append_nil]
  have hdigits := congrArg (List.takeWhile Char.isDigit) h
  rw [htake ds r hds hr, htake es s hes hs] at hdigits
  subst hdigits
  exact ⟨rfl, List.append_cancel_left h⟩

namespace Literal

theorem printExponent_head (e : Option Int) : ∀ c, (printExponent e).head? = some c → c = 'e' := by
  cases e with
  | none => exact fun c hc => nomatch hc
  | some e =>
    intro c hc
    exact (Option.some.inj hc).symm

theorem printExponent_injective : Function.Injective printExponent := by
  have hread : ∀ e : Int, Nat.ofDigitChars 10
      (if e.natAbs < 10 then '0' :: Nat.toDigits 10 e.natAbs else Nat.toDigits 10 e.natAbs) 0 = e.natAbs := by
    intro e
    split
    · rw [Nat.ofDigitChars_cons]
      exact Nat.ofDigitChars_ten_toDigits
    · exact Nat.ofDigitChars_ten_toDigits
  intro e e' h
  cases e with
  | none =>
    cases e' with
    | none => rfl
    | some e' => cases h
  | some e =>
    cases e' with
    | none => cases h
    | some e' =>
      obtain ⟨hsign, hdigits⟩ := List.cons.inj (List.cons.inj h).2
      have habs : e.natAbs = e'.natAbs := by rw [← hread e, ← hread e', hdigits]
      have hneg : e < 0 ↔ e' < 0 := by
        by_cases he : e < 0 <;> by_cases he' : e' < 0 <;> simp [he, he'] at hsign ⊢
      rw [show e = e' by omega]

theorem fraction_head (l : Literal) :
    ∀ c, (printFraction l.fraction ++ printExponent l.exponent).head? = some c → c.isDigit = false := by
  intro c hc
  unfold printFraction at hc
  split at hc
  · rw [printExponent_head _ c hc]
    decide
  · rw [← Option.some.inj hc]
    decide

theorem tail_unique {l m : Literal} (hl : l.WellFormed) (hm : m.WellFormed)
    (h : printFraction l.fraction ++ printExponent l.exponent = printFraction m.fraction ++ printExponent m.exponent) :
    l.fraction = m.fraction ∧ l.exponent = m.exponent := by
  have hdigit : ∀ (e : Option Int) (c : Char), (printExponent e).head? = some c → c.isDigit = false := by
    intro e c hc
    rw [printExponent_head e c hc]
    decide
  have hpoint : ∀ (fraction : List Char) (e : Option Int), printExponent e ≠ '.' :: fraction := by
    intro fraction e he
    exact absurd (printExponent_head e '.' (by rw [he]; rfl)) (by decide)
  unfold printFraction at h
  split at h
  · next hl0 =>
    split at h
    · next hm0 => exact ⟨hl0.trans hm0.symm, printExponent_injective h⟩
    · exact absurd h (hpoint _ _)
  · split at h
    · exact absurd h.symm (hpoint _ _)
    · obtain ⟨hfraction, hexponent⟩ := digits_unique hl.fraction hm.fraction (hdigit _) (hdigit _) (List.cons.inj h).2
      exact ⟨hfraction, printExponent_injective hexponent⟩

theorem print_unique {l m : Literal} (hl : l.WellFormed) (hm : m.WellFormed) (h : l.print = m.print) : l = m := by
  have hminus : ∀ (k : Literal) (r s : List Char), k.WellFormed → k.whole ++ r ≠ '-' :: s := by
    intro k r s hk hkr
    obtain ⟨c, t, hct⟩ := List.exists_cons_of_ne_nil hk.ne_nil
    have hc := hk.whole c (by rw [hct]; exact List.mem_cons_self)
    rw [hct] at hkr
    rw [(List.cons.inj hkr).1] at hc
    exact absurd hc (by decide)
  have hneg : l.negative = m.negative := by
    unfold print at h
    cases hl' : l.negative <;> cases hm' : m.negative <;> rw [hl', hm'] at h
    · exact absurd h (hminus l _ _ hl)
    · exact absurd h.symm (hminus m _ _ hm)
  unfold print at h
  rw [hneg] at h
  obtain ⟨hwhole, htail⟩ := digits_unique hl.whole hm.whole (fraction_head l) (fraction_head m) (List.append_cancel_left h)
  obtain ⟨hfraction, hexponent⟩ := tail_unique hl hm htail
  cases l
  cases m
  simp_all only

end Literal

namespace Literal

theorem print_ne_nil {l : Literal} (h : l.WellFormed) : l.print ≠ [] := by
  intro hnil
  unfold print at hnil
  rw [List.append_eq_nil_iff, List.append_eq_nil_iff] at hnil
  exact h.ne_nil hnil.2.1

theorem numeral_print {l : Literal} (h : l.WellFormed) : ∀ c ∈ l.print, numeral c = true := by
  have hdigit : ∀ c : Char, c.isDigit = true → numeral c = true := by
    intro c hc
    unfold numeral
    rw [hc, Bool.true_or]
  have hfraction : ∀ c ∈ printFraction l.fraction, numeral c = true := by
    intro c hc
    unfold printFraction at hc
    split at hc
    · cases hc
    · obtain rfl | hc := List.mem_cons.mp hc
      · decide
      · exact hdigit c (h.fraction c hc)
  have hexponent : ∀ c ∈ printExponent l.exponent, numeral c = true := by
    intro c hc
    cases he : l.exponent with
    | none =>
      rw [he] at hc
      cases hc
    | some e =>
      rw [he] at hc
      unfold printExponent at hc
      obtain rfl | hc := List.mem_cons.mp hc
      · decide
      obtain rfl | hc := List.mem_cons.mp hc
      · split <;> decide
      split at hc
      · obtain rfl | hc := List.mem_cons.mp hc
        · decide
        · exact hdigit c (isDigit_toDigits hc)
      · exact hdigit c (isDigit_toDigits hc)
  intro c hc
  unfold print at hc
  rw [List.mem_append, List.mem_append, List.mem_append] at hc
  obtain hc | hc | hc | hc := hc
  · split at hc
    · rw [List.mem_singleton.mp hc]
      decide
    · cases hc
  · exact hdigit c (h.whole c hc)
  · exact hfraction c hc
  · exact hexponent c hc

end Literal

/-! ## Exact numbers with a scale -/

/-- `coeff / 10 ^ scale`, written with `scale` digits after the point. -/
structure Numeric where
  coeff : Int
  scale : Nat
deriving DecidableEq, Repr

/-- The number that a literal says; a positive exponent leaves no fraction, and there is no negative zero. -/
def Literal.numeric (l : Literal) : Numeric :=
  let n : Int := if l.negative then -l.coeff else l.coeff
  if 0 ≤ l.exp then ⟨n * 10 ^ l.exp.toNat, 0⟩ else ⟨n, (-l.exp).toNat⟩

/-- At least so many digits. -/
def padDigits (width : Nat) (ds : List Char) : List Char := List.replicate (width - ds.length) '0' ++ ds

/-- A number without an exponent. -/
def Numeric.literal (d : Numeric) : Literal :=
  let ds := padDigits (d.scale + 1) (Nat.toDigits 10 d.coeff.natAbs)
  ⟨decide (d.coeff < 0), ds.take (ds.length - d.scale), ds.drop (ds.length - d.scale), none⟩

theorem padDigits_length {width : Nat} {ds : List Char} : (padDigits width ds).length = max width ds.length := by
  unfold padDigits
  rw [List.length_append, List.length_replicate]
  omega

namespace Numeric
variable (d : Numeric)

theorem literal_coeff : d.literal.coeff = d.coeff.natAbs := by
  unfold Literal.coeff literal
  dsimp only
  rw [List.take_append_drop]
  unfold padDigits
  rw [Nat.ofDigitChars_append, Nat.ofDigitChars_replicate_zero, Nat.mul_zero]
  exact Nat.ofDigitChars_ten_toDigits

theorem literal_fraction_length : d.literal.fraction.length = d.scale := by
  unfold literal
  dsimp only
  rw [List.length_drop, padDigits_length]
  omega

theorem literal_exp : d.literal.exp = -d.scale := by
  unfold Literal.exp
  rw [literal_fraction_length]
  show (0 : Int) - d.scale = _
  omega

theorem literal_magnitude : d.literal.magnitude = (d.coeff.natAbs : Rat) * 10 ^ (-d.scale : Int) := by
  unfold Literal.magnitude
  rw [literal_coeff, literal_exp]

theorem literal_isWhole : d.literal.isWhole = true ↔ d.scale = 0 := by
  unfold Literal.isWhole
  rw [Bool.and_eq_true, List.isEmpty_iff, ← List.length_eq_zero_iff, literal_fraction_length]
  exact and_iff_left rfl

end Numeric

namespace Literal
variable (l : Literal)

theorem numeric_natAbs : l.numeric.coeff.natAbs = if 0 ≤ l.exp then l.coeff * 10 ^ l.exp.toNat else l.coeff := by
  have hsign : ∀ n : Int, (if l.negative then -(l.coeff : Int) else l.coeff) = n → n.natAbs = l.coeff := by
    rintro n rfl
    split <;> omega
  unfold numeric
  dsimp only
  split
  · rw [Int.natAbs_mul, hsign _ rfl, Int.natAbs_pow]
    rfl
  · exact hsign _ rfl

theorem numeric_scale : l.numeric.scale = (-l.exp).toNat := by
  unfold numeric
  dsimp only
  split
  · show 0 = _
    omega
  · rfl

/-- What is written of the number is the number. -/
theorem numeric_magnitude : l.numeric.literal.magnitude = l.magnitude := by
  rw [Numeric.literal_magnitude, numeric_natAbs, numeric_scale]
  unfold magnitude
  split
  · next h =>
    rw [show (-((-l.exp).toNat : Int)) = 0 by omega, zpow_zero, mul_one]
    push_cast
    rw [← zpow_natCast, Int.toNat_of_nonneg h]
  · next h => rw [show (-((-l.exp).toNat : Int)) = l.exp by omega]

theorem numeric_negative : l.numeric.literal.negative = (l.negative && decide (l.coeff ≠ 0)) := by
  have hlit : l.numeric.literal.negative = decide (l.numeric.coeff < 0) := rfl
  have hpow : (0 : Int) < 10 ^ l.exp.toNat := pow_pos (by decide) _
  have hcoeff : l.numeric.coeff < 0 ↔ (if l.negative then -(l.coeff : Int) else l.coeff) < 0 := by
    unfold numeric
    dsimp only
    split
    · refine ⟨fun h => ?_, fun h => Int.mul_neg_of_neg_of_pos h hpow⟩
      exact Int.not_le.mp fun hle => absurd h (Int.not_lt.mpr (Int.mul_nonneg hle hpow.le))
    · exact Iff.rfl
  rw [hlit, Bool.eq_iff_iff, decide_eq_true_iff, hcoeff, Bool.and_eq_true, decide_eq_true_iff]
  cases l.negative with
  | false => simp
  | true =>
    simp only [if_true, true_and]
    omega

theorem numeric_isWhole : l.numeric.literal.isWhole = true ↔ 0 ≤ l.exp := by
  rw [Numeric.literal_isWhole, numeric_scale]
  omega

end Literal
end ChessCrawl.Lib
