import Mathlib.Algebra.Order.Field.Power
import Mathlib.Data.List.Induction
import Mathlib.Data.Rat.Cast.Order
import Mathlib.Tactic.FieldSimp
import Mathlib.Tactic.Ring

/-! Decimal arithmetic under a context: an operation computes its exact result and fits it into the context's precision
and exponents. Results that fit are exact; those past the largest exponent overflow. -/
namespace ChessCrawl.Lib
set_option autoImplicit false

/-! ## Numbers -/

/-- The finite number `coeff * 10 ^ exp`. -/
structure Dec where
  coeff : Int
  exp : Int
deriving DecidableEq, Repr

/-- The number of decimal digits of a natural number; zero has one. -/
def decimalWidth (n : Nat) : Nat := (Nat.toDigits 10 n).length

namespace Dec

def value (d : Dec) : Rat := d.coeff * (10 : Rat) ^ d.exp

def width (d : Dec) : Nat := decimalWidth d.coeff.natAbs

/-- The exponent of the leading digit. -/
def adjusted (d : Dec) : Int := d.exp + d.width - 1

end Dec

/-! ## Contexts -/

structure DecContext where
  prec : Nat
  emin : Int
  emax : Int

def DecContext.etiny (c : DecContext) : Int := c.emin - c.prec + 1

/-- The signals that a context traps. -/
inductive DecSignal
  | overflow
  | divisionByZero
  | invalidOperation
deriving DecidableEq, Repr

/-- `n / 10 ^ k`, rounded to the nearest, a half to the even neighbour. -/
def halfEven (n k : Nat) : Nat :=
  let q := n / 10 ^ k
  let r := n % 10 ^ k
  if 10 ^ k < 2 * r ∨ 2 * r = 10 ^ k ∧ q % 2 = 1 then q + 1 else q

namespace Dec
variable (c : DecContext)

/-- Fit an exact result into the context. -/
def fix (d : Dec) : Except DecSignal Dec :=
  if d.coeff = 0 then .ok ⟨0, min (max d.exp c.etiny) c.emax⟩
  else if c.emax < d.adjusted then .error .overflow
  else
    let low := max (d.adjusted - c.prec + 1) c.etiny
    if low ≤ d.exp then .ok d
    else
      let rounded : Dec := ⟨d.coeff.sign * halfEven d.coeff.natAbs (low - d.exp).toNat, low⟩
      -- a carry may have lengthened the coefficient
      let rounded : Dec := if c.prec < rounded.width then ⟨rounded.coeff / 10, rounded.exp + 1⟩ else rounded
      if c.emax < rounded.adjusted then .error .overflow else .ok rounded

def mul (a b : Dec) : Except DecSignal Dec := fix c ⟨a.coeff * b.coeff, a.exp + b.exp⟩

def add (a b : Dec) : Except DecSignal Dec :=
  let low := min a.exp b.exp
  fix c ⟨a.coeff * 10 ^ (a.exp - low).toNat + b.coeff * 10 ^ (b.exp - low).toNat, low⟩

def scaleb (a : Dec) (n : Int) : Except DecSignal Dec :=
  if n.natAbs ≤ 2 * (c.emax + c.prec) then fix c ⟨a.coeff, a.exp + n⟩ else .error .invalidOperation

/-- Drop at most `k` trailing zeros of a coefficient. -/
def dropZeros : Nat → Nat → Int → Dec
  | 0, q, e => ⟨q, e⟩
  | k + 1, q, e => if q % 10 = 0 then dropZeros k (q / 10) (e + 1) else ⟨q, e⟩

/-- Division with enough digits for the rounding, an exact quotient as near to the ideal exponent as it can be. -/
def div (a b : Dec) : Except DecSignal Dec :=
  if b.coeff = 0 then .error .divisionByZero
  else if a.coeff = 0 then fix c ⟨0, a.exp - b.exp⟩
  else
    let shift : Int := b.width - a.width + c.prec + 1
    let n := a.coeff.natAbs * 10 ^ shift.toNat
    let m := b.coeff.natAbs * 10 ^ (-shift).toNat
    let exponent := a.exp - b.exp - shift
    let quotient : Dec :=
      if n % m = 0 then dropZeros shift.toNat (n / m) exponent
      else ⟨if n / m % 5 = 0 then (n / m + 1 : Nat) else (n / m : Nat), exponent⟩
    fix c ⟨a.coeff.sign * b.coeff.sign * quotient.coeff, quotient.exp⟩

end Dec

/-! ## Widths -/

theorem decimalWidth_le_iff {n k : Nat} (hk : 0 < k) : decimalWidth n ≤ k ↔ n < 10 ^ k :=
  Nat.length_toDigits_le_iff (by decide) hk

theorem decimalWidth_pos (n : Nat) : 0 < decimalWidth n := Nat.length_toDigits_pos

theorem lt_pow_decimalWidth (n : Nat) : n < 10 ^ decimalWidth n :=
  (decimalWidth_le_iff (decimalWidth_pos n)).mp (Nat.le_refl _)

theorem decimalWidth_mono {m n : Nat} (h : m ≤ n) : decimalWidth m ≤ decimalWidth n :=
  (decimalWidth_le_iff (decimalWidth_pos n)).mpr (Nat.lt_of_le_of_lt h (lt_pow_decimalWidth n))

/-- The value of a digit string needs no more digits than the string has. -/
theorem ofDigitChars_lt (ds : List Char) (hds : ∀ d ∈ ds, d.isDigit = true) :
    Nat.ofDigitChars 10 ds 0 < 10 ^ ds.length := by
  induction ds using List.reverseRecOn with
  | nil => simp
  | append_singleton ds d ih =>
    have hd := hds d (by simp)
    have hrest := ih fun x hx => hds x (by simp [hx])
    rw [Nat.ofDigitChars_append, Nat.ofDigitChars_cons, Nat.ofDigitChars_nil, List.length_append, List.length_singleton,
      Nat.pow_succ]
    have hdigit : d.toNat - '0'.toNat < 10 := by
      simp only [Char.isDigit, Bool.and_eq_true, decide_eq_true_eq] at hd
      have hhigh : d.toNat ≤ 57 := hd.2
      have hzero : '0'.toNat = 48 := rfl
      omega
    omega

/-! ## Exact results -/

section Fit
variable {c : DecContext} {d : Dec}

/-- A number within the precision and the exponents of the context is left as it is. -/
theorem Dec.fix_exact (hlow : c.etiny ≤ d.exp) (hhigh : d.exp ≤ c.emax) (hwidth : d.width ≤ c.prec)
    (hadjusted : d.adjusted ≤ c.emax) : d.fix c = .ok d := by
  unfold Dec.fix
  by_cases hzero : d.coeff = 0
  · rw [if_pos hzero, max_eq_left hlow, min_eq_left hhigh, ← hzero]
  · have hfits : max (d.adjusted - c.prec + 1) c.etiny ≤ d.exp := by
      refine max_le ?_ hlow
      unfold Dec.adjusted
      omega
    rw [if_neg hzero, if_neg (by omega)]
    exact if_pos hfits

theorem Dec.fix_overflow (hzero : d.coeff ≠ 0) (hadjusted : c.emax < d.adjusted) : d.fix c = .error .overflow := by
  unfold Dec.fix
  rw [if_neg hzero, if_pos hadjusted]

end Fit

section Scaled
variable {prec : Nat} {emin : Int} {n k : Nat}

theorem Dec.width_natCast (n : Nat) (e : Int) : (⟨n, e⟩ : Dec).width = decimalWidth n := rfl

/-- Up to a power of ten the leading digit of `n / 10 ^ k` is within an exponent. -/
theorem Dec.adjusted_le_iff (n k m : Nat) : (⟨n, -k⟩ : Dec).adjusted ≤ m ↔ n < 10 ^ (m + 1 + k) := by
  rw [← decimalWidth_le_iff (by omega)]
  unfold Dec.adjusted
  rw [Dec.width_natCast]
  dsimp only
  omega

/-- `n / 10 ^ k` within the precision is exact, or overflows. -/
theorem Dec.fix_scaled (emax k : Nat) (hprec : 0 < prec) (hwidth : n < 10 ^ prec) (hlow : emin - prec + 1 ≤ -k) :
    Dec.fix ⟨prec, emin, emax⟩ ⟨n, -k⟩ =
      if n < 10 ^ (emax + 1 + k) then .ok ⟨n, -k⟩ else .error .overflow := by
  split
  · next hfits =>
    refine Dec.fix_exact hlow ?_ ((decimalWidth_le_iff hprec).mpr hwidth) ((Dec.adjusted_le_iff n k emax).mpr hfits)
    show -(k : Int) ≤ emax
    omega
  · next hlarge =>
    have hpos : 0 < 10 ^ (emax + 1 + k) := Nat.pow_pos (by decide)
    refine Dec.fix_overflow ?_ ?_
    · show (n : Int) ≠ 0
      omega
    · show (emax : Int) < _
      exact lt_of_not_ge fun hle => hlarge ((Dec.adjusted_le_iff n k emax).mp hle)

theorem Dec.mul_nat (emax : Nat) (hprec : 0 < prec) {a b : Nat} (hwidth : a * b < 10 ^ prec) (hlow : emin - prec + 1 ≤ 0) :
    Dec.mul ⟨prec, emin, emax⟩ ⟨a, 0⟩ ⟨b, 0⟩ =
      if a * b < 10 ^ (emax + 1) then .ok ⟨(a * b : Nat), 0⟩ else .error .overflow := by
  have h := Dec.fix_scaled emax 0 hprec hwidth (by simpa using hlow)
  simpa [Dec.mul] using h

/-- A sum of a whole number and of `b / 10 ^ k`. -/
theorem Dec.add_nat (emax : Nat) (hprec : 0 < prec) {a b : Nat} (hwidth : a * 10 ^ k + b < 10 ^ prec)
    (hlow : emin - prec + 1 ≤ -k) :
    Dec.add ⟨prec, emin, emax⟩ ⟨a, 0⟩ ⟨b, -k⟩ =
      if a * 10 ^ k + b < 10 ^ (emax + 1 + k) then .ok ⟨(a * 10 ^ k + b : Nat), -k⟩ else .error .overflow := by
  have h := Dec.fix_scaled emax k hprec hwidth hlow
  have hmin : min (0 : Int) (-k) = -k := by omega
  unfold Dec.add
  dsimp only
  rw [hmin]
  simpa using h

theorem Dec.add_whole (emax : Nat) (hprec : 0 < prec) {a b : Nat} (hwidth : a + b < 10 ^ prec)
    (hlow : emin - prec + 1 ≤ 0) :
    Dec.add ⟨prec, emin, emax⟩ ⟨a, 0⟩ ⟨b, 0⟩ =
      if a + b < 10 ^ (emax + 1) then .ok ⟨(a + b : Nat), 0⟩ else .error .overflow := by
  have hwide : a * 10 ^ 0 + b < 10 ^ prec := by simpa using hwidth
  have h := Dec.add_nat emax hprec hwide (by simpa using hlow)
  simpa using h

theorem Dec.value_scaled (n k : Nat) : (⟨n, -k⟩ : Dec).value = (n : Rat) / 10 ^ k := by
  unfold Dec.value
  rw [zpow_neg, zpow_natCast]
  rfl

end Scaled

/-! ## Quotients -/

/-- Trailing zeros that are there are dropped. -/
theorem Dec.dropZeros_pow (j k q : Nat) (e : Int) :
    Dec.dropZeros (k + j) (q * 10 ^ k) e = Dec.dropZeros j q (e + k) := by
  induction k generalizing e with
  | zero => simp
  | succ k ih =>
    have hdiv : q * 10 ^ (k + 1) / 10 = q * 10 ^ k := by
      rw [Nat.pow_succ, ← Nat.mul_assoc, Nat.mul_div_cancel _ (by decide)]
    have hmod : q * 10 ^ (k + 1) % 10 = 0 := by
      rw [Nat.pow_succ, ← Nat.mul_assoc, Nat.mul_mod_left]
    rw [Nat.add_right_comm, Dec.dropZeros, if_pos hmod, hdiv, ih]
    congr 1
    push_cast
    omega

/-- Dropping zeros keeps the number and makes the coefficient no longer. -/
theorem Dec.dropZeros_spec (j q : Nat) (e : Int) : ∃ q' i : Nat, Dec.dropZeros j q e = ⟨q', e + i⟩ ∧ i ≤ j ∧
    q = q' * 10 ^ i := by
  induction j generalizing q e with
  | zero => exact ⟨q, 0, by simp [Dec.dropZeros], Nat.le_refl _, by simp⟩
  | succ j ih =>
    unfold Dec.dropZeros
    split
    · next hzero =>
      obtain ⟨q', i, hdrop, hle, hq⟩ := ih (q / 10) (e + 1)
      refine ⟨q', i + 1, ?_, by omega, ?_⟩
      · rw [hdrop]
        congr 1
        push_cast
        omega
      · have hten : q = q / 10 * 10 := by omega
        rw [Nat.pow_succ, ← Nat.mul_assoc, ← hq]
        exact hten
    · exact ⟨q, 0, by simp, by omega, by simp⟩

end ChessCrawl.Lib
