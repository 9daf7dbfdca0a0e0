import ChessCrawl.Evidence.Parse
import ChessCrawl.Lib.Decimal
import Mathlib.Data.List.TakeWhile

/-! `_parse_clock`, and the centiseconds of `_provider_observations`, with the decimal contexts they compute in. -/
namespace ChessCrawl.Evidence
open ChessCrawl.Lib
set_option autoImplicit false

/-! ## Functions -/

/-- `localcontext()` with a precision of its own. -/
def clockContext (prec : Nat) : DecContext := ⟨prec, -999999, (999999 : Nat)⟩

def natOf (ds : Text) : Nat := Nat.ofDigitChars 10 ds 0

/-- `re.fullmatch(r"([0-9]+):([0-9]{2}):([0-9]{2})(?:\.([0-9]+))?", value)` with `match[4] or ""` -/
def clockFields (value : Text) : Option (Text × Text × Text × Text) :=
  let hours := value.takeWhile Char.isDigit
  match value.dropWhile Char.isDigit with
  | ':' :: m₁ :: m₂ :: ':' :: s₁ :: s₂ :: rest =>
    if hours ≠ [] && [m₁, m₂, s₁, s₂].all Char.isDigit then
      match rest with
      | [] => some (hours, [m₁, m₂], [s₁, s₂], [])
      | '.' :: fraction =>
        if fraction ≠ [] && fraction.all Char.isDigit then some (hours, [m₁, m₂], [s₁, s₂], fraction) else none
      | _ => none
    else none
  | _ => none

/-- `if fraction: seconds += Decimal("0." + fraction)` -/
def addFraction (c : DecContext) (seconds : Dec) (fraction : Text) : Except DecSignal Dec :=
  if fraction = [] then .ok seconds else seconds.add c ⟨natOf fraction, -fraction.length⟩

/-- `Decimal(match[1]) * 3600 + Decimal(match[2]) * 60 + Decimal(match[3])` -/
def wholeSeconds (c : DecContext) (hours minutes seconds : Nat) : Except DecSignal Dec := do
  let hourSeconds ← Dec.mul c ⟨hours, 0⟩ ⟨3600, 0⟩
  let minuteSeconds ← Dec.mul c ⟨minutes, 0⟩ ⟨60, 0⟩
  let sum ← Dec.add c hourSeconds minuteSeconds
  Dec.add c sum ⟨seconds, 0⟩

/-- The body of the `try`. -/
def clockSeconds (hours minutes seconds fraction : Text) : Except DecSignal (Option (Dec × Dec)) := do
  let c := clockContext (max 28 (hours.length + fraction.length + 10))
  let whole ← wholeSeconds c (natOf hours) (natOf minutes) (natOf seconds)
  let total ← addFraction c whole fraction
  if 131071 < total.adjusted then pure none
  else do
    let resolution ← Dec.scaleb c ⟨1, 0⟩ (-fraction.length)
    pure (some (total, resolution))

/-- `except InvalidOperation` -/
def orNone {α : Type} : Except DecSignal (Option α) → Except DecSignal (Option α)
  | .error .invalidOperation => .ok none
  | r => r

/-- `_parse_clock` -/
def parseClock (value : Text) : Except DecSignal (Option (Dec × Dec)) :=
  match clockFields value with
  | none => .ok none
  | some (hours, minutes, seconds, fraction) =>
    if 60 ≤ natOf minutes ∨ 60 ≤ natOf seconds then .ok none
    else if 16383 < fraction.length then .ok none
    else orNone (clockSeconds hours minutes seconds fraction)

/-- The length of `str(value)`. -/
def strLength (value : Int) : Nat := decimalWidth value.natAbs + if value < 0 then 1 else 0

/-- The seconds of an integer clock of a provider, whose `str` exists. -/
def centiseconds (value : Int) : Except DecSignal (Option Dec) :=
  orNone ((Dec.div (clockContext (max 28 (strLength value + 4))) ⟨value, 0⟩ ⟨100, 0⟩).map fun candidate =>
    if 0 ≤ candidate.coeff then some candidate else none)

/-! ## The grammar -/

/-- `hours:MM:SS` with an optional fraction. -/
structure ClockText (value hours minutes seconds fraction : Text) : Prop where
  shape : value = hours ++ ':' :: (minutes ++ ':' :: (seconds ++ if fraction = [] then [] else '.' :: fraction))
  hours : hours ≠ [] ∧ ∀ d ∈ hours, d.isDigit = true
  minutes : minutes.length = 2 ∧ ∀ d ∈ minutes, d.isDigit = true
  seconds : seconds.length = 2 ∧ ∀ d ∈ seconds, d.isDigit = true
  fraction : ∀ d ∈ fraction, d.isDigit = true

theorem takeWhile_digits {hours : Text} (rest : Text) (h : ∀ d ∈ hours, d.isDigit = true) :
    (hours ++ ':' :: rest).takeWhile Char.isDigit = hours ∧ (hours ++ ':' :: rest).dropWhile Char.isDigit = ':' :: rest := by
  induction hours with
  | nil => exact ⟨rfl, rfl⟩
  | cons d hours ih =>
    obtain ⟨htake, hdrop⟩ := ih fun x hx => h x (List.mem_cons_of_mem _ hx)
    have hd := h d List.mem_cons_self
    rw [List.cons_append, List.takeWhile_cons_of_pos hd, List.dropWhile_cons_of_pos hd, htake, hdrop]
    exact ⟨rfl, rfl⟩

theorem clockFields_of_text {value hours minutes seconds fraction : Text}
    (h : ClockText value hours minutes seconds fraction) :
    clockFields value = some (hours, minutes, seconds, fraction) := by
  obtain ⟨hlen, hmin⟩ := h.minutes
  obtain ⟨hlen', hsec⟩ := h.seconds
  match minutes, hlen with
  | [m₁, m₂], _ =>
    match seconds, hlen' with
    | [s₁, s₂], _ =>
      obtain ⟨htake, hdrop⟩ := takeWhile_digits ([m₁, m₂] ++ ':' :: ([s₁, s₂] ++
        if fraction = [] then [] else '.' :: fraction)) h.hours.2
      rw [← h.shape] at htake hdrop
      unfold clockFields
      simp only [htake, hdrop, List.cons_append, List.nil_append]
      have hall : [m₁, m₂, s₁, s₂].all Char.isDigit = true := by
        simp only [List.mem_cons, List.not_mem_nil, or_false, forall_eq_or_imp, forall_eq] at hmin hsec
        simp [hmin, hsec]
      simp only [hall, h.hours.1, ne_eq, not_false_eq_true, decide_true, Bool.and_self, if_true]
      cases fraction with
      | nil => rfl
      | cons f rest =>
        have hfraction : (f :: rest).all Char.isDigit = true := List.all_eq_true.mpr h.fraction
        simp [hfraction]

theorem text_of_clockFields {value hours minutes seconds fraction : Text}
    (h : clockFields value = some (hours, minutes, seconds, fraction)) :
    ClockText value hours minutes seconds fraction := by
  have hsplit : value.takeWhile Char.isDigit ++ value.dropWhile Char.isDigit = value := List.takeWhile_append_dropWhile
  have hdigits : ∀ d ∈ value.takeWhile Char.isDigit, d.isDigit = true := fun d hd => List.mem_takeWhile_imp hd
  unfold clockFields at h
  dsimp only at h
  split at h
  · next m₁ m₂ s₁ s₂ rest hdrop =>
    rw [hdrop] at hsplit
    split at h
    · next hcond =>
      simp only [Bool.and_eq_true, decide_eq_true_eq, List.all_cons, List.all_nil, and_true] at hcond
      obtain ⟨hne, hm₁, hm₂, hs₁, hs₂⟩ := hcond
      split at h
      · cases h
        exact ⟨by simpa using hsplit.symm, ⟨hne, hdigits⟩, ⟨rfl, by simp [hm₁, hm₂]⟩, ⟨rfl, by simp [hs₁, hs₂]⟩, by simp⟩
      · next fraction =>
        split at h
        · next hfraction =>
          cases h
          simp only [Bool.and_eq_true, decide_eq_true_eq, List.all_eq_true] at hfraction
          refine ⟨?_, ⟨hne, hdigits⟩, ⟨rfl, by simp [hm₁, hm₂]⟩, ⟨rfl, by simp [hs₁, hs₂]⟩, hfraction.2⟩
          rw [if_neg hfraction.1]
          exact hsplit.symm
        · cases h
      · cases h
    · cases h
  · cases h

/-! ## Exact arithmetic -/

section Exact
variable {prec h m s : Nat} (emin : Int) (emax : Nat)

/-- The whole seconds are exact, or overflow. -/
theorem wholeSeconds_eq (hm : m < 60) (hs : s < 60) (hprec : 4 ≤ prec) (hwidth : h * 3600 + 3600 ≤ 10 ^ prec)
    (hlow : emin - prec + 1 ≤ 0) (hmax : 3 ≤ emax) :
    wholeSeconds ⟨prec, emin, emax⟩ h m s =
      if h * 3600 + m * 60 + s < 10 ^ (emax + 1) then .ok ⟨(h * 3600 + m * 60 + s : Nat), 0⟩ else .error .overflow := by
  have hsmall : 10 ^ 4 ≤ 10 ^ (emax + 1) := Nat.pow_le_pow_right (by decide) (by omega)
  have hhours := Dec.mul_nat emax (by omega) (a := h) (b := 3600) (by omega) hlow
  have hminutes := Dec.mul_nat emax (by omega) (a := m) (b := 60) (by omega) hlow
  have hsum := Dec.add_whole emax (by omega) (a := h * 3600) (b := m * 60) (by omega) hlow
  have hwhole := Dec.add_whole emax (by omega) (a := h * 3600 + m * 60) (b := s) (by omega) hlow
  unfold wholeSeconds
  generalize 10 ^ (emax + 1) = bound at *
  rw [if_pos (by omega : m * 60 < bound)] at hminutes
  by_cases hfirst : h * 3600 < bound
  · rw [if_pos hfirst] at hhours
    by_cases hsecond : h * 3600 + m * 60 < bound
    · rw [if_pos hsecond] at hsum
      simp only [bind, Except.bind, Nat.cast_ofNat] at hhours hminutes ⊢
      simp only [hhours, hminutes, hsum, hwhole]
    · rw [if_neg hsecond] at hsum
      have hlarge : ¬ h * 3600 + m * 60 + s < bound := fun hlt => hsecond (Nat.lt_of_le_of_lt (Nat.le_add_right _ _) hlt)
      rw [if_neg hlarge]
      simp only [bind, Except.bind, Nat.cast_ofNat] at hhours hminutes ⊢
      simp only [hhours, hminutes, hsum]
  · rw [if_neg hfirst] at hhours
    have hlarge : ¬ h * 3600 + m * 60 + s < bound :=
      fun hlt => hfirst (Nat.lt_of_le_of_lt (Nat.le_trans (Nat.le_add_right _ _) (Nat.le_add_right _ _)) hlt)
    rw [if_neg hlarge]
    simp only [bind, Except.bind, Nat.cast_ofNat] at hhours ⊢
    simp only [hhours]

/-- A fraction does not change how many digits stand before the point. -/
theorem scaled_lt_iff {whole part k m : Nat} (hpart : part < 10 ^ k) :
    whole * 10 ^ k + part < 10 ^ (m + k) ↔ whole < 10 ^ m := by
  rw [Nat.pow_add]
  generalize 10 ^ k = unit at *
  generalize 10 ^ m = bound
  constructor
  · intro hlt
    by_contra hge
    have hmul : bound * unit ≤ whole * unit := Nat.mul_le_mul_right _ (Nat.le_of_not_lt hge)
    omega
  · intro hlt
    have hmul : (whole + 1) * unit ≤ bound * unit := Nat.mul_le_mul_right _ hlt
    rw [Nat.add_mul, Nat.one_mul] at hmul
    omega

theorem natOf_lt {ds : Text} (h : ∀ d ∈ ds, d.isDigit = true) : natOf ds < 10 ^ ds.length := ofDigitChars_lt ds h

theorem addFraction_eq {whole : Nat} {fraction : Text} (hf : ∀ d ∈ fraction, d.isDigit = true) (hprec : 0 < prec)
    (hwidth : whole * 10 ^ fraction.length + natOf fraction < 10 ^ prec) (hlow : emin - prec + 1 ≤ -fraction.length)
    (hwhole : whole < 10 ^ (emax + 1)) :
    addFraction ⟨prec, emin, emax⟩ ⟨whole, 0⟩ fraction =
      .ok ⟨(whole * 10 ^ fraction.length + natOf fraction : Nat), -fraction.length⟩ := by
  unfold addFraction
  by_cases hnil : fraction = []
  · subst hnil
    simp [natOf]
  · rw [if_neg hnil, Dec.add_nat emax hprec hwidth hlow, if_pos ((scaled_lt_iff (natOf_lt hf)).mpr hwhole)]

theorem scaleb_one {k : Nat} (hprec : 0 < prec) (hlow : emin - prec + 1 ≤ -k) (hk : k ≤ 2 * (emax + prec)) :
    Dec.scaleb ⟨prec, emin, emax⟩ ⟨1, 0⟩ (-k) = .ok ⟨1, -k⟩ := by
  have hone : 1 < 10 ^ prec := Nat.one_lt_pow (by omega) (by decide)
  have hfits : 1 < 10 ^ (emax + 1 + k) := Nat.one_lt_pow (by omega) (by decide)
  have hfix := Dec.fix_scaled emax k hprec hone hlow
  rw [if_pos hfits] at hfix
  unfold Dec.scaleb
  rw [if_pos (by dsimp only; omega)]
  simpa using hfix

end Exact

/-- The whole seconds of a clock. -/
def wholeOf (hours minutes seconds : Text) : Nat := natOf hours * 3600 + natOf minutes * 60 + natOf seconds

/-- All that the arithmetic can do: an exact value, an invalid one, or an overflow. -/
theorem clockSeconds_eq {value hours minutes seconds fraction : Text} (ht : ClockText value hours minutes seconds fraction)
    (hm : natOf minutes < 60) (hs : natOf seconds < 60) (hf : fraction.length ≤ 16383) :
    clockSeconds hours minutes seconds fraction =
      if wholeOf hours minutes seconds < 10 ^ (999999 + 1) then
        if wholeOf hours minutes seconds < 10 ^ (131071 + 1) then
          .ok (some (⟨(wholeOf hours minutes seconds * 10 ^ fraction.length + natOf fraction : Nat), -fraction.length⟩,
            ⟨1, -fraction.length⟩))
        else .ok none
      else .error .overflow := by
  have hhours := natOf_lt ht.hours.2
  have hfraction := natOf_lt ht.fraction
  obtain ⟨prec, hprec⟩ : ∃ prec, prec = max 28 (hours.length + fraction.length + 10) := ⟨_, rfl⟩
  have hpow : 10 ^ (hours.length + fraction.length + 10) ≤ 10 ^ prec := Nat.pow_le_pow_right (by decide) (by omega)
  have hpow' : 10 ^ (hours.length + 10) ≤ 10 ^ prec := Nat.pow_le_pow_right (by decide) (by omega)
  -- the precision has room for the product and the sums
  have hroom : natOf hours * 3600 + 3600 ≤ 10 ^ (hours.length + 10) := by
    rw [Nat.pow_add]
    generalize 10 ^ hours.length = bound at hhours
    omega
  have hwide : wholeOf hours minutes seconds * 10 ^ fraction.length + natOf fraction < 10 ^ prec := by
    refine Nat.lt_of_lt_of_le ?_ hpow
    rw [Nat.add_right_comm, scaled_lt_iff hfraction]
    unfold wholeOf
    omega
  have hwhole : wholeSeconds (clockContext prec) (natOf hours) (natOf minutes) (natOf seconds) =
      if wholeOf hours minutes seconds < 10 ^ (999999 + 1) then .ok ⟨(wholeOf hours minutes seconds : Nat), 0⟩
      else .error .overflow :=
    wholeSeconds_eq (-999999) 999999 hm hs (by omega) (Nat.le_trans hroom hpow') (by omega) (by decide)
  unfold clockSeconds
  rw [← hprec]
  dsimp only
  rw [hwhole]
  by_cases hlarge : wholeOf hours minutes seconds < 10 ^ (999999 + 1)
  · have htotal : addFraction (clockContext prec) ⟨(wholeOf hours minutes seconds : Nat), 0⟩ fraction = _ :=
      addFraction_eq (-999999) 999999 ht.fraction (by omega) hwide (by omega) hlarge
    have hresolution : Dec.scaleb (clockContext prec) ⟨1, 0⟩ (-fraction.length) = _ :=
      scaleb_one (-999999) 999999 (by omega) (by omega) (by omega)
    have hadjusted := Dec.adjusted_le_iff (wholeOf hours minutes seconds * 10 ^ fraction.length + natOf fraction)
      fraction.length 131071
    rw [scaled_lt_iff hfraction, Nat.cast_ofNat] at hadjusted
    rw [if_pos hlarge, if_pos hlarge]
    show (addFraction (clockContext prec) _ fraction >>= _) = _
    rw [htotal]
    by_cases hfits : wholeOf hours minutes seconds < 10 ^ (131071 + 1)
    · rw [if_pos hfits]
      show (if _ then _ else (Dec.scaleb _ _ _ >>= _)) = _
      rw [if_neg (not_lt.mpr (hadjusted.mpr hfits)), hresolution]
      rfl
    · rw [if_neg hfits]
      exact if_pos (lt_of_not_ge fun hle => hfits (hadjusted.mp hle))
  · rw [if_neg hlarge, if_neg hlarge]
    rfl

/-- `_parse_clock` on a text of the grammar. -/
theorem parseClock_eq {value hours minutes seconds fraction : Text} (ht : ClockText value hours minutes seconds fraction)
    (hm : natOf minutes < 60) (hs : natOf seconds < 60) (hf : fraction.length ≤ 16383) :
    parseClock value =
      if wholeOf hours minutes seconds < 10 ^ (999999 + 1) then
        if wholeOf hours minutes seconds < 10 ^ (131071 + 1) then
          .ok (some (⟨(wholeOf hours minutes seconds * 10 ^ fraction.length + natOf fraction : Nat), -fraction.length⟩,
            ⟨1, -fraction.length⟩))
        else .ok none
      else .error .overflow := by
  unfold parseClock
  rw [clockFields_of_text ht]
  dsimp only
  rw [if_neg (by omega), if_neg (by omega), clockSeconds_eq ht hm hs hf]
  split
  · split <;> rfl
  · rfl

/-! ## Centiseconds -/

/-- The quotient by a hundred has the digits of the number, some of its zeros dropped. -/
theorem div_hundred {prec emax : Nat} {n : Int} (hn : n ≠ 0) (hwidth : decimalWidth n.natAbs + 4 ≤ prec)
    (hmax : decimalWidth n.natAbs ≤ emax) {emin : Int} (hlow : emin - prec + 1 ≤ -2) :
    ∃ q i : Nat, i ≤ 2 ∧ n.natAbs = q * 10 ^ i ∧
      Dec.div ⟨prec, emin, emax⟩ ⟨n, 0⟩ ⟨100, 0⟩ = .ok ⟨n.sign * q, -2 + i⟩ := by
  obtain ⟨shift, hshift⟩ : ∃ shift : Nat, (shift : Int) + 2 = 3 - decimalWidth n.natAbs + prec + 1 :=
    ⟨2 + prec - decimalWidth n.natAbs, by omega⟩
  obtain ⟨q, i, hdrop, hi, hq⟩ := Dec.dropZeros_spec 2 n.natAbs (-2)
  have hle : q ≤ n.natAbs := by
    rw [hq]
    exact Nat.le_mul_of_pos_right q (Nat.pow_pos (by decide))
  refine ⟨q, i, hi, hq, ?_⟩
  have hquotient : Dec.dropZeros (shift + 2) (n.natAbs * 10 ^ (shift + 2) / 100) (-(shift + 2 : Nat)) = ⟨q, -2 + i⟩ := by
    have hdiv : n.natAbs * 10 ^ (shift + 2) / 100 = n.natAbs * 10 ^ shift := by
      rw [Nat.pow_add, ← Nat.mul_assoc]
      exact Nat.mul_div_cancel _ (by decide)
    rw [hdiv, Dec.dropZeros_pow, ← hdrop]
    congr 1
    push_cast
    omega
  have hexp : ((⟨100, 0⟩ : Dec).width : Int) - (⟨n, 0⟩ : Dec).width + prec + 1 = (shift + 2 : Nat) := by
    have hhundred : (⟨100, 0⟩ : Dec).width = 3 := rfl
    have hwide : (⟨n, 0⟩ : Dec).width = decimalWidth n.natAbs := rfl
    rw [hhundred, hwide]
    push_cast
    omega
  have hmod : n.natAbs * 10 ^ (shift + 2) % 100 = 0 := by
    rw [Nat.pow_add, ← Nat.mul_assoc]
    exact Nat.mul_mod_left _ _
  unfold Dec.div
  rw [if_neg (by decide), if_neg hn]
  dsimp only
  rw [hexp, Int.toNat_natCast, Int.toNat_neg_natCast, Nat.pow_zero, Nat.mul_one]
  simp only [show (100 : Int).natAbs = 100 from rfl, hmod, if_true, zero_sub, sub_self, hquotient, mul_one,
    show (100 : Int).sign = 1 from rfl]
  have habs : (n.sign * q).natAbs = q := by
    rw [Int.natAbs_mul, Int.natAbs_sign_of_ne_zero hn, Int.natAbs_natCast, Nat.one_mul]
  have hwide : (⟨n.sign * q, -2 + i⟩ : Dec).width ≤ decimalWidth n.natAbs := by
    show decimalWidth (n.sign * q).natAbs ≤ _
    rw [habs]
    exact decimalWidth_mono hle
  refine Dec.fix_exact ?_ ?_ ?_ ?_
  · show emin - prec + 1 ≤ -2 + (i : Int)
    omega
  · show -2 + (i : Int) ≤ emax
    omega
  · show _ ≤ prec
    omega
  · show -2 + (i : Int) + _ - 1 ≤ emax
    omega

/-- A value over a power of ten that divides it. -/
theorem value_dropped {n : Int} {q i : Nat} (hi : i ≤ 2) (hq : n.natAbs = q * 10 ^ i) :
    (⟨n.sign * q, -2 + i⟩ : Dec).value = (n : Rat) / 100 := by
  have hn : (n : Rat) = (n.sign * (q * 10 ^ i : Nat) : Int) := by
    rw [← hq, Int.sign_mul_natAbs]
  obtain ⟨j, hj⟩ : ∃ j, i + j = 2 := ⟨2 - i, by omega⟩
  have hexp : (-2 + i : Int) = -(j : Nat) := by omega
  have hhundred : (100 : Rat) = 10 ^ i * 10 ^ j := by
    rw [← pow_add, hj]
    norm_num
  unfold Dec.value
  dsimp only
  rw [hexp, zpow_neg, zpow_natCast, hn, hhundred]
  push_cast
  field_simp

/-- The seconds of an integer with a `str`. -/
theorem centiseconds_eq (n : Int) (hn : n.natAbs < 10 ^ 4300) :
    ∃ d : Dec, d.value = (n : Rat) / 100 ∧ centiseconds n = .ok (if 0 ≤ n then some d else none) := by
  have hwidth : decimalWidth n.natAbs ≤ 4300 := (decimalWidth_le_iff (by decide)).mpr hn
  unfold centiseconds
  by_cases hzero : n = 0
  · subst hzero
    exact ⟨⟨0, 0⟩, by simp [Dec.value], rfl⟩
  · obtain ⟨prec, hprec⟩ : ∃ prec, prec = max 28 (strLength n + 4) := ⟨_, rfl⟩
    have hlength : decimalWidth n.natAbs ≤ strLength n := Nat.le_add_right _ _
    obtain ⟨q, i, hi, hq, hdiv⟩ : ∃ q i : Nat, i ≤ 2 ∧ n.natAbs = q * 10 ^ i ∧
        Dec.div (clockContext prec) ⟨n, 0⟩ ⟨100, 0⟩ = .ok ⟨n.sign * q, -2 + i⟩ :=
      div_hundred hzero (by omega) (by omega) (by omega)
    refine ⟨⟨n.sign * q, -2 + i⟩, value_dropped hi hq, ?_⟩
    rw [← hprec, hdiv]
    have hqpos : 0 < q := by
      rcases Nat.eq_zero_or_pos q with h0 | hpos
      · rw [h0, Nat.zero_mul, Int.natAbs_eq_zero] at hq
        exact absurd hq hzero
      · exact hpos
    have hsign : 0 ≤ n.sign * (q : Int) ↔ 0 ≤ n := by
      rw [mul_nonneg_iff_of_pos_right (by omega), Int.sign_nonneg_iff]
    show orNone (.ok (if 0 ≤ n.sign * (q : Int) then _ else none)) = _
    simp only [hsign]
    rfl

/-! ## The values -/

/-- A clock text within the bounds of the code. -/
structure BoundedClock (value hours minutes seconds fraction : Text) : Prop where
  text : ClockText value hours minutes seconds fraction
  minuteBound : natOf minutes < 60
  secondBound : natOf seconds < 60
  fractionBound : fraction.length ≤ 16383
  wholeBound : decimalWidth (wholeOf hours minutes seconds) ≤ 131071 + 1

/-- The number that a clock text denotes. -/
def clockValue (hours minutes seconds fraction : Text) : Rat :=
  natOf hours * 3600 + natOf minutes * 60 + natOf seconds + natOf fraction / 10 ^ fraction.length

theorem value_clock (hours minutes seconds fraction : Text) :
    (⟨(wholeOf hours minutes seconds * 10 ^ fraction.length + natOf fraction : Nat), -fraction.length⟩ : Dec).value =
      clockValue hours minutes seconds fraction := by
  rw [Dec.value_scaled]
  unfold clockValue wholeOf
  push_cast
  field_simp

theorem value_resolution (k : Nat) : (⟨1, -k⟩ : Dec).value = 1 / 10 ^ k := by
  have h := Dec.value_scaled 1 k
  simpa using h

theorem parseClock_bounded {value hours minutes seconds fraction : Text}
    (h : BoundedClock value hours minutes seconds fraction) :
    ∃ total resolution, parseClock value = .ok (some (total, resolution)) ∧
      total.value = clockValue hours minutes seconds fraction ∧ resolution.value = 1 / 10 ^ fraction.length := by
  have hwhole : wholeOf hours minutes seconds < 10 ^ (131071 + 1) :=
    (decimalWidth_le_iff (k := 131071 + 1) (Nat.succ_pos _)).mp h.wholeBound
  have hlarge : wholeOf hours minutes seconds < 10 ^ (999999 + 1) := by
    have hpow : 10 ^ (131071 + 1) ≤ 10 ^ (999999 + 1) :=
      pow_le_pow_right₀ (by decide) (by decide)
    exact hwhole.trans_le hpow
  refine ⟨_, _, ?_, value_clock hours minutes seconds fraction, value_resolution fraction.length⟩
  rw [parseClock_eq h.text h.minuteBound h.secondBound h.fractionBound, if_pos hlarge, if_pos hwhole]

theorem bounded_of_parseClock {value : Text} {total resolution : Dec}
    (h : parseClock value = .ok (some (total, resolution))) :
    ∃ hours minutes seconds fraction, BoundedClock value hours minutes seconds fraction := by
  cases hfields : clockFields value with
  | none =>
    unfold parseClock at h
    rw [hfields] at h
    cases h
  | some fields =>
    obtain ⟨hours, minutes, seconds, fraction⟩ := fields
    have ht := text_of_clockFields hfields
    have hrange : natOf minutes < 60 ∧ natOf seconds < 60 ∧ fraction.length ≤ 16383 := by
      unfold parseClock at h
      rw [hfields] at h
      dsimp only at h
      split at h
      · cases h
      · split at h
        · cases h
        · omega
    rw [parseClock_eq ht hrange.1 hrange.2.1 hrange.2.2] at h
    split at h
    · split at h
      · next hwhole =>
        exact ⟨hours, minutes, seconds, fraction, ht, hrange.1, hrange.2.1, hrange.2.2,
          (decimalWidth_le_iff (k := 131071 + 1) (Nat.succ_pos _)).mpr hwhole⟩
      · cases h
    · cases h

theorem providerSeconds_short {n : Int} (hn : n.natAbs < 10 ^ 4300) :
    providerSeconds (.num (.int n)) = .ok (if 0 ≤ n then some (mkRat n 100) else none) := by
  unfold providerSeconds
  dsimp only
  rw [if_neg (not_le_of_gt hn)]
  rfl

theorem providerSeconds_long {n : Int} (hn : 10 ^ 4300 ≤ n.natAbs) :
    providerSeconds (.num (.int n)) = .error Native.tooLong := by
  unfold providerSeconds
  dsimp only
  rw [if_pos hn]

/-- An integer with a `str` becomes a clock of its hundredth. -/
theorem providerClock_short {n : Nat} (hn : (n : Int).natAbs < 10 ^ 4300) (played : List MoveNode) (i : Nat) :
    ∃ c, providerClock played i (.num (.int n)) = .ok c ∧ c.seconds = some ((n : Rat) / 100) := by
  obtain ⟨raw, hraw⟩ := Native.dumps_ok.mpr ((Native.printable_int (n := n)).mpr hn)
  unfold providerClock
  rw [ok_bind (providerSeconds_short hn), ok_bind hraw, if_pos (Int.natCast_nonneg n), Rat.mkRat_eq_div]
  exact ⟨_, rfl, rfl⟩

theorem providerClock_long {n : Int} (hn : 10 ^ 4300 ≤ n.natAbs) (played : List MoveNode) (i : Nat) :
    providerClock played i (.num (.int n)) = .error Native.tooLong := by
  unfold providerClock
  rw [providerSeconds_long hn]
  rfl

/-- A text in the grammar and the bounds has exactly the value and the precision it denotes; no other text has one. An
integer of a provider that has a text is stored as a hundredth of it, and a longer one is an error. -/
theorem clock_values_exact :
    (∀ value hours minutes seconds fraction, BoundedClock value hours minutes seconds fraction →
      ∃ total resolution, parseClock value = .ok (some (total, resolution)) ∧
        total.value = clockValue hours minutes seconds fraction ∧ resolution.value = 1 / 10 ^ fraction.length) ∧
    (∀ value total resolution, parseClock value = .ok (some (total, resolution)) →
      ∃ hours minutes seconds fraction, BoundedClock value hours minutes seconds fraction ∧
        total.value = clockValue hours minutes seconds fraction ∧ resolution.value = 1 / 10 ^ fraction.length) ∧
    ∀ (n : Nat) (played : List MoveNode) (i : Nat),
      (n < 10 ^ 4300 → ∃ d c, centiseconds n = .ok (some d) ∧ d.value = (n : Rat) / 100 ∧
        providerClock played i (.num (.int n)) = .ok c ∧ c.seconds = some d.value) ∧
      (10 ^ 4300 ≤ n → ∃ e, providerClock played i (.num (.int n)) = .error e) := by
  refine ⟨fun value hours minutes seconds fraction h => parseClock_bounded h, fun value total resolution h => ?_,
    fun n played i => ⟨fun hn => ?_, fun hn => ⟨_, providerClock_long (by rwa [Int.natAbs_natCast]) played i⟩⟩⟩
  · obtain ⟨hours, minutes, seconds, fraction, hbounded⟩ := bounded_of_parseClock h
    obtain ⟨total', resolution', h', htotal, hresolution⟩ := parseClock_bounded hbounded
    rw [h] at h'
    cases h'
    exact ⟨hours, minutes, seconds, fraction, hbounded, htotal, hresolution⟩
  · have hn : (n : Int).natAbs < 10 ^ 4300 := by rwa [Int.natAbs_natCast]
    obtain ⟨d, hvalue, hd⟩ := centiseconds_eq n hn
    obtain ⟨c, hc, hseconds⟩ := providerClock_short hn played i
    rw [if_pos (Int.natCast_nonneg n)] at hd
    exact ⟨d, c, hd, by simpa using hvalue, hc, by rw [hseconds, hvalue]; rfl⟩

/-- `1:02:03.450` -/
theorem clock_values_exact_fraction : parseClock "1:02:03.450".toList = .ok (some (⟨3723450, -3⟩, ⟨1, -3⟩)) ∧
    clockValue "1".toList "02".toList "03".toList "450".toList = 3723450 / 1000 ∧
    ∃ d, centiseconds 6001 = .ok (some d) ∧ d.value = 6001 / 100 := by
  obtain ⟨hexact, _, hcenti⟩ := clock_values_exact
  obtain ⟨total, resolution, hparse, htotal, _⟩ := hexact "1:02:03.450".toList "1".toList "02".toList "03".toList
    "450".toList ⟨⟨by decide, by simp, by simp, by simp, by simp⟩, by decide, by decide, by decide, by decide⟩
  obtain ⟨d, c, hd, hvalue, _⟩ := (hcenti 6001 [] 0).1 (by decide +kernel)
  have hrun : parseClock "1:02:03.450".toList = .ok (some (⟨3723450, -3⟩, ⟨1, -3⟩)) := by decide +kernel
  rw [hrun] at hparse
  cases hparse
  refine ⟨hrun, htotal.symm.trans ?_, d, hd, by simpa using hvalue⟩
  norm_num [Dec.value]

/-- A game whose one clock has 4301 digits. -/
def longClockGame : NormalizedGame :=
  ⟨none, "standard".toList, [("clocks".toList, .arr [.num (.int (10 ^ 4300 : Nat))])]⟩

/-- The clock is not stored. -/
theorem long_clock_unstored : longClockGame.clocks = some [.num (.int (10 ^ 4300 : Nat))] ∧
    ¬ ∃ r, providerObservations longClockGame [.root none] = .ok r := by
  have hclocks : longClockGame.clocks = some [.num (.int (10 ^ 4300 : Nat))] := rfl
  refine ⟨hclocks, ?_⟩
  rintro ⟨r, hr⟩
  unfold providerObservations at hr
  obtain ⟨cs, hcs, _⟩ := bind_ok hr
  rw [hclocks, Option.getD_some, List.zipIdx_cons, List.mapM_cons, 
    providerClock_long (by rw [Int.natAbs_natCast])] at hcs
  cases hcs

end ChessCrawl.Evidence
