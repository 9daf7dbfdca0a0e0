import Mathlib.Order.Monotone.Basic
import Mathlib.Tactic.IntervalCases
import ChessCrawl.Budget.Policy

/-! The proleptic Gregorian calendar behind `datetime`: month lengths, the order of the month starts, and
the month of an ordinal day. The definitions it is about are those of `Budget.Policy`. -/
namespace ChessCrawl.Acquisition
open ChessCrawl.Budget
set_option autoImplicit false

/-- The lengths of the Gregorian months. -/
def daysInMonth (year month : Nat) : Nat :=
  if month = 2 then (if isLeap year then 29 else 28)
  else if month = 4 ∨ month = 6 ∨ month = 9 ∨ month = 11 then 30
  else 31

def IsMonth (year month : Nat) : Prop := 1 ≤ year ∧ 1 ≤ month ∧ month ≤ 12

instance (year month : Nat) : Decidable (IsMonth year month) := inferInstanceAs (Decidable (_ ∧ _))

def nextMonth (year month : Nat) : Nat × Nat := if month = 12 then (year + 1, 1) else (year, month + 1)

/-- Days before the first day of a month, counted from the first of January of year 1. -/
def daysBefore (year month : Nat) : Nat := daysBeforeYear year + daysBeforeMonth (isLeap year) month

variable {year month : Nat}

theorem monthStart_eq (year month : Nat) : monthStart year month = ((daysBefore year month : Int) - 719162) * 86400 := by
  simp only [monthStart, daysBefore]
  omega

theorem isLeap_iff (year : Nat) : isLeap year = true ↔ year % 4 = 0 ∧ (year % 100 ≠ 0 ∨ year % 400 = 0) := by
  simp [isLeap]

theorem daysBeforeYear_succ (h : 1 ≤ year) :
    daysBeforeYear (year + 1) = daysBeforeYear year + 365 + if isLeap year then 1 else 0 := by
  obtain ⟨y, rfl⟩ : ∃ y, year = y + 1 := ⟨year - 1, by omega⟩
  have hcentury : y / 100 ≤ y := Nat.div_le_self _ _
  simp only [daysBeforeYear, isLeap_iff, Nat.add_sub_cancel, Nat.succ_div, Nat.dvd_iff_mod_eq_zero]
  have h100 : (y + 1) % 100 = 0 → (y + 1) % 4 = 0 := by omega
  have h400 : (y + 1) % 400 = 0 → (y + 1) % 100 = 0 := by omega
  generalize (y + 1) % 4 = r4 at *
  generalize (y + 1) % 100 = r100 at *
  generalize (y + 1) % 400 = r400 at *
  generalize y / 4 = q4
  generalize y / 100 = q100 at *
  generalize y / 400 = q400
  by_cases h4 : r4 = 0
  · by_cases hc : r100 = 0
    · by_cases hq : r400 = 0
      · simp only [h4, hc, hq, if_true, true_and, or_true]
        omega
      · simp only [h4, hc, hq, if_true, if_false, true_and, ne_eq, not_true_eq_false, or_self]
        omega
    · have hq : r400 ≠ 0 := fun h => hc (h400 h)
      simp only [h4, hc, hq, if_true, if_false, true_and, ne_eq, not_false_eq_true, true_or]
      omega
  · have hc : r100 ≠ 0 := fun h => h4 (h100 h)
    have hq : r400 ≠ 0 := fun h => hc (h400 h)
    simp only [h4, hc, hq, if_false, false_and]
    omega

theorem IsMonth.next (h : IsMonth year month) : IsMonth (nextMonth year month).1 (nextMonth year month).2 := by
  obtain ⟨hy, hm, hm'⟩ := h
  unfold nextMonth IsMonth
  split <;> simp only [] <;> omega

/-- A month ends where the next one starts, across the years too. -/
theorem daysBefore_next (h : IsMonth year month) :
    daysBefore (nextMonth year month).1 (nextMonth year month).2 = daysBefore year month + daysInMonth year month := by
  obtain ⟨hy, hm, hm'⟩ := h
  by_cases h12 : month = 12
  · subst h12
    simp only [nextMonth, if_true, daysBefore, daysBeforeYear_succ hy, daysInMonth, daysBeforeMonth]
    cases isLeap year <;> simp
  · rw [nextMonth, if_neg h12]
    simp only [daysBefore, daysInMonth, daysBeforeMonth]
    interval_cases month <;> cases isLeap year <;> simp at h12 ⊢

theorem daysInMonth_pos (year month : Nat) : 28 ≤ daysInMonth year month := by
  unfold daysInMonth
  split
  · split <;> omega
  · split <;> omega

/-! ## Months in order -/

/-- Months are counted from January of year 0. -/
def monthIndex (year month : Nat) : Nat := 12 * year + (month - 1)

theorem monthIndex_next (h : IsMonth year month) :
    monthIndex (nextMonth year month).1 (nextMonth year month).2 = monthIndex year month + 1 := by
  obtain ⟨_, hm, hm'⟩ := h
  unfold nextMonth monthIndex
  split <;> simp only [] <;> omega

theorem monthIndex_inj {year' month' : Nat} (h : IsMonth year month) (h' : IsMonth year' month')
    (heq : monthIndex year month = monthIndex year' month') : year = year' ∧ month = month' := by
  obtain ⟨_, hm, hm'⟩ := h
  obtain ⟨_, hn, hn'⟩ := h'
  unfold monthIndex at heq
  omega

/-- `<` of Python's pairs. -/
theorem monthIndex_lt_iff {year' month' : Nat} (h : IsMonth year month) (h' : IsMonth year' month') :
    monthIndex year month < monthIndex year' month' ↔ year < year' ∨ year = year' ∧ month < month' := by
  obtain ⟨_, hm, hm'⟩ := h
  obtain ⟨_, hn, hn'⟩ := h'
  unfold monthIndex
  omega

theorem indexed_isMonth (k : Nat) (hk : 12 ≤ k) : IsMonth (k / 12) (k % 12 + 1) := by
  refine ⟨?_, ?_, ?_⟩ <;> omega

theorem monthIndex_indexed (k : Nat) : monthIndex (k / 12) (k % 12 + 1) = k := by
  unfold monthIndex
  omega

theorem indexed_monthIndex (h : IsMonth year month) :
    monthIndex year month / 12 = year ∧ monthIndex year month % 12 + 1 = month := by
  obtain ⟨_, hm, hm'⟩ := h
  unfold monthIndex
  omega

theorem daysBefore_strictMono :
    StrictMono fun k => daysBefore ((k + 12) / 12) ((k + 12) % 12 + 1) := by
  refine strictMono_nat_of_lt_succ fun k => ?_
  have hmonth := indexed_isMonth (k + 12) (by omega)
  have hnext := daysBefore_next hmonth
  have hidx := monthIndex_next hmonth
  rw [monthIndex_indexed] at hidx
  obtain ⟨hy, hm⟩ := indexed_monthIndex hmonth.next
  rw [hidx] at hy hm
  have hstep : k + 1 + 12 = k + 12 + 1 := by omega
  have hpos := daysInMonth_pos ((k + 12) / 12) ((k + 12) % 12 + 1)
  simp only [hstep, hy, hm, hnext]
  omega

theorem daysBefore_le_iff {year' month' : Nat} (h : IsMonth year month) (h' : IsMonth year' month') :
    daysBefore year month ≤ daysBefore year' month' ↔ monthIndex year month ≤ monthIndex year' month' := by
  have hmono := daysBefore_strictMono.le_iff_le (a := monthIndex year month - 12) (b := monthIndex year' month' - 12)
  have hk : 12 ≤ monthIndex year month := by
    have := h.1
    unfold monthIndex
    omega
  have hk' : 12 ≤ monthIndex year' month' := by
    have := h'.1
    unfold monthIndex
    omega
  obtain ⟨hy, hm⟩ := indexed_monthIndex h
  obtain ⟨hy', hm'⟩ := indexed_monthIndex h'
  simp only [Nat.sub_add_cancel hk, Nat.sub_add_cancel hk', hy, hm, hy', hm'] at hmono
  rw [hmono]
  omega

/-! ## The month of a day -/

theorem daysBeforeMonth_estimate (leap : Bool) (n : Nat) (hn : n < 365 + if leap then 1 else 0) :
    let month := (n + 50) / 32
    let found := if daysBeforeMonth leap month > n then month - 1 else month
    1 ≤ found ∧ found ≤ 12 ∧ daysBeforeMonth leap found ≤ n ∧
      (found = 12 ∨ n < daysBeforeMonth leap (found + 1)) := by
  cases leap with
  | false => revert n; decide +kernel
  | true => revert n; decide +kernel

section Cycles
variable {a b c d : Nat}

theorem daysBeforeYear_cycles (hb : b < 4) (hc : c < 25) (hd : d < 4) :
    daysBeforeYear (a * 400 + 1 + b * 100 + c * 4 + d) = a * 146097 + b * 36524 + c * 1461 + d * 365 := by
  have h4 : (a * 400 + 1 + b * 100 + c * 4 + d - 1) / 4 = a * 100 + b * 25 + c := by omega
  have h100 : (a * 400 + 1 + b * 100 + c * 4 + d - 1) / 100 = a * 4 + b := by omega
  have h400 : (a * 400 + 1 + b * 100 + c * 4 + d - 1) / 400 = a := by omega
  simp only [daysBeforeYear, h4, h100, h400]
  omega

theorem isLeap_cycles (hb : b < 4) (hc : c < 25) (hd : d < 4) :
    isLeap (a * 400 + 1 + b * 100 + c * 4 + d) = decide (d = 3 ∧ (c ≠ 24 ∨ b = 3)) := by
  rw [Bool.eq_iff_iff, isLeap_iff, decide_eq_true_iff]
  have h4 : (a * 400 + 1 + b * 100 + c * 4 + d) % 4 = 0 ↔ d = 3 := by omega
  have h100 : (a * 400 + 1 + b * 100 + c * 4 + d) % 100 = 0 ↔ d = 3 ∧ c = 24 := by omega
  have h400 : (a * 400 + 1 + b * 100 + c * 4 + d) % 400 = 0 ↔ d = 3 ∧ c = 24 ∧ b = 3 := by omega
  rw [ne_eq, h4, h100, h400]
  tauto

end Cycles

/-- A day of the year lies in the month that the estimate finds. -/
theorem daysBefore_found {year n : Nat} (hy : 1 ≤ year) (hn : n < 365 + if isLeap year then 1 else 0) :
    let month := (n + 50) / 32
    let found := if daysBeforeMonth (isLeap year) month > n then month - 1 else month
    IsMonth year found ∧ daysBefore year found ≤ daysBeforeYear year + n ∧
      daysBeforeYear year + n < daysBefore year found + daysInMonth year found := by
  intro month found
  obtain ⟨hm, hm', hle, hlt⟩ := daysBeforeMonth_estimate (isLeap year) n hn
  have hmonth : IsMonth year found := ⟨hy, hm, hm'⟩
  refine ⟨hmonth, Nat.add_le_add_left hle _, ?_⟩
  rw [← daysBefore_next hmonth]
  by_cases h12 : found = 12
  · simp only [nextMonth, h12, if_true, daysBefore, daysBeforeYear_succ hy]
    have h1 : daysBeforeMonth (isLeap (year + 1)) 1 = 0 := by simp [daysBeforeMonth]
    omega
  · simp only [nextMonth, h12, if_false, daysBefore]
    have := hlt.resolve_left h12
    change n < daysBeforeMonth (isLeap year) (found + 1) at this
    omega

theorem daysBefore_last {year : Nat} (hleap : isLeap year = true) :
    daysBefore year 12 ≤ daysBeforeYear year + 365 ∧
      daysBeforeYear year + 365 < daysBefore year 12 + daysInMonth year 12 := by
  simp only [daysBefore, hleap, daysInMonth, daysBeforeMonth]
  simp

/-- The conversion of an ordinal day finds the month the day lies in. -/
theorem yearMonth_spec {ordinal : Nat} (h : 1 ≤ ordinal) :
    IsMonth (yearMonth ordinal).1 (yearMonth ordinal).2 ∧
      daysBefore (yearMonth ordinal).1 (yearMonth ordinal).2 < ordinal ∧
      ordinal ≤ daysBefore (yearMonth ordinal).1 (yearMonth ordinal).2 +
        daysInMonth (yearMonth ordinal).1 (yearMonth ordinal).2 := by
  obtain ⟨n, rfl⟩ : ∃ n, ordinal = n + 1 := ⟨ordinal - 1, by omega⟩
  obtain ⟨a, ha⟩ : ∃ a, a = n / 146097 := ⟨_, rfl⟩
  obtain ⟨b, hb⟩ : ∃ b, b = n % 146097 / 36524 := ⟨_, rfl⟩
  obtain ⟨c, hc⟩ : ∃ c, c = n % 146097 % 36524 / 1461 := ⟨_, rfl⟩
  obtain ⟨d, hd⟩ : ∃ d, d = n % 146097 % 36524 % 1461 / 365 := ⟨_, rfl⟩
  obtain ⟨r, hr⟩ : ∃ r, r = n % 146097 % 36524 % 1461 % 365 := ⟨_, rfl⟩
  have hn : n = a * 146097 + b * 36524 + c * 1461 + d * 365 + r := by omega
  have hr365 : r < 365 := by omega
  have hc25 : c < 25 := by omega
  simp only [yearMonth, Nat.add_sub_cancel, ← ha, ← hb, ← hc, ← hd, ← hr]
  split
  · next hlast =>
    -- the last day of a leap year overruns the cycle that ends with it
    by_cases hb4 : b = 4
    · have hzero : c = 0 ∧ d = 0 ∧ r = 0 := by omega
      obtain ⟨rfl, rfl, rfl⟩ := hzero
      have hyear : a * 400 + 1 + b * 100 + 0 * 4 + 0 - 1 = a * 400 + 1 + 3 * 100 + 24 * 4 + 3 := by omega
      have hleap : isLeap (a * 400 + 1 + 3 * 100 + 24 * 4 + 3) = true := by
        rw [isLeap_cycles (by omega) (by omega) (by omega)]
        decide
      have hdays := daysBeforeYear_cycles (a := a) (b := 3) (c := 24) (d := 3) (by omega) (by omega) (by omega)
      obtain ⟨hle, hlt⟩ := daysBefore_last hleap
      rw [hyear]
      dsimp only
      refine ⟨⟨?_, ?_, ?_⟩, ?_, ?_⟩ <;> omega
    · have hd4 : d = 4 := by omega
      have hb3 : b < 4 := by omega
      have hzero : r = 0 ∧ c < 24 := by omega
      have hyear : a * 400 + 1 + b * 100 + c * 4 + d - 1 = a * 400 + 1 + b * 100 + c * 4 + 3 := by omega
      have hleap : isLeap (a * 400 + 1 + b * 100 + c * 4 + 3) = true := by
        rw [isLeap_cycles hb3 hc25 (by omega), decide_eq_true_iff]
        exact ⟨rfl, .inl (by omega)⟩
      have hdays := daysBeforeYear_cycles (a := a) (b := b) (c := c) (d := 3) hb3 hc25 (by omega)
      obtain ⟨hle, hlt⟩ := daysBefore_last hleap
      rw [hyear]
      dsimp only
      refine ⟨⟨?_, ?_, ?_⟩, ?_, ?_⟩ <;> omega
  · next hlast =>
    have hb4 : b < 4 := by omega
    have hd4 : d < 4 := by omega
    have hdays := daysBeforeYear_cycles (a := a) hb4 hc25 hd4
    have hrest : r < 365 + if isLeap (a * 400 + 1 + b * 100 + c * 4 + d) then 1 else 0 := by omega
    have hfound := daysBefore_found (by omega) hrest
    rw [isLeap_cycles hb4 hc25 hd4] at hfound
    split
    · next hgt =>
      simp only [hgt, if_true] at hfound
      obtain ⟨hmonth, hle, hlt⟩ := hfound
      dsimp only
      exact ⟨hmonth, by omega, by omega⟩
    · next hgt =>
      simp only [hgt, if_false] at hfound
      obtain ⟨hmonth, hle, hlt⟩ := hfound
      dsimp only
      exact ⟨hmonth, by omega, by omega⟩

end ChessCrawl.Acquisition
