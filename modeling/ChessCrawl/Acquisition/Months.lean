import ChessCrawl.Acquisition.Calendar

/-! Month selection: `_months_between` of `jobs/acquisition.py`, used by bounded imports, and `_month_bounds`
and `_month_overlaps` of `jobs/collection.py`, used by history imports. -/
namespace ChessCrawl.Acquisition
open ChessCrawl.Budget
set_option autoImplicit false

/-! ## Dates -/

/-- A calendar month. -/
structure Month where
  year : Nat
  month : Nat
  valid : IsMonth year month
deriving DecidableEq

def Month.pair (p : Month) : Nat × Nat := (p.year, p.month)

/-- `<=` of the pairs of year and month. -/
def Month.le (p q : Month) : Bool := p.year < q.year || p.year = q.year && p.month ≤ q.month

def Month.index (p : Month) : Nat := monthIndex p.year p.month

/-- `datetime.fromtimestamp(seconds, tz=UTC)`, of which only the year and the month are read. -/
def fromTimestamp (seconds : Int) : Except String Month :=
  if h : 1 ≤ seconds / 86400 + 719163 then
    let ordinal := (seconds / 86400 + 719163).toNat
    if (yearMonth ordinal).1 ≤ 9999 then
      .ok ⟨(yearMonth ordinal).1, (yearMonth ordinal).2, (yearMonth_spec (by omega)).1⟩
    else .error "year is out of range"
  else .error "year is out of range"

/-- `int(datetime(year, month, 1, tzinfo=UTC).timestamp())` -/
def firstOfMonth (year month : Nat) : Except String Int :=
  if ¬ (1 ≤ year ∧ year ≤ 9999) then .error "year is out of range"
  else if ¬ (1 ≤ month ∧ month ≤ 12) then .error "month must be in 1..12"
  else .ok (monthStart year month)

/-! ## Bounded imports -/

/-- The loop's `month += 1`, with January following month 12. -/
def Month.next (p : Month) : Month :=
  if h : p.month + 1 = 13 then ⟨p.year + 1, 1, by omega, by omega, by omega⟩
  else ⟨p.year, p.month + 1, p.valid.1, by omega, by have := p.valid.2.2; omega⟩

theorem Month.next_index (p : Month) : p.next.index = p.index + 1 := by
  obtain ⟨_, hm, hm'⟩ := p.valid
  unfold Month.next Month.index monthIndex
  split <;> dsimp only <;> omega

theorem Month.le_iff (p q : Month) : p.le q = true ↔ p.index ≤ q.index := by
  obtain ⟨_, hp, hp'⟩ := p.valid
  obtain ⟨_, hq, hq'⟩ := q.valid
  simp only [Month.le, Month.index, monthIndex, Bool.or_eq_true, Bool.and_eq_true, decide_eq_true_eq]
  omega

/-- The loop `while (year, month) <= (end.year, end.month)`. -/
def monthsFrom (p last : Month) : List (Nat × Nat) :=
  if p.le last then p.pair :: monthsFrom p.next last else []
termination_by last.index + 1 - p.index
decreasing_by
  rename_i h
  have := (p.le_iff last).mp h
  rw [p.next_index]
  omega

def monthsBetween (since until_ : Int) : Except String (List (Nat × Nat)) :=
  if since ≥ until_ then .error "since must be earlier than until"
  else do
    let start ← fromTimestamp since
    let last ← fromTimestamp (until_ - 1)
    return monthsFrom start last

/-! ## History imports -/

/-- The code points of the decimal digits zero: the pattern `\d` and `int` take the digits of every script. -/
def decimalZeros : List Nat :=
  [0x30, 0x660, 0x6f0, 0x7c0, 0x966, 0x9e6, 0xa66, 0xae6, 0xb66, 0xbe6, 0xc66, 0xce6, 0xd66, 0xde6, 0xe50, 0xed0,
    0xf20, 0x1040, 0x1090, 0x17e0, 0x1810, 0x1946, 0x19d0, 0x1a80, 0x1a90, 0x1b50, 0x1bb0, 0x1c40, 0x1c50, 0xa620,
    0xa8d0, 0xa900, 0xa9d0, 0xa9f0, 0xaa50, 0xabf0, 0xff10, 0x104a0, 0x10d30, 0x11066, 0x110f0, 0x11136, 0x111d0,
    0x112f0, 0x11450, 0x114d0, 0x11650, 0x116c0, 0x11730, 0x118e0, 0x11950, 0x11c50, 0x11d50, 0x11da0, 0x16a60,
    0x16ac0, 0x16b50, 0x1d7ce, 0x1d7d8, 0x1d7e2, 0x1d7ec, 0x1d7f6, 0x1e140, 0x1e2f0, 0x1e950, 0x1fbf0]

def decimalDigit (c : Char) : Option Nat :=
  (decimalZeros.find? fun z => decide (z ≤ c.toNat ∧ c.toNat < z + 10)).map fun z => c.toNat - z

/-- The year and the month of a text `YYYY/MM`. -/
def parseUnit (unit : String) : Option (Nat × Nat) :=
  match unit.toList with
  | [y₁, y₂, y₃, y₄, '/', m₁, m₂] => do
    let y₁ ← decimalDigit y₁
    let y₂ ← decimalDigit y₂
    let y₃ ← decimalDigit y₃
    let y₄ ← decimalDigit y₄
    let m₁ ← decimalDigit m₁
    let m₂ ← decimalDigit m₂
    return (y₁ * 1000 + y₂ * 100 + y₃ * 10 + y₄, m₁ * 10 + m₂)
  | _ => none

/-- Year, month and the first second after the month. The month 9999/12 has no representable end. -/
def monthBounds (unit : String) : Except String (Nat × Nat × Int) :=
  match parseUnit unit with
  | none => .error "monthly units must use YYYY/MM"
  | some (year, month) => do
    let _ ← firstOfMonth year month
    let stop ← firstOfMonth (nextMonth year month).1 (nextMonth year month).2
    return (year, month, stop)

def monthOverlaps (unit : String) (sinceMs untilMs : Option Int) : Except String Bool := do
  let (year, month, stop) ← monthBounds unit
  let start ← firstOfMonth year month
  return sinceMs.all (fun since => decide (stop * 1000 > since)) &&
    untilMs.all (fun until_ => decide (start * 1000 < until_))

example : monthBounds "2024/02" = .ok (2024, 2, 1709251200) := by decide +kernel
example : monthBounds "9999/12" = .error "year is out of range" := by decide +kernel

/-! ## The months that hold a second -/

/-- A second of the half-open UTC month. -/
def InMonth (year month : Nat) (seconds : Int) : Prop :=
  monthStart year month ≤ seconds ∧ seconds < monthStart year month + 86400 * daysInMonth year month

variable {year month : Nat}

theorem monthStart_next (h : IsMonth year month) :
    monthStart (nextMonth year month).1 (nextMonth year month).2 =
      monthStart year month + 86400 * daysInMonth year month := by
  rw [monthStart_eq, monthStart_eq, daysBefore_next h]
  push_cast
  omega

example : monthStart 1970 1 = 0 := by decide

theorem monthStart_le_iff {year' month' : Nat} (h : IsMonth year month) (h' : IsMonth year' month') :
    monthStart year month ≤ monthStart year' month' ↔ monthIndex year month ≤ monthIndex year' month' := by
  rw [monthStart_eq, monthStart_eq, ← daysBefore_le_iff h h']
  omega

/-- The months are cut at their starts: a second of one month decides against which starts it lies. -/
theorem InMonth.start_le_iff {year' month' : Nat} {seconds : Int} (h : IsMonth year month) (h' : IsMonth year' month')
    (hin : InMonth year month seconds) :
    monthStart year' month' ≤ seconds ↔ monthIndex year' month' ≤ monthIndex year month := by
  obtain ⟨hle, hlt⟩ := hin
  constructor
  · intro hs
    by_contra hgt
    rw [← monthStart_next h] at hlt
    have hnext := (monthStart_le_iff h.next h').mpr (by rw [monthIndex_next h]; omega)
    omega
  · intro hs
    have := (monthStart_le_iff h' h).mpr hs
    omega

theorem InMonth.lt_end_iff {year' month' : Nat} {seconds : Int} (h : IsMonth year month) (h' : IsMonth year' month')
    (hin : InMonth year month seconds) :
    seconds < monthStart (nextMonth year' month').1 (nextMonth year' month').2 ↔
      monthIndex year month ≤ monthIndex year' month' := by
  have hstart := hin.start_le_iff h h'.next
  rw [monthIndex_next h'] at hstart
  omega

/-- The conversion of a timestamp succeeds up to the last second of the year 9999 and finds its month. -/
theorem fromTimestamp_ok {seconds : Int} (h0 : 0 ≤ seconds) (hmax : seconds < 253402300800) :
    ∃ p : Month, fromTimestamp seconds = .ok p ∧ InMonth p.year p.month seconds := by
  have hday : 1 ≤ seconds / 86400 + 719163 := by omega
  obtain ⟨ordinal, hord⟩ : ∃ ordinal : Nat, (seconds / 86400 + 719163).toNat = ordinal := ⟨_, rfl⟩
  have hpos : 1 ≤ ordinal := by omega
  obtain ⟨hmonth, hlt, hle⟩ := yearMonth_spec hpos
  have hin : InMonth (yearMonth ordinal).1 (yearMonth ordinal).2 seconds := by
    unfold InMonth
    rw [monthStart_eq]
    omega
  have hlast : IsMonth 10000 1 := by decide
  have hyear : (yearMonth ordinal).1 ≤ 9999 := by
    by_contra hgt
    have hidx : monthIndex 10000 1 ≤ monthIndex (yearMonth ordinal).1 (yearMonth ordinal).2 := by
      unfold monthIndex
      omega
    have hstart := (hin.start_le_iff hmonth hlast).mpr hidx
    have hvalue : monthStart 10000 1 = 253402300800 := by decide
    omega
  refine ⟨⟨_, _, hmonth⟩, ?_, hin⟩
  unfold fromTimestamp
  rw [dif_pos hday]
  subst hord
  exact if_pos hyear

/-! ## The listed months -/

theorem monthsFrom_mem (p last : Month) (q : Month) :
    q.pair ∈ monthsFrom p last ↔ p.index ≤ q.index ∧ q.index ≤ last.index := by
  induction p using monthsFrom.induct last with
  | case1 p hle ih =>
    rw [monthsFrom, if_pos hle, List.mem_cons, ih, p.next_index]
    have hlast := (p.le_iff last).mp hle
    constructor
    · rintro (heq | ⟨hlt, hq⟩)
      · have hidx : q.index = p.index := by
          simp only [Month.pair, Prod.mk.injEq] at heq
          simp only [Month.index, heq.1, heq.2]
        omega
      · omega
    · rintro ⟨hp, hq⟩
      rcases Nat.lt_or_eq_of_le hp with hlt | heq
      · exact .inr ⟨hlt, hq⟩
      · obtain ⟨hy, hm⟩ := monthIndex_inj p.valid q.valid heq
        exact .inl (by simp only [Month.pair, hy, hm])
  | case2 p hle =>
    rw [monthsFrom, if_neg hle]
    rw [p.le_iff last] at hle
    simp only [List.not_mem_nil, false_iff]
    omega

theorem monthsFrom_valid (p last : Month) {q : Nat × Nat} (hq : q ∈ monthsFrom p last) : IsMonth q.1 q.2 := by
  induction p using monthsFrom.induct last with
  | case1 p hle ih =>
    rw [monthsFrom, if_pos hle, List.mem_cons] at hq
    rcases hq with rfl | hq
    · exact p.valid
    · exact ih hq
  | case2 p hle =>
    rw [monthsFrom, if_neg hle] at hq
    cases hq

/-- The order of the pairs, `<` as Python compares them. -/
def pairLt (p q : Nat × Nat) : Prop := p.1 < q.1 ∨ p.1 = q.1 ∧ p.2 < q.2

theorem monthsFrom_ascending (p last : Month) : (monthsFrom p last).Pairwise pairLt := by
  induction p using monthsFrom.induct last with
  | case1 p hle ih =>
    rw [monthsFrom, if_pos hle, List.pairwise_cons]
    refine ⟨fun q hq => ?_, ih⟩
    have hvalid := monthsFrom_valid _ _ hq
    have hmem := (monthsFrom_mem p.next last ⟨q.1, q.2, hvalid⟩).mp hq
    rw [p.next_index] at hmem
    exact (monthIndex_lt_iff p.valid hvalid).mp hmem.1
  | case2 p hle =>
    rw [monthsFrom, if_neg hle]
    exact List.Pairwise.nil

theorem pairLt_ne {p q : Nat × Nat} (h : pairLt p q) : p ≠ q := by
  rintro rfl
  unfold pairLt at h
  omega

/-- The months of a window are those that hold one of its seconds. -/
theorem monthsFrom_window {since until_ : Int} {first last : Month}
    (hfirst : InMonth first.year first.month since) (hlast : InMonth last.year last.month (until_ - 1))
    (h : IsMonth year month) :
    (year, month) ∈ monthsFrom first last ↔
      since < monthStart (nextMonth year month).1 (nextMonth year month).2 ∧ monthStart year month < until_ := by
  have hmem := monthsFrom_mem first last ⟨year, month, h⟩
  have hend := hfirst.lt_end_iff first.valid h
  have hstart := hlast.start_le_iff last.valid h
  simp only [Month.pair, Month.index] at hmem
  rw [hmem, hend, ← hstart]
  omega

theorem window_second {since until_ : Int} (hlt : since < until_) (h : IsMonth year month) :
    (since < monthStart (nextMonth year month).1 (nextMonth year month).2 ∧ monthStart year month < until_) ↔
      ∃ seconds, since ≤ seconds ∧ seconds < until_ ∧ InMonth year month seconds := by
  have hnext := monthStart_next h
  have hpos := daysInMonth_pos year month
  unfold InMonth
  constructor
  · rintro ⟨hend, hstart⟩
    exact ⟨max since (monthStart year month), by omega, by omega, by omega, by omega⟩
  · rintro ⟨seconds, hs, hu, hle, hlt'⟩
    omega

theorem firstOfMonth_ok {start : Int} (h : firstOfMonth year month = .ok start) :
    IsMonth year month ∧ start = monthStart year month := by
  unfold firstOfMonth at h
  split at h
  · cases h
  · split at h
    · cases h
    · cases h
      unfold IsMonth
      refine ⟨?_, rfl⟩
      omega

theorem monthBounds_ok {unit : String} {stop : Int} (h : monthBounds unit = .ok (year, month, stop)) :
    firstOfMonth year month = .ok (monthStart year month) ∧ IsMonth year month ∧
      stop = monthStart (nextMonth year month).1 (nextMonth year month).2 := by
  unfold monthBounds at h
  split at h
  · cases h
  · next y m _ =>
    cases hfirst : firstOfMonth y m with
    | error e => rw [hfirst] at h; cases h
    | ok start =>
      cases hnext : firstOfMonth (nextMonth y m).1 (nextMonth y m).2 with
      | error e => rw [hfirst, hnext] at h; cases h
      | ok stop' =>
        rw [hfirst, hnext] at h
        cases h
        obtain ⟨hmonth, rfl⟩ := firstOfMonth_ok hfirst
        exact ⟨hfirst, hmonth, (firstOfMonth_ok hnext).2⟩

theorem monthOverlaps_bounds {unit : String} {stop : Int} (h : monthBounds unit = .ok (year, month, stop))
    (sinceMs untilMs : Int) :
    monthOverlaps unit (some sinceMs) (some untilMs) = .ok true ↔
      stop * 1000 > sinceMs ∧ monthStart year month * 1000 < untilMs := by
  unfold monthOverlaps
  rw [h]
  simp only [bind, Except.bind, pure, Except.pure, (monthBounds_ok h).1]
  simp

/-- Both acquisition paths select the same months: the list of a bounded import is strictly ascending and
holds exactly the calendar months with a second in the window, and a month whose bounds the history import
accepts is in the list exactly when the history import lets it overlap the window. -/
theorem month_selection_agrees (since until_ : Int) (h0 : 0 ≤ since) (hlt : since < until_)
    (hmax : until_ ≤ 253402300800) :
    ∃ months, monthsBetween since until_ = .ok months ∧ months.Pairwise pairLt ∧ months.Nodup ∧
      (∀ year month, (year, month) ∈ months ↔
        IsMonth year month ∧ ∃ seconds, since ≤ seconds ∧ seconds < until_ ∧ InMonth year month seconds) ∧
      ∀ unit year month stop, monthBounds unit = .ok (year, month, stop) →
        ((year, month) ∈ months ↔ monthOverlaps unit (some (since * 1000)) (some (until_ * 1000)) = .ok true) := by
  obtain ⟨first, hfirst, hin⟩ := fromTimestamp_ok h0 (by omega)
  have h1 : 0 ≤ until_ - 1 := by omega
  obtain ⟨last, hlast, hinLast⟩ := fromTimestamp_ok h1 (by omega)
  have hasc := monthsFrom_ascending first last
  refine ⟨monthsFrom first last, ?_, hasc, hasc.imp pairLt_ne, fun year month => ?_, fun unit year month stop h => ?_⟩
  · rw [monthsBetween, if_neg (by omega), hfirst, hlast]
    rfl
  · constructor
    · intro hmem
      have hvalid := monthsFrom_valid first last hmem
      exact ⟨hvalid, (window_second hlt hvalid).mp ((monthsFrom_window hin hinLast hvalid).mp hmem)⟩
    · rintro ⟨hvalid, hsecond⟩
      exact (monthsFrom_window hin hinLast hvalid).mpr ((window_second hlt hvalid).mpr hsecond)
  · obtain ⟨_, hvalid, hstop⟩ := monthBounds_ok h
    rw [monthsFrom_window hin hinLast hvalid, monthOverlaps_bounds h, hstop]
    omega

/-- The whole range of the validated timestamps, with the last representable month. -/
theorem month_selection_agrees_through_9999 :
    ∃ months, monthsBetween 0 253402300800 = .ok months ∧ (9999, 12) ∈ months ∧ (10000, 1) ∉ months := by
  obtain ⟨months, hok, _, _, hmem, _⟩ := month_selection_agrees 0 253402300800 (by decide) (by decide) (by decide)
  have hstart : monthStart 9999 12 = 253399622400 := by decide
  have hstop : monthStart 10000 1 = 253402300800 := by decide
  refine ⟨months, hok, (hmem 9999 12).mpr ⟨by decide, 253399622400, by decide, by decide, ?_, ?_⟩, fun h => ?_⟩
  · omega
  · have : daysInMonth 9999 12 = 31 := by decide
    omega
  · obtain ⟨_, seconds, _, hlt, hle, _⟩ := (hmem 10000 1).mp h
    omega

end ChessCrawl.Acquisition
