import Mathlib.Data.List.Basic
import Mathlib.Data.Option.Basic

/-! SQL conditions: truth values with unknown, which `NULL` is. A `WHERE` keeps the rows whose condition is true; a `CASE` of
negated conditions skips those that are false or unknown. The two agree when no condition is unknown. -/
namespace ChessCrawl.Lib
set_option autoImplicit false

/-- True, false or unknown. -/
abbrev Truth := Option Bool

namespace Truth

def and : Truth → Truth → Truth
  | some false, _ => some false
  | _, some false => some false
  | some true, t => t
  | none, _ => none

def or : Truth → Truth → Truth
  | some true, _ => some true
  | _, some true => some true
  | some false, t => t
  | none, _ => none

def not (t : Truth) : Truth := t.map Bool.not

/-- A comparison is unknown when one side is `NULL`. -/
def compare {α : Type} (r : α → α → Bool) (x y : Option α) : Truth := x.bind fun a => y.map fun b => r a b

def eq {α : Type} [DecidableEq α] (x y : Option α) : Truth := compare (fun a b => decide (a = b)) x y

def isNull {α : Type} (x : Option α) : Truth := some x.isNone

/-- `EXISTS (SELECT 1 FROM rows WHERE …)` -/
def any {α : Type} (rows : List α) (condition : α → Truth) : Truth :=
  some (rows.any fun r => decide (condition r = some true))

/-- Conditions joined by `AND`. -/
def conj (ts : List Truth) : Truth := ts.foldr and (some true)

/-- `CASE WHEN NOT (…) THEN … END`: the label of the first condition that is false. -/
def firstFailing {α : Type} : List (α × Truth) → Option α
  | [] => none
  | (label, t) :: rest => if t.not = some true then some label else firstFailing rest

@[simp] theorem and_true_iff {s t : Truth} : s.and t = some true ↔ s = some true ∧ t = some true := by
  rcases s with - | - | - <;> rcases t with - | - | - <;> simp [and]

@[simp] theorem or_true_iff {s t : Truth} : s.or t = some true ↔ s = some true ∨ t = some true := by
  rcases s with - | - | - <;> rcases t with - | - | - <;> simp [or]

theorem not_true_iff {t : Truth} : t.not = some true ↔ t = some false := by
  rcases t with - | - | - <;> simp [not]

theorem eq_true_iff {α : Type} [DecidableEq α] {a : α} {y : Option α} : eq (some a) y = some true ↔ some a = y := by
  cases y <;> simp [eq, compare]

theorem eq_true_iff' {α : Type} [DecidableEq α] {x : Option α} {b : α} : eq x (some b) = some true ↔ x = some b := by
  cases x <;> simp [eq, compare]

theorem eq_some {α : Type} [DecidableEq α] (a b : α) : eq (some a) (some b) = some (decide (a = b)) := rfl

theorem and_some (a b : Bool) : and (some a) (some b) = some (a && b) := by
  cases a <;> cases b <;> rfl

theorem or_some (a b : Bool) : or (some a) (some b) = some (a || b) := by
  cases a <;> cases b <;> rfl

theorem not_some (a : Bool) : not (some a) = some !a := rfl

theorem conj_true_iff {ts : List Truth} : conj ts = some true ↔ ∀ t ∈ ts, t = some true := by
  induction ts with
  | nil => simp [conj]
  | cons t ts ih =>
    rw [conj, List.foldr_cons, and_true_iff]
    simp only [List.mem_cons, forall_eq_or_imp]
    exact and_congr_right fun _ => ih

/-- A condition fails first only if it is one of the labels. -/
theorem firstFailing_mem {α : Type} {cs : List (α × Truth)} {label : α} (h : firstFailing cs = some label) :
    label ∈ cs.map Prod.fst := by
  induction cs with
  | nil => cases h
  | cons c cs ih =>
    obtain ⟨l, t⟩ := c
    unfold firstFailing at h
    split at h
    · cases h
      exact List.mem_cons_self
    · exact List.mem_cons_of_mem _ (ih h)

/-- Where no condition is unknown, none fails exactly when their conjunction is true. -/
theorem firstFailing_none_iff {α : Type} {cs : List (α × Truth)} (h : ∀ c ∈ cs, c.2.isSome) :
    firstFailing cs = none ↔ conj (cs.map Prod.snd) = some true := by
  rw [conj_true_iff]
  induction cs with
  | nil => simp [firstFailing]
  | cons c cs ih =>
    obtain ⟨l, t⟩ := c
    have hrest := ih fun c hc => h c (List.mem_cons_of_mem _ hc)
    have hknown : t.isSome := h (l, t) List.mem_cons_self
    simp only [List.map_cons, List.mem_cons, forall_eq_or_imp]
    rw [← hrest]
    show (if t.not = some true then some l else firstFailing cs) = none ↔ _
    rcases t with - | - | -
    · cases hknown
    · simp [not]
    · simp [not]

end Truth
end ChessCrawl.Lib
