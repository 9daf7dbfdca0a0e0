import Mathlib.Data.List.Sort
import Mathlib.Tactic.Common

/-! Windows cut from the front of a sorted list: what stands in front of what, and the first row that passes a test. -/
namespace ChessCrawl.Lib
set_option autoImplicit false

section Sorted
variable {α : Type} (r : α → α → Prop) [DecidableRel r] [Std.Total r] [IsTrans α r] {xs : List α}

/-- Whatever a window leaves out comes behind it. -/
theorem take_insertionSort_le {n : Nat} {x g : α} (hx : x ∈ xs) (hout : x ∉ (xs.insertionSort r).take n)
    (hg : g ∈ (xs.insertionSort r).take n) : r g x := by
  have hsorted := List.pairwise_insertionSort r xs
  rw [← List.take_append_drop n (xs.insertionSort r), List.pairwise_append] at hsorted
  have hmem : x ∈ (xs.insertionSort r).take n ++ (xs.insertionSort r).drop n := by
    rw [List.take_append_drop]
    exact (List.mem_insertionSort r).mpr hx
  rcases List.mem_append.mp hmem with hin | hbehind
  · exact (hout hin).elim
  · exact hsorted.2.2 g hg x hbehind

/-- The first row that passes a test comes no later than any row that does. -/
theorem find?_insertionSort {p : α → Bool} {x : α} (hx : x ∈ xs) (hp : p x = true) :
    ∃ g, (xs.insertionSort r).find? p = some g ∧ r g x := by
  have hmem : x ∈ xs.insertionSort r := (List.mem_insertionSort r).mpr hx
  cases hfind : (xs.insertionSort r).find? p with
  | none => exact (List.find?_eq_none.mp hfind x hmem hp).elim
  | some g =>
    refine ⟨g, rfl, ?_⟩
    obtain ⟨_, before, after, heq, hbefore⟩ := List.find?_eq_some_iff_append.mp hfind
    have hsorted := List.pairwise_insertionSort r xs
    rw [heq] at hmem hsorted
    rcases List.mem_append.mp hmem with hin | hin
    · have := hbefore x hin
      rw [hp] at this
      cases this
    · rcases List.mem_cons.mp hin with rfl | hin
      · exact (Std.Total.total x x).elim id id
      · exact (List.pairwise_cons.mp (List.pairwise_append.mp hsorted).2.1).1 x hin

end Sorted

/-- Counting fewer rows, with one that is no longer counted. -/
theorem countP_lt {α : Type} {p q : α → Bool} {xs : List α} (h : ∀ x ∈ xs, p x = true → q x = true) {g : α}
    (hg : g ∈ xs) (hq : q g = true) (hp : p g = false) : xs.countP p < xs.countP q := by
  induction xs with
  | nil => cases hg
  | cons x xs ih =>
    have htail : ∀ y ∈ xs, p y = true → q y = true := fun y hy => h y (List.mem_cons_of_mem _ hy)
    have hle : xs.countP p ≤ xs.countP q := List.countP_mono_left htail
    rcases List.mem_cons.mp hg with rfl | hmem
    · rw [List.countP_cons_of_pos hq, List.countP_cons_of_neg (by simp [hp])]
      omega
    · have hlt := ih htail hmem
      rw [List.countP_cons, List.countP_cons]
      cases hpx : p x with
      | true =>
        rw [h x List.mem_cons_self hpx]
        simpa using hlt
      | false =>
        simp only [Bool.false_eq_true, if_false]
        omega

end ChessCrawl.Lib
