import Mathlib.Data.List.Basic
import Mathlib.Order.Defs.Unbundled
import Mathlib.Tactic.Common

/-! Lists of parties of which any two stand in a symmetric relation. A step replaces one party and
has to check it only against the others. -/
namespace ChessCrawl.Lib
set_option autoImplicit false

variable {α : Type}

/-- Any two entries at different positions are related. -/
def Apart (R : α → α → Prop) (xs : List α) : Prop :=
  ∀ (i j : Nat) (x y : α), xs[i]? = some x → xs[j]? = some y → i ≠ j → R x y

theorem mem_eraseIdx_of_ne {xs : List α} {i j : Nat} {y : α} (hy : xs[j]? = some y) (hne : j ≠ i) :
    y ∈ xs.eraseIdx i :=
  List.mem_eraseIdx_iff_getElem?.mpr ⟨j, hne, hy⟩

theorem Apart.of_mem_eraseIdx {R : α → α → Prop} {xs : List α} (h : Apart R xs) {i : Nat} {x y : α}
    (hx : xs[i]? = some x) (hy : y ∈ xs.eraseIdx i) : R x y := by
  obtain ⟨j, hne, hj⟩ := List.mem_eraseIdx_iff_getElem?.mp hy
  exact h i j x y hx hj (Ne.symm hne)

/-- An entry of the updated list is the new one at its place or an old one elsewhere. -/
theorem getElem?_set_cases {xs : List α} {i j : Nat} {x y : α} (h : (xs.set i x)[j]? = some y) :
    (j = i ∧ y = x) ∨ (j ≠ i ∧ xs[j]? = some y) := by
  by_cases hij : j = i
  · subst hij
    rw [List.getElem?_set_self'] at h
    obtain ⟨_, _, hxy⟩ := Option.map_eq_some_iff.mp h
    exact .inl ⟨rfl, hxy.symm⟩
  · rw [List.getElem?_set_ne (Ne.symm hij)] at h
    exact .inr ⟨hij, h⟩

theorem Apart.set {R : α → α → Prop} (hsymm : ∀ x y, R x y → R y x) {xs : List α} (h : Apart R xs)
    {i : Nat} {x : α} (hx : ∀ y ∈ xs.eraseIdx i, R x y) : Apart R (xs.set i x) := by
  intro a b u v hu hv hab
  rcases getElem?_set_cases hu with ⟨ha, rfl⟩ | ⟨ha, hu'⟩
  · rcases getElem?_set_cases hv with ⟨hb, _⟩ | ⟨hb, hv'⟩
    · exact absurd (ha.trans hb.symm) hab
    · exact hx v (mem_eraseIdx_of_ne hv' hb)
  · rcases getElem?_set_cases hv with ⟨_, rfl⟩ | ⟨hb, hv'⟩
    · exact hsymm _ _ (hx u (mem_eraseIdx_of_ne hu' ha))
    · exact h a b u v hu' hv' hab

theorem Apart.append {R : α → α → Prop} (hsymm : ∀ x y, R x y → R y x) {xs : List α} (h : Apart R xs)
    {x : α} (hx : ∀ y ∈ xs, R x y) : Apart R (xs ++ [x]) := by
  have split : ∀ {a : Nat} {u : α}, (xs ++ [x])[a]? = some u → xs[a]? = some u ∨ (a = xs.length ∧ u = x) := by
    intro a u hu
    rw [List.getElem?_append] at hu
    split at hu
    · exact .inl hu
    · next hge =>
      have hlt := (List.getElem?_eq_some_iff.mp hu).1
      simp only [List.length_singleton] at hlt
      have ha : a - xs.length = 0 := by omega
      rw [ha] at hu
      cases hu
      exact .inr ⟨by omega, rfl⟩
  intro a b u v hu hv hab
  rcases split hu with hu' | ⟨ha, rfl⟩
  · rcases split hv with hv' | ⟨_, rfl⟩
    · exact h a b u v hu' hv' hab
    · exact hsymm _ _ (hx u (List.mem_of_getElem? hu'))
  · rcases split hv with hv' | ⟨hb, _⟩
    · exact hx v (List.mem_of_getElem? hv')
    · omega

end ChessCrawl.Lib
