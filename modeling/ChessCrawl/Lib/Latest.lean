import Mathlib.Data.List.Induction
import Mathlib.Order.Defs.LinearOrder
import Mathlib.Tactic.Common
import Mathlib.Order.Lattice

/-! A register that a write replaces unless its rank is below the rank of what it holds. It holds the latest among the
writes of the greatest rank. -/
namespace ChessCrawl.Lib
set_option autoImplicit false

variable {α β : Type} [LinearOrder β] (rank : α → β)

/-- The register after a write. -/
def keepLatest : Option α → α → Option α
  | none, a => some a
  | some old, a => if rank old ≤ rank a then some a else some old

/-- The latest of the greatest rank. -/
structure IsLatest (xs : List α) (c : α) : Prop where
  split : ∃ before after, xs = before ++ c :: after ∧ (∀ b ∈ before, rank b ≤ rank c) ∧ ∀ a ∈ after, rank a < rank c

variable {rank}

theorem IsLatest.le {xs : List α} {c : α} (h : IsLatest rank xs c) : ∀ x ∈ xs, rank x ≤ rank c := by
  obtain ⟨before, after, rfl, hbefore, hafter⟩ := h.split
  intro x hx
  rcases List.mem_append.mp hx with hx | hx
  · exact hbefore x hx
  · rcases List.mem_cons.mp hx with rfl | hx
    · exact le_refl _
    · exact le_of_lt (hafter x hx)

theorem IsLatest.mem {xs : List α} {c : α} (h : IsLatest rank xs c) : c ∈ xs := by
  obtain ⟨before, after, rfl, _⟩ := h.split
  exact List.mem_append_right _ List.mem_cons_self

theorem foldl_keepLatest_concat (xs : List α) (x : α) :
    (xs ++ [x]).foldl (keepLatest rank) none = keepLatest rank (xs.foldl (keepLatest rank) none) x := by
  rw [List.foldl_append]
  rfl

/-- What a register holds after its writes. -/
theorem foldl_keepLatest (rank : α → β) (xs : List α) :
    (xs.foldl (keepLatest rank) none = none → xs = []) ∧
      ∀ c, xs.foldl (keepLatest rank) none = some c → IsLatest rank xs c := by
  induction xs using List.reverseRecOn with
  | nil => exact ⟨fun _ => rfl, nofun⟩
  | append_singleton xs x ih =>
    rw [foldl_keepLatest_concat]
    cases hold : xs.foldl (keepLatest rank) none with
    | none =>
      rw [ih.1 hold]
      refine ⟨nofun, ?_⟩
      rintro c ⟨⟩
      exact ⟨[], [], rfl, nofun, nofun⟩
    | some old =>
      have hlatest := ih.2 old hold
      unfold keepLatest
      dsimp only
      split
      · next hle =>
        refine ⟨nofun, ?_⟩
        rintro c ⟨⟩
        exact ⟨xs, [], rfl, fun b hb => le_trans (hlatest.le b hb) hle, nofun⟩
      · next hlt =>
        refine ⟨nofun, ?_⟩
        rintro c ⟨⟩
        obtain ⟨before, after, rfl, hbefore, hafter⟩ := hlatest.split
        refine ⟨before, after ++ [x], by simp, hbefore, fun a ha => ?_⟩
        rcases List.mem_append.mp ha with ha | ha
        · exact hafter a ha
        · rw [List.mem_singleton.mp ha]
          exact lt_of_not_ge hlt

end ChessCrawl.Lib
