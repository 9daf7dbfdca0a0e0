import Mathlib.Combinatorics.SimpleGraph.Metric

/-! Distances from a vertex as bounds. A labelling that starts at the vertex, is never below the distance and
is closed under edges up to a horizon is the distance there, in whatever order its bounds were found. -/
namespace ChessCrawl.Lib
set_option autoImplicit false

variable {V : Type} {G : SimpleGraph V} {s v x : V} {n : ℕ}

theorem edist_adj_le (h : G.edist s v ≤ n) (hadj : G.Adj v x) : G.edist s x ≤ (n + 1 : ℕ) := by
  calc G.edist s x ≤ G.edist s v + G.edist v x := SimpleGraph.edist_triangle
    _ = G.edist s v + 1 := by rw [SimpleGraph.edist_eq_one_iff_adj.mpr hadj]
    _ ≤ n + 1 := by gcongr
    _ = (n + 1 : ℕ) := by push_cast; rfl

/-- The last edge of a shortest walk. -/
theorem edist_succ_le (h : G.edist s x ≤ (n + 1 : ℕ)) : G.edist s x ≤ n ∨ ∃ v, G.edist s v ≤ n ∧ G.Adj v x := by
  have hne : G.edist s x ≠ ⊤ := fun htop => by
    rw [htop] at h
    exact absurd h (by simp)
  obtain ⟨p, hp⟩ := SimpleGraph.exists_walk_of_edist_ne_top hne
  have hlen : p.reverse.length ≤ n + 1 := by
    rw [SimpleGraph.Walk.length_reverse]
    rw [← hp] at h
    exact_mod_cast h
  generalize p.reverse = q at hlen
  cases q with
  | nil =>
    left
    simp
  | cons hadj q =>
    right
    refine ⟨_, ?_, hadj.symm⟩
    rw [SimpleGraph.edist_comm]
    refine le_trans (SimpleGraph.edist_le q) ?_
    simp only [SimpleGraph.Walk.length_cons] at hlen
    exact_mod_cast Nat.le_of_succ_le_succ hlen

section Labelling
variable {K : V → ℕ → Prop} {D : ℕ}

/-- Every bound that a distance meets within the horizon is known. -/
theorem known_of_edist_le (hmono : ∀ v n m, K v n → n ≤ m → K v m) (hroot : K s 0)
    (hclosed : ∀ v n, K v n → n + 1 ≤ D → ∀ x, G.Adj v x → K x (n + 1)) :
    ∀ n, n ≤ D → ∀ x, G.edist s x ≤ n → K x n := by
  intro n
  induction n with
  | zero =>
    intro _ x hx
    have hzero : G.edist s x = 0 := by simpa using hx
    rw [← SimpleGraph.edist_eq_zero_iff.mp hzero]
    exact hroot
  | succ n ih =>
    intro hn x hx
    rcases edist_succ_le hx with hle | ⟨v, hv, hadj⟩
    · exact hmono x n (n + 1) (ih (by omega) x hle) (Nat.le_succ n)
    · exact hclosed v n (ih (by omega) v hv) hn x hadj

end Labelling
end ChessCrawl.Lib
