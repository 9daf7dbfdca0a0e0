import Mathlib.Data.List.Dedup
import Mathlib.Data.List.Nodup
import Mathlib.Data.List.Perm.Subperm

/-! Worklists in increasing order that are passed in batches behind a durable cursor: the entries up to the cursor are
finished, and a batch is the next few entries behind it. -/
namespace ChessCrawl.Lib
set_option autoImplicit false

variable {work : List Nat}

/-- The entries up to a cursor. -/
def passed (work : List Nat) (cursor : Nat) : List Nat := work.filter fun x => decide (x ≤ cursor)

/-- The next entries behind a cursor. -/
def batchOf (work : List Nat) (cursor size : Nat) : List Nat := (work.filter fun x => decide (cursor < x)).take size

theorem mem_passed {cursor x : Nat} : x ∈ passed work cursor ↔ x ∈ work ∧ x ≤ cursor := by
  simp [passed]

theorem nodup_passed (hs : work.Pairwise (· < ·)) (cursor : Nat) : (passed work cursor).Nodup :=
  (hs.imp fun h => Nat.ne_of_lt h).filter _

theorem mem_of_mem_batchOf {cursor size x : Nat} (h : x ∈ batchOf work cursor size) : x ∈ work ∧ cursor < x := by
  simpa using List.mem_of_mem_take h

/-- What comes before an entry of a batch is behind the cursor or earlier in the batch. -/
theorem batchOf_before (hs : work.Pairwise (· < ·)) {cursor size x y : Nat} {done rest : List Nat}
    (hb : batchOf work cursor size = done ++ x :: rest) (hy : y ∈ work) (hyx : y < x) : y ≤ cursor ∨ y ∈ done := by
  by_cases hcursor : y ≤ cursor
  · exact Or.inl hcursor
  · right
    have hsorted : (work.filter fun x => decide (cursor < x)).Pairwise (· < ·) := hs.filter _
    have hmem : y ∈ work.filter fun x => decide (cursor < x) := by
      simpa using ⟨hy, Nat.lt_of_not_le hcursor⟩
    rw [← List.take_append_drop size (work.filter fun x => decide (cursor < x))] at hsorted hmem
    rw [show (work.filter fun x => decide (cursor < x)).take size = done ++ x :: rest from hb, List.append_assoc,
      List.cons_append] at hsorted hmem
    obtain hdone | hlater := List.mem_append.mp hmem
    · exact hdone
    · obtain rfl | hlater := List.mem_cons.mp hlater
      · omega
      · have := (List.pairwise_cons.mp (List.pairwise_append.mp hsorted).2.1).1 y hlater
        omega

/-- A batch that is not full is all that is left. -/
theorem batchOf_all {cursor size y : Nat} (hb : (batchOf work cursor size).length < size) (hy : y ∈ work) :
    y ≤ cursor ∨ y ∈ batchOf work cursor size := by
  by_cases hcursor : y ≤ cursor
  · exact Or.inl hcursor
  · right
    have hmem : y ∈ work.filter fun x => decide (cursor < x) := by
      simpa using ⟨hy, Nat.lt_of_not_le hcursor⟩
    unfold batchOf at hb ⊢
    rw [List.length_take] at hb
    rw [List.take_of_length_le (by omega)]
    exact hmem

/-- The cursor moves to the next entry. -/
theorem passed_next (hs : work.Pairwise (· < ·)) {cursor x : Nat} (hx : x ∈ work) (hlt : cursor < x)
    (hbefore : ∀ y ∈ work, y < x → y ≤ cursor) : (passed work x).length = (passed work cursor).length + 1 := by
  have hperm : (passed work x).Perm (x :: passed work cursor) := by
    refine (List.perm_ext_iff_of_nodup (nodup_passed hs x) ?_).mpr fun y => ?_
    · refine List.nodup_cons.mpr ⟨fun h => ?_, nodup_passed hs cursor⟩
      have := (mem_passed.mp h).2
      omega
    · rw [mem_passed, List.mem_cons, mem_passed]
      constructor
      · rintro ⟨hy, hle⟩
        by_cases hyx : y = x
        · exact Or.inl hyx
        · exact Or.inr ⟨hy, hbefore y hy (by omega)⟩
      · rintro (rfl | ⟨hy, hle⟩)
        · exact ⟨hx, Nat.le_refl _⟩
        · exact ⟨hy, by omega⟩
  rw [hperm.length_eq, List.length_cons]

/-- A log of entries that holds all up to the cursor, and of the others at most the next one. -/
theorem distinct_near (hs : work.Pairwise (· < ·)) {cursor : Nat} {log : List Nat}
    (hall : ∀ x ∈ passed work cursor, x ∈ log) (hlog : ∀ x ∈ log, x ∈ work ∧ ∀ y ∈ work, cursor < y → x ≤ y) :
    (passed work cursor).length ≤ log.dedup.length ∧ log.dedup.length ≤ (passed work cursor).length + 1 := by
  constructor
  · exact (List.subperm_of_subset (nodup_passed hs cursor) fun x hx => List.mem_dedup.mpr (hall x hx)).length_le
  · -- The entries of the log behind the cursor are all the same.
    have hone : ∀ x ∈ log, ∀ y ∈ log, cursor < x → cursor < y → x = y := by
      intro x hx y hy hcx hcy
      have h1 := (hlog x hx).2 y (hlog y hy).1 hcy
      have h2 := (hlog y hy).2 x (hlog x hx).1 hcx
      omega
    by_cases hnext : ∃ x ∈ log, cursor < x
    · obtain ⟨x, hx, hcx⟩ := hnext
      have hsub : log.dedup ⊆ x :: passed work cursor := by
        intro y hy
        have hy := List.mem_dedup.mp hy
        by_cases hcy : cursor < y
        · rw [hone y hy x hx hcy hcx]
          exact List.mem_cons_self
        · exact List.mem_cons_of_mem _ (mem_passed.mpr ⟨(hlog y hy).1, by omega⟩)
      exact (List.subperm_of_subset (List.nodup_dedup log) hsub).length_le
    · have hsub : log.dedup ⊆ passed work cursor := by
        intro y hy
        have hy := List.mem_dedup.mp hy
        refine mem_passed.mpr ⟨(hlog y hy).1, ?_⟩
        by_contra hcy
        exact hnext ⟨y, hy, by omega⟩
      exact Nat.le_succ_of_le (List.subperm_of_subset (List.nodup_dedup log) hsub).length_le

/-- A log of all entries and no others counts them. -/
theorem distinct_all (hs : work.Pairwise (· < ·)) {log : List Nat} (h : ∀ x, x ∈ log ↔ x ∈ work) :
    log.dedup.length = work.length := by
  have hnodup : work.Nodup := hs.imp fun h => Nat.ne_of_lt h
  refine ((List.perm_ext_iff_of_nodup (List.nodup_dedup log) hnodup).mpr fun x => ?_).length_eq
  rw [List.mem_dedup]
  exact h x

/-! ## Rounds -/

/-- Rounds of which each finishes its entry and adds none, over states that only grow, finish a batch of entries that are
all ready at its start. -/
theorem foldlM_finishes {σ ε : Type} {f : σ → ε → Option σ} {I : σ → Prop} (grows : σ → σ → Prop) (ready : σ → ε → Prop)
    (left : σ → Nat → Prop) (key : ε → Nat) (hrefl : ∀ s, grows s s)
    (htrans : ∀ s t u, grows s t → grows t u → grows s u) (hready : ∀ s t e, grows s t → ready s e → ready t e)
    (hround : ∀ s e, I s → ready s e → ∃ t, f s e = some t ∧ I t ∧ grows s t ∧ ∀ k, left t k → left s k ∧ k ≠ key e)
    {es : List ε} {s : σ} (hs : I s) (hes : ∀ e ∈ es, ready s e) :
    ∃ t, es.foldlM f s = some t ∧ I t ∧ grows s t ∧ ∀ k, left t k → left s k ∧ k ∉ es.map key := by
  induction es generalizing s with
  | nil => exact ⟨s, rfl, hs, hrefl s, fun k hk => ⟨hk, by simp⟩⟩
  | cons e es ih =>
    obtain ⟨u, hu, hI, hgrows, hleft⟩ := hround s e hs (hes e List.mem_cons_self)
    obtain ⟨t, ht, hI', hgrows', hleft'⟩ := ih hI fun e' he' =>
      hready s u e' hgrows (hes e' (List.mem_cons_of_mem _ he'))
    refine ⟨t, ?_, hI', htrans s u t hgrows hgrows', fun k hk => ?_⟩
    · rw [List.foldlM_cons, hu]
      exact ht
    · obtain ⟨hk, hrest⟩ := hleft' k hk
      obtain ⟨hk, hne⟩ := hleft k hk
      exact ⟨hk, by simpa [hne] using hrest⟩

/-- What is left has lost a whole batch. -/
theorem length_left {rest batch : List Nat} (hrest : rest.Nodup) (hbatch : batch.Nodup) (hwork : ∀ x ∈ batch, x ∈ work)
    (h : ∀ x ∈ rest, x ∈ work ∧ x ∉ batch) : rest.length + batch.length ≤ work.length := by
  have hnodup : (rest ++ batch).Nodup := List.nodup_append.mpr ⟨hrest, hbatch, by
    rintro x hx y hy rfl
    exact (h x hx).2 hy⟩
  have hsubset : rest ++ batch ⊆ work := fun x hx => (List.mem_append.mp hx).elim (fun hx => (h x hx).1) (hwork x)
  simpa using (hnodup.subperm hsubset).length_le

end ChessCrawl.Lib
