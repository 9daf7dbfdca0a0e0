import Mathlib.Data.List.Basic
import Mathlib.Tactic.Common

/-! Covers of a list by slices: spans in order, with nothing but blanks between them. -/
namespace ChessCrawl.Lib
set_option autoImplicit false

variable {α : Type}

/-- `xs[a:b]` for `0 ≤ a ≤ b`. -/
def slice (xs : List α) (a b : Nat) : List α := (xs.take b).drop a

theorem slice_self (xs : List α) (a : Nat) : slice xs a a = [] := by
  simp [slice]

theorem slice_append {xs : List α} {a b c : Nat} (hab : a ≤ b) (hbc : b ≤ c) :
    slice xs a b ++ slice xs b c = slice xs a c := by
  have htake : xs.take b = (xs.take c).take b := by
    rw [List.take_take, Nat.min_eq_left hbc]
  unfold slice
  rw [htake]
  obtain ⟨d, rfl⟩ := Nat.exists_eq_add_of_le hab
  rw [← List.drop_drop, List.drop_take, Nat.add_sub_cancel_left, List.take_append_drop]

theorem slice_full (xs : List α) : slice xs 0 xs.length = xs := by
  simp [slice]

theorem getElem?_slice {xs : List α} {a b k : Nat} (hak : a ≤ k) (hkb : k < b) (hk : k < xs.length) :
    xs[k] ∈ slice xs a b := by
  have hlen : k - a < (slice xs a b).length := by
    simp only [slice, List.length_drop, List.length_take]
    omega
  have hget : (slice xs a b)[k - a] = xs[k] := by
    simp only [slice, List.getElem_drop, List.getElem_take]
    congr 1
    omega
  rw [← hget]
  exact List.getElem_mem hlen

/-- The spans lead from `a` to `b` in order, and what they leave out is blank. -/
def Covers (blank : α → Bool) (xs : List α) : Nat → List (Nat × Nat) → Nat → Prop
  | a, [], b => a ≤ b ∧ ∀ c ∈ slice xs a b, blank c = true
  | a, (i, j) :: spans, b => a ≤ i ∧ i ≤ j ∧ (∀ c ∈ slice xs a i, blank c = true) ∧ Covers blank xs j spans b

variable {blank : α → Bool} {xs : List α} {a b : Nat} {spans : List (Nat × Nat)}

theorem Covers.le (h : Covers blank xs a spans b) : a ≤ b := by
  induction spans generalizing a with
  | nil => exact h.1
  | cons p spans ih =>
    have := ih h.2.2.2
    have := h.1
    have := h.2.1
    omega

theorem Covers.append {c : Nat} {more : List (Nat × Nat)} (h : Covers blank xs a spans b)
    (h' : Covers blank xs b more c) : Covers blank xs a (spans ++ more) c := by
  induction spans generalizing a with
  | nil =>
    obtain ⟨hle, hblank⟩ := h
    cases more with
    | nil =>
      refine ⟨Nat.le_trans hle h'.1, fun x hx => ?_⟩
      rw [← slice_append hle h'.1, List.mem_append] at hx
      exact hx.elim (hblank x) (h'.2 x)
    | cons p more =>
      obtain ⟨i, j⟩ := p
      obtain ⟨hbi, hij, hgap, hrest⟩ := h'
      refine ⟨Nat.le_trans hle hbi, hij, fun x hx => ?_, hrest⟩
      rw [← slice_append hle hbi, List.mem_append] at hx
      exact hx.elim (hblank x) (hgap x)
  | cons p spans ih => exact ⟨h.1, h.2.1, h.2.2.1, ih h.2.2.2⟩

/-- What the spans hold and what the list holds differ by blanks. -/
theorem Covers.filter (h : Covers blank xs a spans b) :
    ((spans.map fun p => slice xs p.1 p.2).flatten).filter (fun c => !blank c) =
      (slice xs a b).filter fun c => !blank c := by
  have hnil : ∀ ys : List α, (∀ c ∈ ys, blank c = true) → ys.filter (fun c => !blank c) = [] := by
    intro ys hys
    refine List.filter_eq_nil_iff.mpr fun c hc => ?_
    simp [hys c hc]
  induction spans generalizing a with
  | nil => rw [List.map_nil, List.flatten_nil, List.filter_nil, hnil _ h.2]
  | cons p spans ih =>
    obtain ⟨hai, hij, hgap, hrest⟩ := h
    rw [List.map_cons, List.flatten_cons, List.filter_append, ih hrest,
      ← slice_append hai (Nat.le_trans hij hrest.le), ← slice_append hij hrest.le, List.filter_append,
      List.filter_append, hnil _ hgap, List.nil_append]

/-- Spans in order, each after the one before. -/
theorem Covers.sorted (h : Covers blank xs a spans b) :
    (∀ p ∈ spans, a ≤ p.1 ∧ p.1 ≤ p.2 ∧ p.2 ≤ b) ∧ spans.Pairwise fun p q => p.2 ≤ q.1 := by
  induction spans generalizing a with
  | nil => exact ⟨(fun p hp => by cases hp), .nil⟩
  | cons p spans ih =>
    obtain ⟨hai, hij, _, hrest⟩ := h
    obtain ⟨hbounds, hpairs⟩ := ih hrest
    refine ⟨fun q hq => ?_, List.pairwise_cons.mpr ⟨fun q hq => (hbounds q hq).1, hpairs⟩⟩
    rcases List.mem_cons.mp hq with rfl | hq
    · exact ⟨hai, hij, hrest.le⟩
    · have := hbounds q hq
      omega

/-- A position that is not blank is in one span, and in one only. -/
theorem Covers.existsUnique (h : Covers blank xs a spans b) {k : Nat} (hk : k < xs.length) (hak : a ≤ k) (hkb : k < b)
    (hblank : blank xs[k] = false) : ∃! i : Nat, ∃ p, spans[i]? = some p ∧ p.1 ≤ k ∧ k < p.2 := by
  induction spans generalizing a with
  | nil =>
    have := h.2 _ (getElem?_slice hak hkb hk)
    rw [hblank] at this
    cases this
  | cons p spans ih =>
    obtain ⟨hai, hij, hgap, hrest⟩ := h
    have hpi : p.1 ≤ k := by
      by_contra hlt
      have := hgap _ (getElem?_slice hak (by omega) hk)
      rw [hblank] at this
      cases this
    by_cases hkj : k < p.2
    · refine ⟨0, ⟨p, rfl, hpi, hkj⟩, ?_⟩
      rintro i ⟨q, hq, hqk, _⟩
      cases i with
      | zero => rfl
      | succ i =>
        have := (hrest.sorted.1 q (List.mem_of_getElem? hq)).1
        omega
    · obtain ⟨i, ⟨q, hq, hqk⟩, hunique⟩ := ih hrest (by omega)
      refine ⟨i + 1, ⟨q, hq, hqk⟩, ?_⟩
      rintro i' ⟨q', hq', hqk'⟩
      cases i' with
      | zero =>
        cases hq'
        omega
      | succ i' => exact congrArg (· + 1) (hunique i' ⟨q', hq', hqk'⟩)

end ChessCrawl.Lib
