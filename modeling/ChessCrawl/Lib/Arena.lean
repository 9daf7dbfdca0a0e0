import Mathlib.Data.List.Chain
import Mathlib.Logic.Function.Basic

/-! Trees that are kept as a list of knots in the order they are tied: a knot names its parent by index, and the slot it
takes under it. Some knots are marked; the marked ones are to form one line down from the root. -/
namespace ChessCrawl.Lib
set_option autoImplicit false

structure Knot where
  index : Nat
  parent : Option Nat
  slot : Nat
  depth : Nat
  marked : Bool
deriving DecidableEq, Repr

def Knot.root : Knot := ⟨0, none, 0, 0, true⟩

/-- The tree of a list, with the first free slot under every knot. -/
structure Arena (ks : List Knot) (free : Nat → Nat) : Prop where
  root : ks[0]? = some Knot.root
  index : ∀ (i : Nat) (k : Knot), ks[i]? = some k → k.index = i
  parent : ∀ (i : Nat) (k : Knot), ks[i]? = some k → 0 < i →
    ∃ (p : Nat) (q : Knot), k.parent = some p ∧ p < i ∧ ks[p]? = some q ∧ k.depth = q.depth + 1
  slot : ∀ k ∈ ks, ∀ p, k.parent = some p → k.slot < free p
  distinct : ks.Pairwise fun a b => (a.parent, a.slot) ≠ (b.parent, b.slot)

/-- The marked knots are a line that ends at `last`. -/
structure Line (ks : List Knot) (last : Nat) : Prop where
  depth : ∀ (i : Nat) (k : Knot), (ks.filter Knot.marked)[i]? = some k → k.depth = i
  chain : (ks.filter Knot.marked).IsChain fun a b => b.parent = some a.index
  last : ∃ k, (ks.filter Knot.marked).getLast? = some k ∧ k.index = last

variable {ks : List Knot} {free : Nat → Nat}

/-- The knot that is tied under `p`. -/
def tie (ks : List Knot) (free : Nat → Nat) (p : Nat) (q : Knot) (marked : Bool) : Knot :=
  ⟨ks.length, some p, free p, q.depth + 1, marked⟩

theorem arena_root : Arena [Knot.root] fun _ => 0 := by
  refine ⟨rfl, fun i k hk => ?_, fun i k hk hi => ?_, fun k hk p hp => ?_, List.pairwise_singleton _ _⟩
  · cases i with
    | zero =>
      cases hk
      rfl
    | succ i => simp at hk
  · cases i with
    | zero => omega
    | succ i => simp at hk
  · simp only [List.mem_singleton] at hk
    rw [hk] at hp
    cases hp

theorem line_root : Line [Knot.root] 0 := by
  have hline : [Knot.root].filter Knot.marked = [Knot.root] := rfl
  refine ⟨fun i k hk => ?_, ?_, ⟨Knot.root, rfl, rfl⟩⟩
  · rw [hline] at hk
    cases i with
    | zero =>
      cases hk
      rfl
    | succ i => simp at hk
  · rw [hline]
    exact List.IsChain.singleton _

theorem Arena.getElem?_index (h : Arena ks free) {k : Knot} (hk : k ∈ ks) : ks[k.index]? = some k := by
  obtain ⟨i, hi⟩ := List.getElem?_of_mem hk
  rw [h.index i k hi]
  exact hi

/-- Every knot but the root has a parent, so a free slot under `p` is not taken. -/
theorem Arena.slot_ne (h : Arena ks free) {k : Knot} (hk : k ∈ ks) (p : Nat) : (k.parent, k.slot) ≠ (some p, free p) := by
  intro heq
  rw [Prod.mk.injEq] at heq
  have := h.slot k hk p heq.1
  omega

theorem Arena.tie (h : Arena ks free) {p : Nat} {q : Knot} (hq : ks[p]? = some q) (marked : Bool) :
    Arena (ks ++ [Lib.tie ks free p q marked]) (Function.update free p (free p + 1)) := by
  obtain ⟨hp, _⟩ := List.getElem?_eq_some_iff.mp hq
  -- An index is that of an old knot, or the new one's.
  have hcases : ∀ (i : Nat) (k : Knot), (ks ++ [Lib.tie ks free p q marked])[i]? = some k →
      (i < ks.length ∧ ks[i]? = some k) ∨ (i = ks.length ∧ k = Lib.tie ks free p q marked) := by
    intro i k hk
    rw [List.getElem?_append] at hk
    split at hk
    · next hlt => exact Or.inl ⟨hlt, hk⟩
    · next hge =>
      rw [List.getElem?_singleton] at hk
      split at hk
      · next hi =>
        cases hk
        exact Or.inr ⟨by omega, rfl⟩
      · cases hk
  have hold : ∀ (i : Nat) (k : Knot), ks[i]? = some k → (ks ++ [Lib.tie ks free p q marked])[i]? = some k := by
    intro i k hk
    rw [List.getElem?_append_left (List.getElem?_eq_some_iff.mp hk).1]
    exact hk
  refine ⟨hold 0 _ h.root, fun i k hk => ?_, fun i k hk hi => ?_, fun k hk r hr => ?_, ?_⟩
  · obtain ⟨_, hk⟩ | ⟨rfl, rfl⟩ := hcases i k hk
    · exact h.index i k hk
    · rfl
  · obtain ⟨_, hk⟩ | ⟨rfl, rfl⟩ := hcases i k hk
    · obtain ⟨r, s, hr, hlt, hs, hdepth⟩ := h.parent i k hk hi
      exact ⟨r, s, hr, hlt, hold r s hs, hdepth⟩
    · exact ⟨p, q, rfl, hp, hold p q hq, rfl⟩
  · obtain hk | hk := List.mem_append.mp hk
    · have hlt := h.slot k hk r hr
      by_cases hpr : r = p
      · subst hpr
        rw [Function.update_self]
        omega
      · rw [Function.update_of_ne hpr]
        exact hlt
    · rw [List.mem_singleton] at hk
      subst hk
      cases hr
      rw [Function.update_self]
      exact Nat.lt_succ_self _
  · refine List.pairwise_append.mpr ⟨h.distinct, List.pairwise_singleton _ _, fun a ha b hb => ?_⟩
    rw [List.mem_singleton] at hb
    subst hb
    exact h.slot_ne ha p

/-- An unmarked knot is off the line, and a marked one may only be tied to its end. -/
theorem Line.tie {last : Nat} (h : Line ks last) (ha : Arena ks free) {p : Nat} {q : Knot} (hq : ks[p]? = some q)
    {marked : Bool} (hend : marked = true → p = last) :
    Line (ks ++ [Lib.tie ks free p q marked]) (if marked then ks.length else last) := by
  cases marked with
  | false =>
    have hsame : (ks ++ [Lib.tie ks free p q false]).filter Knot.marked = ks.filter Knot.marked := by
      simp [Lib.tie]
    refine ⟨?_, ?_, ?_⟩
    · rw [hsame]
      exact h.depth
    · rw [hsame]
      exact h.chain
    · rw [hsame]
      exact h.last
  | true =>
    have hgrown : (ks ++ [Lib.tie ks free p q true]).filter Knot.marked =
        ks.filter Knot.marked ++ [Lib.tie ks free p q true] := by
      simp [Lib.tie]
    obtain ⟨e, he, hindex⟩ := h.last
    have hmem : e ∈ ks := (List.mem_filter.mp (List.mem_of_getLast? he)).1
    have heq : e = q := by
      have := ha.getElem?_index hmem
      rw [hindex, ← hend rfl, hq] at this
      exact (Option.some.inj this).symm
    subst heq
    rw [List.getLast?_eq_getElem?] at he
    have hdepth := h.depth _ e he
    obtain ⟨hlen, _⟩ := List.getElem?_eq_some_iff.mp he
    refine ⟨fun i k hk => ?_, ?_, ?_⟩
    · rw [hgrown, List.getElem?_append] at hk
      split at hk
      · exact h.depth i k hk
      · next hge =>
        rw [List.getElem?_singleton] at hk
        split at hk
        · cases hk
          show e.depth + 1 = i
          omega
        · cases hk
    · rw [hgrown]
      refine List.isChain_append.mpr ⟨h.chain, List.IsChain.singleton _, fun a hlast b hb => ?_⟩
      rw [List.getLast?_eq_getElem?, he] at hlast
      cases hlast
      cases hb
      show some p = some e.index
      rw [hindex, hend rfl]
    · refine ⟨Lib.tie ks free p e true, ?_, rfl⟩
      rw [hgrown, List.getLast?_concat]

end ChessCrawl.Lib
