import Mathlib.Data.List.Sort
import Mathlib.Order.MinMax
import Mathlib.Tactic.Common

/-! Half-open integer ranges whose lower end may be open, and the two multirange computations used
on them: the fragments a window keeps after subtracting ranges, newest first, and the merged union
with the upper end of its open-lower fragment. -/
namespace ChessCrawl.Lib
set_option autoImplicit false

/-- The integers `t` with `lower ≤ t < upper`; no lower bound when `lower` is `none`. -/
structure Span where
  lower : Option Int
  upper : Int
deriving DecidableEq, Repr

namespace Span

def AboveLower : Option Int → Int → Prop
  | none, _ => True
  | some a, t => a ≤ t

instance (l : Option Int) (t : Int) : Decidable (AboveLower l t) := by
  cases l <;> unfold AboveLower <;> infer_instance

instance : Membership Int Span := ⟨fun r t => AboveLower r.lower t ∧ t < r.upper⟩

theorem mem_def (r : Span) (t : Int) : t ∈ r ↔ AboveLower r.lower t ∧ t < r.upper := Iff.rfl

instance (r : Span) (t : Int) : Decidable (t ∈ r) := inferInstanceAs (Decidable (_ ∧ _))

@[simp] theorem aboveLower_none (t : Int) : AboveLower none t := trivial

@[simp] theorem aboveLower_some (a t : Int) : AboveLower (some a) t ↔ a ≤ t := Iff.rfl

def isEmpty (r : Span) : Bool :=
  match r.lower with
  | none => false
  | some a => decide (r.upper ≤ a)

theorem not_mem_of_isEmpty {r : Span} (h : r.isEmpty = true) (t : Int) : t ∉ r := by
  obtain ⟨_ | a, b⟩ := r
  · simp [isEmpty] at h
  · simp only [isEmpty, decide_eq_true_eq] at h
    simp only [mem_def, aboveLower_some]
    omega

end Span

/-- Some range of the list holds `t`. -/
def Covered (rs : List Span) (t : Int) : Prop := ∃ r ∈ rs, t ∈ r

theorem Covered.mono {rs rs' : List Span} (h : ∀ r ∈ rs, r ∈ rs') {t : Int} (ht : Covered rs t) :
    Covered rs' t := by
  obtain ⟨r, hr, hm⟩ := ht
  exact ⟨r, h r hr, hm⟩

/-! ## Subtraction -/

def maxLower : Option Int → Int → Option Int
  | none, x => some x
  | some a, x => some (max a x)

theorem aboveLower_maxLower (l : Option Int) (x t : Int) :
    Span.AboveLower (maxLower l x) t ↔ Span.AboveLower l t ∧ x ≤ t := by
  cases l <;> simp [maxLower]

/-- The part of `f` below the lower end of `c`. -/
def Span.leftOf (f c : Span) : List Span :=
  match c.lower with
  | none => []
  | some a => [⟨f.lower, min a f.upper⟩]

/-- `f` without the points of `c`, upper fragment first. -/
def Span.minus (f c : Span) : List Span :=
  if c.isEmpty then [f] else
    (⟨maxLower f.lower c.upper, f.upper⟩ :: f.leftOf c).filter fun r => !r.isEmpty

theorem covered_filter_nonempty (rs : List Span) (t : Int) :
    Covered (rs.filter fun r => !r.isEmpty) t ↔ Covered rs t := by
  constructor
  · exact Covered.mono fun r hr => (List.mem_filter.mp hr).1
  · rintro ⟨r, hr, ht⟩
    refine ⟨r, List.mem_filter.mpr ⟨hr, ?_⟩, ht⟩
    cases he : r.isEmpty
    · rfl
    · exact absurd ht (Span.not_mem_of_isEmpty he t)

theorem covered_leftOf (f c : Span) (t : Int) :
    Covered (f.leftOf c) t ↔ t ∈ f ∧ ¬ Span.AboveLower c.lower t := by
  obtain ⟨lc, uc⟩ := c
  cases lc with
  | none => simp [Span.leftOf, Covered]
  | some a =>
    simp only [Span.leftOf, Covered, List.mem_singleton, exists_eq_left, Span.mem_def,
      Span.aboveLower_some]
    constructor
    · rintro ⟨h1, h2⟩
      exact ⟨⟨h1, by omega⟩, by omega⟩
    · rintro ⟨⟨h1, h2⟩, h3⟩
      exact ⟨h1, by omega⟩

theorem covered_minus (f c : Span) (t : Int) : Covered (f.minus c) t ↔ t ∈ f ∧ t ∉ c := by
  unfold Span.minus
  split
  · next he =>
    have hc := Span.not_mem_of_isEmpty he t
    simp [Covered, hc]
  · rw [covered_filter_nonempty]
    have hsplit : ∀ (r : Span) (rs : List Span), Covered (r :: rs) t ↔ t ∈ r ∨ Covered rs t := by
      intro r rs
      simp [Covered]
    rw [hsplit, covered_leftOf, Span.mem_def, aboveLower_maxLower]
    simp only [Span.mem_def]
    by_cases hl : Span.AboveLower c.lower t
    · simp only [hl, true_and, not_true_eq_false, and_false, or_false, not_lt]
      tauto
    · simp only [hl, false_and, not_false_eq_true, and_true]
      tauto

theorem minus_nonempty (f c : Span) (hf : f.isEmpty = false) : ∀ r ∈ f.minus c, r.isEmpty = false := by
  intro r hr
  unfold Span.minus at hr
  split at hr
  · rw [List.mem_singleton.mp hr]
    exact hf
  · simpa using (List.mem_filter.mp hr).2

/-- The fragments of the window `w` outside the ranges `cs`, newest first. -/
def missing (w : Span) (cs : List Span) : List Span :=
  cs.foldl (fun fs c => fs.flatMap fun f => f.minus c) ([w].filter fun r => !r.isEmpty)

theorem covered_flatMap_minus (fs : List Span) (c : Span) (t : Int) :
    Covered (fs.flatMap fun f => f.minus c) t ↔ Covered fs t ∧ t ∉ c := by
  constructor
  · rintro ⟨r, hr, ht⟩
    obtain ⟨f, hf, hrf⟩ := List.mem_flatMap.mp hr
    have h := (covered_minus f c t).mp ⟨r, hrf, ht⟩
    exact ⟨⟨f, hf, h.1⟩, h.2⟩
  · rintro ⟨⟨f, hf, htf⟩, htc⟩
    obtain ⟨r, hr, ht⟩ := (covered_minus f c t).mpr ⟨htf, htc⟩
    exact ⟨r, List.mem_flatMap.mpr ⟨f, hf, hr⟩, ht⟩

theorem covered_foldl_minus (cs fs : List Span) (t : Int) :
    Covered (cs.foldl (fun fs c => fs.flatMap fun f => f.minus c) fs) t ↔
      Covered fs t ∧ ¬ Covered cs t := by
  induction cs generalizing fs with
  | nil => simp [Covered]
  | cons c cs ih =>
    rw [List.foldl_cons, ih, covered_flatMap_minus]
    have hc : Covered (c :: cs) t ↔ t ∈ c ∨ Covered cs t := by simp [Covered]
    rw [hc]
    tauto

theorem covered_missing (w : Span) (cs : List Span) (t : Int) :
    Covered (missing w cs) t ↔ t ∈ w ∧ ¬ Covered cs t := by
  unfold missing
  rw [covered_foldl_minus, covered_filter_nonempty]
  simp [Covered]

theorem missing_nonempty (w : Span) (cs : List Span) : ∀ r ∈ missing w cs, r.isEmpty = false := by
  have key : ∀ (cs fs : List Span), (∀ r ∈ fs, r.isEmpty = false) →
      ∀ r ∈ cs.foldl (fun fs c => fs.flatMap fun f => f.minus c) fs, r.isEmpty = false := by
    intro cs
    induction cs with
    | nil => exact fun fs h => h
    | cons c cs ih =>
      intro fs h
      refine ih _ fun r hr => ?_
      obtain ⟨f, hf, hrf⟩ := List.mem_flatMap.mp hr
      exact minus_nonempty f c (h f hf) r hrf
  refine key cs _ fun r hr => ?_
  simpa using (List.mem_filter.mp hr).2

theorem minus_upper_le (f c : Span) : ∀ r ∈ f.minus c, r.upper ≤ f.upper := by
  intro r hr
  unfold Span.minus at hr
  split at hr
  · rw [List.mem_singleton.mp hr]
  · rcases List.mem_cons.mp (List.mem_filter.mp hr).1 with rfl | hr
    · exact le_refl _
    · unfold Span.leftOf at hr
      split at hr
      · exact absurd hr List.not_mem_nil
      · rw [List.mem_singleton.mp hr]
        exact min_le_right _ _

theorem missing_upper_le (w : Span) (cs : List Span) : ∀ r ∈ missing w cs, r.upper ≤ w.upper := by
  have key : ∀ (cs fs : List Span), (∀ r ∈ fs, r.upper ≤ w.upper) →
      ∀ r ∈ cs.foldl (fun fs c => fs.flatMap fun f => f.minus c) fs, r.upper ≤ w.upper := by
    intro cs
    induction cs with
    | nil => exact fun fs h => h
    | cons c cs ih =>
      intro fs h
      refine ih _ fun r hr => ?_
      obtain ⟨f, hf, hrf⟩ := List.mem_flatMap.mp hr
      exact le_trans (minus_upper_le f c r hrf) (h f hf)
  refine key cs _ fun r hr => ?_
  rw [List.mem_singleton.mp (List.mem_filter.mp hr).1]

theorem covered_of_missing_nil {w : Span} {cs : List Span} (h : missing w cs = []) {t : Int}
    (ht : t ∈ w) : Covered cs t := by
  by_contra hc
  obtain ⟨r, hr, _⟩ := (covered_missing w cs t).mpr ⟨ht, hc⟩
  rw [h] at hr
  exact absurd hr List.not_mem_nil

/-! ## Merged union -/

def LowerLE : Option Int → Option Int → Prop
  | none, _ => True
  | some _, none => False
  | some a, some b => a ≤ b

instance : DecidableRel LowerLE := fun a b => by
  cases a <;> cases b <;> unfold LowerLE <;> infer_instance

/-- Add a range to fragments listed newest first, joining it to the head when they touch. -/
def mergeInto : List Span → Span → List Span
  | [], r => [r]
  | f :: fs, r =>
    if LowerLE r.lower (some f.upper) then ⟨f.lower, max f.upper r.upper⟩ :: fs else r :: f :: fs

/-- The union of the ranges as disjoint fragments, oldest first. -/
def rangeAgg (cs : List Span) : List Span :=
  (((cs.filter fun r => !r.isEmpty).insertionSort fun a b => LowerLE a.lower b.lower).foldl
    mergeInto []).reverse

/-- The upper end of the fragment of the union that has no lower bound. -/
def openUpper (cs : List Span) : Option Int :=
  ((rangeAgg cs).find? fun f => f.lower.isNone).map Span.upper

theorem aboveLower_of_lowerLE {l : Option Int} {u t : Int} (h : LowerLE l (some u)) (ht : u ≤ t) :
    Span.AboveLower l t := by
  cases l with
  | none => trivial
  | some a => exact le_trans (by simpa [LowerLE] using h) ht

/-- Joining never adds a point, and every upper end is one of the ranges' own. -/
theorem mergeInto_sound (fs : List Span) (r : Span) {P : Int → Prop} {Q : Int → Prop}
    (hfs : ∀ f ∈ fs, (∀ t ∈ f, P t) ∧ Q f.upper) (hr : (∀ t ∈ r, P t) ∧ Q r.upper) :
    ∀ f ∈ mergeInto fs r, (∀ t ∈ f, P t) ∧ Q f.upper := by
  cases fs with
  | nil =>
    intro f hf
    rw [mergeInto, List.mem_singleton] at hf
    subst hf
    exact hr
  | cons f fs =>
    have hhead := hfs f List.mem_cons_self
    intro g hg
    rw [mergeInto] at hg
    split at hg
    · next hle =>
      rcases List.mem_cons.mp hg with rfl | hg
      · refine ⟨fun t ht => ?_, ?_⟩
        · by_cases hlt : t < f.upper
          · exact hhead.1 t ⟨ht.1, hlt⟩
          · have hge : f.upper ≤ t := not_lt.mp hlt
            have hmax : t < max f.upper r.upper := ht.2
            exact hr.1 t ⟨aboveLower_of_lowerLE hle hge, by omega⟩
        · change Q (max f.upper r.upper)
          rcases max_choice f.upper r.upper with h | h
          · rw [h]; exact hhead.2
          · rw [h]; exact hr.2
      · exact hfs g (List.mem_cons_of_mem f hg)
    · rcases List.mem_cons.mp hg with rfl | hg
      · exact hr
      · exact hfs g hg

theorem rangeAgg_sound (cs : List Span) :
    ∀ f ∈ rangeAgg cs, (∀ t ∈ f, Covered cs t) ∧ ∃ c ∈ cs, c.upper = f.upper := by
  have key : ∀ (rs fs : List Span), (∀ r ∈ rs, r ∈ cs) →
      (∀ f ∈ fs, (∀ t ∈ f, Covered cs t) ∧ ∃ c ∈ cs, c.upper = f.upper) →
      ∀ f ∈ rs.foldl mergeInto fs, (∀ t ∈ f, Covered cs t) ∧ ∃ c ∈ cs, c.upper = f.upper := by
    intro rs
    induction rs with
    | nil => exact fun fs _ h => h
    | cons r rs ih =>
      intro fs hrs hfs
      have hr : r ∈ cs := hrs r List.mem_cons_self
      refine ih _ (fun x hx => hrs x (List.mem_cons_of_mem r hx)) ?_
      exact mergeInto_sound fs r (P := Covered cs) (Q := fun u => ∃ c ∈ cs, c.upper = u) hfs
        ⟨fun t ht => ⟨r, hr, ht⟩, r, hr, rfl⟩
  intro f hf
  refine key _ [] (fun r hr => ?_) (fun f hf => absurd hf List.not_mem_nil) f (List.mem_reverse.mp hf)
  exact (List.mem_filter.mp ((List.perm_insertionSort _ _).mem_iff.mp hr)).1

/-- Everything below `openUpper` is covered. -/
theorem covered_of_openUpper {cs : List Span} {u : Int} (h : openUpper cs = some u) {t : Int}
    (ht : t < u) : Covered cs t := by
  unfold openUpper at h
  obtain ⟨f, hf, rfl⟩ := Option.map_eq_some_iff.mp h
  have hopen : f.lower = none := by simpa using List.find?_some hf
  refine ((rangeAgg_sound cs f (List.mem_of_find?_eq_some hf)).1 t ⟨?_, ht⟩)
  rw [hopen]
  trivial

theorem openUpper_mem {cs : List Span} {u : Int} (h : openUpper cs = some u) :
    ∃ c ∈ cs, c.upper = u := by
  unfold openUpper at h
  obtain ⟨f, hf, rfl⟩ := Option.map_eq_some_iff.mp h
  exact (rangeAgg_sound cs f (List.mem_of_find?_eq_some hf)).2

end ChessCrawl.Lib
