import ChessCrawl.Lib.Span

/-! The fragments that a window keeps are determined by the points they hold: they are not empty, listed newest first,
and any two have a point between them. So subtracting ranges in another order, or ranges that add no point, gives the
same list. -/
namespace ChessCrawl.Lib
set_option autoImplicit false

/-- Ranges that are not empty, newest first, with a point between any two. -/
structure Fragments (rs : List Span) : Prop where
  nonempty : ∀ r ∈ rs, r.isEmpty = false
  apart : rs.Pairwise fun a b => ∃ l, a.lower = some l ∧ b.upper < l

theorem Span.last_mem {r : Span} (h : r.isEmpty = false) : r.upper - 1 ∈ r := by
  obtain ⟨_ | a, b⟩ := r
  · exact ⟨trivial, by omega⟩
  · simp only [Span.isEmpty, decide_eq_false_iff_not] at h
    refine ⟨?_, Int.sub_one_lt_of_le (le_refl b)⟩
    rw [Span.aboveLower_some]
    exact Int.le_sub_one_of_lt (not_le.mp h)

theorem Covered.cons {r : Span} {rs : List Span} {t : Int} : Covered (r :: rs) t ↔ t ∈ r ∨ Covered rs t := by
  simp [Covered]

section
variable {a b : Span} {rs ss : List Span}

theorem Fragments.tail (h : Fragments (a :: rs)) : Fragments rs :=
  ⟨fun r hr => h.nonempty r (List.mem_cons_of_mem a hr), (List.pairwise_cons.mp h.apart).2⟩

/-- The head is the newest, and the point below it is in no fragment. -/
theorem Fragments.below (h : Fragments (a :: rs)) {t : Int} (ht : Covered rs t) : ∃ l, a.lower = some l ∧ t < l - 1 := by
  obtain ⟨r, hr, htr⟩ := ht
  obtain ⟨l, hl, hlt⟩ := (List.pairwise_cons.mp h.apart).1 r hr
  have hupper : t < r.upper := htr.2
  exact ⟨l, hl, by omega⟩

theorem Fragments.lt_upper (h : Fragments (a :: rs)) {t : Int} (ht : Covered (a :: rs) t) : t < a.upper := by
  rcases Covered.cons.mp ht with ht | ht
  · exact ht.2
  · obtain ⟨l, hl, hlt⟩ := h.below ht
    have hlast := (Span.last_mem (h.nonempty a List.mem_cons_self)).1
    rw [hl, Span.aboveLower_some] at hlast
    omega

/-- The points of a head fragment are those from its lower end on. -/
theorem Fragments.head_iff (h : Fragments (a :: rs)) {t : Int} : t ∈ a ↔ Covered (a :: rs) t ∧ ¬ Covered rs t := by
  constructor
  · intro ht
    refine ⟨Covered.cons.mpr (.inl ht), fun hc => ?_⟩
    obtain ⟨l, hl, hlt⟩ := h.below hc
    have hge := ht.1
    rw [hl, Span.aboveLower_some] at hge
    omega
  · rintro ⟨hc, hn⟩
    exact (Covered.cons.mp hc).resolve_right hn

theorem Fragments.head_ne (h : Fragments (a :: rs)) : rs.head? ≠ some a := by
  intro hhead
  have hmem : a ∈ rs := List.mem_of_mem_head? hhead
  obtain ⟨l, hl, hlt⟩ := (List.pairwise_cons.mp h.apart).1 a hmem
  have hlast := (Span.last_mem (h.nonempty a List.mem_cons_self)).1
  rw [hl, Span.aboveLower_some] at hlast
  omega

theorem Fragments.lower_of (ha : Fragments (a :: rs))
    (heq : ∀ t, Covered (a :: rs) t ↔ Covered (b :: ss) t) (hu : a.upper = b.upper) {l : Int} (hl : a.lower = some l) :
    ∃ m, b.lower = some m ∧ l ≤ m := by
  have hin : l ≤ a.upper - 1 := by
    have := (Span.last_mem (ha.nonempty a List.mem_cons_self)).1
    rwa [hl, Span.aboveLower_some] at this
  -- the point under `a` is in no fragment, so `b` does not reach it
  have hout : ¬ Covered (a :: rs) (l - 1) := by
    intro hc
    rcases Covered.cons.mp hc with hc | hc
    · have := hc.1
      rw [hl, Span.aboveLower_some] at this
      omega
    · obtain ⟨l', hl', hlt⟩ := ha.below hc
      rw [hl] at hl'
      cases hl'
      omega
  cases hm : b.lower with
  | none =>
    refine absurd ((heq _).mpr (Covered.cons.mpr (.inl ⟨?_, ?_⟩))) hout
    · rw [hm]
      trivial
    · omega
  | some m =>
    refine ⟨m, rfl, ?_⟩
    by_contra hlt
    refine absurd ((heq _).mpr (Covered.cons.mpr (.inl ⟨?_, ?_⟩))) hout
    · rw [hm, Span.aboveLower_some]
      omega
    · omega

theorem Fragments.head_eq (ha : Fragments (a :: rs)) (hb : Fragments (b :: ss))
    (heq : ∀ t, Covered (a :: rs) t ↔ Covered (b :: ss) t) : a = b := by
  have hu : a.upper = b.upper := by
    have h₁ := hb.lt_upper ((heq _).mp (Covered.cons.mpr (.inl (Span.last_mem (ha.nonempty a List.mem_cons_self)))))
    have h₂ := ha.lt_upper ((heq _).mpr (Covered.cons.mpr (.inl (Span.last_mem (hb.nonempty b List.mem_cons_self)))))
    omega
  have hlower : a.lower = b.lower := by
    cases hl : a.lower with
    | some l =>
      obtain ⟨m, hm, hle⟩ := ha.lower_of heq hu hl
      obtain ⟨l', hl', hle'⟩ := hb.lower_of (fun t => (heq t).symm) hu.symm hm
      rw [hl] at hl'
      cases hl'
      rw [hm, Int.le_antisymm hle hle']
    | none =>
      cases hm : b.lower with
      | none => rfl
      | some m =>
        obtain ⟨l', hl', _⟩ := hb.lower_of (fun t => (heq t).symm) hu.symm hm
        rw [hl] at hl'
        cases hl'
  cases a
  cases b
  simp only [Span.mk.injEq]
  exact ⟨hlower, hu⟩

end

/-- Fragments are determined by their points. -/
theorem Fragments.unique {rs ss : List Span} (hr : Fragments rs) (hs : Fragments ss)
    (heq : ∀ t, Covered rs t ↔ Covered ss t) : rs = ss := by
  induction rs generalizing ss with
  | nil =>
    cases ss with
    | nil => rfl
    | cons b ss =>
      obtain ⟨r, hmem, _⟩ := (heq _).mpr (Covered.cons.mpr (.inl (Span.last_mem (hs.nonempty b List.mem_cons_self))))
      cases hmem
  | cons a rs ih =>
    cases ss with
    | nil =>
      obtain ⟨r, hmem, _⟩ := (heq _).mp (Covered.cons.mpr (.inl (Span.last_mem (hr.nonempty a List.mem_cons_self))))
      cases hmem
    | cons b ss =>
      cases hr.head_eq hs heq
      have htail : ∀ t, Covered rs t ↔ Covered ss t := by
        intro t
        have h₁ := hr.head_iff (t := t)
        have h₂ := hs.head_iff (t := t)
        have hsub : ∀ {l : List Span}, Covered l t → Covered (a :: l) t := fun h => Covered.cons.mpr (.inr h)
        constructor
        · intro hc
          by_contra hn
          exact (h₁.mp (h₂.mpr ⟨(heq t).mp (hsub hc), hn⟩)).2 hc
        · intro hc
          by_contra hn
          exact (h₂.mp (h₁.mpr ⟨(heq t).mpr (hsub hc), hn⟩)).2 hc
      rw [ih hr.tail hs.tail htail]

/-! ## The fragments of a subtraction -/

/-- A fragment of `f` lies within it. -/
theorem minus_within (f c : Span) {r : Span} (hr : r ∈ f.minus c) :
    r.upper ≤ f.upper ∧ ∀ l, f.lower = some l → ∃ m, r.lower = some m ∧ l ≤ m := by
  refine ⟨minus_upper_le f c r hr, fun l hl => ?_⟩
  unfold Span.minus at hr
  split at hr
  · rw [List.mem_singleton.mp hr]
    exact ⟨l, hl, le_refl l⟩
  · rcases List.mem_cons.mp (List.mem_filter.mp hr).1 with rfl | hr
    · rw [hl]
      exact ⟨max l c.upper, rfl, le_max_left _ _⟩
    · unfold Span.leftOf at hr
      split at hr
      · cases hr
      · rw [List.mem_singleton.mp hr]
        exact ⟨l, hl, le_refl l⟩

theorem minus_fragments {f : Span} (hf : f.isEmpty = false) (c : Span) : Fragments (f.minus c) := by
  refine ⟨minus_nonempty f c hf, ?_⟩
  unfold Span.minus
  split
  · exact List.pairwise_singleton _ _
  · next hc =>
    refine List.Pairwise.filter _ (List.pairwise_cons.mpr ⟨fun r hr => ?_, ?_⟩)
    · -- the two parts are on the two sides of `c`, which is not empty
      unfold Span.leftOf at hr
      split at hr
      · cases hr
      · next a ha =>
        have hlt : a < c.upper := by
          obtain ⟨lo, up⟩ := c
          simp only at ha
          subst ha
          simpa [Span.isEmpty] using hc
        rw [List.mem_singleton.mp hr]
        cases hl : f.lower with
        | none => exact ⟨c.upper, rfl, by simp only; omega⟩
        | some l => exact ⟨max l c.upper, rfl, by simp only; omega⟩
    · unfold Span.leftOf
      split
      · exact List.Pairwise.nil
      · exact List.pairwise_singleton _ _

theorem Fragments.flatMap_minus {fs : List Span} (h : Fragments fs) (c : Span) :
    Fragments (fs.flatMap fun f => f.minus c) := by
  induction fs with
  | nil => exact ⟨by simp, List.Pairwise.nil⟩
  | cons f fs ih =>
    have hrest := ih h.tail
    have hhead := minus_fragments (h.nonempty f List.mem_cons_self) c
    refine ⟨fun r hr => ?_, ?_⟩
    · rcases List.mem_append.mp hr with hr | hr
      · exact hhead.nonempty r hr
      · exact hrest.nonempty r hr
    · refine List.pairwise_append.mpr ⟨hhead.apart, hrest.apart, fun r hr s hs => ?_⟩
      obtain ⟨g, hg, hsg⟩ := List.mem_flatMap.mp hs
      obtain ⟨l, hl, hlt⟩ := (List.pairwise_cons.mp h.apart).1 g hg
      obtain ⟨m, hm, hle⟩ := (minus_within f c hr).2 l hl
      have hup := (minus_within g c hsg).1
      exact ⟨m, hm, by omega⟩

theorem missing_fragments (w : Span) (cs : List Span) : Fragments (missing w cs) := by
  have key : ∀ (cs fs : List Span), Fragments fs →
      Fragments (cs.foldl (fun fs c => fs.flatMap fun f => f.minus c) fs) := by
    intro cs
    induction cs with
    | nil => exact fun fs h => h
    | cons c cs ih => exact fun fs h => ih _ (h.flatMap_minus c)
  refine key cs _ ⟨fun r hr => ?_, ?_⟩
  · simpa using (List.mem_filter.mp hr).2
  · exact List.Pairwise.filter _ (List.pairwise_singleton _ _)

/-- The fragments of a window are the only ones with its uncovered points. -/
theorem missing_eq {w : Span} {cs fs : List Span} (hf : Fragments fs)
    (h : ∀ t, Covered fs t ↔ t ∈ w ∧ ¬ Covered cs t) : missing w cs = fs :=
  (missing_fragments w cs).unique hf fun t => (covered_missing w cs t).trans (h t).symm

theorem missing_congr {w : Span} {cs ds : List Span} (h : ∀ t, Covered cs t ↔ Covered ds t) :
    missing w cs = missing w ds :=
  missing_eq (missing_fragments w ds) fun t => by rw [covered_missing, h]

/-- Covering the newest gap leaves the others. -/
theorem missing_head {w g : Span} {cs ds gs : List Span} (h : missing w cs = g :: gs)
    (hd : ∀ t, Covered ds t ↔ Covered cs t ∨ t ∈ g) : missing w ds = gs := by
  have hf := missing_fragments w cs
  rw [h] at hf
  refine missing_eq hf.tail fun t => ?_
  have hc := covered_missing w cs t
  rw [h] at hc
  have hhead := hf.head_iff (t := t)
  rw [hd]
  constructor
  · intro ht
    obtain ⟨hw, hn⟩ := hc.mp (Covered.cons.mpr (.inr ht))
    exact ⟨hw, fun hor => hor.elim hn fun hg => (hhead.mp hg).2 ht⟩
  · rintro ⟨hw, hn⟩
    rw [not_or] at hn
    exact (Covered.cons.mp (hc.mpr ⟨hw, hn.1⟩)).resolve_left hn.2

/-- Covering the upper part of the newest gap, from a point inside or just above it. -/
theorem missing_head_part {w g : Span} {cs ds gs : List Span} {m : Int} (h : missing w cs = g :: gs)
    (hlow : Span.AboveLower g.lower (m - 1)) (hup : m ≤ g.upper)
    (hd : ∀ t, Covered ds t ↔ Covered cs t ∨ (m ≤ t ∧ t < g.upper)) : missing w ds = ⟨g.lower, m⟩ :: gs := by
  have hf := missing_fragments w cs
  rw [h] at hf
  have hfrag : Fragments (⟨g.lower, m⟩ :: gs) := by
    refine ⟨fun r hr => ?_, List.pairwise_cons.mpr ⟨(List.pairwise_cons.mp hf.apart).1, hf.tail.apart⟩⟩
    rcases List.mem_cons.mp hr with rfl | hr
    · cases hl : g.lower with
      | none => rfl
      | some l =>
        rw [hl, Span.aboveLower_some] at hlow
        exact decide_eq_false (by simp only; omega)
    · exact hf.tail.nonempty r hr
  refine missing_eq hfrag fun t => ?_
  have hc := covered_missing w cs t
  rw [h, Covered.cons] at hc
  have hbelow : Covered gs t → t < m := by
    intro ht
    obtain ⟨l, hl, hlt⟩ := hf.below ht
    rw [hl, Span.aboveLower_some] at hlow
    omega
  rw [hd, Covered.cons]
  have hpart : t ∈ (⟨g.lower, m⟩ : Span) ↔ t ∈ g ∧ t < m := by
    constructor
    · rintro ⟨h₁, h₂⟩
      exact ⟨⟨h₁, lt_of_lt_of_le h₂ hup⟩, h₂⟩
    · rintro ⟨h₁, h₂⟩
      exact ⟨h₁.1, h₂⟩
  rw [hpart]
  constructor
  · rintro (⟨hg, hlt⟩ | ht)
    · obtain ⟨hw, hn⟩ := hc.mp (.inl hg)
      exact ⟨hw, fun hor => hor.elim hn fun hr => absurd hr.1 (by omega)⟩
    · obtain ⟨hw, hn⟩ := hc.mp (.inr ht)
      have := hbelow ht
      exact ⟨hw, fun hor => hor.elim hn fun hr => absurd hr.1 (by omega)⟩
  · rintro ⟨hw, hn⟩
    rw [not_or] at hn
    rcases hc.mpr ⟨hw, hn.1⟩ with hg | ht
    · exact .inl ⟨hg, by by_contra hge; exact hn.2 ⟨by omega, hg.2⟩⟩
    · exact .inr ht

end ChessCrawl.Lib
