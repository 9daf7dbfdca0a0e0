import Mathlib.Logic.Relation
import Mathlib.Order.WellFounded
import Mathlib.Tactic.Common

/-! Goals that every run reaches. A state is `Inevitable` when the goal holds there, or when some step is possible and
every step leads to a state where it is inevitable; so no run stops short of the goal and none avoids it for ever. -/
namespace ChessCrawl.Lib
set_option autoImplicit false

variable {σ : Type} {R : σ → σ → Prop} {goal : σ → Prop}

inductive Inevitable (R : σ → σ → Prop) (goal : σ → Prop) : σ → Prop
  | now {s : σ} : goal s → Inevitable R goal s
  | later {s : σ} : (∃ t, R s t) → (∀ t, R s t → Inevitable R goal t) → Inevitable R goal s

/-- Five counters, compared from the left. -/
def Before (a b : Nat × Nat × Nat × Nat × Nat) : Prop :=
  a.1 < b.1 ∨ a.1 = b.1 ∧ (a.2.1 < b.2.1 ∨ a.2.1 = b.2.1 ∧ (a.2.2.1 < b.2.2.1 ∨ a.2.2.1 = b.2.2.1 ∧
    (a.2.2.2.1 < b.2.2.2.1 ∨ a.2.2.2.1 = b.2.2.2.1 ∧ a.2.2.2.2 < b.2.2.2.2)))

theorem before_wf : WellFounded Before := by
  have h : WellFounded fun a b : Nat => a < b := Nat.lt_wfRel.wf
  have hlex := h.prod_lex (h.prod_lex (h.prod_lex (h.prod_lex h)))
  refine Subrelation.wf ?_ hlex
  rintro ⟨a, b, c, d, e⟩ ⟨a', b', c', d', e'⟩ h
  simpa only [Before, Prod.lex_def] using h

/-- Counters that go down with every step short of the goal, where a step is always possible. -/
theorem Inevitable.of_counters (I : σ → Prop) (μ : σ → Nat × Nat × Nat × Nat × Nat)
    (hstep : ∀ s, I s → ¬ goal s → (∃ t, R s t) ∧ ∀ t, R s t → I t ∧ (goal t ∨ Before (μ t) (μ s))) {s : σ} (hs : I s) :
    Inevitable R goal s := by
  have key : ∀ m s, μ s = m → I s → Inevitable R goal s := by
    intro m
    induction m using before_wf.induction with
    | _ m ih =>
      rintro s rfl hI
      by_cases hg : goal s
      · exact .now hg
      · obtain ⟨hprogress, hnext⟩ := hstep s hI hg
        refine .later hprogress fun t ht => ?_
        obtain ⟨hIt, hgt | hlt⟩ := hnext t ht
        · exact .now hgt
        · exact ih (μ t) hlt t rfl hIt
  exact key (μ s) s rfl hs

/-- A goal that is reached while something else holds. -/
theorem Inevitable.imp {goal' : σ → Prop} (I : σ → Prop) (hstep : ∀ s t, I s → R s t → I t)
    (hgoal : ∀ s, I s → goal s → goal' s) {s : σ} (h : Inevitable R goal s) (hs : I s) : Inevitable R goal' s := by
  induction h with
  | now hg => exact .now (hgoal _ hs hg)
  | later hprogress _ ih => exact .later hprogress fun t ht => ih t ht (hstep _ _ hs ht)

end ChessCrawl.Lib
