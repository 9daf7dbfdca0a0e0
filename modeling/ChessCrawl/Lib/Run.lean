import Mathlib.Data.List.Induction
import Mathlib.Tactic.Common

/-! Partial labelled transition systems, the states their finite runs reach, and the invariant
rule. A step that is not enabled is `none`, so a run is a successful fold over a trace; `Reach S ok`
restricts the runs to those whose every step meets the condition `ok` on the state before it. -/
namespace ChessCrawl.Lib
set_option autoImplicit false

/-- A transition system whose steps are chosen by events. -/
structure System (σ ε : Type) where
  init : σ → Prop
  step : σ → ε → Option σ

variable {σ ε : Type}

inductive Reach (S : System σ ε) (ok : σ → ε → Prop) : σ → Prop
  | start {s : σ} : S.init s → Reach S ok s
  | next {s t : σ} {e : ε} : Reach S ok s → ok s e → S.step s e = some t → Reach S ok t

/-- The states of unrestricted runs. -/
def Reachable (S : System σ ε) : σ → Prop := Reach S fun _ _ => True

/-! ## Invariants -/

/-- The step obligation may use that the state before it was reached. -/
theorem Reach.invariant {S : System σ ε} {ok : σ → ε → Prop} {I : σ → Prop}
    (hinit : ∀ s, S.init s → I s)
    (hstep : ∀ s e t, Reach S ok s → I s → ok s e → S.step s e = some t → I t) :
    ∀ {s : σ}, Reach S ok s → I s := by
  intro s h
  induction h with
  | start h0 => exact hinit _ h0
  | next hr hok he ih => exact hstep _ _ _ hr ih hok he

theorem Reach.mono {S : System σ ε} {ok ok' : σ → ε → Prop} (hok : ∀ s e, ok s e → ok' s e)
    {s : σ} (h : Reach S ok s) : Reach S ok' s := by
  induction h with
  | start h0 => exact .start h0
  | next _ ho he ih => exact .next ih (hok _ _ ho) he

theorem Reach.reachable {S : System σ ε} {ok : σ → ε → Prop} {s : σ} (h : Reach S ok s) :
    Reachable S s :=
  h.mono fun _ _ _ => trivial

theorem Reachable.invariant {S : System σ ε} {I : σ → Prop} (hinit : ∀ s, S.init s → I s)
    (hstep : ∀ s e t, I s → S.step s e = some t → I t) {s : σ} (h : Reachable S s) : I s :=
  Reach.invariant hinit (fun s e t _ hI _ he => hstep s e t hI he) h

/-! ## Runs with their events -/

/-- The run of a list of events whose every step meets `ok`. -/
inductive Trace (S : System σ ε) (ok : σ → ε → Prop) : σ → List ε → σ → Prop
  | nil (s : σ) : Trace S ok s [] s
  | cons {s t u : σ} {e : ε} {es : List ε} : ok s e → S.step s e = some t → Trace S ok t es u →
      Trace S ok s (e :: es) u

theorem Trace.split {S : System σ ε} {ok : σ → ε → Prop} {s u : σ} {es fs : List ε}
    (h : Trace S ok s (es ++ fs) u) : ∃ t, Trace S ok s es t ∧ Trace S ok t fs u := by
  induction es generalizing s with
  | nil => exact ⟨s, .nil s, h⟩
  | cons e es ih =>
    cases h with
    | cons hok hstep hrest =>
      obtain ⟨t, ht, hu⟩ := ih hrest
      exact ⟨t, .cons hok hstep ht, hu⟩

/-- A property that every event of the run keeps. -/
theorem Trace.keeps {S : System σ ε} {ok : σ → ε → Prop} {I : σ → Prop} {es : List ε}
    (hstep : ∀ s e t, e ∈ es → I s → ok s e → S.step s e = some t → I t) {s u : σ}
    (h : Trace S ok s es u) (hs : I s) : I u := by
  induction h with
  | nil => exact hs
  | @cons s t u e es hok he hrest ih =>
    exact ih (fun s e t hmem => hstep s e t (List.mem_cons_of_mem _ hmem))
      (hstep _ _ _ List.mem_cons_self hs hok he)

theorem Trace.reach {S : System σ ε} {ok : σ → ε → Prop} {s u : σ} {es : List ε} (h : Trace S ok s es u)
    (hs : Reach S ok s) : Reach S ok u := by
  induction h with
  | nil => exact hs
  | cons hok he _ ih => exact ih (.next hs hok he)

theorem Trace.mono {S : System σ ε} {ok ok' : σ → ε → Prop} (hok : ∀ s e, ok s e → ok' s e) {s u : σ}
    {es : List ε} (h : Trace S ok s es u) : Trace S ok' s es u := by
  induction h with
  | nil => exact .nil _
  | cons ho he _ ih => exact .cons (hok _ _ ho) he ih

theorem Trace.append {S : System σ ε} {ok : σ → ε → Prop} {s t u : σ} {es fs : List ε} (h : Trace S ok s es t)
    (h' : Trace S ok t fs u) : Trace S ok s (es ++ fs) u := by
  induction h with
  | nil => exact h'
  | cons hok he _ ih => exact .cons hok he (ih h')

theorem Trace.snoc {S : System σ ε} {ok : σ → ε → Prop} {s t u : σ} {e : ε} {es : List ε} (h : Trace S ok s es t)
    (hok : ok t e) (he : S.step t e = some u) : Trace S ok s (es ++ [e]) u := by
  induction h with
  | nil => exact .cons hok he (.nil _)
  | cons ho hs _ ih => exact .cons ho hs (ih hok he)

/-- Induction on a run from its first step on, where the events so far are known. -/
theorem Trace.history {S : System σ ε} {ok : σ → ε → Prop} {s t : σ} {es : List ε} (h : Trace S ok s es t)
    {P : List ε → σ → Prop} (hnil : P [] s)
    (hstep : ∀ es t e u, Trace S ok s es t → P es t → ok t e → S.step t e = some u → P (es ++ [e]) u) : P es t := by
  induction es using List.reverseRecOn generalizing t with
  | nil =>
    cases h
    exact hnil
  | append_singleton es e ih =>
    obtain ⟨u, hu, hlast⟩ := h.split
    cases hlast with
    | cons hok he hrest =>
      cases hrest
      exact hstep es u e t hu (ih hu) hok he

/-! ## Fallible steps -/

theorem bind_ok {κ α β : Type} {x : Except κ α} {f : α → Except κ β} {b : β} (h : (x >>= f) = .ok b) :
    ∃ a, x = .ok a ∧ f a = .ok b := by
  cases x with
  | error e => cases h
  | ok a => exact ⟨a, rfl, h⟩

theorem ok_bind {κ α β : Type} {x : Except κ α} {f : α → Except κ β} {a : α} (h : x = .ok a) : (x >>= f) = f a := by
  rw [h]
  rfl

theorem bind_error {κ α β : Type} {x : Except κ α} {f : α → Except κ β} {e : κ} (h : (x >>= f) = .error e) :
    x = .error e ∨ ∃ a, x = .ok a ∧ f a = .error e := by
  cases x with
  | error e' =>
    cases h
    exact .inl rfl
  | ok a => exact .inr ⟨a, rfl, h⟩

theorem toOption_some {κ α : Type} {x : Except κ α} {a : α} (h : x.toOption = some a) : x = .ok a := by
  cases x with
  | error e => cases h
  | ok b =>
    cases h
    rfl

/-- A fold succeeds exactly when each of its steps does, where a step that fails says so by its event alone. -/
theorem foldlM_ok_iff {κ : Type} {step : σ → ε → Except κ σ} {I : σ → Prop} {good : ε → Prop} {es : List ε}
    (hstep : ∀ s, I s → ∀ e ∈ es, ((∃ t, step s e = .ok t) ↔ good e))
    (hkeep : ∀ s, I s → ∀ e ∈ es, ∀ t, step s e = .ok t → I t) {s : σ} (hs : I s) :
    (∃ t, es.foldlM step s = .ok t) ↔ ∀ e ∈ es, good e := by
  induction es generalizing s with
  | nil => simp [pure, Except.pure]
  | cons e es ih =>
    have hrest := fun t ht => ih (s := t) (fun s hs e he => hstep s hs e (List.mem_cons_of_mem _ he))
      (fun s hs e he => hkeep s hs e (List.mem_cons_of_mem _ he)) ht
    have hhead := hstep s hs e List.mem_cons_self
    rw [List.forall_mem_cons, ← hhead]
    constructor
    · rintro ⟨t, ht⟩
      rw [List.foldlM_cons] at ht
      obtain ⟨u, hu, ht⟩ := bind_ok ht
      exact ⟨⟨u, hu⟩, (hrest u (hkeep s hs e List.mem_cons_self u hu)).mp ⟨t, ht⟩⟩
    · rintro ⟨⟨u, hu⟩, hall⟩
      obtain ⟨t, ht⟩ := (hrest u (hkeep s hs e List.mem_cons_self u hu)).mpr hall
      refine ⟨t, ?_⟩
      rw [List.foldlM_cons, hu]
      exact ht

theorem foldlM_keeps {κ : Type} {step : σ → ε → Except κ σ} {I : σ → Prop} (hstep : ∀ s e t, step s e = .ok t → I s → I t)
    {es : List ε} {s t : σ} (hs : I s) (h : es.foldlM step s = .ok t) : I t := by
  induction es generalizing s with
  | nil =>
    cases h
    exact hs
  | cons e es ih =>
    rw [List.foldlM_cons] at h
    obtain ⟨u, hu, h⟩ := bind_ok h
    exact ih (hstep s e u hu hs) h

theorem mapM_ok_iff {κ α β : Type} {f : α → Except κ β} {as : List α} :
    (∃ bs, as.mapM f = .ok bs) ↔ ∀ a ∈ as, ∃ b, f a = .ok b := by
  induction as with
  | nil => simp [pure, Except.pure]
  | cons a as ih =>
    rw [List.forall_mem_cons, ← ih]
    constructor
    · rintro ⟨bs, hbs⟩
      rw [List.mapM_cons] at hbs
      obtain ⟨b, hb, hbs⟩ := bind_ok hbs
      obtain ⟨rest, hrest, _⟩ := bind_ok hbs
      exact ⟨⟨b, hb⟩, rest, hrest⟩
    · rintro ⟨⟨b, hb⟩, rest, hrest⟩
      refine ⟨b :: rest, ?_⟩
      rw [List.mapM_cons, hb]
      show (as.mapM f >>= _) = _
      rw [hrest]
      rfl

/-! ## Executing a trace -/

section Exec
variable (S : System σ ε) (ok : σ → ε → Prop) [∀ s e, Decidable (ok s e)]

/-- Run a trace whose every step meets `ok`; a refused event ends the run. -/
def exec (s : σ) (es : List ε) : Option σ :=
  es.foldlM (fun s e => if ok s e then S.step s e else none) s

theorem exec_cons (s : σ) (e : ε) (es : List ε) :
    exec S ok s (e :: es) = (if ok s e then S.step s e else none).bind fun t => exec S ok t es := rfl

variable {S ok}

theorem Reach.exec {s t : σ} (h : Reach S ok s) (es : List ε) (he : exec S ok s es = some t) :
    Reach S ok t := by
  induction es generalizing s with
  | nil =>
    cases he
    exact h
  | cons e es ih =>
    rw [exec_cons] at he
    obtain ⟨u, hu, ht⟩ := Option.bind_eq_some_iff.mp he
    split at hu
    · next hok => exact ih (.next h hok hu) ht
    · cases hu

theorem Trace.of_exec {s t : σ} (es : List ε) (he : Lib.exec S ok s es = some t) : Trace S ok s es t := by
  induction es generalizing s with
  | nil =>
    cases he
    exact .nil _
  | cons e es ih =>
    rw [exec_cons] at he
    obtain ⟨u, hu, ht⟩ := Option.bind_eq_some_iff.mp he
    split at hu
    · next hok => exact .cons hok hu (ih ht)
    · cases hu

/-- A trace that runs through and ends in a state with the tested property. -/
theorem Reach.of_exec (S : System σ ε) (ok : σ → ε → Prop) [∀ s e, Decidable (ok s e)] {s : σ}
    (h0 : S.init s) (es : List ε) (p : σ → Bool)
    (h : (Lib.exec S ok s es).map p = some true) : ∃ t, Reach S ok t ∧ p t = true := by
  obtain ⟨t, ht, hp⟩ := Option.map_eq_some_iff.mp h
  exact ⟨t, Reach.exec (.start h0) es ht, hp⟩

end Exec
end ChessCrawl.Lib
