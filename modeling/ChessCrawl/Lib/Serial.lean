import ChessCrawl.Lib.Run
import Mathlib.Logic.Function.Basic

/-! Transactions that run action by action on a private draft, hold what they have locked until they end, and show their
writes at their commit. When an action's locks keep others from changing what it has read, every interleaving has the
results and the state of one transaction after the other, in the order in which they end. -/
namespace ChessCrawl.Lib
set_option autoImplicit false

/-- An action sees the committed state and the draft of its transaction; an error ends the transaction with a result.
Operations that read one consistent state take no locks. -/
structure Transactions (δ ω π α β ρ : Type) where
  actions : ω → List α
  reads : ω → Bool
  needs : δ → ω → α → List β
  blank : π
  act : δ → ω → π → α → Except ρ π
  result : ω → π → ρ
  apply : δ → ω → π → δ

structure Session (ω π α : Type) where
  op : ω
  past : List α
  todo : List α
  draft : π

/-- `held` says which session has a lock, and `history` the operations that have ended, with their results. -/
structure Schedule (δ ω π α β ρ : Type) where
  db : δ
  sessions : Nat → Option (Session ω π α)
  held : β → Option Nat
  history : List (ω × ρ)

inductive Move (ω : Type)
  | begin (n : Nat) (op : ω)
  | act (n : Nat)
  | commit (n : Nat)
  | abort (n : Nat)
  | read (op : ω)

variable {δ ω π α β ρ : Type}

namespace Transactions
variable (T : Transactions δ ω π α β ρ)

/-- The draft after some actions that all see one state. -/
def replay (db : δ) (op : ω) (as : List α) : Except ρ π := as.foldlM (T.act db op) T.blank

/-- The operation on its own. -/
def atomic (db : δ) (op : ω) : ρ × δ :=
  match T.replay db op (T.actions op) with
  | .ok d => (T.result op d, T.apply db op d)
  | .error r => (r, db)

/-- One operation after the other. -/
inductive Serial : δ → List (ω × ρ) → δ → Prop
  | nil (db : δ) : Serial db [] db
  | snoc {db db' : δ} {history : List (ω × ρ)} (op : ω) : Serial db history db' →
      Serial db (history ++ [(op, (T.atomic db' op).1)]) (T.atomic db' op).2

/-- Locks that two operations do not share keep what an action of one of them reads from the other's commit. -/
structure Isolated : Prop where
  reads : ∀ db op, T.reads op = true → (T.atomic db op).2 = db
  shrinks : ∀ db op op' e a, T.replay db op' (T.actions op') = .ok e → ∀ b ∈ T.needs (T.apply db op' e) op a,
    b ∈ T.needs db op a
  stable : ∀ db op op' a d d' e, T.reads op = false → a ∈ T.actions op → T.act db op d a = .ok d' →
    T.replay db op' (T.actions op') = .ok e →
    (∀ b ∈ T.needs db op a, ∀ a' ∈ T.actions op', b ∉ T.needs db op' a') → T.act (T.apply db op' e) op d a = .ok d'

end Transactions

namespace Schedule
variable (T : Transactions δ ω π α β ρ) (s : Schedule δ ω π α β ρ)

/-- The end of a session, which releases its locks. -/
def finish (n : Nat) (db : δ) (ended : List (ω × ρ)) : Schedule δ ω π α β ρ :=
  { db := db
    sessions := Function.update s.sessions n none
    held := fun b => if s.held b = some n then none else s.held b
    history := s.history ++ ended }

def step [DecidableEq β] : Move ω → Option (Schedule δ ω π α β ρ)
  | .begin n op =>
    if (s.sessions n).isNone ∧ T.reads op = false then
      some { s with sessions := Function.update s.sessions n (some ⟨op, [], T.actions op, T.blank⟩) }
    else none
  | .act n => (s.sessions n).bind fun x =>
    match x.todo with
    | [] => none
    | a :: todo =>
      if ∀ b ∈ T.needs s.db x.op a, s.held b = none ∨ s.held b = some n then
        match T.act s.db x.op x.draft a with
        | .ok d =>
          some { s with
            sessions := Function.update s.sessions n (some ⟨x.op, x.past ++ [a], todo, d⟩)
            held := fun b => if b ∈ T.needs s.db x.op a then some n else s.held b }
        | .error r => some (s.finish n s.db [(x.op, r)])
      else none
  | .commit n => (s.sessions n).bind fun x =>
    match x.todo with
    | [] => some (s.finish n (T.apply s.db x.op x.draft) [(x.op, T.result x.op x.draft)])
    | _ :: _ => none
  | .abort n => (s.sessions n).map fun _ => s.finish n s.db []
  | .read op =>
    if T.reads op = true then some { s with history := s.history ++ [(op, (T.atomic s.db op).1)] } else none

/-- Interleaved transactions from a state in which none is at work. -/
def system [DecidableEq β] : System (Schedule δ ω π α β ρ) (Move ω) where
  init s := (∀ n, s.sessions n = none) ∧ (∀ b, s.held b = none) ∧ s.history = []
  step s e := s.step T e

/-- The committed state explains all drafts, and a session has the locks of its actions. -/
structure Ok (db₀ : δ) : Prop where
  serial : T.Serial db₀ s.history s.db
  split : ∀ n x, s.sessions n = some x → x.past ++ x.todo = T.actions x.op
  writes : ∀ n x, s.sessions n = some x → T.reads x.op = false
  draft : ∀ n x, s.sessions n = some x → T.replay s.db x.op x.past = .ok x.draft
  locked : ∀ n x, s.sessions n = some x → ∀ a ∈ x.past, ∀ b ∈ T.needs s.db x.op a, s.held b = some n

end Schedule

section Runs
variable {T : Transactions δ ω π α β ρ} {s t : Schedule δ ω π α β ρ} {db₀ : δ}

theorem Transactions.replay_snoc {db : δ} {op : ω} {as : List α} {a : α} {d d' : π}
    (h : T.replay db op as = .ok d) (ha : T.act db op d a = .ok d') : T.replay db op (as ++ [a]) = .ok d' := by
  unfold Transactions.replay at h ⊢
  rw [List.foldlM_append]
  simp [bind, Except.bind, h, ha, pure, Except.pure]

/-- What holds of the blank draft and is kept by every action holds of a draft. -/
theorem Transactions.replay_keeps {db : δ} {op : ω} {as : List α} {d : π} {I : π → Prop} (hblank : I T.blank)
    (hact : ∀ a ∈ as, ∀ d d', T.act db op d a = .ok d' → I d → I d') (h : T.replay db op as = .ok d) : I d := by
  induction as using List.reverseRecOn generalizing d with
  | nil =>
    cases h
    exact hblank
  | append_singleton as a ih =>
    unfold Transactions.replay at h
    rw [List.foldlM_append] at h
    obtain ⟨e, he, hlast⟩ := bind_ok h
    obtain ⟨d', hd', hpure⟩ := bind_ok hlast
    cases hpure
    exact hact a (by simp) e d hd' (ih (fun a' ha' => hact a' (by simp [ha'])) he)

theorem Transactions.replay_stable {db db' : δ} {op : ω} {as : List α} {d : π}
    (hact : ∀ a ∈ as, ∀ d d', T.act db op d a = .ok d' → T.act db' op d a = .ok d')
    (h : T.replay db op as = .ok d) : T.replay db' op as = .ok d := by
  induction as using List.reverseRecOn generalizing d with
  | nil =>
    cases h
    rfl
  | append_singleton as a ih =>
    unfold Transactions.replay at h
    rw [List.foldlM_append] at h
    obtain ⟨e, he, hlast⟩ := bind_ok h
    obtain ⟨d', hd', hpure⟩ := bind_ok hlast
    cases hpure
    exact replay_snoc (ih (fun a' ha' => hact a' (by simp [ha'])) he) (hact a (by simp) e d hd')

/-- An error ends the operation on its own too. -/
theorem Transactions.atomic_error {db : δ} {op : ω} {past todo : List α} {a : α} {d : π} {r : ρ}
    (hsplit : past ++ a :: todo = T.actions op) (h : T.replay db op past = .ok d) (ha : T.act db op d a = .error r) :
    T.atomic db op = (r, db) := by
  have hreplay : T.replay db op (T.actions op) = .error r := by
    unfold Transactions.replay at h ⊢
    rw [← hsplit, List.foldlM_append]
    simp [bind, Except.bind, h, ha]
  unfold Transactions.atomic
  rw [hreplay]

theorem Transactions.atomic_ok {db : δ} {op : ω} {d : π} (h : T.replay db op (T.actions op) = .ok d) :
    T.atomic db op = (T.result op d, T.apply db op d) := by
  unfold Transactions.atomic
  rw [h]

theorem Transactions.Serial.last {db db' : δ} {history : List (ω × ρ)} {q : ω × ρ}
    (h : T.Serial db (history ++ [q]) db') :
    ∃ mid, T.Serial db history mid ∧ q.2 = (T.atomic mid q.1).1 ∧ db' = (T.atomic mid q.1).2 := by
  generalize heq : history ++ [q] = all at h
  cases h with
  | nil => simp at heq
  | snoc op h =>
    obtain ⟨rfl, hq⟩ := List.append_inj' heq rfl
    obtain rfl := List.singleton_inj.mp hq
    exact ⟨_, h, rfl, rfl⟩

theorem Transactions.Serial.split {db db' : δ} {history later : List (ω × ρ)} (h : T.Serial db (history ++ later) db') :
    ∃ mid, T.Serial db history mid ∧ T.Serial mid later db' := by
  induction later using List.reverseRecOn generalizing db' with
  | nil => exact ⟨db', by simpa using h, .nil _⟩
  | append_singleton later q ih =>
    rw [← List.append_assoc] at h
    obtain ⟨last, hlast, hq, rfl⟩ := h.last
    obtain ⟨mid, hmid, hlater⟩ := ih hlast
    refine ⟨mid, hmid, ?_⟩
    have := hlater.snoc q.1
    rwa [← hq] at this

/-- What every operation keeps. -/
theorem Transactions.Serial.keeps {I : δ → Prop} (hstep : ∀ db op, I db → I (T.atomic db op).2) {db db' : δ}
    {history : List (ω × ρ)} (h : T.Serial db history db') (hdb : I db) : I db' := by
  induction h with
  | nil => exact hdb
  | snoc op _ ih => exact hstep _ op ih

/-- The sessions that stay keep their drafts and locks over a step that leaves the state as it is. -/
theorem Schedule.Ok.finish (h : s.Ok T db₀) {n : Nat} {db : δ} {ended : List (ω × ρ)}
    (hserial : T.Serial db₀ (s.history ++ ended) db)
    (hdraft : ∀ m x, m ≠ n → s.sessions m = some x → T.replay db x.op x.past = .ok x.draft)
    (hneeds : ∀ m x, m ≠ n → s.sessions m = some x → ∀ a ∈ x.past, ∀ b ∈ T.needs db x.op a, b ∈ T.needs s.db x.op a) :
    (s.finish n db ended).Ok T db₀ := by
  have hother : ∀ m x, (s.finish n db ended).sessions m = some x → m ≠ n ∧ s.sessions m = some x := by
    intro m x hm
    by_cases hmn : m = n
    · subst hmn
      simp [Schedule.finish] at hm
    · simpa [Schedule.finish, hmn] using hm
  refine ⟨hserial, fun m x hm => ?_, fun m x hm => ?_, fun m x hm => ?_, fun m x hm a ha b hb => ?_⟩
  · exact h.split m x (hother m x hm).2
  · exact h.writes m x (hother m x hm).2
  · obtain ⟨hmn, hx⟩ := hother m x hm
    exact hdraft m x hmn hx
  · obtain ⟨hmn, hx⟩ := hother m x hm
    have hheld := h.locked m x hx a ha b (hneeds m x hmn hx a ha b hb)
    simp [Schedule.finish, hheld, hmn]

variable [DecidableEq β]

theorem Schedule.Ok.step (h : s.Ok T db₀) (hisolated : T.Isolated) {e : Move ω} (hstep : s.step T e = some t) :
    t.Ok T db₀ := by
  cases e with
  | begin n op =>
    obtain ⟨⟨_, hwrites⟩, ht⟩ := Option.ite_none_right_eq_some.mp hstep
    obtain rfl := Option.some.inj ht
    have hcases : ∀ m x, Function.update s.sessions n (some ⟨op, [], T.actions op, T.blank⟩) m = some x →
        x = ⟨op, [], T.actions op, T.blank⟩ ∨ s.sessions m = some x := by
      intro m x hm
      by_cases hmn : m = n
      · subst hmn
        left
        simpa [eq_comm] using hm
      · right
        simpa [hmn] using hm
    refine ⟨h.serial, fun m x hm => ?_, fun m x hm => ?_, fun m x hm => ?_, fun m x hm a ha => ?_⟩
    · obtain rfl | hold := hcases m x hm
      · rfl
      · exact h.split m x hold
    · obtain rfl | hold := hcases m x hm
      · exact hwrites
      · exact h.writes m x hold
    · obtain rfl | hold := hcases m x hm
      · rfl
      · exact h.draft m x hold
    · obtain rfl | hold := hcases m x hm
      · cases ha
      · exact h.locked m x hold a ha
  | act n =>
    obtain ⟨x, hx, hact⟩ := Option.bind_eq_some_iff.mp hstep
    obtain ⟨op, past, todo, draft⟩ := x
    cases todo with
    | nil => cases hact
    | cons a todo =>
      obtain ⟨hfree, hact⟩ := Option.ite_none_right_eq_some.mp hact
      have hpast := h.draft n _ hx
      have hsplit := h.split n _ hx
      cases hd : T.act s.db op draft a with
      | error r =>
        simp only [hd, Option.some.injEq] at hact
        subst hact
        have hatomic := Transactions.atomic_error hsplit hpast hd
        refine h.finish ?_ (fun m x _ hm => h.draft m x hm) (fun _ _ _ _ _ _ _ hb => hb)
        have := h.serial.snoc op
        rwa [hatomic] at this
      | ok d =>
        simp only [hd, Option.some.injEq] at hact
        subst hact
        have hcases : ∀ m x, Function.update s.sessions n (some ⟨op, past ++ [a], todo, d⟩) m = some x →
            (m = n ∧ x = ⟨op, past ++ [a], todo, d⟩) ∨ (m ≠ n ∧ s.sessions m = some x) := by
          intro m x hm
          by_cases hmn : m = n
          · subst hmn
            left
            exact ⟨rfl, by simpa [eq_comm] using hm⟩
          · right
            exact ⟨hmn, by simpa [hmn] using hm⟩
        refine ⟨h.serial, fun m x hm => ?_, fun m x hm => ?_, fun m x hm => ?_, fun m x hm a' ha' b hb => ?_⟩
        · obtain ⟨rfl, rfl⟩ | ⟨_, hold⟩ := hcases m x hm
          · simpa using hsplit
          · exact h.split m x hold
        · obtain ⟨rfl, rfl⟩ | ⟨_, hold⟩ := hcases m x hm
          · have hwrites := h.writes m _ hx
            exact hwrites
          · exact h.writes m x hold
        · obtain ⟨rfl, rfl⟩ | ⟨_, hold⟩ := hcases m x hm
          · exact Transactions.replay_snoc hpast hd
          · exact h.draft m x hold
        · obtain ⟨rfl, rfl⟩ | ⟨hmn, hold⟩ := hcases m x hm
          · by_cases hnew : b ∈ T.needs s.db op a
            · simp [hnew]
            · obtain hpast' | rfl := List.mem_append.mp ha' |>.imp_right List.mem_singleton.mp
              · simpa [hnew] using h.locked m _ hx a' hpast' b hb
              · exact absurd hb hnew
          · have hheld := h.locked m x hold a' ha' b hb
            have hnot : b ∉ T.needs s.db op a := by
              intro hneed
              obtain hnone | hself := hfree b hneed
              · rw [hheld] at hnone
                cases hnone
              · exact hmn (Option.some.inj (hheld.symm.trans hself))
            simpa [hnot] using hheld
  | commit n =>
    obtain ⟨x, hx, hcommit⟩ := Option.bind_eq_some_iff.mp hstep
    obtain ⟨op, past, todo, draft⟩ := x
    cases todo with
    | cons _ _ => cases hcommit
    | nil =>
      simp only [Option.some.injEq] at hcommit
      subst hcommit
      have hall : past = T.actions op := by simpa using h.split n _ hx
      have hdraft : T.replay s.db op (T.actions op) = .ok draft := hall ▸ h.draft n _ hx
      refine h.finish ?_ (fun m x hmn hm => ?_) (fun m x hmn hm a ha b hb => hisolated.shrinks _ _ _ _ _ hdraft b hb)
      · have := h.serial.snoc op
        rwa [Transactions.atomic_ok hdraft] at this
      · refine Transactions.replay_stable (fun a ha d d' hd => ?_) (h.draft m x hm)
        have hmem : a ∈ T.actions x.op := by
          rw [← h.split m x hm]
          exact List.mem_append_left _ ha
        refine hisolated.stable _ _ _ _ _ _ _ (h.writes m x hm) hmem hd hdraft fun b hb a' ha' hb' => ?_
        have hmine := h.locked m x hm a ha b hb
        have hhis := h.locked n _ hx a' (hall ▸ ha') b hb'
        exact hmn (Option.some.inj (hmine.symm.trans hhis))
  | abort n =>
    obtain ⟨x, hx, rfl⟩ := Option.map_eq_some_iff.mp hstep
    refine h.finish ?_ (fun m x _ hm => h.draft m x hm) (fun _ _ _ _ _ _ _ hb => hb)
    simpa using h.serial
  | read op =>
    obtain ⟨hreads, ht⟩ := Option.ite_none_right_eq_some.mp hstep
    obtain rfl := Option.some.inj ht
    refine ⟨?_, h.split, h.writes, h.draft, h.locked⟩
    have := h.serial.snoc op
    rwa [hisolated.reads _ _ hreads] at this

/-- Every interleaving is serial in the order in which the operations end. -/
theorem Schedule.serial (hisolated : T.Isolated) {s₀ : Schedule δ ω π α β ρ} {es : List (Move ω)}
    (hinit : (Schedule.system T).init s₀) (h : Trace (Schedule.system T) (fun _ _ => True) s₀ es s) : s.Ok T s₀.db := by
  obtain ⟨hidle, _, hhistory⟩ := hinit
  apply h.keeps (I := fun s => s.Ok T s₀.db)
  · intro s e t _ hs _ hstep
    exact hs.step hisolated hstep
  · refine ⟨hhistory ▸ .nil _, fun n x hn => ?_, fun n x hn => ?_, fun n x hn => ?_, fun n x hn => ?_⟩
    · rw [hidle n] at hn
      cases hn
    · rw [hidle n] at hn
      cases hn
    · rw [hidle n] at hn
      cases hn
    · rw [hidle n] at hn
      cases hn

end Runs
end ChessCrawl.Lib
