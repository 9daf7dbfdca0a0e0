import Mathlib.Algebra.BigOperators.Group.List.Basic
import Mathlib.Data.List.Nodup
import Mathlib.Tactic.Abel

/-! Double bookkeeping: tables of accounts whose balances are the sums of the entries posted to them.
An entry posts its amount to the account with its key; a correction of an entry posts the difference. -/
namespace ChessCrawl.Lib
set_option autoImplicit false

/-! ## Sums of selected entries -/

section Total
variable {ε ι A : Type} [AddCommMonoid A]

/-- The sum of the amounts of the entries that meet `p`. -/
def total (p : ε → Prop) [DecidablePred p] (f : ε → A) (es : List ε) : A :=
  ((es.filter fun e => decide (p e)).map f).sum

@[simp]
theorem total_nil (p : ε → Prop) [DecidablePred p] (f : ε → A) : total p f [] = 0 := rfl

theorem total_cons (p : ε → Prop) [DecidablePred p] (f : ε → A) (e : ε) (es : List ε) :
    total p f (e :: es) = (if p e then f e else 0) + total p f es := by
  by_cases h : p e
  · simp [total, h]
  · simp [total, h]

theorem total_append (p : ε → Prop) [DecidablePred p] (f : ε → A) (es ds : List ε) :
    total p f (es ++ ds) = total p f es + total p f ds := by
  simp [total]

theorem total_singleton (p : ε → Prop) [DecidablePred p] (f : ε → A) (e : ε) :
    total p f [e] = if p e then f e else 0 := by
  rw [total_cons, total_nil, add_zero]

theorem total_map (g : ι → ε) (p : ε → Prop) [DecidablePred p] (f : ε → A) (xs : List ι) :
    total p f (xs.map g) = total (fun x => p (g x)) (fun x => f (g x)) xs := by
  induction xs with
  | nil => rfl
  | cons x xs ih => rw [List.map_cons, total_cons, total_cons, ih]

theorem total_eq_zero {p : ε → Prop} [DecidablePred p] {f : ε → A} {es : List ε} (h : ∀ e ∈ es, ¬ p e) :
    total p f es = 0 := by
  induction es with
  | nil => rfl
  | cons e es ih =>
    rw [total_cons, if_neg (h e List.mem_cons_self), ih fun d hd => h d (List.mem_cons_of_mem e hd), add_zero]

/-- Selections that agree on the entries. -/
theorem total_select {p q : ε → Prop} [DecidablePred p] [DecidablePred q] {f : ε → A} {es : List ε}
    (h : ∀ e ∈ es, p e ↔ q e) : total p f es = total q f es := by
  induction es with
  | nil => rfl
  | cons e es ih =>
    rw [total_cons, total_cons, ih fun d hd => h d (List.mem_cons_of_mem e hd)]
    simp only [h e List.mem_cons_self]

theorem total_const_zero (p : ε → Prop) [DecidablePred p] (es : List ε) :
    total p (fun _ => (0 : A)) es = 0 := by
  induction es with
  | nil => rfl
  | cons e es ih => rw [total_cons, ih, ite_self, add_zero]

/-- Projecting the amounts projects the sum. -/
theorem total_apply {δ : Type} {B : Type} [AddCommMonoid B] (p : ε → Prop) [DecidablePred p]
    (f : ε → δ → B) (es : List ε) (d : δ) : total p f es d = total p (fun e => f e d) es := by
  induction es with
  | nil => rfl
  | cons e es ih =>
    rw [total_cons, total_cons, Pi.add_apply, ih]
    by_cases h : p e
    · rw [if_pos h, if_pos h]
    · rw [if_neg h, if_neg h, Pi.zero_apply]

theorem total_one (p : ε → Prop) [DecidablePred p] (es : List ε) :
    total p (fun _ => (1 : Int)) es = ((es.filter fun e => decide (p e)).length : Int) := by
  simp [total]

theorem total_nonneg {p : ε → Prop} [DecidablePred p] {f : ε → Int} {es : List ε}
    (h : ∀ e ∈ es, 0 ≤ f e) : 0 ≤ total p f es := by
  induction es with
  | nil => exact Int.le_refl 0
  | cons e es ih =>
    have hhead := h e List.mem_cons_self
    have htail := ih fun d hd => h d (List.mem_cons_of_mem e hd)
    rw [total_cons]
    split <;> omega

end Total

/-! ## Corrections -/

section Correct
variable {ε κ A : Type} [DecidableEq κ] [AddCommGroup A]

theorem total_update_absent {p : ε → Prop} [DecidablePred p] {f : ε → A} {key : ε → κ} {es : List ε}
    {k : κ} (u : ε → ε) (h : k ∉ es.map key) :
    total p f (es.map fun e => if key e = k then u e else e) = total p f es := by
  induction es with
  | nil => rfl
  | cons e es ih =>
    have hhead : ¬ key e = k := fun he => h (he ▸ List.mem_cons_self)
    have htail : k ∉ es.map key := fun hk => h (List.mem_cons_of_mem _ hk)
    rw [List.map_cons, total_cons, total_cons, if_neg hhead, ih htail]

/-- Correcting the one entry with a key moves the sum by the difference of its amounts. -/
theorem total_update {p : ε → Prop} [DecidablePred p] {f : ε → A} {key : ε → κ} {es : List ε} {r : ε}
    {u : ε → ε} {a : A} (hkeys : (es.map key).Nodup) (hr : r ∈ es) (hp : p (u r) ↔ p r)
    (hf : f (u r) = f r + a) :
    total p f (es.map fun e => if key e = key r then u e else e) =
      total p f es + if p r then a else 0 := by
  induction es with
  | nil => exact absurd hr List.not_mem_nil
  | cons e es ih =>
    rw [List.map_cons, List.nodup_cons] at hkeys
    rw [List.map_cons, total_cons, total_cons]
    rcases List.mem_cons.mp hr with rfl | hmem
    · rw [if_pos rfl, total_update_absent u hkeys.1, hf]
      by_cases h : p r
      · rw [if_pos (hp.mpr h), if_pos h, if_pos h]
        abel
      · rw [if_neg (mt hp.mp h), if_neg h, if_neg h]
        abel
    · have hne : ¬ key e = key r := fun he => hkeys.1 (he ▸ List.mem_map_of_mem hmem)
      rw [if_neg hne, ih hkeys.2 hmem, add_assoc]

/-- Replacing the entry at an index. -/
theorem total_set {p : ε → Prop} [DecidablePred p] {f : ε → A} {es : List ε} {i : Nat} {r : ε} (hr : es[i]? = some r)
    (r' : ε) : total p f (es.set i r') =
      total p f es - (if p r then f r else 0) + if p r' then f r' else 0 := by
  induction es generalizing i with
  | nil => cases hr
  | cons e es ih =>
    cases i with
    | zero =>
      cases hr
      rw [List.set_cons_zero, total_cons, total_cons]
      abel
    | succ i =>
      rw [List.set_cons_succ, total_cons, total_cons, ih (by simpa using hr)]
      abel

end Correct

/-! ## Accounts -/

section Accounts
variable {ρ κ A : Type}

/-- Every account holds the sum that `T` gives for its key. -/
def Balanced (key : ρ → κ) (balance : ρ → A) (T : κ → A) (rows : List ρ) : Prop :=
  ∀ r ∈ rows, balance r = T (key r)

/-- Post an amount to the account with the key. -/
def post [DecidableEq κ] (key : ρ → κ) (add : A → ρ → ρ) (k : κ) (a : A) (rows : List ρ) : List ρ :=
  rows.map fun r => if key r = k then add a r else r

theorem mem_post [DecidableEq κ] {key : ρ → κ} {add : A → ρ → ρ} {k : κ} {a : A} {rows : List ρ} {r' : ρ}
    (h : r' ∈ post key add k a rows) :
    ∃ r ∈ rows, (key r = k ∧ r' = add a r) ∨ (key r ≠ k ∧ r' = r) := by
  obtain ⟨r, hr, heq⟩ := List.mem_map.mp h
  by_cases hk : key r = k
  · rw [if_pos hk] at heq
    exact ⟨r, hr, .inl ⟨hk, heq.symm⟩⟩
  · rw [if_neg hk] at heq
    exact ⟨r, hr, .inr ⟨hk, heq.symm⟩⟩

theorem post_keys [DecidableEq κ] {key : ρ → κ} {add : A → ρ → ρ} {k : κ} {a : A} {rows : List ρ}
    {τ : Type} (g : ρ → τ) (hkey : ∀ r, g (add a r) = g r) : (post key add k a rows).map g = rows.map g := by
  induction rows with
  | nil => rfl
  | cons r rows ih =>
    unfold post at ih ⊢
    rw [List.map_cons, List.map_cons, List.map_cons, ih]
    by_cases h : key r = k
    · rw [if_pos h, hkey]
    · rw [if_neg h]

theorem Balanced.post [DecidableEq κ] [AddCommMonoid A] {key : ρ → κ} {balance : ρ → A} {T T' : κ → A}
    {rows : List ρ} {add : A → ρ → ρ} {k : κ} {a : A} (h : Balanced key balance T rows) (hkey : ∀ r, key (add a r) = key r)
    (hadd : ∀ r, balance (add a r) = balance r + a)
    (hT : ∀ k', T' k' = T k' + if k = k' then a else 0) :
    Balanced key balance T' (Lib.post key add k a rows) := by
  intro r' hr'
  obtain ⟨r, hr, ⟨hk, rfl⟩ | ⟨hk, rfl⟩⟩ := mem_post hr'
  · rw [hadd, h r hr, hkey, hT, if_pos hk.symm]
  · rw [h r' hr, hT, if_neg (Ne.symm hk), add_zero]

theorem Balanced.append {key : ρ → κ} {balance : ρ → A} {T : κ → A} {rows : List ρ} {r : ρ}
    (h : Balanced key balance T rows) (hr : balance r = T (key r)) :
    Balanced key balance T (rows ++ [r]) := by
  intro r' hr'
  rcases List.mem_append.mp hr' with hold | hnew
  · exact h r' hold
  · rw [List.mem_singleton.mp hnew]
    exact hr

end Accounts
end ChessCrawl.Lib
