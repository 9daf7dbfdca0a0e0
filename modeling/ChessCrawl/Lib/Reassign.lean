import Mathlib.Data.List.Nodup
import Mathlib.Tactic.Common

/-! Moving rows of a table to a new owner under a unique key. A row whose new key is free is moved; one whose
new key is taken is absorbed by the row that has it, and everything that pointed at the row is redirected there.
`Reassigned` says what a run of such moves has done to the table, in a form that composes. -/
namespace ChessCrawl.Lib
set_option autoImplicit false

/-- A table with identities and a unique key, and the move of its rows. -/
structure Moving (α κ : Type) where
  id : α → Nat
  key : α → κ
  move : α → α
  absorb : α → α → α

/-- The laws of a move: it keeps the identity, a moved row stays where it is, and an absorbing row keeps its
identity and its key. -/
structure Moving.Lawful {α κ : Type} (M : Moving α κ) : Prop where
  move_id : ∀ a, M.id (M.move a) = M.id a
  move_key : ∀ a b, M.key a = M.key b → M.key (M.move a) = M.key (M.move b)
  move_move : ∀ a, M.key (M.move (M.move a)) = M.key (M.move a)
  absorb_id : ∀ m a, M.id (M.absorb m a) = M.id m
  absorb_key : ∀ m a, M.key (M.absorb m a) = M.key m

/-- `Rel` is a preorder that moving and absorbing respect, and an absorbing row takes its `val` from one of the
two. -/
structure Moving.Respects {α κ ν : Type} (M : Moving α κ) (Rel : α → α → Prop) (val : α → ν) : Prop where
  refl : ∀ a, Rel a a
  trans : ∀ a b c, Rel a b → Rel b c → Rel a c
  move : ∀ a, Rel (M.move a) a
  absorbs : ∀ m a, Rel (M.absorb m a) m
  absorbed : ∀ m a, Rel (M.absorb m a) a
  val_move : ∀ a, val (M.move a) = val a
  val_absorb : ∀ m a, val (M.absorb m a) = val m ∨ val (M.absorb m a) = val a

variable {α κ : Type} (M : Moving α κ)

section Steps
variable [DecidableEq κ]

/-- The row that already has the new key. -/
def Moving.matching (table : List α) (row : α) : Option α :=
  table.find? fun m => M.key m = M.key (M.move row) ∧ M.id m ≠ M.id row

def Moving.step (table : List α) (row : α) : List α :=
  match M.matching table row with
  | none => table.map fun r => if M.id r = M.id row then M.move r else r
  | some m => (table.map fun r => if M.id r = M.id m then M.absorb r row else r).filter fun r => M.id r ≠ M.id row

/-- Where pointers at a row go. -/
def Moving.redirect (table : List α) (row : α) (n : Nat) : Nat :=
  match M.matching table row with
  | none => n
  | some m => if n = M.id row then M.id m else n

end Steps

/-- A row that a move would change. -/
def Moving.Affected (a : α) : Prop := M.key (M.move a) ≠ M.key a

/-- What a run of moves has done: every old row is represented by the row its pointers are redirected to, and
every row represents an old one. -/
structure Reassigned {ν : Type} (Rel : α → α → Prop) (val : α → ν) (t t' : List α) (ρ : Nat → Nat) : Prop where
  ids : (t'.map M.id).Nodup
  keys : (t'.map M.key).Nodup
  represented : ∀ a ∈ t, ∃ b ∈ t', M.id b = ρ (M.id a) ∧ M.key (M.move b) = M.key (M.move a) ∧ Rel b a
  represents : ∀ b ∈ t', ∃ a ∈ t, M.id b = ρ (M.id a) ∧ val b = val a
  waiting : ∀ b ∈ t', M.Affected b → b ∈ t
  spared : ∀ a ∈ t, ¬ M.Affected a → (∀ c ∈ t, M.Affected c → M.key (M.move c) ≠ M.key a) → a ∈ t'
  changed : ∀ b ∈ t', b ∈ t ∨ ∃ c ∈ t, M.Affected c ∧ M.key b = M.key (M.move c)

variable {M} {ν : Type} {Rel : α → α → Prop} {val : α → ν} {t t' t'' : List α} {ρ ρ' : Nat → Nat}

theorem Reassigned.refl (hR : M.Respects Rel val) (hids : (t.map M.id).Nodup) (hkeys : (t.map M.key).Nodup) :
    Reassigned M Rel val t t fun n => n where
  ids := hids
  keys := hkeys
  represented a ha := ⟨a, ha, rfl, rfl, hR.refl a⟩
  represents b hb := ⟨b, hb, rfl, rfl⟩
  waiting _ hb _ := hb
  spared _ ha _ _ := ha
  changed _ hb := .inl hb

theorem Reassigned.trans (hR : M.Respects Rel val) (h : Reassigned M Rel val t t' ρ)
    (h' : Reassigned M Rel val t' t'' ρ') : Reassigned M Rel val t t'' (ρ' ∘ ρ) := by
  refine ⟨h'.ids, h'.keys, fun a ha => ?_, fun b hb => ?_, fun b hb hA => h.waiting b (h'.waiting b hb hA) hA,
    fun a ha hA hfree => ?_, fun b hb => ?_⟩
  · obtain ⟨b, hb, hid, hkey, hrel⟩ := h.represented a ha
    obtain ⟨c, hc, hid', hkey', hrel'⟩ := h'.represented b hb
    exact ⟨c, hc, by rw [hid', hid]; rfl, hkey'.trans hkey, hR.trans _ _ _ hrel' hrel⟩
  · obtain ⟨b', hb', hid', hval'⟩ := h'.represents b hb
    obtain ⟨a, ha, hid, hval⟩ := h.represents b' hb'
    exact ⟨a, ha, by rw [hid', hid]; rfl, hval'.trans hval⟩
  · exact h'.spared a (h.spared a ha hA hfree) hA fun c hc hcA => hfree c (h.waiting c hc hcA) hcA
  · rcases h'.changed b hb with hold | ⟨c, hc, hcA, hkey⟩
    · exact h.changed b hold
    · exact .inr ⟨c, h.waiting c hc hcA, hcA, hkey⟩

theorem matching_unaffected [DecidableEq κ] (hM : M.Lawful) {row m : α} (h : M.matching t row = some m) : ¬ M.Affected m := by
  have hfound := List.find?_some h
  simp only [decide_eq_true_eq] at hfound
  have hk := hM.move_key m (M.move row) hfound.1
  rw [hM.move_move, ← hfound.1] at hk
  exact not_not.mpr hk

section Step
variable [DecidableEq κ] (hM : M.Lawful) (hR : M.Respects Rel val)
include hM hR

/-- A free key: the row moves and every pointer stays. -/
theorem step_free (hids : (t.map M.id).Nodup) (hkeys : (t.map M.key).Nodup) {row : α} (hrow : row ∈ t)
    (hA : M.Affected row) (hnone : M.matching t row = none) : Reassigned M Rel val t (M.step t row) fun n => n := by
  have hinj := List.inj_on_of_nodup_map hids
  have hfree : ∀ m ∈ t, M.key m = M.key (M.move row) → m = row := by
    intro m hm hk
    have hid := List.find?_eq_none.mp hnone m hm
    simp only [hk, true_and, decide_eq_true_eq, ne_eq, not_not] at hid
    exact hinj hm hrow hid
  obtain ⟨f, hf⟩ : ∃ f : α → α, f = fun r => if M.id r = M.id row then M.move r else r := ⟨_, rfl⟩
  have hstep : M.step t row = t.map f := by
    simp only [Moving.step, hnone, hf]
  have hfrow : f row = M.move row := by
    simp only [hf, if_true]
  have hfother : ∀ r ∈ t, r ≠ row → f r = r := by
    intro r hr hne
    rw [hf]
    exact if_neg fun h => hne (hinj hr hrow h)
  have hfid : ∀ r, M.id (f r) = M.id r := by
    intro r
    rw [hf]
    dsimp only
    split
    · exact hM.move_id r
    · rfl
  have hnodup : (t.map f).map M.id = t.map M.id := by
    rw [List.map_map]
    exact List.map_congr_left fun r _ => hfid r
  have hmem : ∀ b ∈ t.map f, b = M.move row ∨ b ∈ t ∧ b ≠ row := by
    intro b hb
    obtain ⟨a, ha, rfl⟩ := List.mem_map.mp hb
    by_cases har : a = row
    · rw [har]
      exact .inl hfrow
    · rw [hfother a ha har]
      exact .inr ⟨ha, har⟩
  have hmoved : M.move row ∈ t.map f := List.mem_map.mpr ⟨row, hrow, hfrow⟩
  have hkept : ∀ a ∈ t, a ≠ row → a ∈ t.map f := fun a ha hne => List.mem_map.mpr ⟨a, ha, hfother a ha hne⟩
  rw [hstep]
  refine ⟨hnodup ▸ hids, ?_, fun a ha => ?_, fun b hb => ?_, fun b hb hb' => ?_, fun a ha ha' _ => ?_, fun b hb => ?_⟩
  · refine List.Nodup.map_on (fun x hx y hy hxy => ?_) (List.Nodup.of_map M.id (hnodup ▸ hids))
    rcases hmem x hx with rfl | ⟨hx', hxr⟩
    · rcases hmem y hy with rfl | ⟨hy', hyr⟩
      · rfl
      · exact absurd (hfree y hy' hxy.symm) hyr
    · rcases hmem y hy with rfl | ⟨hy', hyr⟩
      · exact absurd (hfree x hx' hxy) hxr
      · exact List.inj_on_of_nodup_map hkeys hx' hy' hxy
  · by_cases har : a = row
    · subst har
      exact ⟨M.move a, hmoved, hM.move_id a, hM.move_move a, hR.move a⟩
    · exact ⟨a, hkept a ha har, rfl, rfl, hR.refl a⟩
  · rcases hmem b hb with rfl | ⟨hb', _⟩
    · exact ⟨row, hrow, hM.move_id row, hR.val_move row⟩
    · exact ⟨b, hb', rfl, rfl⟩
  · rcases hmem b hb with rfl | ⟨hb'', _⟩
    · exact absurd (hM.move_move row) hb'
    · exact hb''
  · exact hkept a ha fun h => ha' (h ▸ hA)
  · rcases hmem b hb with rfl | ⟨hb', _⟩
    · exact .inr ⟨row, hrow, hA, rfl⟩
    · exact .inl hb'

/-- A taken key: the row is absorbed and its pointers follow. -/
theorem step_taken (hids : (t.map M.id).Nodup) (hkeys : (t.map M.key).Nodup) {row m : α} (hrow : row ∈ t)
    (hA : M.Affected row) (hm : M.matching t row = some m) :
    Reassigned M Rel val t (M.step t row) fun n => if n = M.id row then M.id m else n := by
  have hinj := List.inj_on_of_nodup_map hids
  have hmt : m ∈ t := List.mem_of_find?_eq_some hm
  have hfound := List.find?_some hm
  simp only [decide_eq_true_eq] at hfound
  obtain ⟨hmkey, hmid⟩ := hfound
  have hmrow : m ≠ row := fun h => hmid (h ▸ rfl)
  have hmA := matching_unaffected hM hm
  obtain ⟨f, hf⟩ : ∃ f : α → α, f = fun r => if M.id r = M.id m then M.absorb r row else r := ⟨_, rfl⟩
  have hstep : M.step t row = (t.map f).filter fun r => M.id r ≠ M.id row := by
    simp only [Moving.step, hm, hf]
  have hfm : f m = M.absorb m row := by
    simp only [hf, if_true]
  have hfother : ∀ r ∈ t, r ≠ m → f r = r := by
    intro r hr hne
    rw [hf]
    exact if_neg fun h => hne (hinj hr hmt h)
  have hfid : ∀ r, M.id (f r) = M.id r := by
    intro r
    rw [hf]
    dsimp only
    split
    · exact hM.absorb_id r row
    · rfl
  have hfkey : ∀ r, M.key (f r) = M.key r := by
    intro r
    rw [hf]
    dsimp only
    split
    · exact hM.absorb_key r row
    · rfl
  have hmem : ∀ b ∈ (t.map f).filter (fun r => M.id r ≠ M.id row), b = M.absorb m row ∨ b ∈ t ∧ b ≠ m ∧ b ≠ row := by
    intro b hb
    obtain ⟨hb, hid⟩ := List.mem_filter.mp hb
    simp only [decide_eq_true_eq] at hid
    obtain ⟨a, ha, rfl⟩ := List.mem_map.mp hb
    by_cases ham : a = m
    · rw [ham]
      exact .inl hfm
    · rw [hfother a ha ham] at hid ⊢
      exact .inr ⟨ha, ham, fun h => hid (h ▸ rfl)⟩
  have habsorbed : M.absorb m row ∈ (t.map f).filter fun r => M.id r ≠ M.id row := by
    refine List.mem_filter.mpr ⟨List.mem_map.mpr ⟨m, hmt, hfm⟩, ?_⟩
    rw [hM.absorb_id]
    simpa using hmid
  have hkept : ∀ a ∈ t, a ≠ m → a ≠ row → a ∈ (t.map f).filter fun r => M.id r ≠ M.id row := by
    intro a ha ham har
    refine List.mem_filter.mpr ⟨List.mem_map.mpr ⟨a, ha, hfother a ha ham⟩, ?_⟩
    simpa using fun h => har (hinj ha hrow h)
  rw [hstep]
  refine ⟨?_, ?_, fun a ha => ?_, fun b hb => ?_, fun b hb hb' => ?_, fun a ha ha' hfree => ?_, fun b hb => ?_⟩
  · have hnodup : (t.map f).map M.id = t.map M.id := by
      rw [List.map_map]
      exact List.map_congr_left fun r _ => hfid r
    exact (List.filter_sublist.map M.id).nodup (hnodup ▸ hids)
  · have hnodup : (t.map f).map M.key = t.map M.key := by
      rw [List.map_map]
      exact List.map_congr_left fun r _ => hfkey r
    exact (List.filter_sublist.map M.key).nodup (hnodup ▸ hkeys)
  · by_cases har : a = row
    · subst har
      refine ⟨M.absorb m a, habsorbed, ?_, ?_, hR.absorbed m a⟩
      · rw [hM.absorb_id, if_pos rfl]
      · rw [hM.move_key _ _ (hM.absorb_key m a), hM.move_key _ _ hmkey, hM.move_move]
    · have haid : M.id a ≠ M.id row := fun h => har (hinj ha hrow h)
      by_cases ham : a = m
      · subst ham
        refine ⟨M.absorb a row, habsorbed, ?_, hM.move_key _ _ (hM.absorb_key a row), hR.absorbs a row⟩
        rw [hM.absorb_id, if_neg haid]
      · exact ⟨a, hkept a ha ham har, (if_neg haid).symm, rfl, hR.refl a⟩
  · rcases hmem b hb with rfl | ⟨hb', hbm, hbr⟩
    · rcases hR.val_absorb m row with hv | hv
      · exact ⟨m, hmt, by rw [hM.absorb_id, if_neg hmid], hv⟩
      · exact ⟨row, hrow, by rw [hM.absorb_id, if_pos rfl], hv⟩
    · exact ⟨b, hb', (if_neg fun h => hbr (hinj hb' hrow h)).symm, rfl⟩
  · rcases hmem b hb with rfl | ⟨hb'', _⟩
    · refine absurd ?_ hb'
      rw [hM.move_key _ _ (hM.absorb_key m row), hM.absorb_key]
      exact not_not.mp hmA
    · exact hb''
  · refine hkept a ha (fun h => ?_) fun h => ha' (h ▸ hA)
    subst h
    exact hfree row hrow hA hmkey.symm
  · rcases hmem b hb with rfl | ⟨hb', _⟩
    · exact .inr ⟨row, hrow, hA, by rw [hM.absorb_key, hmkey]⟩
    · exact .inl hb'

theorem step_reassigned (hids : (t.map M.id).Nodup) (hkeys : (t.map M.key).Nodup) {row : α} (hrow : row ∈ t)
    (hA : M.Affected row) : Reassigned M Rel val t (M.step t row) (M.redirect t row) := by
  cases hm : M.matching t row with
  | none =>
    have hid : M.redirect t row = fun n => n := by
      funext n
      simp only [Moving.redirect, hm]
    rw [hid]
    exact step_free hM hR hids hkeys hrow hA hm
  | some m =>
    have hid : M.redirect t row = fun n => if n = M.id row then M.id m else n := by
      funext n
      simp only [Moving.redirect, hm]
    rw [hid]
    exact step_taken hM hR hids hkeys hrow hA hm

end Step

/-! ## Runs -/

section Run
variable [DecidableEq κ] (hM : M.Lawful)
include hM

/-- A row that waits for its own move is not touched by another's. -/
theorem step_waits (hids : (t.map M.id).Nodup) {row a : α} (hrow : row ∈ t) (ha : a ∈ t) (hA : M.Affected a)
    (hne : a ≠ row) : a ∈ M.step t row := by
  have haid : M.id a ≠ M.id row := fun h => hne (List.inj_on_of_nodup_map hids ha hrow h)
  unfold Moving.step
  split
  · exact List.mem_map.mpr ⟨a, ha, if_neg haid⟩
  · next m hm =>
    have ham : M.id a ≠ M.id m := by
      intro h
      have := List.inj_on_of_nodup_map hids ha (List.mem_of_find?_eq_some hm) h
      exact matching_unaffected hM hm (this ▸ hA)
    exact List.mem_filter.mpr ⟨List.mem_map.mpr ⟨a, ha, if_neg ham⟩, by simpa using haid⟩

theorem step_done {row : α} (hA : M.Affected row) :
    row ∉ M.step t row := by
  intro h
  unfold Moving.step at h
  split at h
  · obtain ⟨a, ha, heq⟩ := List.mem_map.mp h
    split at heq
    · next hid =>
      rw [← heq] at hA
      exact hA (hM.move_move a)
    · next hid => exact hid (heq ▸ rfl)
  · simp at h

/-- A loop over all the affected rows of a table that redirects what depends on it, one row at a time. `Dep`
says how the dependents of two states are related by a redirection, `Inv` what else the loop keeps. -/
theorem run_reassigned {σ : Type} (hR : M.Respects Rel val) (table : σ → List α) (next : σ → α → σ)
    (Dep : σ → σ → (Nat → Nat) → Prop) (Inv : σ → Prop)
    (hrefl : ∀ s, Dep s s fun n => n)
    (htrans : ∀ s s' s'' ρ ρ', Dep s s' ρ → Dep s' s'' ρ' → Dep s s'' (ρ' ∘ ρ))
    (hnext : ∀ s a, Inv s → ((table s).map M.id).Nodup → a ∈ table s → M.Affected a →
      table (next s a) = M.step (table s) a ∧ Dep s (next s a) (M.redirect (table s) a) ∧ Inv (next s a))
    {rows : List α} {s : σ} (hinv : Inv s) (hids : ((table s).map M.id).Nodup) (hkeys : ((table s).map M.key).Nodup)
    (hrows : ∀ a ∈ rows, a ∈ table s ∧ M.Affected a) (hn : rows.Nodup) :
    ∃ ρ, Reassigned M Rel val (table s) (table (rows.foldl next s)) ρ ∧ Dep s (rows.foldl next s) ρ ∧
      Inv (rows.foldl next s) ∧ ∀ a ∈ rows, a ∉ table (rows.foldl next s) := by
  induction rows generalizing s with
  | nil => exact ⟨fun n => n, Reassigned.refl hR hids hkeys, hrefl s, hinv, by simp⟩
  | cons a rows ih =>
    obtain ⟨ha, hA⟩ := hrows a List.mem_cons_self
    obtain ⟨htable, hdep, hinv'⟩ := hnext s a hinv hids ha hA
    have hstep := step_reassigned hM hR hids hkeys ha hA
    rw [← htable] at hstep
    rw [List.nodup_cons] at hn
    have hwait : ∀ b ∈ rows, b ∈ table (next s a) ∧ M.Affected b := by
      intro b hb
      obtain ⟨hbt, hbA⟩ := hrows b (List.mem_cons_of_mem _ hb)
      rw [htable]
      exact ⟨step_waits hM hids ha hbt hbA fun h => hn.1 (h ▸ hb), hbA⟩
    obtain ⟨ρ, hrest, hdep', hinv'', hout⟩ := ih hinv' hstep.ids hstep.keys hwait hn.2
    refine ⟨ρ ∘ M.redirect (table s) a, hstep.trans hR hrest, htrans _ _ _ _ _ hdep hdep', hinv'', fun b hb => ?_⟩
    rcases List.mem_cons.mp hb with rfl | hb
    · intro hmem
      have := hrest.waiting b hmem hA
      rw [htable] at this
      exact step_done hM hA this
    · exact hout b hb

end Run

/-! ## The end of a run -/

theorem Reassigned.settled (h : Reassigned M Rel val t t' ρ) {rows : List α} (hrows : ∀ a ∈ t, M.Affected a → a ∈ rows)
    (hout : ∀ a ∈ rows, a ∉ t') : ∀ b ∈ t', ¬ M.Affected b :=
  fun b hb hA => hout b (hrows b (h.waiting b hb hA) hA) hb

/-- Rows that neither move nor have the key of one that does are the same rows. -/
theorem Reassigned.untouched (h : Reassigned M Rel val t t' ρ) {a : α} (hA : ¬ M.Affected a)
    (hfree : ∀ c, M.Affected c → M.key (M.move c) ≠ M.key a) : a ∈ t' ↔ a ∈ t := by
  constructor
  · intro ha
    rcases h.changed a ha with hold | ⟨c, _, hcA, hkey⟩
    · exact hold
    · exact absurd hkey.symm (hfree c hcA)
  · exact fun ha => h.spared a ha hA fun c _ => hfree c

/-- When every affected row has been moved, a row is represented under its new key. -/
theorem Reassigned.found (h : Reassigned M Rel val t t' ρ) (hall : ∀ b ∈ t', ¬ M.Affected b) {a : α} (ha : a ∈ t) :
    ∃ b ∈ t', M.id b = ρ (M.id a) ∧ M.key b = M.key (M.move a) ∧ Rel b a := by
  obtain ⟨b, hb, hid, hkey, hrel⟩ := h.represented a ha
  have hfixed : M.key (M.move b) = M.key b := not_not.mp (hall b hb)
  exact ⟨b, hb, hid, hfixed ▸ hkey, hrel⟩

/-- The row of a new key stands for every old row that moves there. -/
theorem Reassigned.covers (h : Reassigned M Rel val t t' ρ) (hall : ∀ b ∈ t', ¬ M.Affected b) {a b : α} (ha : a ∈ t)
    (hb : b ∈ t') (hkey : M.key b = M.key (M.move a)) : M.id b = ρ (M.id a) ∧ Rel b a := by
  obtain ⟨c, hc, hid, hck, hrel⟩ := h.found hall ha
  cases List.inj_on_of_nodup_map h.keys hb hc (hkey.trans hck.symm)
  exact ⟨hid, hrel⟩

theorem Reassigned.origin (h : Reassigned M Rel val t t' ρ) (hall : ∀ b ∈ t', ¬ M.Affected b) {b : α} (hb : b ∈ t') :
    ∃ a ∈ t, M.id b = ρ (M.id a) ∧ M.key b = M.key (M.move a) ∧ val b = val a := by
  obtain ⟨a, ha, hid, hval⟩ := h.represents b hb
  obtain ⟨c, hc, hcid, hck, _⟩ := h.found hall ha
  cases List.inj_on_of_nodup_map h.ids hb hc (hid.trans hcid.symm)
  exact ⟨a, ha, hid, hck, hval⟩

end ChessCrawl.Lib
