import Mathlib.Data.List.Basic
import Mathlib.Tactic.Common

/-! Keyed tables: `INSERT ... ON CONFLICT (key) DO UPDATE` of one row and of the rows of a query. The update
keeps the key of the row it changes. -/
namespace ChessCrawl.Lib
set_option autoImplicit false

variable {α κ : Type} [DecidableEq κ] (key : α → κ) (combine : α → α → α)

/-- Insert a row, or combine it into the row that has its key. -/
def upsert (table : List α) (row : α) : List α :=
  if table.any fun r => key r = key row then
    table.map fun r => if key r = key row then combine r row else r
  else table ++ [row]

def upsertAll (table rows : List α) : List α := rows.foldl (upsert key combine) table

variable {key combine} {table rows : List α} {row r : α}

theorem upsert_mem (h : r ∈ upsert key combine table row) :
    r ∈ table ∨ r = row ∨ ∃ old ∈ table, key old = key row ∧ r = combine old row := by
  unfold upsert at h
  split at h
  · obtain ⟨old, hold, rfl⟩ := List.mem_map.mp h
    split
    · next hk => exact .inr (.inr ⟨old, hold, hk, rfl⟩)
    · exact .inl hold
  · rcases List.mem_append.mp h with h | h
    · exact .inl h
    · exact .inr (.inl (List.mem_singleton.mp h))

/-- Rows of other keys stay as they are. -/
theorem upsert_other (hr : key r ≠ key row) (hc : ∀ old, key old = key row → key (combine old row) = key row) :
    r ∈ upsert key combine table row ↔ r ∈ table := by
  constructor
  · intro h
    rcases upsert_mem h with h | rfl | ⟨old, _, hk, rfl⟩
    · exact h
    · exact absurd rfl hr
    · exact absurd (hc old hk) hr
  · intro h
    unfold upsert
    split
    · exact List.mem_map.mpr ⟨r, h, if_neg hr⟩
    · exact List.mem_append_left _ h

theorem upsert_keys (hc : ∀ old, key old = key row → key (combine old row) = key row) (k : κ) :
    k ∈ (upsert key combine table row).map key ↔ k ∈ table.map key ∨ k = key row := by
  unfold upsert
  split
  · next hany =>
    obtain ⟨old, hold, hk⟩ := List.any_eq_true.mp hany
    have hmap : (table.map fun r => if key r = key row then combine r row else r).map key = table.map key := by
      rw [List.map_map]
      refine List.map_congr_left fun r _ => ?_
      dsimp only [Function.comp]
      split
      · next hr => rw [hc r hr, hr]
      · rfl
    rw [hmap]
    constructor
    · exact .inl
    · rintro (h | rfl)
      · exact h
      · exact List.mem_map.mpr ⟨old, hold, of_decide_eq_true hk⟩
  · simp

theorem upsert_keys_nodup (hc : ∀ old, key old = key row → key (combine old row) = key row)
    (h : (table.map key).Nodup) : ((upsert key combine table row).map key).Nodup := by
  unfold upsert
  split
  · rw [List.map_map]
    have hmap : table.map (key ∘ fun r => if key r = key row then combine r row else r) = table.map key := by
      refine List.map_congr_left fun r _ => ?_
      dsimp only [Function.comp]
      split
      · next hr => rw [hc r hr, hr]
      · rfl
    rw [hmap]
    exact h
  · next hany =>
    rw [List.map_append]
    refine List.nodup_append.mpr ⟨h, by simp, fun k hk k' hk' heq' => ?_⟩
    obtain ⟨old, hold, rfl⟩ := List.mem_map.mp hk
    have heq : key old = key row := heq'.trans (List.mem_singleton.mp hk')
    exact hany (List.any_eq_true.mpr ⟨old, hold, decide_eq_true heq⟩)

/-! ## The rows of a query -/

variable (hc : ∀ old row, key old = key row → key (combine old row) = key row)
include hc

theorem upsertAll_other (hr : ∀ row ∈ rows, key r ≠ key row) :
    r ∈ upsertAll key combine table rows ↔ r ∈ table := by
  induction rows generalizing table with
  | nil => rfl
  | cons row rows ih =>
    have hrow := hr row List.mem_cons_self
    rw [upsertAll, List.foldl_cons]
    exact (ih fun x hx => hr x (List.mem_cons_of_mem _ hx)).trans (upsert_other hrow (hc · row))

theorem upsertAll_keys (k : κ) :
    k ∈ (upsertAll key combine table rows).map key ↔ k ∈ table.map key ∨ k ∈ rows.map key := by
  induction rows generalizing table with
  | nil => simp [upsertAll]
  | cons row rows ih =>
    rw [upsertAll, List.foldl_cons]
    refine ih.trans ?_
    rw [upsert_keys (hc · row), List.map_cons, List.mem_cons, or_assoc]

theorem upsertAll_keys_nodup (h : (table.map key).Nodup) : ((upsertAll key combine table rows).map key).Nodup := by
  induction rows generalizing table with
  | nil => exact h
  | cons row rows ih => exact ih (upsert_keys_nodup (hc · row) h)

/-- Rows with keys of their own: each is inserted, or combined with the row that had its key. -/
theorem upsertAll_row (hn : (rows.map key).Nodup) (hrow : row ∈ rows) :
    (∀ old ∈ table, key old = key row → combine old row ∈ upsertAll key combine table rows) ∧
    ((∀ old ∈ table, key old ≠ key row) → row ∈ upsertAll key combine table rows) := by
  induction rows generalizing table with
  | nil => cases hrow
  | cons x rows ih =>
    rw [List.map_cons, List.nodup_cons] at hn
    rw [upsertAll, List.foldl_cons]
    rcases List.mem_cons.mp hrow with rfl | hrow
    · -- the later rows have other keys
      have hlater : ∀ y, key y = key row → y ∈ upsert key combine table row →
          y ∈ rows.foldl (upsert key combine) (upsert key combine table row) := by
        intro y hy hmem
        refine (upsertAll_other hc fun z hz heq => hn.1 ?_).mpr hmem
        rw [← hy, heq]
        exact List.mem_map_of_mem hz
      refine ⟨fun old hold hk => hlater _ (hc old row hk) ?_, fun hnone => hlater _ rfl ?_⟩
      · unfold upsert
        rw [if_pos (List.any_eq_true.mpr ⟨old, hold, decide_eq_true hk⟩)]
        exact List.mem_map.mpr ⟨old, hold, if_pos hk⟩
      · unfold upsert
        rw [if_neg]
        · exact List.mem_append_right _ (List.mem_singleton.mpr rfl)
        · intro hany
          obtain ⟨old, hold, hk⟩ := List.any_eq_true.mp hany
          exact hnone old hold (of_decide_eq_true hk)
    · have hne : key row ≠ key x := fun heq => hn.1 (heq ▸ List.mem_map_of_mem hrow)
      have hrest := @ih (upsert key combine table x) hn.2 hrow
      obtain ⟨hcombined, hinserted⟩ := hrest
      refine ⟨fun old hold hk => hcombined old ?_ hk, fun hnone => hinserted fun old hold => ?_⟩
      · exact (upsert_other (by rw [hk]; exact hne) (hc · x)).mpr hold
      · intro heq
        exact hnone old ((upsert_other (by rw [heq]; exact hne) (hc · x)).mp hold) heq

omit hc in
/-- Where combining loses nothing that the preorder `Rel` sees, every old row and every inserted one is covered by
a row of its key. -/
theorem upsertAll_covers {Rel : α → α → Prop} (hrefl : ∀ a, Rel a a) (htrans : ∀ a b c, Rel a b → Rel b c → Rel a c)
    (hk : ∀ old row, key (combine old row) = key old) (hold : ∀ old row, Rel (combine old row) old)
    (hrow : ∀ old row, Rel (combine old row) row) {a : α} (ha : a ∈ table ∨ a ∈ rows) :
    ∃ b ∈ upsertAll key combine table rows, key b = key a ∧ Rel b a := by
  induction rows generalizing table a with
  | nil => exact ⟨a, ha.resolve_right (by simp), rfl, hrefl a⟩
  | cons row rows ih =>
    rw [upsertAll, List.foldl_cons]
    -- what the first insertion makes of the row, before the others
    have hfirst : (a ∈ table ∨ a = row) → ∃ b ∈ upsert key combine table row, key b = key a ∧ Rel b a := by
      intro ha
      unfold upsert
      split
      · next hany =>
        obtain ⟨old, hold', hkey⟩ := List.any_eq_true.mp hany
        rcases ha with ha | rfl
        · by_cases hkr : key a = key row
          · exact ⟨combine a row, List.mem_map.mpr ⟨a, ha, if_pos hkr⟩, hk a row, hold a row⟩
          · exact ⟨a, List.mem_map.mpr ⟨a, ha, if_neg hkr⟩, rfl, hrefl a⟩
        · have heq := of_decide_eq_true hkey
          exact ⟨combine old a, List.mem_map.mpr ⟨old, hold', if_pos heq⟩, (hk old a).trans heq, hrow old a⟩
      · rcases ha with ha | rfl
        · exact ⟨a, List.mem_append_left _ ha, rfl, hrefl a⟩
        · exact ⟨a, List.mem_append_right _ (List.mem_singleton.mpr rfl), rfl, hrefl a⟩
    by_cases hlate : a ∈ rows
    · exact ih (.inr hlate)
    · have hnow : a ∈ table ∨ a = row := by
        rcases ha with ha | ha
        · exact .inl ha
        · exact .inr ((List.mem_cons.mp ha).resolve_right hlate)
      obtain ⟨b, hb, hkb, hrel⟩ := hfirst hnow
      obtain ⟨c, hc', hkc, hrel'⟩ := ih (.inl hb)
      exact ⟨c, hc', hkc.trans hkb, htrans _ _ _ hrel' hrel⟩

end ChessCrawl.Lib
