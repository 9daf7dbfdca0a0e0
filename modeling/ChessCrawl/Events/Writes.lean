import ChessCrawl.Events.Outbox
import ChessCrawl.Lib.Apart

/-! Writers of events. A transaction's writes extend the committed revisions of the rows it has locked,
one by one, and each event id is larger than those of the earlier revisions of its row; other
transactions write other rows, so this stays true until the commit. -/
namespace ChessCrawl.Events
open ChessCrawl.Lib
set_option autoImplicit false

/-! ## The invariant of the tables -/

theorem mem_revisionsOf {acc : List (Resource × Nat)} {r : Resource} {k : Nat} :
    k ∈ revisionsOf acc r ↔ (r, k) ∈ acc := by
  unfold revisionsOf
  constructor
  · intro h
    obtain ⟨⟨r', k'⟩, hmem, rfl⟩ := List.mem_map.mp h
    obtain ⟨hin, heq⟩ := List.mem_filter.mp hmem
    rw [← show r' = r from of_decide_eq_true heq]
    exact hin
  · intro h
    exact List.mem_map.mpr ⟨(r, k), List.mem_filter.mpr ⟨h, decide_eq_true rfl⟩, rfl⟩

/-- Outbox order follows revision order within a resource, every revision with delivery enabled is
accepted or pending, nothing accepted lies beyond a pending revision, and gaps are suppressed revisions. -/
structure DbOk (db : Db) (seq : Nat) (acc : List (Resource × Nat)) : Prop where
  ids : (db.outbox.map EventRow.id).Nodup
  seq : ∀ e ∈ db.outbox, e.id ≤ seq
  order : ∀ e ∈ db.outbox, ∀ f ∈ db.outbox, e.resource = f.resource → e.revision < f.revision → e.id < f.id
  bounded : ∀ e ∈ db.outbox, ∃ row, db.rows e.resource = some row ∧ e.revision ≤ row.revision
  complete : ∀ r row, db.rows r = some row → ∀ k, 1 ≤ k → k ≤ row.revision → ∃ b, (r, k, b) ∈ db.history
  past : ∀ r k b, (r, k, b) ∈ db.history → ∃ row, db.rows r = some row ∧ k ≤ row.revision
  delivered : ∀ r k, (r, k) ∈ acc → ∃ row, db.rows r = some row ∧ k ≤ row.revision
  covered : ∀ r k, (r, k, true) ∈ db.history → (r, k) ∈ acc ∨
    ∃ e ∈ db.outbox, e.resource = r ∧ e.revision = k ∧ e.pending = true
  ahead : ∀ e ∈ db.outbox, e.pending = true → ∀ k, (e.resource, k) ∈ acc → k ≤ e.revision
  sorted : ∀ r, (revisionsOf acc r).Pairwise (· ≤ ·)
  gaps : ∀ r n, (r, n) ∈ acc → ∀ k, 1 ≤ k → k < n → (r, k) ∈ acc ∨ (r, k, false) ∈ db.history
  positive : ∀ e ∈ db.outbox, 1 ≤ e.revision
  acceptedPositive : ∀ r n, (r, n) ∈ acc → 1 ≤ n

/-! ## One write -/

def Db.revision (db : Db) (r : Resource) : Nat := ((db.rows r).map Row.revision).getD 0

/-- A write continues the revisions of its row, and its event id is new and the largest of its row. -/
structure ApplyOk (db : Db) (seq : Nat) (w : Write) : Prop where
  changed : w.changed = true → w.revision = db.revision w.resource + 1
  unchanged : w.changed = false → ∃ row, db.rows w.resource = some row ∧ w.revision = row.revision
  event : ∀ id, w.event = some id → w.changed = true ∧ w.enabled = true
  enabled : w.changed = true → w.enabled = true → ∃ id, w.event = some id
  fresh : ∀ id, w.event = some id → id ≤ seq ∧
    ∀ e ∈ db.outbox, e.id ≠ id ∧ (e.resource = w.resource → e.id < id)

theorem revision_of_row {db : Db} {r : Resource} {row : Row} (h : db.rows r = some row) :
    db.revision r = row.revision := by
  unfold Db.revision
  rw [h]
  rfl

theorem ApplyOk.grows {db : Db} {seq : Nat} {w : Write} (h : ApplyOk db seq w) :
    db.revision w.resource ≤ w.revision := by
  cases hc : w.changed with
  | true => rw [h.changed hc]; exact Nat.le_succ _
  | false =>
    obtain ⟨row, hrow, hrev⟩ := h.unchanged hc
    rw [hrev, revision_of_row hrow]

theorem apply_rows_self (db : Db) (w : Write) : (db.apply w).rows w.resource = some ⟨w.columns, w.revision⟩ :=
  Function.update_self _ _ _

theorem apply_rows_ne (db : Db) {w : Write} {r : Resource} (h : r ≠ w.resource) :
    (db.apply w).rows r = db.rows r :=
  Function.update_of_ne h _ _

theorem mem_apply_outbox {db : Db} {w : Write} {e : EventRow} (h : e ∈ (db.apply w).outbox) :
    e ∈ db.outbox ∨ ∃ id, w.event = some id ∧ e = ⟨id, w.resource, w.revision, 0, 0, none⟩ := by
  rcases List.mem_append.mp h with hold | hnew
  · exact .inl hold
  · obtain ⟨id, hid, rfl⟩ := Option.map_eq_some_iff.mp (Option.mem_toList.mp hnew)
    exact .inr ⟨id, hid, rfl⟩

theorem mem_apply_history {db : Db} {w : Write} {x : Resource × Nat × Bool} :
    x ∈ (db.apply w).history ↔ (w.changed = true ∧ x = (w.resource, w.revision, w.enabled)) ∨ x ∈ db.history := by
  unfold Db.apply
  cases w.changed with
  | true => simp
  | false => simp

/-- Bounds by the committed revision survive a write. -/
theorem ApplyOk.bound {db : Db} {seq : Nat} {w : Write} (h : ApplyOk db seq w) {r : Resource} {k : Nat}
    (hb : ∃ row, db.rows r = some row ∧ k ≤ row.revision) :
    ∃ row, (db.apply w).rows r = some row ∧ k ≤ row.revision := by
  obtain ⟨row, hrow, hle⟩ := hb
  by_cases hr : r = w.resource
  · subst hr
    refine ⟨_, apply_rows_self db w, ?_⟩
    have hgrow := h.grows
    rw [revision_of_row hrow] at hgrow
    exact Nat.le_trans hle hgrow
  · exact ⟨row, (apply_rows_ne db hr).trans hrow, hle⟩

/-- A recorded revision of the written row lies below the new event's. -/
theorem ApplyOk.below {db : Db} {seq : Nat} {w : Write} (h : ApplyOk db seq w) (hc : w.changed = true) {k : Nat}
    (hb : ∃ row, db.rows w.resource = some row ∧ k ≤ row.revision) : k < w.revision := by
  obtain ⟨row, hrow, hle⟩ := hb
  rw [h.changed hc, revision_of_row hrow]
  exact Nat.lt_succ_of_le hle

theorem apply_ok {db : Db} {seq : Nat} {acc : List (Resource × Nat)} {w : Write} (h : DbOk db seq acc)
    (hw : ApplyOk db seq w) : DbOk (db.apply w) seq acc := by
  refine ⟨?_, ?_, ?_, ?_, ?_, ?_, ?_, ?_, ?_, h.sorted, ?_, ?_, h.acceptedPositive⟩
  · change ((db.outbox ++ _).map EventRow.id).Nodup
    rw [List.map_append]
    cases hid : w.event with
    | none =>
      simp only [Option.map_none, Option.toList_none, List.map_nil, List.append_nil]
      exact h.ids
    | some id =>
      simp only [Option.map_some, Option.toList_some, List.map_cons, List.map_nil]
      refine List.nodup_append.mpr ⟨h.ids, List.nodup_singleton _, fun x hx y hy heq => ?_⟩
      obtain ⟨e, he, rfl⟩ := List.mem_map.mp hx
      exact ((hw.fresh id hid).2 e he).1 (heq.trans (List.mem_singleton.mp hy))
  · intro e he
    rcases mem_apply_outbox he with hold | ⟨id, hid, rfl⟩
    · exact h.seq e hold
    · exact (hw.fresh id hid).1
  · intro e he f hf hr hlt
    rcases mem_apply_outbox he with hold | ⟨id, hid, rfl⟩
    · rcases mem_apply_outbox hf with hfold | ⟨id', hid', rfl⟩
      · exact h.order e hold f hfold hr hlt
      · exact ((hw.fresh id' hid').2 e hold).2 hr
    · -- the new event has the largest revision of its row
      rcases mem_apply_outbox hf with hfold | ⟨id', hid', rfl⟩
      · have hb := h.bounded f hfold
        rw [← show w.resource = f.resource from hr] at hb
        have hbelow := hw.below (hw.event id hid).1 hb
        change w.revision < f.revision at hlt
        omega
      · exact absurd hlt (Nat.lt_irrefl _)
  · intro e he
    rcases mem_apply_outbox he with hold | ⟨id, hid, rfl⟩
    · exact hw.bound (h.bounded e hold)
    · exact ⟨_, apply_rows_self db w, Nat.le_refl _⟩
  · intro r row hrow k hk hle
    by_cases hr : r = w.resource
    · subst hr
      rw [apply_rows_self] at hrow
      cases hrow
      change k ≤ w.revision at hle
      cases hc : w.changed with
      | false =>
        obtain ⟨old, hold, hrev⟩ := hw.unchanged hc
        obtain ⟨b, hb⟩ := h.complete _ old hold k hk (hrev ▸ hle)
        exact ⟨b, mem_apply_history.mpr (.inr hb)⟩
      | true =>
        have hnext := hw.changed hc
        by_cases hlast : k = w.revision
        · exact ⟨w.enabled, mem_apply_history.mpr (.inl ⟨hc, by rw [hlast]⟩)⟩
        · cases hold : db.rows w.resource with
          | none =>
            have hzero : db.revision w.resource = 0 := by
              unfold Db.revision
              rw [hold]
              rfl
            omega
          | some old =>
            rw [revision_of_row hold] at hnext
            obtain ⟨b, hb⟩ := h.complete _ old hold k hk (by omega)
            exact ⟨b, mem_apply_history.mpr (.inr hb)⟩
    · rw [apply_rows_ne db hr] at hrow
      obtain ⟨b, hb⟩ := h.complete r row hrow k hk hle
      exact ⟨b, mem_apply_history.mpr (.inr hb)⟩
  · intro r k b hmem
    rcases mem_apply_history.mp hmem with ⟨_, heq⟩ | hold
    · cases heq
      exact ⟨_, apply_rows_self db w, Nat.le_refl _⟩
    · exact hw.bound (h.past r k b hold)
  · exact fun r k hmem => hw.bound (h.delivered r k hmem)
  · intro r k hmem
    rcases mem_apply_history.mp hmem with ⟨hc, heq⟩ | hold
    · obtain ⟨rfl, rfl, hen⟩ : r = w.resource ∧ k = w.revision ∧ true = w.enabled := by simpa using heq
      obtain ⟨id, hid⟩ := hw.enabled hc hen.symm
      refine .inr ⟨⟨id, w.resource, w.revision, 0, 0, none⟩, List.mem_append_right _ ?_, rfl, rfl, rfl⟩
      rw [hid]
      exact List.mem_singleton.mpr rfl
    · rcases h.covered r k hold with hacc | ⟨e, he, hr, hrev, hpend⟩
      · exact .inl hacc
      · exact .inr ⟨e, List.mem_append_left _ he, hr, hrev, hpend⟩
  · intro e he hpend k hacc
    rcases mem_apply_outbox he with hold | ⟨id, hid, rfl⟩
    · exact h.ahead e hold hpend k hacc
    · exact Nat.le_of_lt (hw.below (hw.event id hid).1 (h.delivered _ k hacc))
  · intro r n hacc k hk hlt
    rcases h.gaps r n hacc k hk hlt with hin | hgap
    · exact .inl hin
    · exact .inr (mem_apply_history.mpr (.inr hgap))
  · intro e he
    rcases mem_apply_outbox he with hold | ⟨id, hid, rfl⟩
    · exact h.positive e hold
    · show 1 ≤ w.revision
      rw [hw.changed (hw.event id hid).1]
      exact Nat.le_add_left 1 _

/-! ## Transactions -/

/-- Each write is justified by the tables as the earlier ones leave them. -/
def WritesOk (db : Db) (seq : Nat) : List Write → Prop
  | [] => True
  | w :: ws => ApplyOk db seq w ∧ WritesOk (db.apply w) seq ws

theorem WritesOk.concat {db : Db} {seq : Nat} {ws : List Write} {w : Write} (h : WritesOk db seq ws)
    (hw : ApplyOk (db.after ws) seq w) : WritesOk db seq (ws ++ [w]) := by
  induction ws generalizing db with
  | nil => exact ⟨hw, trivial⟩
  | cons v ws ih => exact ⟨h.1, ih h.2 hw⟩

theorem WritesOk.take {db : Db} {seq : Nat} {ws : List Write} (h : WritesOk db seq ws) (n : Nat) :
    WritesOk db seq (ws.take n) := by
  induction ws generalizing db n with
  | nil =>
    rw [List.take_nil]
    trivial
  | cons v ws ih =>
    cases n with
    | zero => trivial
    | succ n => exact ⟨h.1, ih h.2 n⟩

theorem ApplyOk.mono {db : Db} {seq seq' : Nat} {w : Write} (h : ApplyOk db seq w) (hle : seq ≤ seq') :
    ApplyOk db seq' w :=
  { h with fresh := fun id hid => ⟨Nat.le_trans (h.fresh id hid).1 hle, (h.fresh id hid).2⟩ }

theorem WritesOk.mono {db : Db} {seq seq' : Nat} {ws : List Write} (h : WritesOk db seq ws) (hle : seq ≤ seq') :
    WritesOk db seq' ws := by
  induction ws generalizing db with
  | nil => trivial
  | cons w ws ih => exact ⟨h.1.mono hle, ih h.2⟩

theorem WritesOk.event_le {db : Db} {seq : Nat} {ws : List Write} (h : WritesOk db seq ws) {w : Write}
    (hw : w ∈ ws) {id : Nat} (hid : w.event = some id) : id ≤ seq := by
  induction ws generalizing db with
  | nil => exact absurd hw List.not_mem_nil
  | cons v ws ih =>
    rcases List.mem_cons.mp hw with rfl | hmem
    · exact (h.1.fresh id hid).1
    · exact ih h.2 hmem

theorem after_ok {db : Db} {seq : Nat} {acc : List (Resource × Nat)} {ws : List Write} (h : DbOk db seq acc)
    (hws : WritesOk db seq ws) : DbOk (db.after ws) seq acc := by
  induction ws generalizing db with
  | nil => exact h
  | cons w ws ih => exact ih (apply_ok h hws.1) hws.2

theorem DbOk.mono {db : Db} {seq seq' : Nat} {acc : List (Resource × Nat)} (h : DbOk db seq acc)
    (hle : seq ≤ seq') : DbOk db seq' acc :=
  { h with seq := fun e he => Nat.le_trans (h.seq e he) hle }

/-! ## Frames -/

/-- Two tables agree on the rows of some writes: same revisions, and no further events of these rows
or under these ids. -/
structure SameFor (ws : List Write) (db db' : Db) : Prop where
  rows : ∀ w ∈ ws, db'.rows w.resource = db.rows w.resource
  outbox : ∀ e ∈ db'.outbox, (∃ f ∈ db.outbox, f.id = e.id ∧ f.resource = e.resource) ∨
    ∀ w ∈ ws, e.resource ≠ w.resource ∧ w.event ≠ some e.id

theorem SameFor.apply {ws : List Write} {v : Write} {db db' : Db} (h : SameFor (v :: ws) db db') :
    SameFor ws (db.apply v) (db'.apply v) := by
  refine ⟨fun w hw => ?_, fun e he => ?_⟩
  · by_cases hr : w.resource = v.resource
    · rw [hr, apply_rows_self, apply_rows_self]
    · rw [apply_rows_ne db' hr, apply_rows_ne db hr]
      exact h.rows w (List.mem_cons_of_mem v hw)
  · rcases mem_apply_outbox he with hold | ⟨id, hid, rfl⟩
    · rcases h.outbox e hold with ⟨f, hf, hid, hres⟩ | hnew
      · exact .inl ⟨f, List.mem_append_left _ hf, hid, hres⟩
      · exact .inr fun w hw => hnew w (List.mem_cons_of_mem v hw)
    · refine .inl ⟨⟨id, v.resource, v.revision, 0, 0, none⟩, List.mem_append_right _ ?_, rfl, rfl⟩
      rw [hid]
      exact List.mem_singleton.mpr rfl

theorem WritesOk.frame {seq : Nat} {ws : List Write} {db db' : Db} (h : WritesOk db seq ws)
    (hs : SameFor ws db db') : WritesOk db' seq ws := by
  induction ws generalizing db db' with
  | nil => trivial
  | cons w ws ih =>
    have hrow := hs.rows w List.mem_cons_self
    refine ⟨⟨?_, ?_, h.1.event, h.1.enabled, ?_⟩, ih h.2 hs.apply⟩
    · intro hc
      unfold Db.revision
      rw [hrow]
      exact h.1.changed hc
    · intro hc
      rw [hrow]
      exact h.1.unchanged hc
    · intro id hid
      refine ⟨(h.1.fresh id hid).1, fun e he => ?_⟩
      rcases hs.outbox e he with ⟨f, hf, hfid, hres⟩ | hnew
      · rw [← hfid, ← hres]
        exact (h.1.fresh id hid).2 f hf
      · obtain ⟨hne, hev⟩ := hnew w List.mem_cons_self
        refine ⟨fun heq => hev (heq ▸ hid), fun heq => absurd heq hne⟩

/-- The events that a transaction adds are its own writes'. -/
theorem mem_after_outbox {db : Db} {ws : List Write} {e : EventRow} (h : e ∈ (db.after ws).outbox) :
    e ∈ db.outbox ∨ ∃ w ∈ ws, w.event = some e.id ∧ e.resource = w.resource := by
  induction ws generalizing db with
  | nil => exact .inl h
  | cons w ws ih =>
    rcases ih h with hold | ⟨v, hv, hid, hres⟩
    · rcases mem_apply_outbox hold with hin | ⟨id, hid, rfl⟩
      · exact .inl hin
      · exact .inr ⟨w, List.mem_cons_self, hid, rfl⟩
    · exact .inr ⟨v, List.mem_cons_of_mem w hv, hid, hres⟩

theorem after_rows_ne {db : Db} {ws : List Write} {r : Resource} (h : ∀ w ∈ ws, r ≠ w.resource) :
    (db.after ws).rows r = db.rows r := by
  induction ws generalizing db with
  | nil => rfl
  | cons w ws ih =>
    have htail : ((db.apply w).after ws).rows r = (db.apply w).rows r :=
      ih fun v hv => h v (List.mem_cons_of_mem w hv)
    exact htail.trans (apply_rows_ne db (h w List.mem_cons_self))

end ChessCrawl.Events
