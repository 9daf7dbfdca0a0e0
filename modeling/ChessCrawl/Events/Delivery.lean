import ChessCrawl.Events.Writes

/-! The publisher and whole runs. The event it picks has the smallest pending id, hence the smallest
pending revision of its resource, and stays so until it is acknowledged; each acceptance therefore
extends the resource's sequence in order. -/
namespace ChessCrawl.Events
open ChessCrawl.Lib
set_option autoImplicit false

/-! ## The event in flight -/

theorem nextPending_none {outbox : List EventRow} (h : nextPending outbox = none) :
    ∀ f ∈ outbox, ¬ f.pending = true := by
  induction outbox with
  | nil => exact fun f hf => absurd hf List.not_mem_nil
  | cons g outbox ih =>
    unfold nextPending at h
    split at h
    · next hnone =>
      split at h
      · cases h
      · next hg =>
        intro f hf
        rcases List.mem_cons.mp hf with rfl | hin
        · exact hg
        · exact ih hnone f hin
    · split at h
      · cases h
      · cases h

theorem nextPending_spec {outbox : List EventRow} {e : EventRow} (h : nextPending outbox = some e) :
    e ∈ outbox ∧ e.pending = true ∧ ∀ f ∈ outbox, f.pending = true → e.id ≤ f.id := by
  induction outbox generalizing e with
  | nil => cases h
  | cons g outbox ih =>
    unfold nextPending at h
    split at h
    · next hnone =>
      split at h
      · next hg =>
        cases h
        refine ⟨List.mem_cons_self, hg, fun f hf hpend => ?_⟩
        rcases List.mem_cons.mp hf with rfl | hin
        · exact Nat.le_refl _
        · exact absurd hpend (nextPending_none hnone f hin)
      · cases h
    · next f hsome =>
      obtain ⟨hmem, hpend, hmin⟩ := ih hsome
      split at h
      · next hg =>
        cases h
        obtain ⟨hgp, hlt⟩ := (Bool.and_eq_true _ _).mp hg
        have hlt := of_decide_eq_true hlt
        refine ⟨List.mem_cons_self, hgp, fun k hk hkp => ?_⟩
        rcases List.mem_cons.mp hk with rfl | hin
        · exact Nat.le_refl _
        · exact Nat.le_trans (Nat.le_of_lt hlt) (hmin k hin hkp)
      · next hg =>
        cases h
        refine ⟨List.mem_cons_of_mem g hmem, hpend, fun k hk hkp => ?_⟩
        rcases List.mem_cons.mp hk with rfl | hin
        · by_contra hlt
          exact hg ((Bool.and_eq_true _ _).mpr ⟨hkp, decide_eq_true (Nat.lt_of_not_le hlt)⟩)
        · exact hmin k hin hkp

/-- The event in flight is pending, it is the least pending revision of its resource, and every
earlier revision with delivery enabled has been accepted. -/
structure Picked (db : Db) (acc : List (Resource × Nat)) (e : EventRow) : Prop where
  present : ∃ f ∈ db.outbox, f.id = e.id ∧ f.resource = e.resource ∧ f.revision = e.revision ∧ f.pending = true
  least : ∀ f ∈ db.outbox, f.pending = true → f.resource = e.resource → e.revision ≤ f.revision
  done : ∀ k, 1 ≤ k → k < e.revision → (e.resource, k, true) ∈ db.history → (e.resource, k) ∈ acc

def PhaseOk (db : Db) (acc : List (Resource × Nat)) : Phase → Prop
  | .idle => True
  | .publishing e => Picked db acc e
  | .answered e succeeded => Picked db acc e ∧ (succeeded = true → (e.resource, e.revision) ∈ acc)

theorem picked_of_next {db : Db} {seq : Nat} {acc : List (Resource × Nat)} {e : EventRow} (h : DbOk db seq acc)
    (hnext : nextPending db.outbox = some e) : Picked db acc e := by
  obtain ⟨hmem, hpend, hmin⟩ := nextPending_spec hnext
  refine ⟨⟨e, hmem, rfl, rfl, rfl, hpend⟩, fun f hf hfp hres => ?_, fun k _ hlt hen => ?_⟩
  · by_contra hlt
    have hid := h.order f hf e hmem hres (Nat.lt_of_not_le hlt)
    have hle := hmin f hf hfp
    omega
  · rcases h.covered e.resource k hen with hacc | ⟨f, hf, hres, hrev, hfp⟩
    · exact hacc
    · subst hrev
      have hid := h.order f hf e hmem hres hlt
      have hle := hmin f hf hfp
      omega

theorem Picked.apply {db : Db} {seq : Nat} {acc : List (Resource × Nat)} {e : EventRow} {w : Write}
    (h : Picked db acc e) (hdb : DbOk db seq acc) (hw : ApplyOk db seq w) : Picked (db.apply w) acc e := by
  obtain ⟨f, hf, hid, hres, hrev, hpend⟩ := h.present
  have hbound : ∃ row, db.rows e.resource = some row ∧ e.revision ≤ row.revision := by
    rw [← hres, ← hrev]
    exact hdb.bounded f hf
  refine ⟨⟨f, List.mem_append_left _ hf, hid, hres, hrev, hpend⟩, fun g hg hgp hgr => ?_, fun k hk hlt hen => ?_⟩
  · rcases mem_apply_outbox hg with hold | ⟨id, hid, rfl⟩
    · exact h.least g hold hgp hgr
    · rw [← show w.resource = e.resource from hgr] at hbound
      exact Nat.le_of_lt (hw.below (hw.event id hid).1 hbound)
  · rcases mem_apply_history.mp hen with ⟨hc, heq⟩ | hold
    · obtain ⟨hr, rfl, _⟩ : e.resource = w.resource ∧ k = w.revision ∧ true = w.enabled := by simpa using heq
      rw [hr] at hbound
      have hbelow := hw.below hc hbound
      omega
    · exact h.done k hk hlt hold

theorem PhaseOk.apply {db : Db} {seq : Nat} {acc : List (Resource × Nat)} {p : Phase} {w : Write}
    (h : PhaseOk db acc p) (hdb : DbOk db seq acc) (hw : ApplyOk db seq w) : PhaseOk (db.apply w) acc p := by
  cases p with
  | idle => trivial
  | publishing e => exact Picked.apply h hdb hw
  | answered e succeeded => exact ⟨Picked.apply h.1 hdb hw, h.2⟩

theorem PhaseOk.after {db : Db} {seq : Nat} {acc : List (Resource × Nat)} {p : Phase} {ws : List Write}
    (h : PhaseOk db acc p) (hdb : DbOk db seq acc) (hws : WritesOk db seq ws) : PhaseOk (db.after ws) acc p := by
  induction ws generalizing db with
  | nil => exact h
  | cons w ws ih => exact ih (h.apply hdb hws.1) (apply_ok hdb hws.1) hws.2

/-! ## Acceptance -/

theorem revisionsOf_append (acc : List (Resource × Nat)) (r r' : Resource) (k : Nat) :
    revisionsOf (acc ++ [(r, k)]) r' = revisionsOf acc r' ++ if r = r' then [k] else [] := by
  unfold revisionsOf
  rw [List.filter_append, List.map_append]
  congr 1
  by_cases hr : r = r'
  · simp [hr]
  · simp [hr]

theorem accept_ok {db : Db} {seq : Nat} {acc : List (Resource × Nat)} {e : EventRow} (h : DbOk db seq acc)
    (hp : Picked db acc e) : DbOk db seq (acc ++ [(e.resource, e.revision)]) := by
  obtain ⟨f, hf, _, hres, hrev, hpend⟩ := hp.present
  obtain ⟨row, hrow, hle⟩ := h.bounded f hf
  rw [hres] at hrow
  rw [hrev] at hle
  have hold : ∀ k, (e.resource, k) ∈ acc → k ≤ e.revision := by
    intro k hk
    rw [← hrev]
    exact h.ahead f hf hpend k (hres ▸ hk)
  have hsplit : ∀ r k, (r, k) ∈ acc ++ [(e.resource, e.revision)] →
      (r, k) ∈ acc ∨ (r = e.resource ∧ k = e.revision) := by
    intro r k hmem
    rcases List.mem_append.mp hmem with hin | hnew
    · exact .inl hin
    · have heq := List.mem_singleton.mp hnew
      exact .inr ⟨congrArg Prod.fst heq, congrArg Prod.snd heq⟩
  refine ⟨h.ids, h.seq, h.order, h.bounded, h.complete, h.past, ?_, ?_, ?_, ?_, ?_, h.positive, ?_⟩
  · intro r k hmem
    rcases hsplit r k hmem with hin | ⟨rfl, rfl⟩
    · exact h.delivered r k hin
    · exact ⟨row, hrow, hle⟩
  · intro r k hen
    rcases h.covered r k hen with hin | hpending
    · exact .inl (List.mem_append_left _ hin)
    · exact .inr hpending
  · intro g hg hgp k hmem
    rcases hsplit g.resource k hmem with hin | ⟨hr, rfl⟩
    · exact h.ahead g hg hgp k hin
    · exact hp.least g hg hgp hr
  · intro r
    rw [revisionsOf_append]
    refine List.pairwise_append.mpr ⟨h.sorted r, ?_, ?_⟩
    · split
      · exact List.pairwise_singleton _ _
      · exact List.Pairwise.nil
    · intro a ha b hb
      split at hb
      · next hr =>
        subst hr
        rw [List.mem_singleton.mp hb]
        exact hold a (mem_revisionsOf.mp ha)
      · exact absurd hb List.not_mem_nil
  · intro r n hmem k hk hlt
    rcases hsplit r n hmem with hin | ⟨rfl, rfl⟩
    · rcases h.gaps r n hin k hk hlt with hacc | hgap
      · exact .inl (List.mem_append_left _ hacc)
      · exact .inr hgap
    · obtain ⟨b, hb⟩ := h.complete e.resource row hrow k hk (by omega)
      cases b with
      | true => exact .inl (List.mem_append_left _ (hp.done k hk hlt hb))
      | false => exact .inr hb
  · intro r n hmem
    rcases hsplit r n hmem with hin | ⟨rfl, rfl⟩
    · exact h.acceptedPositive r n hin
    · rw [← hrev]
      exact h.positive f hf

theorem Picked.accept {db : Db} {acc : List (Resource × Nat)} {e : EventRow} (h : Picked db acc e)
    (a : Resource × Nat) : Picked db (acc ++ [a]) e :=
  ⟨h.present, h.least, fun k hk hlt hen => List.mem_append_left _ (h.done k hk hlt hen)⟩

/-! ## Acknowledgement, backoff and cleanup -/

/-- A change of the outbox alone: no new events, and a pending one is kept or has been accepted. -/
theorem DbOk.reoutbox {db : Db} {seq : Nat} {acc : List (Resource × Nat)} (h : DbOk db seq acc)
    {outbox : List EventRow} (hids : (outbox.map EventRow.id).Nodup)
    (hback : ∀ e ∈ outbox, ∃ f ∈ db.outbox, f.id = e.id ∧ f.resource = e.resource ∧
      f.revision = e.revision ∧ (e.pending = true → f.pending = true))
    (hkept : ∀ f ∈ db.outbox, f.pending = true → (f.resource, f.revision) ∈ acc ∨
      ∃ e ∈ outbox, e.resource = f.resource ∧ e.revision = f.revision ∧ e.pending = true) :
    DbOk { db with outbox := outbox } seq acc := by
  refine ⟨hids, ?_, ?_, ?_, h.complete, h.past, h.delivered, ?_, ?_, h.sorted, h.gaps, ?_, h.acceptedPositive⟩
  · intro e he
    obtain ⟨f, hf, hid, _⟩ := hback e he
    rw [← hid]
    exact h.seq f hf
  · intro e he e' he' hr hlt
    obtain ⟨f, hf, hid, hres, hrev, _⟩ := hback e he
    obtain ⟨f', hf', hid', hres', hrev', _⟩ := hback e' he'
    rw [← hid, ← hid']
    rw [← hres, ← hres'] at hr
    rw [← hrev, ← hrev'] at hlt
    exact h.order f hf f' hf' hr hlt
  · intro e he
    obtain ⟨f, hf, _, hres, hrev, _⟩ := hback e he
    rw [← hres, ← hrev]
    exact h.bounded f hf
  · intro r k hen
    rcases h.covered r k hen with hacc | ⟨f, hf, rfl, rfl, hpend⟩
    · exact .inl hacc
    · exact hkept f hf hpend
  · intro e he hpend k hacc
    obtain ⟨f, hf, _, hres, hrev, hpf⟩ := hback e he
    rw [← hrev]
    exact h.ahead f hf (hpf hpend) k (hres ▸ hacc)
  · intro e he
    obtain ⟨f, hf, _, _, hrev, _⟩ := hback e he
    rw [← hrev]
    exact h.positive f hf

theorem map_ids {outbox : List EventRow} {g : EventRow → EventRow} (h : ∀ e, (g e).id = e.id) :
    (outbox.map g).map EventRow.id = outbox.map EventRow.id := by
  rw [List.map_map]
  exact List.map_congr_left fun e _ => h e

theorem acknowledge_ok {db : Db} {seq : Nat} {acc : List (Resource × Nat)} {e : EventRow} (h : DbOk db seq acc)
    (hp : Picked db acc e) (hacc : (e.resource, e.revision) ∈ acc) (now : Int) :
    DbOk { db with outbox := acknowledgeEvent db.outbox e.id now } seq acc := by
  refine h.reoutbox ?_ ?_ ?_
  · unfold acknowledgeEvent
    rw [map_ids fun f => ?_]
    · exact h.ids
    · split <;> rfl
  · intro g hg
    obtain ⟨f, hf, rfl⟩ := List.mem_map.mp hg
    refine ⟨f, hf, ?_⟩
    split
    · next hc => exact ⟨rfl, rfl, rfl, fun _ => hc.2⟩
    · exact ⟨rfl, rfl, rfl, fun h => h⟩
  · intro f hf hpend
    by_cases hid : f.id = e.id
    · obtain ⟨g, hg, hgid, hres, hrev, _⟩ := hp.present
      cases List.inj_on_of_nodup_map h.ids hf hg (hid.trans hgid.symm)
      rw [hres, hrev]
      exact .inl hacc
    · refine .inr ⟨f, List.mem_map.mpr ⟨f, hf, if_neg fun hc => hid hc.1⟩, rfl, rfl, hpend⟩

theorem defer_ok {db : Db} {seq : Nat} {acc : List (Resource × Nat)} (h : DbOk db seq acc) (id : Nat)
    (next : Int) : DbOk { db with outbox := deferEvent db.outbox id next } seq acc := by
  refine h.reoutbox ?_ ?_ ?_
  · unfold deferEvent
    rw [map_ids fun f => ?_]
    · exact h.ids
    · split <;> rfl
  · intro g hg
    obtain ⟨f, hf, rfl⟩ := List.mem_map.mp hg
    refine ⟨f, hf, ?_⟩
    split
    · exact ⟨rfl, rfl, rfl, fun h => h⟩
    · exact ⟨rfl, rfl, rfl, fun h => h⟩
  · intro f hf hpend
    refine .inr ⟨_, List.mem_map_of_mem hf, ?_⟩
    split
    · exact ⟨rfl, rfl, hpend⟩
    · exact ⟨rfl, rfl, hpend⟩

theorem prune_ok {db : Db} {seq : Nat} {acc : List (Resource × Nat)} (h : DbOk db seq acc) (before : Int)
    (limit : Nat) : DbOk { db with outbox := pruneEvents db.outbox before limit } seq acc := by
  refine h.reoutbox ?_ ?_ ?_
  · exact (List.Sublist.map EventRow.id List.filter_sublist).nodup h.ids
  · intro e he
    exact ⟨e, (List.mem_filter.mp he).1, rfl, rfl, rfl, fun h => h⟩
  · intro f hf hpend
    refine .inr ⟨f, List.mem_filter.mpr ⟨hf, decide_eq_true fun hrem => ?_⟩, rfl, rfl, hpend⟩
    -- only delivered rows are selected for removal
    have hsel := (List.mem_filter.mp ((List.mem_insertionSort _).mp (List.mem_of_mem_take hrem))).2
    unfold EventRow.pending at hpend
    rw [Option.isNone_iff_eq_none.mp hpend] at hsel
    cases hsel

end ChessCrawl.Events
