import ChessCrawl.Dispatch.Board
import ChessCrawl.Lib.Apart

/-! Publishers, maintenance and consumers keep the board in order. A transaction decides on what its
statements saw; what it decided stays true until the commit, since revisions only grow. -/
namespace ChessCrawl.Dispatch
open ChessCrawl.Lib
set_option autoImplicit false

/-! ## Transactions in progress -/

/-- A statement's view: it holds every job of the listed hints at the hint's revision or later. -/
structure ReadOk (b : Board) (ids : List Nat) (seen : Nat → Option Job) : Prop where
  known : ∀ id ∈ ids, id ≤ b.outboxSeq
  rows : ∀ h ∈ b.outbox, h.id ∈ ids → ∃ job, seen h.jobId = some job ∧ h.jobRevision ≤ job.revision
  jobs : Advances seen b.jobs

structure TxnOk (b : Board) (t : Txn) : Prop where
  retiredKnown : ∀ id ∈ t.retired, id ≤ b.outboxSeq
  retired : ∀ h ∈ b.outbox, h.id ∈ t.retired → currentDispatch b.jobs h = false
  deletedKnown : ∀ id ∈ t.deleted, id ≤ b.outboxSeq
  deleted : ∀ h ∈ b.outbox, h.id ∈ t.deleted → h.live = false
  chosen : ∀ id j o, t.choice = some (id, j, o) → id ≤ b.outboxSeq ∧ ∀ h ∈ b.outbox, h.id = id → h.jobId = j
  sent : ∀ id j time, t.choice = some (id, j, .delivered time) → ∀ h ∈ b.outbox, h.id = id →
    currentDispatch b.jobs h = true → Sent b h.jobId h.jobRevision

def PhaseOk (b : Board) : Phase → Prop
  | .idle => True
  | .windowed _ ids _ => ∀ id ∈ ids, id ≤ b.outboxSeq
  | .reading _ ids _ seen => ReadOk b ids seen
  | .inspecting _ _ _ ids seen => ReadOk b ids seen
  | .holding t => TxnOk b t

theorem ReadOk.evolve {b b' : Board} {ids : List Nat} {seen : Nat → Option Job} (h : ReadOk b ids seen)
    (hev : Evolves b b') : ReadOk b' ids seen := by
  refine ⟨fun id hid => Nat.le_trans (h.known id hid) hev.seq, ?_, h.jobs.trans hev.jobs⟩
  intro h' hh' hid
  obtain ⟨h0, hh0, hid0, hjob, hrev, _⟩ := hev.rows h' hh' (h.known h'.id hid)
  rw [hjob, hrev]
  exact h.rows h0 hh0 (hid0 ▸ hid)

theorem TxnOk.evolve {b b' : Board} {t : Txn} (h : TxnOk b t) (hb : BoardOk b) (hev : Evolves b b') :
    TxnOk b' t := by
  refine ⟨fun id hid => Nat.le_trans (h.retiredKnown id hid) hev.seq, ?_,
    fun id hid => Nat.le_trans (h.deletedKnown id hid) hev.seq, ?_, ?_, ?_⟩
  · intro h' hh' hid
    obtain ⟨h0, hh0, hid0, hjob, hrev, _⟩ := hev.rows h' hh' (h.retiredKnown h'.id hid)
    by_contra hcur
    have hcur := Bool.not_eq_false _ ▸ hcur
    have hback := currentDispatch_back hev.jobs hjob hrev (hb.revisions h0 hh0) hcur
    rw [h.retired h0 hh0 (hid0 ▸ hid)] at hback
    cases hback
  · intro h' hh' hid
    obtain ⟨h0, hh0, hid0, _, _, hlive⟩ := hev.rows h' hh' (h.deletedKnown h'.id hid)
    exact hlive (h.deleted h0 hh0 (hid0 ▸ hid))
  · intro id j o hc
    obtain ⟨hle, hjob⟩ := h.chosen id j o hc
    refine ⟨Nat.le_trans hle hev.seq, fun h' hh' hid => ?_⟩
    obtain ⟨h0, hh0, hid0, hjob0, _⟩ := hev.rows h' hh' (hid ▸ hle)
    rw [hjob0]
    exact hjob h0 hh0 (hid0.trans hid)
  · intro id j time hc h' hh' hid hcur
    have hle := (h.chosen id j _ hc).1
    obtain ⟨h0, hh0, hid0, hjob, hrev, _⟩ := hev.rows h' hh' (hid ▸ hle)
    have hback := currentDispatch_back hev.jobs hjob hrev (hb.revisions h0 hh0) hcur
    have hsent := h.sent id j time hc h0 hh0 (hid0.trans hid) hback
    obtain ⟨job', hjob', hrev', hsch⟩ := currentDispatch_iff.mp hcur
    rw [← hjob, ← hrev, hrev'] at hsent
    rw [hrev']
    exact hev.sent hjob' hsch hsent

theorem PhaseOk.evolve {b b' : Board} {p : Phase} (h : PhaseOk b p) (hb : BoardOk b) (hev : Evolves b b') :
    PhaseOk b' p := by
  cases p with
  | idle => trivial
  | windowed now ids cursor => exact fun id hid => Nat.le_trans (h id hid) hev.seq
  | reading now ids cursor seen => exact ReadOk.evolve h hev
  | inspecting now threshold limit ids seen => exact ReadOk.evolve h hev
  | holding t => exact TxnOk.evolve h hb hev

/-! ## Commit -/

theorem retire_same (t : Txn) (h : Hint) : (t.retire h).id = h.id ∧ (t.retire h).jobId = h.jobId ∧
    (t.retire h).jobRevision = h.jobRevision ∧ (h.live = false → (t.retire h).live = false) ∧
    ((t.retire h).supersededAt.isSome = true → h.supersededAt.isSome = true ∨ h.id ∈ t.retired) := by
  unfold Txn.retire
  split
  · next hmem => exact ⟨rfl, rfl, rfl, fun _ => Bool.and_false _, fun _ => .inr hmem⟩
  · exact ⟨rfl, rfl, rfl, id, .inl⟩

theorem answer_same (t : Txn) (h : Hint) : (t.answer h).id = h.id ∧ (t.answer h).jobId = h.jobId ∧
    (t.answer h).jobRevision = h.jobRevision ∧ (h.live = false → (t.answer h).live = false) ∧
    (t.answer h).supersededAt = h.supersededAt := by
  unfold Txn.answer
  split
  · split
    · exact ⟨rfl, rfl, rfl, fun _ => rfl, rfl⟩
    · exact ⟨rfl, rfl, rfl, id, rfl⟩
  · split
    · exact ⟨rfl, rfl, rfl, id, rfl⟩
    · exact ⟨rfl, rfl, rfl, id, rfl⟩
  · exact ⟨rfl, rfl, rfl, id, rfl⟩

theorem update_same (t : Txn) (h : Hint) : (t.update h).id = h.id ∧ (t.update h).jobId = h.jobId ∧
    (t.update h).jobRevision = h.jobRevision ∧ (h.live = false → (t.update h).live = false) ∧
    ((t.update h).supersededAt.isSome = true → h.supersededAt.isSome = true ∨ h.id ∈ t.retired) := by
  obtain ⟨hid, hjob, hrev, hlive, hsup⟩ := retire_same t h
  obtain ⟨hid', hjob', hrev', hlive', hsup'⟩ := answer_same t (t.retire h)
  refine ⟨hid'.trans hid, hjob'.trans hjob, hrev'.trans hrev, fun h => hlive' (hlive h), fun h => hsup ?_⟩
  rw [← hsup']
  exact h

/-- A live hint outside the retired rows stays live unless it was delivered. -/
theorem update_live {t : Txn} {h : Hint} (hlive : h.live = true) (hret : h.id ∉ t.retired) :
    (t.update h).live = true ∨ ∃ j time, t.choice = some (h.id, j, .delivered time) := by
  unfold Txn.update Txn.retire
  rw [if_neg hret]
  unfold Txn.answer
  split
  · next id j time hc =>
    split
    · next hid => exact .inr ⟨j, time, hid ▸ hc⟩
    · exact .inl hlive
  · split
    · exact .inl hlive
    · exact .inl hlive
  · exact .inl hlive

theorem mem_commit {b : Board} {t : Txn} {h' : Hint} (hh' : h' ∈ (b.commit t).outbox) :
    ∃ h ∈ b.outbox, h.id ∉ t.deleted ∧ h' = t.update h := by
  obtain ⟨h, hh, rfl⟩ := List.mem_map.mp hh'
  obtain ⟨hmem, hdel⟩ := List.mem_filter.mp hh
  exact ⟨h, hmem, of_decide_eq_true hdel, rfl⟩

theorem commit_evolves {b : Board} {t : Txn} (ht : TxnOk b t) : Evolves b (b.commit t) := by
  refine ⟨.refl _, fun h' hh' _ => ?_, fun h hh => ?_, Nat.le_refl _, Nat.le_refl _, ?_, ?_⟩
  · obtain ⟨h, hh, _, rfl⟩ := mem_commit hh'
    obtain ⟨hid, hjob, hrev, hlive, _⟩ := update_same t h
    exact ⟨h, hh, hid.symm, hjob, hrev, hlive⟩
  · by_cases hdel : h.id ∈ t.deleted
    · exact .inr (ht.deleted h hh hdel)
    · refine .inl ⟨t.update h, ?_, (update_same t h).1⟩
      exact List.mem_map_of_mem (List.mem_filter.mpr ⟨hh, decide_eq_true hdel⟩)
  · exact fun m hm _ => ⟨m, hm, rfl, rfl, rfl⟩
  · exact fun m hm hd => .inl ⟨m, hm, rfl, rfl, hd⟩

theorem commit_ok {b : Board} {t : Txn} (hb : BoardOk b) (ht : TxnOk b t) : BoardOk (b.commit t) := by
  have hcur : ∀ h, currentDispatch b.jobs (t.update h) = currentDispatch b.jobs h := by
    intro h
    obtain ⟨_, hjob, hrev, _⟩ := update_same t h
    unfold currentDispatch
    rw [hjob, hrev]
  refine ⟨?_, ?_, ?_, hb.queueIds, hb.queueSeq, hb.sent, ?_, ?_⟩
  · change (((b.outbox.filter _).map t.update).map Hint.id).Nodup
    rw [List.map_map]
    have hids : (b.outbox.filter fun h => decide (h.id ∉ t.deleted)).map (Hint.id ∘ t.update) =
        (b.outbox.filter fun h => decide (h.id ∉ t.deleted)).map Hint.id :=
      List.map_congr_left fun h _ => (update_same t h).1
    rw [hids]
    exact (List.Sublist.map Hint.id List.filter_sublist).nodup hb.ids
  · intro h' hh'
    obtain ⟨h, hh, _, rfl⟩ := mem_commit hh'
    rw [(update_same t h).1]
    exact hb.seq h hh
  · intro h' hh'
    obtain ⟨h, hh, _, rfl⟩ := mem_commit hh'
    rw [(update_same t h).2.1, (update_same t h).2.2.1]
    exact hb.revisions h hh
  · intro h' hh' hsup
    obtain ⟨h, hh, _, rfl⟩ := mem_commit hh'
    change currentDispatch b.jobs (t.update h) = false
    rw [hcur]
    rcases (update_same t h).2.2.2.2 hsup with hold | hret
    · exact hb.superseded h hh hold
    · exact ht.retired h hh hret
  · intro j job hj hsch
    rcases hb.covered j job hj hsch with ⟨h, hh, rfl, hrev, hlive⟩ | hsent
    · have hcurrent : currentDispatch b.jobs h = true := currentDispatch_iff.mpr ⟨job, hj, hrev, hsch⟩
      have hret : h.id ∉ t.retired := by
        intro hmem
        rw [ht.retired h hh hmem] at hcurrent
        cases hcurrent
      have hdel : h.id ∉ t.deleted := by
        intro hmem
        rw [ht.deleted h hh hmem] at hlive
        cases hlive
      rcases update_live hlive hret with hlive' | ⟨j, time, hc⟩
      · refine .inl ⟨t.update h, ?_, (update_same t h).2.1, (update_same t h).2.2.1.trans hrev, hlive'⟩
        exact List.mem_map_of_mem (List.mem_filter.mpr ⟨hh, decide_eq_true hdel⟩)
      · refine .inr ?_
        rw [← hrev]
        exact ht.sent h.id j time hc h hh rfl hcurrent
    · exact .inr hsent

/-! ## Messages -/

theorem send_evolves (b : Board) (j : Nat) : Evolves b (b.send j) := by
  unfold Board.send
  split
  · refine ⟨.refl _, fun h hh _ => ⟨h, hh, rfl, rfl, rfl, id⟩, fun h hh => .inl ⟨h, hh, rfl⟩, Nat.le_refl _,
      Nat.le_succ _, ?_, ?_⟩
    · intro m hm hle
      rcases List.mem_append.mp hm with hold | hnew
      · exact ⟨m, hold, rfl, rfl, rfl⟩
      · rw [List.mem_singleton.mp hnew] at hle
        change b.queueSeq + 1 ≤ b.queueSeq at hle
        omega
    · exact fun m hm hd => .inl ⟨m, List.mem_append_left _ hm, rfl, rfl, hd⟩
  · exact .refl b

theorem send_ok {b : Board} (hb : BoardOk b) (j : Nat) : BoardOk (b.send j) := by
  have hev := send_evolves b j
  unfold Board.send at hev ⊢
  split
  · next job hj =>
    rw [hj] at hev
    refine ⟨hb.ids, hb.seq, hb.revisions, ?_, ?_, ?_, hb.superseded, ?_⟩
    · rw [List.map_append]
      refine List.nodup_append.mpr ⟨hb.queueIds, List.nodup_singleton _, ?_⟩
      intro x hx y hy heq
      obtain ⟨m, hm, rfl⟩ := List.mem_map.mp hx
      have hle := hb.queueSeq m hm
      have hy' : y = b.queueSeq + 1 := List.mem_singleton.mp hy
      omega
    · intro m hm
      change m.id ≤ b.queueSeq + 1
      rcases List.mem_append.mp hm with hold | hnew
      · exact Nat.le_succ_of_le (hb.queueSeq m hold)
      · rw [List.mem_singleton.mp hnew]
    · intro m hm
      rcases List.mem_append.mp hm with hold | hnew
      · exact hb.sent m hold
      · rw [List.mem_singleton.mp hnew]
        exact ⟨job, hj, Nat.le_refl _⟩
    · intro i job' hi hsch
      rcases hb.covered i job' hi hsch with hrow | hsent
      · exact .inl hrow
      · exact .inr (hev.sent hi hsch hsent)
  · exact hb

theorem send_sent {b : Board} {j : Nat} {job : Job} (hj : b.jobs j = some job) {r : Nat}
    (hr : r ≤ job.revision) : Sent (b.send j) j r := by
  unfold Board.send
  rw [hj]
  exact ⟨_, List.mem_append_right _ (List.mem_singleton.mpr rfl), rfl, rfl, hr⟩

theorem send_jobs (b : Board) (j : Nat) : (b.send j).jobs = b.jobs := by
  unfold Board.send
  split <;> rfl

theorem send_outbox (b : Board) (j : Nat) : (b.send j).outbox = b.outbox := by
  unfold Board.send
  split <;> rfl

theorem mem_delete {b : Board} {m m' : Message} (hm' : m' ∈ (b.delete m).queue) :
    ∃ m0 ∈ b.queue, m'.id = m0.id ∧ m'.jobId = m0.jobId ∧ m'.sentRevision = m0.sentRevision := by
  obtain ⟨m0, hm0, heq⟩ := List.mem_map.mp hm'
  split at heq
  · subst heq
    exact ⟨m0, hm0, rfl, rfl, rfl⟩
  · subst heq
    exact ⟨m0, hm0, rfl, rfl, rfl⟩

theorem delete_evolves {b : Board} {m : Message} (hu : ∀ m' ∈ b.queue, m'.id = m.id → Useless b m') :
    Evolves b (b.delete m) := by
  refine ⟨.refl _, fun h hh _ => ⟨h, hh, rfl, rfl, rfl, id⟩, fun h hh => .inl ⟨h, hh, rfl⟩, Nat.le_refl _,
    Nat.le_refl _, ?_, ?_⟩
  · intro m' hm' _
    obtain ⟨m0, hm0, hid, hjob, hrev⟩ := mem_delete hm'
    exact ⟨m0, hm0, hid.symm, hjob, hrev⟩
  · intro m0 hm0 hd
    by_cases hid : m0.id = m.id
    · exact .inr (hu m0 hm0 hid)
    · refine .inl ⟨m0, List.mem_map.mpr ⟨m0, hm0, if_neg hid⟩, rfl, rfl, hd⟩

theorem delete_ok {b : Board} {m : Message} (hb : BoardOk b)
    (hu : ∀ m' ∈ b.queue, m'.id = m.id → Useless b m') : BoardOk (b.delete m) := by
  have hev := delete_evolves hu
  refine ⟨hb.ids, hb.seq, hb.revisions, ?_, ?_, ?_, hb.superseded, ?_⟩
  · have hids : (b.delete m).queue.map Message.id = b.queue.map Message.id := by
      change (b.queue.map _).map Message.id = _
      rw [List.map_map]
      refine List.map_congr_left fun m0 _ => ?_
      simp only [Function.comp_apply]
      split <;> rfl
    rw [hids]
    exact hb.queueIds
  · intro m' hm'
    obtain ⟨m0, hm0, hid, _⟩ := mem_delete hm'
    rw [hid]
    exact hb.queueSeq m0 hm0
  · intro m' hm'
    obtain ⟨m0, hm0, _, hjob, hrev⟩ := mem_delete hm'
    rw [hjob, hrev]
    exact hb.sent m0 hm0
  · intro j job hj hsch
    rcases hb.covered j job hj hsch with hrow | hsent
    · exact .inl hrow
    · exact .inr (hev.sent hj hsch hsent)

end ChessCrawl.Dispatch
