import ChessCrawl.Dispatch.Outbox

/-! What the writers of the board keep: revisions only grow, hints and messages never run ahead of their
job, superseded hints are obsolete, and every schedulable job is covered by a live current hint or by a
message sent at its revision. `Evolves` is what the other parties may rely on across a write. -/
namespace ChessCrawl.Dispatch
open ChessCrawl.Lib
set_option autoImplicit false

/-! ## Revisions -/

/-- A job keeps its columns at a revision and its revision never falls. -/
def Advances (jobs jobs' : Nat → Option Job) : Prop :=
  ∀ j job, jobs j = some job → ∃ job', jobs' j = some job' ∧ (job' = job ∨ job.revision < job'.revision)

theorem Advances.refl (jobs : Nat → Option Job) : Advances jobs jobs :=
  fun _ job h => ⟨job, h, .inl rfl⟩

theorem Advances.trans {a b c : Nat → Option Job} (hab : Advances a b) (hbc : Advances b c) : Advances a c := by
  intro j job h
  obtain ⟨job', h', hstep⟩ := hab j job h
  obtain ⟨job'', h'', hstep'⟩ := hbc j job' h'
  refine ⟨job'', h'', ?_⟩
  rcases hstep with rfl | hlt
  · exact hstep'
  · rcases hstep' with rfl | hlt'
    · exact .inr hlt
    · exact .inr (Nat.lt_trans hlt hlt')

theorem currentDispatch_iff {jobs : Nat → Option Job} {h : Hint} : currentDispatch jobs h = true ↔
    ∃ job, jobs h.jobId = some job ∧ h.jobRevision = job.revision ∧ job.columns.schedulable = true := by
  unfold currentDispatch
  cases hjob : jobs h.jobId with
  | none => simp
  | some job => simp

/-- A hint that does not run ahead of its job and is current later was current before. -/
theorem currentDispatch_back {jobs jobs' : Nat → Option Job} (hadv : Advances jobs jobs') {h h' : Hint}
    (hjob : h'.jobId = h.jobId) (hrev : h'.jobRevision = h.jobRevision)
    (hle : ∃ job, jobs h.jobId = some job ∧ h.jobRevision ≤ job.revision)
    (hcur : currentDispatch jobs' h' = true) : currentDispatch jobs h = true := by
  obtain ⟨job', hjob', hrev', hsch⟩ := currentDispatch_iff.mp hcur
  obtain ⟨job, hj, hle⟩ := hle
  rw [hjob] at hjob'
  rw [hrev] at hrev'
  obtain ⟨job'', hj'', hstep⟩ := hadv h.jobId job hj
  cases hj''.symm.trans hjob'
  rcases hstep with rfl | hlt
  · exact currentDispatch_iff.mpr ⟨job', hj, hrev', hsch⟩
  · omega

/-! ## The invariant of the board -/

/-- A message for the job that no consumer has deleted, sent at the revision or later. -/
def Sent (b : Board) (jobId revision : Nat) : Prop :=
  ∃ m ∈ b.queue, m.jobId = jobId ∧ m.deleted = false ∧ revision ≤ m.sentRevision

def Covered (b : Board) (jobId revision : Nat) : Prop :=
  (∃ h ∈ b.outbox, h.jobId = jobId ∧ h.jobRevision = revision ∧ h.live = true) ∨ Sent b jobId revision

/-- The message was sent before the current revision of its job, or the job needs no message. -/
def Useless (b : Board) (m : Message) : Prop :=
  ∀ job, b.jobs m.jobId = some job → job.columns.schedulable = true → m.sentRevision < job.revision

structure BoardOk (b : Board) : Prop where
  ids : (b.outbox.map Hint.id).Nodup
  seq : ∀ h ∈ b.outbox, h.id ≤ b.outboxSeq
  revisions : ∀ h ∈ b.outbox, ∃ job, b.jobs h.jobId = some job ∧ h.jobRevision ≤ job.revision
  queueIds : (b.queue.map Message.id).Nodup
  queueSeq : ∀ m ∈ b.queue, m.id ≤ b.queueSeq
  sent : ∀ m ∈ b.queue, ∃ job, b.jobs m.jobId = some job ∧ m.sentRevision ≤ job.revision
  superseded : ∀ h ∈ b.outbox, h.supersededAt.isSome = true → currentDispatch b.jobs h = false
  covered : ∀ j job, b.jobs j = some job → job.columns.schedulable = true → Covered b j job.revision

/-- What a write leaves in place for the transactions and receptions in progress. -/
structure Evolves (b b' : Board) : Prop where
  jobs : Advances b.jobs b'.jobs
  rows : ∀ h' ∈ b'.outbox, h'.id ≤ b.outboxSeq → ∃ h ∈ b.outbox, h.id = h'.id ∧ h'.jobId = h.jobId ∧
    h'.jobRevision = h.jobRevision ∧ (h.live = false → h'.live = false)
  gone : ∀ h ∈ b.outbox, (∃ h' ∈ b'.outbox, h'.id = h.id) ∨ h.live = false
  seq : b.outboxSeq ≤ b'.outboxSeq
  queueSeq : b.queueSeq ≤ b'.queueSeq
  messages : ∀ m' ∈ b'.queue, m'.id ≤ b.queueSeq → ∃ m ∈ b.queue, m.id = m'.id ∧ m'.jobId = m.jobId ∧
    m'.sentRevision = m.sentRevision
  kept : ∀ m ∈ b.queue, m.deleted = false →
    (∃ m' ∈ b'.queue, m'.jobId = m.jobId ∧ m'.sentRevision = m.sentRevision ∧ m'.deleted = false) ∨
      Useless b' m

theorem Evolves.refl (b : Board) : Evolves b b :=
  ⟨.refl _, fun h hh _ => ⟨h, hh, rfl, rfl, rfl, id⟩, fun h hh => .inl ⟨h, hh, rfl⟩, Nat.le_refl _,
    Nat.le_refl _, fun m hm _ => ⟨m, hm, rfl, rfl, rfl⟩, fun m hm hd => .inl ⟨m, hm, rfl, rfl, hd⟩⟩

/-- A sent message still covers a job that is schedulable at the revision. -/
theorem Evolves.sent {b b' : Board} (h : Evolves b b') {j : Nat} {job' : Job} (hj : b'.jobs j = some job')
    (hsch : job'.columns.schedulable = true) (hs : Sent b j job'.revision) : Sent b' j job'.revision := by
  obtain ⟨m, hm, rfl, hd, hle⟩ := hs
  rcases h.kept m hm hd with ⟨m', hm', hjob, hrev, hd'⟩ | huse
  · exact ⟨m', hm', hjob, hd', hrev ▸ hle⟩
  · have hlt := huse job' hj hsch
    omega

theorem Evolves.useless {b b' : Board} (h : Evolves b b') {m m' : Message} (hjob : m'.jobId = m.jobId)
    (hrev : m'.sentRevision = m.sentRevision)
    (hle : ∃ job, b.jobs m.jobId = some job ∧ m.sentRevision ≤ job.revision) (hu : Useless b m) :
    Useless b' m' := by
  intro job' hj' hsch
  obtain ⟨job, hj, hle⟩ := hle
  obtain ⟨job'', hj'', hstep⟩ := h.jobs m.jobId job hj
  rw [hjob] at hj'
  cases hj''.symm.trans hj'
  rw [hrev]
  rcases hstep with rfl | hlt
  · exact hu job' hj hsch
  · omega

/-! ## Job writes -/

section WriteJob
variable {b : Board} {j : Nat} {new : Job} {f : Hint → Hint}

/-- The board after a job write that retires some hints of the job. -/
def Board.writeJob (b : Board) (j : Nat) (new : Job) (f : Hint → Hint) : Board :=
  ({ b with outbox := b.outbox.map f }.setJob j new).insertHint j new

/-- The hint of the new revision. -/
def newHint (b : Board) (j : Nat) (new : Job) : Hint :=
  ⟨b.outboxSeq + 1, j, new.revision, 0, new.columns.nextAttemptAt.getD 0, none, none⟩

/-- A hint is left alone or is one of the written job's and becomes superseded. -/
def Retires (j : Nat) (f : Hint → Hint) : Prop :=
  ∀ h, f h = h ∨ (h.jobId = j ∧ ∃ now, f h = { h with supersededAt := some now })

theorem Retires.same (hf : Retires j f) (h : Hint) :
    (f h).id = h.id ∧ (f h).jobId = h.jobId ∧ (f h).jobRevision = h.jobRevision ∧
      (h.live = false → (f h).live = false) := by
  rcases hf h with heq | ⟨_, now, heq⟩
  · rw [heq]
    exact ⟨rfl, rfl, rfl, id⟩
  · rw [heq]
    exact ⟨rfl, rfl, rfl, fun _ => Bool.and_false _⟩

theorem no_new_hint (hb : BoardOk b) (hgrow : ∀ old, b.jobs j = some old → old.revision < new.revision)
    {h : Hint} (hh : h ∈ b.outbox) : ¬ (h.jobId = j ∧ h.jobRevision = new.revision) := by
  rintro ⟨rfl, hrev⟩
  obtain ⟨job, hjob, hle⟩ := hb.revisions h hh
  have hlt := hgrow job hjob
  omega

theorem writeJob_outbox (hb : BoardOk b) (hf : Retires j f)
    (hgrow : ∀ old, b.jobs j = some old → old.revision < new.revision) :
    (b.writeJob j new f).outbox =
      b.outbox.map f ++ if new.columns.schedulable then [newHint b j new] else [] := by
  unfold Board.writeJob Board.insertHint
  have hfree : ((b.outbox.map f).all fun h => decide (¬ (h.jobId = j ∧ h.jobRevision = new.revision))) = true := by
    refine List.all_eq_true.mpr fun h' hh' => decide_eq_true ?_
    obtain ⟨h, hh, rfl⟩ := List.mem_map.mp hh'
    rw [(hf.same h).2.1, (hf.same h).2.2.1]
    exact no_new_hint hb hgrow hh
  by_cases hsch : new.columns.schedulable = true
  · rw [if_pos ⟨hsch, hfree⟩, if_pos hsch]
    rfl
  · rw [if_neg (fun h => hsch h.1), if_neg hsch, List.append_nil]
    rfl

theorem writeJob_seq : b.outboxSeq ≤ (b.writeJob j new f).outboxSeq := by
  unfold Board.writeJob Board.insertHint
  split
  · exact Nat.le_succ _
  · exact Nat.le_refl _

theorem writeJob_jobs : (b.writeJob j new f).jobs = Function.update b.jobs j (some new) := by
  unfold Board.writeJob Board.insertHint
  split <;> rfl

theorem writeJob_queue : (b.writeJob j new f).queue = b.queue := by
  unfold Board.writeJob Board.insertHint
  split <;> rfl

theorem writeJob_queueSeq : (b.writeJob j new f).queueSeq = b.queueSeq := by
  unfold Board.writeJob Board.insertHint
  split <;> rfl

theorem writeJob_advances (hgrow : ∀ old, b.jobs j = some old → old.revision < new.revision) :
    Advances b.jobs (b.writeJob j new f).jobs := by
  intro i job hi
  rw [writeJob_jobs]
  by_cases hij : i = j
  · subst hij
    exact ⟨new, Function.update_self _ _ _, .inr (hgrow job hi)⟩
  · refine ⟨job, ?_, .inl rfl⟩
    rw [Function.update_of_ne hij]
    exact hi

/-- A row after the write is an old one or the hint of the new revision. -/
theorem mem_writeJob (hb : BoardOk b) (hf : Retires j f)
    (hgrow : ∀ old, b.jobs j = some old → old.revision < new.revision) {h' : Hint}
    (hh' : h' ∈ (b.writeJob j new f).outbox) :
    (∃ h ∈ b.outbox, h' = f h) ∨ (new.columns.schedulable = true ∧ h' = newHint b j new ∧
      (b.writeJob j new f).outboxSeq = b.outboxSeq + 1) := by
  rw [writeJob_outbox hb hf hgrow] at hh'
  rcases List.mem_append.mp hh' with hold | hnew
  · obtain ⟨h, hh, rfl⟩ := List.mem_map.mp hold
    exact .inl ⟨h, hh, rfl⟩
  · split at hnew
    · next hsch =>
      refine .inr ⟨hsch, List.mem_singleton.mp hnew, ?_⟩
      by_contra hseq
      have hout := writeJob_outbox hb hf hgrow
      unfold Board.writeJob Board.insertHint at hseq hout
      split at hseq
      · exact hseq rfl
      · next hcond =>
        rw [if_neg hcond, if_pos hsch] at hout
        have hlen := congrArg List.length hout
        simp [Board.setJob] at hlen
    · exact absurd hnew List.not_mem_nil

theorem writeJob_evolves (hb : BoardOk b) (hf : Retires j f)
    (hgrow : ∀ old, b.jobs j = some old → old.revision < new.revision) :
    Evolves b (b.writeJob j new f) := by
  refine ⟨writeJob_advances hgrow, ?_, ?_, writeJob_seq, Nat.le_of_eq writeJob_queueSeq.symm, ?_, ?_⟩
  · intro h' hh' hle
    rcases mem_writeJob hb hf hgrow hh' with ⟨h, hh, rfl⟩ | ⟨_, rfl, _⟩
    · obtain ⟨hid, hjob, hrev, hlive⟩ := hf.same h
      exact ⟨h, hh, hid.symm, hjob, hrev, hlive⟩
    · change b.outboxSeq + 1 ≤ b.outboxSeq at hle
      omega
  · intro h hh
    refine .inl ⟨f h, ?_, (hf.same h).1⟩
    rw [writeJob_outbox hb hf hgrow]
    exact List.mem_append_left _ (List.mem_map_of_mem hh)
  · intro m hm _
    rw [writeJob_queue] at hm
    exact ⟨m, hm, rfl, rfl, rfl⟩
  · intro m hm hd
    refine .inl ⟨m, ?_, rfl, rfl, hd⟩
    rw [writeJob_queue]
    exact hm

theorem writeJob_ok (hb : BoardOk b) (hf : Retires j f)
    (hgrow : ∀ old, b.jobs j = some old → old.revision < new.revision) :
    BoardOk (b.writeJob j new f) := by
  have hev := writeJob_evolves hb hf hgrow
  have hself : (b.writeJob j new f).jobs j = some new := by
    rw [writeJob_jobs]
    exact Function.update_self _ _ _
  refine ⟨?_, ?_, ?_, ?_, ?_, ?_, ?_, ?_⟩
  · rw [writeJob_outbox hb hf hgrow, List.map_append, List.map_map]
    have hids : b.outbox.map (Hint.id ∘ f) = b.outbox.map Hint.id :=
      List.map_congr_left fun h _ => (hf.same h).1
    rw [hids]
    refine List.nodup_append.mpr ⟨hb.ids, ?_, ?_⟩
    · split
      · exact List.nodup_singleton _
      · exact List.nodup_nil
    · intro x hx y hy heq
      obtain ⟨h, hh, rfl⟩ := List.mem_map.mp hx
      have hle := hb.seq h hh
      split at hy
      · have hy' : y = b.outboxSeq + 1 := List.mem_singleton.mp hy
        omega
      · exact absurd hy List.not_mem_nil
  · intro h' hh'
    rcases mem_writeJob hb hf hgrow hh' with ⟨h, hh, rfl⟩ | ⟨_, rfl, hseq⟩
    · rw [(hf.same h).1]
      exact Nat.le_trans (hb.seq h hh) writeJob_seq
    · rw [hseq]
      exact Nat.le_refl _
  · intro h' hh'
    rcases mem_writeJob hb hf hgrow hh' with ⟨h, hh, rfl⟩ | ⟨_, rfl, _⟩
    · obtain ⟨job, hjob, hle⟩ := hb.revisions h hh
      obtain ⟨job', hjob', hstep⟩ := hev.jobs h.jobId job hjob
      rw [(hf.same h).2.1, (hf.same h).2.2.1]
      refine ⟨job', hjob', ?_⟩
      rcases hstep with rfl | hlt
      · exact hle
      · omega
    · exact ⟨new, hself, Nat.le_refl _⟩
  · rw [writeJob_queue]
    exact hb.queueIds
  · rw [writeJob_queue, writeJob_queueSeq]
    exact hb.queueSeq
  · rw [writeJob_queue]
    intro m hm
    obtain ⟨job, hjob, hle⟩ := hb.sent m hm
    obtain ⟨job', hjob', hstep⟩ := hev.jobs m.jobId job hjob
    refine ⟨job', hjob', ?_⟩
    rcases hstep with rfl | hlt
    · exact hle
    · omega
  · intro h' hh' hsup
    by_contra hcur
    have hcur := Bool.not_eq_false _ ▸ hcur
    rcases mem_writeJob hb hf hgrow hh' with ⟨h, hh, rfl⟩ | ⟨_, rfl, _⟩
    · have hback := currentDispatch_back hev.jobs (hf.same h).2.1 (hf.same h).2.2.1 (hb.revisions h hh) hcur
      rcases hf h with heq | ⟨hjob, _, _⟩
      · rw [heq] at hsup
        rw [hb.superseded h hh hsup] at hback
        cases hback
      · obtain ⟨job', hjob', hrev', _⟩ := currentDispatch_iff.mp hcur
        rw [(hf.same h).2.1, hjob, hself] at hjob'
        cases hjob'
        rw [(hf.same h).2.2.1] at hrev'
        exact no_new_hint hb hgrow hh ⟨hjob, hrev'⟩
    · cases hsup
  · intro i job hi hsch
    by_cases hij : i = j
    · subst hij
      cases hself.symm.trans hi
      refine .inl ⟨newHint b i new, ?_, rfl, rfl, rfl⟩
      rw [writeJob_outbox hb hf hgrow, if_pos hsch]
      exact List.mem_append_right _ (List.mem_singleton.mpr rfl)
    · have hold : b.jobs i = some job := by
        rw [writeJob_jobs, Function.update_of_ne hij] at hi
        exact hi
      rcases hb.covered i job hold hsch with ⟨h, hh, hjob, hrev, hlive⟩ | hsent
      · refine .inl ⟨h, ?_, hjob, hrev, hlive⟩
        rw [writeJob_outbox hb hf hgrow]
        refine List.mem_append_left _ (List.mem_map.mpr ⟨h, hh, ?_⟩)
        rcases hf h with heq | ⟨hj, _⟩
        · exact heq
        · exact absurd (hjob.symm.trans hj) hij
      · exact .inr (hev.sent hi hsch hsent)

end WriteJob

theorem insertJob_ok {b b' : Board} {j : Nat} {c : Columns} (hb : BoardOk b) (h : b.insertJob j c = some b') :
    BoardOk b' ∧ Evolves b b' := by
  unfold Board.insertJob at h
  split at h
  · cases h
  · next hnone =>
    cases h
    have hgrow : ∀ old, b.jobs j = some old → old.revision < (⟨c, 1⟩ : Job).revision := by
      intro old hold
      rw [hnone] at hold
      cases hold
    have hf : Retires j id := fun h => .inl rfl
    have heq : (b.setJob j ⟨c, 1⟩).insertHint j ⟨c, 1⟩ = b.writeJob j ⟨c, 1⟩ id := by
      unfold Board.writeJob
      rw [List.map_id]
    rw [heq]
    exact ⟨writeJob_ok hb hf hgrow, writeJob_evolves hb hf hgrow⟩

theorem updateJob_ok {b b' : Board} {j : Nat} {c : Columns} {locked : Nat → Bool} {now : Int} (hb : BoardOk b)
    (h : b.updateJob j c locked now = some b') : BoardOk b' ∧ Evolves b b' := by
  unfold Board.updateJob at h
  split at h
  · cases h
  · next old hold =>
    split at h
    · cases h
      exact ⟨hb, .refl b⟩
    · cases h
      have hgrow : ∀ old', b.jobs j = some old' → old'.revision < (⟨c, old.revision + 1⟩ : Job).revision := by
        intro old' hold'
        cases hold.symm.trans hold'
        exact Nat.lt_succ_self _
      have hf : Retires j fun h =>
          if h.jobId = j ∧ h.jobRevision = old.revision ∧ h.live ∧ !locked h.id then
            { h with supersededAt := some now } else h := by
        intro h
        dsimp only
        split
        · next hc => exact .inr ⟨hc.1, now, rfl⟩
        · exact .inl rfl
      exact ⟨writeJob_ok hb hf hgrow, writeJob_evolves hb hf hgrow⟩

end ChessCrawl.Dispatch
