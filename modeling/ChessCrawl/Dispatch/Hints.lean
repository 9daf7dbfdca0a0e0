import ChessCrawl.Dispatch.Delivery

/-! No current hint is lost: in every run, at every moment, a schedulable job has a live hint at its
revision or an undeleted message that was sent at it. -/
namespace ChessCrawl.Dispatch
open ChessCrawl.Lib
open ChessCrawl.Ownership (JobState)
set_option autoImplicit false

/-! ## Publishers -/

theorem BoardOk.hint_eq {b : Board} (hb : BoardOk b) {h g : Hint} (hh : h ∈ b.outbox) (hg : g ∈ b.outbox)
    (hid : h.id = g.id) : h = g :=
  List.inj_on_of_nodup_map hb.ids hh hg hid

theorem mem_lockable {b : Board} {ids : List Nat} {seen : Nat → Option Job} {locked : Nat → Bool} {h : Hint}
    (hh : h ∈ lockable b ids seen locked) : h ∈ b.outbox ∧ h.id ∈ ids := by
  obtain ⟨hmem, hcond⟩ := List.mem_filter.mp hh
  simp only [Bool.and_eq_true, decide_eq_true_eq] at hcond
  exact ⟨hmem, hcond.1.1.1⟩

theorem mem_dueWindow {outbox : List Hint} {now : Int} {after : Option Cursor} {limit : Nat} {h : Hint}
    (hh : h ∈ dueWindow outbox now after limit) : h ∈ outbox := by
  have hsorted := List.mem_of_mem_take hh
  exact (List.mem_filter.mp ((List.mem_insertionSort _).mp hsorted)).1

theorem closed_not_live {h : Hint} {threshold : Int}
    (hc : (h.closedAt.any fun time => decide (time < threshold)) = true) : h.live = false := by
  unfold Hint.closedAt at hc
  unfold Hint.live
  cases hd : h.deliveredAt with
  | some time => rfl
  | none =>
    rw [hd] at hc
    cases hs : h.supersededAt with
    | some time => rfl
    | none =>
      rw [hs] at hc
      cases hc

/-- What a statement saw as obsolete is obsolete. -/
theorem obsolete_of_seen {b : Board} {ids : List Nat} {seen : Nat → Option Job} (hr : ReadOk b ids seen)
    {h : Hint} (hh : h ∈ b.outbox) (hid : h.id ∈ ids) (hcur : currentDispatch seen h = false) :
    currentDispatch b.jobs h = false := by
  by_contra hne
  have hback := currentDispatch_back hr.jobs rfl rfl (hr.rows h hh hid) (Bool.not_eq_false _ ▸ hne)
  rw [hcur] at hback
  cases hback

/-- A transaction that locked some of the listed rows and retires the obsolete ones. -/
theorem locking_ok {b : Board} {ids : List Nat} {seen : Nat → Option Job} {rows : List Hint} (hb : BoardOk b)
    (hr : ReadOk b ids seen) (hrows : ∀ h ∈ rows, h ∈ b.outbox ∧ h.id ∈ ids) (now : Int) (cursor : Option Cursor)
    (purge : Option (Int × Nat)) (selected : Option Hint) (hsel : ∀ h, selected = some h → h ∈ rows) :
    TxnOk b ⟨rows.map Hint.id, now, (rows.filter fun h => !currentDispatch seen h).map Hint.id,
      selected.map fun h => (h.id, h.jobId, .selected), cursor, purge, []⟩ := by
  refine ⟨?_, ?_, fun id hid => absurd hid List.not_mem_nil, fun _ _ hid => absurd hid List.not_mem_nil, ?_, ?_⟩
  · intro id hid
    obtain ⟨h, hh, rfl⟩ := List.mem_map.mp hid
    exact hb.seq h (hrows h (List.mem_filter.mp hh).1).1
  · intro h hh hid
    obtain ⟨g, hg, heq⟩ := List.mem_map.mp hid
    obtain ⟨hgrow, hgcur⟩ := List.mem_filter.mp hg
    obtain ⟨hgmem, hgid⟩ := hrows g hgrow
    cases hb.hint_eq hgmem hh heq
    exact obsolete_of_seen hr hh hgid (by simpa using hgcur)
  · intro id j o hc
    obtain ⟨h, hs, heq⟩ := Option.map_eq_some_iff.mp hc
    cases heq
    obtain ⟨hmem, _⟩ := hrows h (hsel h hs)
    refine ⟨hb.seq h hmem, fun g hg hid => ?_⟩
    rw [hb.hint_eq hg hmem hid]
  · intro id j time hc
    obtain ⟨h, hs, heq⟩ := Option.map_eq_some_iff.mp hc
    cases heq

/-- A step of a publisher keeps the board in order and its own transaction justified. -/
structure ActOk (b b' : Board) (p' : Publisher) : Prop where
  board : BoardOk b'
  evolves : Evolves b b'
  phase : PhaseOk b' p'.phase

theorem ActOk.of_same {b : Board} {p' : Publisher} (hb : BoardOk b) (hp : PhaseOk b p'.phase) : ActOk b b p' :=
  ⟨hb, .refl b, hp⟩

theorem act_send {b : Board} {t : Txn} {id j : Nat} (hb : BoardOk b) (ht : TxnOk b t)
    (hc : t.choice = some (id, j, .selected)) (failed arrived : Bool) (time : Int) :
    let b' := if !failed || arrived then b.send j else b
    BoardOk b' ∧ Evolves b b' ∧
      TxnOk b' { t with choice := some (id, j, if failed then .failed time else .delivered time) } := by
  have hboard : BoardOk (if (!failed || arrived) = true then b.send j else b) := by
    split
    · exact send_ok hb j
    · exact hb
  have hevolves : Evolves b (if (!failed || arrived) = true then b.send j else b) := by
    split
    · exact send_evolves b j
    · exact .refl b
  have ht' := ht.evolve hb hevolves
  refine ⟨hboard, hevolves, ht'.retiredKnown, ht'.retired, ht'.deletedKnown, ht'.deleted, ?_, ?_⟩
  · intro id' j' o heq
    cases heq
    exact ht'.chosen id j .selected hc
  · intro id' j' time' heq h hh hid hcur
    cases failed with
    | true => cases heq
    | false =>
      cases heq
      change h ∈ (b.send j).outbox at hh
      rw [send_outbox] at hh
      have hjob := (ht.chosen id j .selected hc).2 h hh hid
      obtain ⟨job, hj, hle⟩ := hb.revisions h hh
      rw [hjob] at hj ⊢
      exact send_sent hj hle

theorem act_ok {b b' : Board} {locked : Nat → Bool} {p p' : Publisher} {a : Act} (hb : BoardOk b)
    (hp : PhaseOk b p.phase) (h : p.act b locked a = some (p', b')) : ActOk b b' p' := by
  cases a with
  | look now limit =>
    simp only [Publisher.act] at h
    split at h
    · split at h
      · cases h
        exact .of_same hb hp
      · cases h
        refine .of_same hb fun id hid => ?_
        obtain ⟨g, hg, rfl⟩ := List.mem_map.mp hid
        exact hb.seq g (mem_dueWindow hg)
    · cases h
  | read =>
    simp only [Publisher.act] at h
    split at h
    · next now ids cursor hphase =>
      cases h
      rw [hphase] at hp
      exact .of_same hb ⟨hp, fun g hg _ => hb.revisions g hg, .refl _⟩
    · cases h
  | lock skip =>
    simp only [Publisher.act] at h
    split at h
    · next now ids cursor seen hphase =>
      cases h
      rw [hphase] at hp
      refine .of_same hb (locking_ok hb hp (fun g hg => ?_) now (some cursor) none _ fun g hg => ?_)
      · exact mem_lockable (List.mem_filter.mp ((List.mem_insertionSort _).mp hg)).1
      · exact List.mem_of_find?_eq_some hg
    · cases h
  | send failed arrived time =>
    simp only [Publisher.act] at h
    split at h
    · next t hphase =>
      rw [hphase] at hp
      split at h
      · next id j hc =>
        cases h
        obtain ⟨hboard, hevolves, htxn⟩ := act_send hb hp hc failed arrived time
        exact ⟨hboard, hevolves, htxn⟩
      · cases h
    · cases h
  | inspect now retention limit =>
    simp only [Publisher.act] at h
    split at h
    · split at h
      · cases h
        refine .of_same hb ⟨fun id hid => ?_, fun g hg _ => hb.revisions g hg, .refl _⟩
        obtain ⟨g, hg, rfl⟩ := List.mem_map.mp hid
        exact hb.seq g (List.mem_filter.mp hg).1
      · cases h
    · cases h
  | reconcile skip =>
    simp only [Publisher.act] at h
    split at h
    · next now threshold limit ids seen hphase =>
      cases h
      rw [hphase] at hp
      refine .of_same hb (locking_ok hb hp (fun g hg => ?_) now none (some (threshold, limit)) none
        fun g hg => nomatch hg)
      exact mem_lockable ((List.mem_insertionSort _).mp (List.mem_of_mem_take hg))
    · cases h
  | purge skip =>
    simp only [Publisher.act] at h
    split at h
    · next t hphase =>
      rw [hphase] at hp
      split at h
      · next threshold limit hpurge =>
        cases h
        refine .of_same hb ⟨hp.retiredKnown, hp.retired, ?_, ?_, hp.chosen, hp.sent⟩
        · intro id hid
          obtain ⟨g, hg, rfl⟩ := List.mem_map.mp hid
          exact hb.seq g (List.mem_filter.mp ((List.mem_insertionSort _).mp (List.mem_of_mem_take hg))).1
        · intro g hg hid
          obtain ⟨g', hg', heq⟩ := List.mem_map.mp hid
          obtain ⟨hmem, hcond⟩ := List.mem_filter.mp ((List.mem_insertionSort _).mp (List.mem_of_mem_take hg'))
          cases hb.hint_eq hmem hg heq
          simp only [Bool.and_eq_true] at hcond
          exact closed_not_live hcond.1.1
      · cases h
    · cases h
  | commit =>
    simp only [Publisher.act] at h
    split at h
    · next t hphase =>
      rw [hphase] at hp
      split at h
      · cases h
        exact ⟨commit_ok hb hp, commit_evolves hp, trivial⟩
      · cases h
      · cases h
        exact ⟨commit_ok hb hp, commit_evolves hp, trivial⟩
      · cases h
    · cases h
  | crash =>
    cases h
    exact .of_same hb trivial

/-! ## Consumers -/

/-- A claimed message is older than the job's revision, and so is one about to be deleted unless its
job needs none. -/
def ReceptionOk (b : Board) : Reception → Prop
  | .idle => True
  | .executing m claimed => m.id ≤ b.queueSeq ∧ (∀ m' ∈ b.queue, m'.id = m.id → m'.jobId = m.jobId) ∧
      (claimed = true → ∀ m' ∈ b.queue, m'.id = m.id → Useless b m')
  | .deleting m => m.id ≤ b.queueSeq ∧ ∀ m' ∈ b.queue, m'.id = m.id → Useless b m'

theorem useless_evolve {b b' : Board} {m : Message} (hb : BoardOk b) (hev : Evolves b b')
    (hle : m.id ≤ b.queueSeq) (hu : ∀ m' ∈ b.queue, m'.id = m.id → Useless b m') :
    ∀ m' ∈ b'.queue, m'.id = m.id → Useless b' m' := by
  intro m' hm' hid
  obtain ⟨m0, hm0, hid0, hjob, hrev⟩ := hev.messages m' hm' (hid ▸ hle)
  exact hev.useless hjob hrev (hb.sent m0 hm0) (hu m0 hm0 (hid0.trans hid))

theorem ReceptionOk.evolve {b b' : Board} {r : Reception} (h : ReceptionOk b r) (hb : BoardOk b)
    (hev : Evolves b b') : ReceptionOk b' r := by
  cases r with
  | idle => trivial
  | executing m claimed =>
    obtain ⟨hle, hjob, hu⟩ := h
    refine ⟨Nat.le_trans hle hev.queueSeq, ?_, fun hc => useless_evolve hb hev hle (hu hc)⟩
    intro m' hm' hid
    obtain ⟨m0, hm0, hid0, hjob0, _⟩ := hev.messages m' hm' (hid ▸ hle)
    rw [hjob0]
    exact hjob m0 hm0 (hid0.trans hid)
  | deleting m =>
    obtain ⟨hle, hu⟩ := h
    exact ⟨Nat.le_trans hle hev.queueSeq, useless_evolve hb hev hle hu⟩

/-- The claim bumps the revision, so every message received before it is older. -/
theorem claim_useless {b b' : Board} {j : Nat} {job : Job} {locked : Nat → Bool} {now : Int} (hb : BoardOk b)
    (hj : b.jobs j = some job) (h : b.updateJob j (job.columns.claim now) locked now = some b') {m : Message}
    (hm : m ∈ b.queue) (hjob : m.jobId = j) : Useless b' m := by
  obtain ⟨job0, hj0, hle⟩ := hb.sent m hm
  rw [hjob] at hj0
  cases hj0.symm.trans hj
  have hne : ¬ job.columns.claim now = job.columns := by
    intro heq
    have hatt := congrArg Columns.attempts heq
    change job.columns.attempts + 1 = job.columns.attempts at hatt
    omega
  unfold Board.updateJob at h
  rw [hj] at h
  dsimp only at h
  rw [if_neg hne] at h
  cases h
  intro job' hj' _
  change (b.writeJob j ⟨job.columns.claim now, job.revision + 1⟩ _).jobs m.jobId = some job' at hj'
  rw [writeJob_jobs, hjob, Function.update_self] at hj'
  cases hj'
  exact Nat.lt_succ_of_le hle

theorem finished_useless {b : Board} {m : Message} (hdrop : b.jobFinished m.jobId = true) : Useless b m := by
  intro job hj hsch
  unfold Board.jobFinished at hdrop
  rw [hj] at hdrop
  change finished job.columns.state = true at hdrop
  unfold Columns.schedulable at hsch
  cases hstate : job.columns.state <;> simp [hstate, finished] at hdrop hsch

theorem consume_ok {b b' : Board} {locked : Nat → Bool} {r r' : Reception} {a : ConsumerAct} (hb : BoardOk b)
    (hr : ReceptionOk b r) (h : consume b locked r a = some (r', b')) :
    BoardOk b' ∧ Evolves b b' ∧ ReceptionOk b' r' := by
  unfold consume at h
  split at h
  · next m =>
    split at h
    · next hm =>
      cases h
      refine ⟨hb, .refl b, hb.queueSeq m hm, fun m' hm' hid => ?_, fun hc => nomatch hc⟩
      rw [List.inj_on_of_nodup_map hb.queueIds hm' hm hid]
    · cases h
  · next m skip now =>
    split at h
    · next job hj =>
      split at h
      · obtain ⟨b1, hupd, heq⟩ := Option.map_eq_some_iff.mp h
        cases heq
        obtain ⟨hok, hev⟩ := updateJob_ok hb hupd
        obtain ⟨hle, hjob, _⟩ := hr.evolve hb hev
        refine ⟨hok, hev, hle, hjob, fun _ m' hm' hid => ?_⟩
        obtain ⟨m0, hm0, hid0, hjob0, hrev0⟩ := hev.messages m' hm' (hid ▸ hr.1)
        have hj0 : m0.jobId = m.jobId := hr.2.1 m0 hm0 (hid0.trans hid)
        have hu := claim_useless hb hj hupd hm0 hj0
        intro job' hj' hsch
        rw [hjob0] at hj'
        rw [hrev0]
        exact hu job' hj' hsch
      · cases h
    · cases h
  · next m claimed =>
    cases h
    refine ⟨hb, .refl b, ?_⟩
    obtain ⟨hle, hjob, hu⟩ := hr
    split
    · next hdrop =>
      refine ⟨hle, fun m' hm' hid => ?_⟩
      rcases (Bool.or_eq_true _ _).mp hdrop with hclaimed | hfin
      · exact hu hclaimed m' hm' hid
      · rw [← hjob m' hm' hid] at hfin
        exact finished_useless hfin
    · trivial
  · next m =>
    cases h
    exact ⟨delete_ok hb hr.2, delete_evolves hr.2, trivial⟩
  · cases h
    exact ⟨hb, .refl b, trivial⟩
  · cases h

/-! ## Runs -/

structure Inv (s : State) : Prop where
  board : BoardOk s.board
  publishers : ∀ (i : Nat) (p : Publisher), s.publishers[i]? = some p → PhaseOk s.board p.phase
  consumers : ∀ (i : Nat) (r : Reception), s.consumers[i]? = some r → ReceptionOk s.board r

theorem Inv.write {s : State} {b : Board} (h : Inv s) (hb : BoardOk b) (hev : Evolves s.board b) :
    Inv { s with board := b } :=
  ⟨hb, fun i p hp => (h.publishers i p hp).evolve h.board hev,
    fun i r hr => (h.consumers i r hr).evolve h.board hev⟩

theorem getElem?_append_one {α : Type} {xs : List α} {x y : α} {i : Nat}
    (h : (xs ++ [x])[i]? = some y) : xs[i]? = some y ∨ y = x := by
  rw [List.getElem?_append] at h
  split at h
  · exact .inl h
  · exact .inr (List.mem_singleton.mp (List.mem_of_getElem? h))

/-- A step keeps the invariant, and its write keeps what the other parties rely on. -/
theorem inv_step {s s' : State} {e : Event} (h : Inv s) (hstep : step s e = some s') :
    Inv s' ∧ Evolves s.board s'.board := by
  cases e with
  | insertJob j c =>
    obtain ⟨b, hb, rfl⟩ := Option.map_eq_some_iff.mp hstep
    obtain ⟨hok, hev⟩ := insertJob_ok h.board hb
    exact ⟨h.write hok hev, hev⟩
  | updateJob j c skip now =>
    obtain ⟨b, hb, rfl⟩ := Option.map_eq_some_iff.mp hstep
    obtain ⟨hok, hev⟩ := updateJob_ok h.board hb
    exact ⟨h.write hok hev, hev⟩
  | newPublisher =>
    cases hstep
    refine ⟨⟨h.board, fun i p hp => ?_, h.consumers⟩, .refl _⟩
    rcases getElem?_append_one hp with hold | rfl
    · exact h.publishers i p hold
    · trivial
  | newConsumer =>
    cases hstep
    refine ⟨⟨h.board, h.publishers, fun i r hr => ?_⟩, .refl _⟩
    rcases getElem?_append_one hr with hold | rfl
    · exact h.consumers i r hold
    · trivial
  | publish i a =>
    obtain ⟨p, hp, hrest⟩ := Option.bind_eq_some_iff.mp hstep
    obtain ⟨⟨p', b⟩, hact, heq⟩ := Option.bind_eq_some_iff.mp hrest
    cases heq
    have hok := act_ok h.board (h.publishers i p hp) hact
    refine ⟨⟨hok.board, fun k q hq => ?_, fun k r hr => (h.consumers k r hr).evolve h.board hok.evolves⟩,
      hok.evolves⟩
    rcases getElem?_set_cases hq with ⟨_, rfl⟩ | ⟨_, hq⟩
    · exact hok.phase
    · exact (h.publishers k q hq).evolve h.board hok.evolves
  | consume i a =>
    obtain ⟨r, hr, hrest⟩ := Option.bind_eq_some_iff.mp hstep
    obtain ⟨⟨r', b⟩, hact, heq⟩ := Option.bind_eq_some_iff.mp hrest
    cases heq
    obtain ⟨hok, hev, hrec⟩ := consume_ok h.board (h.consumers i r hr) hact
    refine ⟨⟨hok, fun k q hq => (h.publishers k q hq).evolve h.board hev, fun k q hq => ?_⟩, hev⟩
    rcases getElem?_set_cases hq with ⟨_, rfl⟩ | ⟨_, hq⟩
    · exact hrec
    · exact (h.consumers k q hq).evolve h.board hev

theorem inv_init (s : State) (h : dispatch.init s) : Inv s := by
  obtain ⟨hboard, hpub, hcon⟩ := h
  refine ⟨?_, ?_, ?_⟩
  · rw [hboard]
    refine ⟨List.nodup_nil, ?_, ?_, List.nodup_nil, ?_, ?_, ?_, ?_⟩
    · exact fun _ hmem => absurd hmem List.not_mem_nil
    · exact fun _ hmem => absurd hmem List.not_mem_nil
    · exact fun _ hmem => absurd hmem List.not_mem_nil
    · exact fun _ hmem => absurd hmem List.not_mem_nil
    · exact fun _ hmem => absurd hmem List.not_mem_nil
    · exact fun _ _ hjob => nomatch hjob
  · intro i p hp
    rw [hpub] at hp
    cases hp
  · intro i r hr
    rw [hcon] at hr
    cases hr

theorem inv_of_reachable {s : State} (h : Reachable dispatch s) : Inv s :=
  Reachable.invariant inv_init (fun _ _ _ h hstep => (inv_step h hstep).1) h

theorem closed_of_not_live {h : Hint} (hl : h.live = false) :
    h.deliveredAt.isSome = true ∨ h.supersededAt.isSome = true := by
  unfold Hint.live at hl
  cases hd : h.deliveredAt with
  | some time => exact .inl rfl
  | none =>
    cases hs : h.supersededAt with
    | some time => exact .inr rfl
    | none =>
      rw [hd, hs] at hl
      cases hl

theorem current_hint_never_lost {s : State} (h : Reachable dispatch s) :
    (∀ j job, s.board.jobs j = some job → job.columns.schedulable = true →
      (∃ hint ∈ s.board.outbox, hint.jobId = j ∧ hint.jobRevision = job.revision ∧
        hint.deliveredAt = none ∧ hint.supersededAt = none) ∨
      ∃ m ∈ s.board.queue, m.jobId = j ∧ m.deleted = false ∧ job.revision ≤ m.sentRevision) ∧
    (∀ hint ∈ s.board.outbox, hint.supersededAt.isSome = true → currentDispatch s.board.jobs hint = false) ∧
    (∀ e s', step s e = some s' → ∀ hint ∈ s.board.outbox, (∀ hint' ∈ s'.board.outbox, hint'.id ≠ hint.id) →
      hint.deliveredAt.isSome = true ∨ hint.supersededAt.isSome = true) := by
  have hinv := inv_of_reachable h
  refine ⟨fun j job hj hsch => ?_, hinv.board.superseded, fun e s' hstep hint hmem hgone => ?_⟩
  · rcases hinv.board.covered j job hj hsch with ⟨hint, hmem, hjob, hrev, hlive⟩ | hsent
    · obtain ⟨hd, hs⟩ := (Bool.and_eq_true _ _).mp hlive
      exact .inl ⟨hint, hmem, hjob, hrev, Option.isNone_iff_eq_none.mp hd, Option.isNone_iff_eq_none.mp hs⟩
    · exact .inr hsent
  · rcases (inv_step hinv hstep).2.gone hint hmem with ⟨hint', hmem', hid⟩ | hclosed
    · exact absurd hid (hgone hint' hmem')
    · exact closed_of_not_live hclosed

def waiting (next : Option Int) (retries : Nat) : Columns :=
  ⟨if next.isSome then .blocked else .pending, 0, 0, retries, next, none, none, none⟩

/-- The job moves on while its first hint is being sent; the second hint is delivered as well. -/
def overtaken : List Event :=
  [.insertJob 1 (waiting none 0), .newPublisher, .newConsumer,
    .publish 0 (.look 10 4), .publish 0 .read, .publish 0 (.lock []),
    .updateJob 1 (waiting (some 5) 1) [] 10,
    .publish 0 (.send false true 10), .publish 0 .commit,
    .consume 0 (.receive ⟨1, 1, 2, false⟩), .consume 0 .observe,
    .publish 0 (.look 11 4), .publish 0 .read, .publish 0 (.lock []),
    .publish 0 (.send false true 11), .publish 0 .commit]

theorem current_hint_never_lost_overtaken : ∃ s, Reachable dispatch s ∧
    s.board.jobs 1 = some ⟨waiting (some 5) 1, 2⟩ ∧ (∀ hint ∈ s.board.outbox, hint.live = false) ∧
    ∃ m ∈ s.board.queue, m.jobId = 1 ∧ m.deleted = false ∧ 2 ≤ m.sentRevision := by
  obtain ⟨s, hr, hp⟩ := Reach.of_exec dispatch (fun _ _ => True) (s := ⟨emptyBoard, [], []⟩)
    ⟨rfl, rfl, rfl⟩ overtaken
    (fun s => decide (s.board.jobs 1 = some ⟨waiting (some 5) 1, 2⟩ ∧
      ∀ hint ∈ s.board.outbox, hint.live = false)) (by decide +kernel)
  obtain ⟨hjob, hclosed⟩ := of_decide_eq_true hp
  refine ⟨s, hr, hjob, hclosed, ?_⟩
  rcases (current_hint_never_lost hr).1 1 _ hjob (by decide) with ⟨hint, hmem, _, _, hd, hs⟩ | hsent
  · have hlive := hclosed hint hmem
    simp [Hint.live, hd, hs] at hlive
  · exact hsent

end ChessCrawl.Dispatch
