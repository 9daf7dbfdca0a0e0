import ChessCrawl.Artifacts.Attempts

/-! An export that nothing stops: whatever earlier attempts have left, a worker that claims the job of a live artifact and
renders a body within the admitted size clears the leftovers, writes its parts and publishes the artifact. -/
namespace ChessCrawl.Artifacts
open ChessCrawl.Lib
set_option autoImplicit false

variable {cd : Codec} {s t u : State} {n job generation : Nat} {i : Input}

/-! ## Runs of one session -/

/-- The events of session `n` alone, its deletions included. -/
def Own (n : Nat) (i : Input) : Event → Prop
  | .claim m _ => m = n
  | .advance m j => m = n ∧ j = i
  | .land m _ => m = n
  | _ => False

/-- A run in which only session `n` moves, on the input `i`. -/
def Undisturbed (cd : Codec) (n : Nat) (i : Input) (s t : State) : Prop :=
  ∃ es, Trace (artifacts cd) (fun _ e => Own n i e) s es t

theorem Undisturbed.refl (s : State) : Undisturbed cd n i s s := ⟨[], .nil s⟩

theorem Undisturbed.cons {e : Event} (h : step cd s e = some t) (he : Own n i e) (hrun : Undisturbed cd n i t u) :
    Undisturbed cd n i s u := by
  obtain ⟨es, hes⟩ := hrun
  exact ⟨e :: es, .cons he h hes⟩

theorem Undisturbed.trans (h : Undisturbed cd n i s t) (h' : Undisturbed cd n i t u) : Undisturbed cd n i s u := by
  obtain ⟨es, hes⟩ := h
  induction hes with
  | nil => exact h'
  | cons hok hstep _ ih => exact .cons hstep hok (ih h')

theorem reach_step {e : Event} (hr : Reachable (artifacts cd) s) (h : step cd s e = some t) :
    Reachable (artifacts cd) t :=
  Reach.next hr trivial h

/-- The worker at a point of its work on a live artifact, which is its own. -/
structure At (cd : Codec) (n job generation : Nat) (a : Artifact) (x : Session) (s : State) : Prop where
  reach : Reachable (artifacts cd) s
  session : s.sessions n = some x
  fence : s.fenced n job generation = true
  row : s.db.artifacts job = some a
  live : s.clock < a.expiresAt
  free : s.locks a.workspaceId = none

variable {a : Artifact} {x : Session}

theorem At.workspace (h : At cd n job generation a x s) : s.db.workspace job = a.workspaceId := by
  unfold Db.workspace
  rw [h.row]
  rfl

theorem At.advance (h : At cd n job generation a x s) (hadvance : x.advance cd s n i = some t) :
    step cd s (.advance n i) = some t := by
  show ((s.sessions n).bind fun session => session.advance cd s n i) = some t
  rw [h.session]
  exact hadvance

/-- A move that leaves the tables. -/
theorem At.move {y : Session} (h : At cd n job generation a x s) (hadvance : x.advance cd s n i = some (s.at n y)) :
    Undisturbed cd n i s (s.at n y) ∧ At cd n job generation a y (s.at n y) := by
  have hstep := h.advance hadvance
  exact ⟨.cons hstep ⟨rfl, rfl⟩ (.refl _), reach_step h.reach hstep, Function.update_self n _ _, h.fence, h.row, h.live,
    h.free⟩

/-! ## The start -/

/-- The claim and the check of `start_artifact`. -/
theorem start_run (hr : Reachable (artifacts cd) s) (hn : s.sessions n = none) (howner : (s.jobs job).owner = none)
    (ha : s.db.artifacts job = some a) (hstate : a.state = .pending ∨ a.state = .building) (hlive : s.clock < a.expiresAt)
    (hfree : s.locks a.workspaceId = none) (hrefuse : i.refuse = false) :
    ∃ t, Undisturbed cd n i s t ∧
      At cd n job ((s.jobs job).generation + 1) { a with state := .building }
        (.build job ((s.jobs job).generation + 1) .clearing) t := by
  obtain ⟨g, hg⟩ : ∃ g, (s.jobs job).generation + 1 = g := ⟨_, rfl⟩
  rw [hg]
  have hclaim : step cd s (.claim n job) =
      some (State.at { s with jobs := Function.update s.jobs job ⟨some n, g⟩ } n (.build job g .opened)) := by
    rw [step, if_neg, hg]
    rw [hn, howner, ha]
    simp
  have h0 : At cd n job g a (.build job g .opened)
      (State.at { s with jobs := Function.update s.jobs job ⟨some n, g⟩ } n (.build job g .opened)) := by
    refine ⟨reach_step hr hclaim, Function.update_self n _ _, ?_, ha, hlive, hfree⟩
    exact decide_eq_true (Function.update_self job _ _)
  obtain ⟨s0, hs0⟩ : ∃ s0, State.at { s with jobs := Function.update s.jobs job ⟨some n, g⟩ } n (.build job g .opened) = s0 :=
    ⟨_, rfl⟩
  rw [hs0] at hclaim h0
  have hopened : (Session.build job g .opened).advance cd s0 n i = some (s0.at n (.build job g .starting)) := by
    refine congrArg some (if_neg ?_)
    rw [hrefuse, h0.row]
    rcases hstate with h | h <;> simp [h]
  obtain ⟨hrun1, h1⟩ := h0.move hopened
  have hstarting : (Session.build job g .starting).advance cd (s0.at n (.build job g .starting)) n i =
      some ((s0.at n (.build job g .starting)).at n (.build job g .started)) := by
    refine congrArg some (if_pos ?_)
    rw [h1.fence, Bool.true_and]
    unfold Db.mayStart
    rw [h1.row]
    exact decide_eq_true ⟨h1.live, hstate⟩
  obtain ⟨hrun2, h2⟩ := h1.move hstarting
  obtain ⟨s2, hs2⟩ : ∃ s2, (s0.at n (.build job g .starting)).at n (.build job g .started) = s2 := ⟨_, rfl⟩
  rw [hs2] at hrun2 h2
  have hstarted := h2.advance (i := i) (t := State.at { s2 with db := s2.db.setState job .building } n
    (.build job g .clearing)) rfl
  refine ⟨_, .cons hclaim rfl (hrun1.trans (hrun2.trans (.cons hstarted ⟨rfl, rfl⟩ (.refl _)))),
    reach_step h2.reach hstarted, Function.update_self n _ _, h2.fence, ?_, h2.live, h2.free⟩
  show (s2.db.setState job .building).artifacts job = _
  unfold Db.setState
  rw [h2.row]
  exact Function.update_self job _ _

/-! ## The leftovers -/

/-- The deletions of an object that are under way land. -/
theorem land_run (h : At cd n job generation a x s) (key : Key) :
    ∃ t, Undisturbed cd n i s t ∧ At cd n job generation a x t ∧ (n, key) ∉ t.inflight ∧ t.db = s.db := by
  induction hcount : s.inflight.count (n, key) generalizing s with
  | zero => exact ⟨s, .refl s, h, List.count_eq_zero.mp hcount, rfl⟩
  | succ k ih =>
    have hmem : (n, key) ∈ s.inflight := List.count_pos_iff.mp (by omega)
    have hland : step cd s (.land n key) = some _ := if_pos hmem
    have hcount' : (s.inflight.erase (n, key)).count (n, key) = k := by
      rw [List.count_erase_self]
      omega
    obtain ⟨t, hrun, hat, hclear, hdb⟩ := ih
      ⟨reach_step h.reach hland, h.session, h.fence, h.row, h.live, h.free⟩ hcount'
    exact ⟨t, .cons hland rfl hrun, hat, hclear, hdb⟩

/-- The removal of a part leaves the rows of other ordinals. -/
theorem removeChunk_filter {db : Db} (ordinal : Nat) (hmutable : db.mutable job = true) :
    ∃ db', db.removeChunk job ordinal = some db' ∧ db'.artifacts = db.artifacts ∧
      db'.chunks job = (db.chunks job).filter fun r => r.ordinal ≠ ordinal := by
  unfold Db.removeChunk
  split
  · next hany =>
    refine ⟨db, rfl, rfl, (List.filter_eq_self.mpr fun r hr => ?_).symm⟩
    have := List.any_eq_false.mp hany r hr
    simpa using this
  · exact ⟨_, rfl, rfl, Function.update_self job _ _⟩

/-- One row: leave for the deletion, the deletion itself, and the removal of the reference. -/
theorem drop_row_run {row : ChunkRow} {rows : List ChunkRow}
    (h : At cd n job generation a (.buildDrop job generation (.deleting (row :: rows))) s)
    (hbuilding : a.state = .building) (hrefuse : i.refuse = false) (hjob : row.key.jobId = job)
    (hws : row.key.workspaceId = a.workspaceId) :
    ∃ t, Undisturbed cd n i s t ∧ At cd n job generation a (.buildDrop job generation (.deleting rows)) t ∧
      t.db.chunks job = (s.db.chunks job).filter fun r => r.ordinal ≠ row.ordinal := by
  have hmutable : s.db.mutable job = true := by
    unfold Db.mutable
    rw [h.row]
    exact decide_eq_true (.inl hbuilding)
  have hauthorize : (Session.buildDrop job generation (.deleting (row :: rows))).advance cd s n i =
      some (s.at n (.buildDrop job generation (.authorized row rows))) := by
    refine congrArg some (if_pos ?_)
    rw [h.fence, hmutable]
    rfl
  obtain ⟨hrun1, h1⟩ := h.move hauthorize
  obtain ⟨s1, hs1⟩ : ∃ s1, s.at n (.buildDrop job generation (.authorized row rows)) = s1 := ⟨_, rfl⟩
  have hdb1 : s.db = s1.db := by
    rw [← hs1]
    rfl
  rw [hs1] at hrun1 h1
  have hsend : (Session.buildDrop job generation (.authorized row rows)).advance cd s1 n i =
      some (State.at { s1 with inflight := (n, row.key) :: s1.inflight } n
        (.buildDrop job generation (.sent row rows))) := by
    refine congrArg some (if_neg ?_)
    rw [hrefuse, hjob, hws, h1.workspace]
    simp
  have hstep2 := h1.advance hsend
  have h2 : At cd n job generation a (.buildDrop job generation (.sent row rows))
      (State.at { s1 with inflight := (n, row.key) :: s1.inflight } n (.buildDrop job generation (.sent row rows))) :=
    ⟨reach_step h1.reach hstep2, Function.update_self n _ _, h1.fence, h1.row, h1.live, h1.free⟩
  obtain ⟨s3, hrun3, h3, hclear, hdb3⟩ := land_run (i := i) h2 row.key
  have hdeleted : (Session.buildDrop job generation (.sent row rows)).advance cd s3 n i =
      some (s3.at n (.buildDrop job generation (.deleted row rows))) := if_neg hclear
  obtain ⟨hrun4, h4⟩ := h3.move hdeleted
  obtain ⟨s4, hs4⟩ : ∃ s4, s3.at n (.buildDrop job generation (.deleted row rows)) = s4 := ⟨_, rfl⟩
  have hdb4 : s4.db = s.db := by
    rw [← hs4, hdb1]
    exact hdb3
  rw [hs4] at hrun4 h4
  obtain ⟨db', hremove, hartifacts, hchunks⟩ := removeChunk_filter row.ordinal (hdb4.symm ▸ hmutable)
  have hcommit : (Session.buildDrop job generation (.deleted row rows)).advance cd s4 n i =
      some (State.at { s4 with db := db' } n (.buildDrop job generation (.deleting rows))) := by
    show some (if s4.fenced n job generation = true then _ else _) = _
    rw [if_pos h4.fence, hremove]
    rfl
  have hstep5 := h4.advance hcommit
  refine ⟨_, hrun1.trans (.cons hstep2 ⟨rfl, rfl⟩ (hrun3.trans (hrun4.trans (.cons hstep5 ⟨rfl, rfl⟩ (.refl _))))),
    ⟨reach_step h4.reach hstep5, Function.update_self n _ _, h4.fence, (congrFun hartifacts job).trans h4.row, h4.live,
      h4.free⟩, ?_⟩
  rw [← hdb4]
  exact hchunks

theorem drop_run {rows : List ChunkRow} (h : At cd n job generation a (.buildDrop job generation (.deleting rows)) s)
    (hbuilding : a.state = .building) (hrefuse : i.refuse = false)
    (hrows : ∀ row ∈ rows, row.key.jobId = job ∧ row.key.workspaceId = a.workspaceId) :
    ∃ t, Undisturbed cd n i s t ∧ At cd n job generation a (.build job generation .clearing) t ∧
      t.db.chunks job = (s.db.chunks job).filter fun r => r.ordinal ∉ rows.map ChunkRow.ordinal := by
  induction rows generalizing s with
  | nil =>
    obtain ⟨hrun, hat⟩ := h.move (y := .build job generation .clearing) (i := i) rfl
    refine ⟨_, hrun, hat, (List.filter_eq_self.mpr fun r _ => ?_).symm⟩
    simp
  | cons row rows ih =>
    obtain ⟨hjob, hws⟩ := hrows row List.mem_cons_self
    obtain ⟨t, hrun, ht, hchunks⟩ := drop_row_run (i := i) h hbuilding hrefuse hjob hws
    obtain ⟨u, hrun', hu, hchunks'⟩ := ih ht fun r hr => hrows r (List.mem_cons_of_mem _ hr)
    refine ⟨u, hrun.trans hrun', hu, ?_⟩
    rw [hchunks', hchunks, List.filter_filter]
    refine List.filter_congr fun r _ => ?_
    simp only [List.map_cons, List.mem_cons, not_or, ne_eq, Bool.decide_and]
    exact Bool.and_comm _ _

theorem clear_run (h : At cd n job generation a (.build job generation .clearing) s) (hbuilding : a.state = .building)
    (hrefuse : i.refuse = false) :
    ∃ t, Undisturbed cd n i s t ∧ At cd n job generation a (.build job generation .rendering) t := by
  induction hlen : (s.db.chunks job).length using Nat.strongRecOn generalizing s with
  | ind len ih =>
    cases hpage : s.db.chunkPage job 0 256 with
    | nil =>
      have hdone : (Session.build job generation .clearing).advance cd s n i =
          some (s.at n (.build job generation .rendering)) := by
        show BuildPc.clearing.advance cd s n job generation i = _
        rw [BuildPc.advance, hpage]
      obtain ⟨hrun, hat⟩ := h.move hdone
      exact ⟨_, hrun, hat⟩
    | cons row rows =>
      have hdrop : (Session.build job generation .clearing).advance cd s n i =
          some (s.at n (.buildDrop job generation (.deleting (row :: rows)))) := by
        show BuildPc.clearing.advance cd s n job generation i = _
        rw [BuildPc.advance, hpage]
      obtain ⟨hrun1, h1⟩ := h.move hdrop
      have hmem : ∀ r ∈ row :: rows, r ∈ s.db.chunks job := fun r hr => mem_of_chunkPage (hpage ▸ hr)
      obtain ⟨t, hrun2, h2, hchunks⟩ := drop_run (i := i) h1 hbuilding hrefuse fun r hr => by
        obtain ⟨hjob, _, _, _, hws⟩ := (inv_of_reach h.reach).world.keyed job r (hmem r hr)
        exact ⟨hjob, hws.trans h.workspace⟩
      -- The first row of the page is gone, so there are fewer.
      have hless : (t.db.chunks job).length < len := by
        rw [hchunks, ← hlen]
        refine List.length_filter_lt_length_iff_exists.mpr ⟨row, hmem row List.mem_cons_self, ?_⟩
        simp
      obtain ⟨u, hrun3, h3⟩ := ih _ hless h2 rfl
      exact ⟨u, hrun1.trans (hrun2.trans hrun3), h3⟩

/-! ## The parts -/

/-- No two parts of the body have one stored hash. -/
def Distinct (cd : Codec) (body : Bytes) : Prop :=
  ∀ p ∈ partsOf body, ∀ q ∈ partsOf body, cd.digest (cd.compress p) = cd.digest (cd.compress q) → p = q

section Parts
variable {y : Snapshot} {location : String} {ordinal : Nat} {chunk rest : Bytes}

theorem Distinct.held (hdistinct : Distinct cd y.body) {key : Key} {part : Bytes} (hbody : x.body = some y.body)
    (hchunk : chunk ∈ partsOf y.body) (hkey : key.storedHash = cd.digest (cd.compress chunk))
    (h : x.Holds cd key part) : part = chunk := by
  obtain ⟨body, hsame, hpart, hhash⟩ := h
  rw [hbody] at hsame
  cases hsame
  exact hdistinct part hpart chunk hchunk (hhash.symm.trans hkey)

theorem At.mayPublish (h : At cd n job generation a x s) (hbuilding : a.state = .building) :
    s.db.mayPublish job s.clock = true := by
  unfold Db.mayPublish
  rw [h.row]
  exact decide_eq_true ⟨h.live, hbuilding⟩

/-- The object of the next part. -/
theorem put_run (h : At cd n job generation a (.build job generation (.writing y location ordinal rest)) s)
    (hrest : rest ≠ []) (hrefuse : i.refuse = false) (hdistinct : Distinct cd y.body) :
    ∃ t, Undisturbed cd n i s t ∧ At cd n job generation a
      (.build job generation (.published y location (ordinal + 1) (rest.take chunkBytes) (rest.drop chunkBytes))) t := by
  have hfresh := fresh_of_reach h.reach
  obtain ⟨hchunk, _⟩ := partsOf_mono (hfresh.cut n _ y.body h.session rfl) hrest
  obtain ⟨key, hkey⟩ : ∃ key, (objectOf cd location (s.db.workspace job) job generation (rest.take chunkBytes)).1 = key :=
    ⟨_, rfl⟩
  have hfree : ¬ (i.refuse = true ∨
      ((s.store key).any fun held => decide (held ≠ cd.compress (rest.take chunkBytes))) = true) := by
    rw [hrefuse]
    rintro (hfalse | hany)
    · cases hfalse
    · obtain ⟨held, hheld, hne⟩ := (Option.any_eq_true _ _).mp hany
      have hon : (Session.build job generation (.writing y location ordinal rest)).On key.jobId key.attempt := by
        rw [← hkey]
        exact ⟨rfl, rfl⟩
      obtain ⟨part, hpart, rfl⟩ := hfresh.stored n _ key held h.session hon hheld
      refine of_decide_eq_true hne (congrArg cd.compress (hdistinct.held rfl hchunk ?_ hpart))
      rw [← hkey]
      rfl
  have hput : (Session.build job generation (.writing y location ordinal rest)).advance cd s n i =
      some (State.at { s with store := Function.update s.store key (some (cd.compress (rest.take chunkBytes))) } n
        (.build job generation (.published y location (ordinal + 1) (rest.take chunkBytes) (rest.drop chunkBytes)))) := by
    cases rest with
    | nil => exact absurd rfl hrest
    | cons b rest =>
      rw [← hkey] at hfree ⊢
      exact congrArg some (if_neg hfree)
  have hstep := h.advance hput
  exact ⟨_, .cons hstep ⟨rfl, rfl⟩ (.refl _), reach_step h.reach hstep, Function.update_self n _ _, h.fence, h.row, h.live,
    h.free⟩

/-- The check before its row is written. -/
theorem admit_run (h : At cd n job generation a (.build job generation (.published y location ordinal chunk rest)) s)
    (hbuilding : a.state = .building) (hroom : y.body.length ≤ a.reservedBytes) :
    ∃ t, Undisturbed cd n i s t ∧
      At cd n job generation a (.build job generation (.inserting y location ordinal chunk rest)) t := by
  obtain ⟨_, _, _, _, hok⟩ := (inv_of_reach h.reach).sessions n _ h.session
  obtain ⟨⟨left, k, _, rfl, _, _, hwritten, _⟩, _⟩ := hok h.fence
  have htotal := hwritten.total
  have hgo : (Session.build job generation (.published y location ordinal (left.take chunkBytes) rest)).advance cd s n i =
      some (s.at n (.build job generation (.inserting y location ordinal (left.take chunkBytes) rest))) := by
    refine congrArg some (if_pos ?_)
    rw [h.fence, h.mayPublish hbuilding, h.row]
    refine decide_eq_true ⟨?_, ?_⟩
    · rw [List.length_take]
      exact Nat.min_le_left _ _
    · rw [List.length_take, Option.map_some, Option.getD_some]
      omega
  obtain ⟨hrun, hat⟩ := h.move hgo
  exact ⟨_, hrun, hat⟩

/-- The row. -/
theorem insert_run (h : At cd n job generation a (.build job generation (.inserting y location ordinal chunk rest)) s)
    (hbuilding : a.state = .building) (hdistinct : Distinct cd y.body) :
    ∃ t, Undisturbed cd n i s t ∧ At cd n job generation a (.build job generation (.writing y location ordinal rest)) t := by
  have hfresh := fresh_of_reach h.reach
  have hchunk := hfresh.cut n _ y.body h.session rfl chunk List.mem_cons_self
  obtain ⟨_, _, _, _, hok⟩ := (inv_of_reach h.reach).sessions n _ h.session
  obtain ⟨⟨left, k, _, _, _, rfl, hwritten, _⟩, _⟩ := hok h.fence
  obtain ⟨_, _, parts, rfl, _, hparts, _, _⟩ := hwritten
  obtain ⟨key, hkey⟩ : ∃ key, (objectOf cd location (s.db.workspace job) job generation chunk).1 = key := ⟨_, rfl⟩
  obtain ⟨db, hdb, hartifacts, hchunks⟩ : ∃ db, s.db.registerArchiveObject key (partRow cd chunk) = some db ∧
      db.artifacts = s.db.artifacts ∧ db.chunks = s.db.chunks := by
    unfold Db.registerArchiveObject
    cases hrow : s.db.objects key with
    | none => exact ⟨_, rfl, rfl, rfl⟩
    | some row =>
      have hon : (Session.build job generation (.inserting y location (parts.length + 1) chunk rest)).On key.jobId
          key.attempt := by
        rw [← hkey]
        exact ⟨rfl, rfl⟩
      obtain ⟨part, hpart, rfl⟩ := hfresh.registered n _ key row h.session hon hrow
      obtain rfl : part = chunk := hdistinct.held rfl hchunk (by rw [← hkey]; rfl) hpart
      exact ⟨s.db, if_pos rfl, rfl, rfl⟩
  have hmutable : db.mutable job = true := by
    unfold Db.mutable
    rw [hartifacts, h.row]
    exact decide_eq_true (.inl hbuilding)
  obtain ⟨db', hinsert, hkept⟩ : ∃ db', db.insertChunk job (parts.length + 1) key = some db' ∧
      db'.artifacts = db.artifacts := ⟨_, insertChunk_rowsOf ((congrFun hchunks job).trans hparts) hmutable, rfl⟩
  have hcommit : (Session.build job generation (.inserting y location (parts.length + 1) chunk rest)).advance cd s n i =
      some (State.at { s with db := db' } n (.build job generation (.writing y location (parts.length + 1) rest))) := by
    show some (s.commit n ((s.db.registerArchiveObject
      (objectOf cd location (s.db.workspace job) job generation chunk).1 (partRow cd chunk)).bind fun d =>
        d.insertChunk job (parts.length + 1) (objectOf cd location (s.db.workspace job) job generation chunk).1) _) = _
    rw [hkey, hdb, Option.bind_some, hinsert]
    rfl
  have hstep := h.advance hcommit
  refine ⟨_, .cons hstep ⟨rfl, rfl⟩ (.refl _), reach_step h.reach hstep, Function.update_self n _ _, h.fence, ?_, h.live,
    h.free⟩
  show db'.artifacts job = some a
  rw [hkept, hartifacts]
  exact h.row

theorem write_run (h : At cd n job generation a (.build job generation (.writing y location ordinal rest)) s)
    (hbuilding : a.state = .building) (hrefuse : i.refuse = false) (hdistinct : Distinct cd y.body)
    (hroom : y.body.length ≤ a.reservedBytes) :
    ∃ t k, Undisturbed cd n i s t ∧
      At cd n job generation a (.build job generation (.writing y location k [])) t := by
  induction rest using partsOf.induct generalizing s ordinal with
  | case1 => exact ⟨s, ordinal, .refl s, h⟩
  | case2 rest hrest ih =>
    obtain ⟨s1, hrun1, h1⟩ := put_run (i := i) h hrest hrefuse hdistinct
    obtain ⟨s2, hrun2, h2⟩ := admit_run (i := i) h1 hbuilding hroom
    obtain ⟨s3, hrun3, h3⟩ := insert_run (i := i) h2 hbuilding hdistinct
    obtain ⟨t, k, hrun, ht⟩ := ih h3
    exact ⟨t, k, hrun1.trans (hrun2.trans (hrun3.trans hrun)), ht⟩

/-- What is written in full passes the checks of `finish_artifact`. -/
theorem Written.complete {k : Nat} (h : Written cd s job generation y location k []) :
    k = (partsOf y.body).length ∧ s.db.complete job (manifestOf cd y k) = true := by
  have htotal := h.total
  obtain ⟨_, _, parts, rfl, hcut, hparts, _, _⟩ := h
  rw [partsOf_nil, List.append_nil] at hcut
  refine ⟨congrArg List.length hcut, decide_eq_true ⟨?_, ?_⟩⟩
  · rw [hparts, rowsOf_length]
    rfl
  · rw [List.length_nil, Nat.add_zero] at htotal
    exact htotal

/-- The checks pass and the artifact is published. -/
theorem seal_run {k : Nat} (h : At cd n job generation a (.build job generation (.writing y location k [])) s)
    (hbuilding : a.state = .building) (hrefuse : i.refuse = false) :
    Undisturbed cd n i s (s.at n (.build job generation (.sealing y k))) ∧
      At cd n job generation a (.build job generation (.sealing y k)) (s.at n (.build job generation (.sealing y k))) ∧
      ∃ t, step cd (s.at n (.build job generation (.sealing y k))) (.advance n i) = some t ∧
        t.db.artifacts job = some (a.readyWith (manifestOf cd y k)) := by
  obtain ⟨_, _, _, _, hok⟩ := (inv_of_reach h.reach).sessions n _ h.session
  obtain ⟨_, hcomplete⟩ := (hok h.fence).1.complete
  have hcheck : (Session.build job generation (.writing y location k [])).advance cd s n i =
      some (s.at n (.build job generation (.sealing y k))) := by
    refine congrArg some (if_neg ?_)
    rw [hrefuse, h.fence, h.mayPublish hbuilding, hcomplete]
    simp
  obtain ⟨hrun1, h1⟩ := h.move hcheck
  obtain ⟨s1, hs1⟩ : ∃ s1, s.at n (.build job generation (.sealing y k)) = s1 := ⟨_, rfl⟩
  rw [hs1] at hrun1 h1 ⊢
  have hpublish : s1.db.publish job (manifestOf cd y k) =
      some (s1.db.setArtifact job (a.readyWith (manifestOf cd y k))) := by
    unfold Db.publish
    rw [h1.row]
    refine if_neg ?_
    rw [hbuilding]
    simp
  have hseal : (Session.build job generation (.sealing y k)).advance cd s1 n i =
      some (State.ends { s1 with db := s1.db.setArtifact job (a.readyWith (manifestOf cd y k)) } n) := by
    show (if (s1.locks (s1.db.workspace job)).isSome = true then none else some (s1.commit n _ none)) = _
    rw [h1.workspace, h1.free, hpublish]
    rfl
  exact ⟨hrun1, h1, _, h1.advance hseal, Function.update_self job _ _⟩

end Parts

/-! ## The whole export -/

theorem export_run {a : Artifact} (hr : Reachable (artifacts cd) s) (hn : s.sessions n = none)
    (howner : (s.jobs job).owner = none) (ha : s.db.artifacts job = some a)
    (hstate : a.state = .pending ∨ a.state = .building) (hlive : s.clock < a.expiresAt)
    (hfree : s.locks a.workspaceId = none) (hrefuse : i.refuse = false) (hrows : i.snapshot.rows ≤ 10000000)
    (hbytes : i.snapshot.body.length ≤ 4 * 1024 ^ 3) (hroom : i.snapshot.body.length ≤ a.reservedBytes)
    (hdistinct : Distinct cd i.snapshot.body) :
    ∃ t, Undisturbed cd n i s t ∧ At cd n job ((s.jobs job).generation + 1) { a with state := .building }
      (.build job ((s.jobs job).generation + 1)
        (.writing i.snapshot i.location (partsOf i.snapshot.body).length [])) t := by
  obtain ⟨s1, hrun1, h1⟩ := start_run (n := n) (i := i) hr hn howner ha hstate hlive hfree hrefuse
  obtain ⟨s2, hrun2, h2⟩ := clear_run (i := i) h1 rfl hrefuse
  obtain ⟨g, hg⟩ : ∃ g, (s.jobs job).generation + 1 = g := ⟨_, rfl⟩
  rw [hg] at h2 ⊢
  have hrender : (Session.build job g .rendering).advance cd s2 n i =
      some (s2.at n (.build job g (.writing i.snapshot i.location 0 i.snapshot.body))) := by
    refine congrArg some (if_neg ?_)
    rw [hrefuse]
    simp only [Bool.false_eq_true, false_or]
    omega
  obtain ⟨hrun3, h3⟩ := h2.move hrender
  obtain ⟨t, k, hrun4, h4⟩ := write_run (i := i) h3 rfl hrefuse hdistinct hroom
  obtain ⟨_, _, _, _, hok⟩ := (inv_of_reach h4.reach).sessions n _ h4.session
  obtain ⟨rfl, _⟩ := (hok h4.fence).1.complete
  exact ⟨t, hrun1.trans (hrun2.trans (hrun3.trans hrun4)), h4⟩

end ChessCrawl.Artifacts
