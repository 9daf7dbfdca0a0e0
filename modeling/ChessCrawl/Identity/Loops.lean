import ChessCrawl.Identity.Merge

/-! Edges of the discovery graph from an account to itself. `opponents_of_user` reads none and
`record_discovery_edges` writes what was read, but a merge renames both ends of an edge. -/
namespace ChessCrawl.Identity
open ChessCrawl.Lib
set_option autoImplicit false

/-! ## Opponents -/

structure OpponentEdge where
  opponentUserId : Nat
  opponentUsername : String
  viaGameId : Nat
  gameCount : Int
deriving DecidableEq, Repr

/-- The arguments of `opponents_of_user`. -/
structure OpponentQuery where
  provider : String
  userId : Nat
  crawlRunId : Option Nat
  since : Option Int
  till : Option Int
deriving DecidableEq, Repr

/-- The archive with the games of runs, the ends of games, and the sequence of `discovery_edges`. -/
structure Discovery where
  db : Archive
  edgeSeq : Nat
  runGames : List (Nat × Nat)
  endedAt : Nat → Option Int

def OpponentQuery.admits (q : OpponentQuery) (d : Discovery) (g : Game) : Bool :=
  decide (g.provider = q.provider) && q.crawlRunId.all (fun run => decide ((run, g.id) ∈ d.runGames)) &&
    q.since.all (fun time => (d.endedAt g.id).all fun ended => decide (time ≤ ended)) &&
    q.till.all fun time => (d.endedAt g.id).all fun ended => decide (ended < time)

/-- The joined rows: the opponent, its name and the game. -/
def Discovery.opponentRows (d : Discovery) (q : OpponentQuery) : List (Nat × String × Nat) :=
  (d.db.games.filter (q.admits d)).flatMap fun g =>
    (d.db.participants.filter fun m => m.gameId = g.id ∧ m.providerUserId = some q.userId).flatMap fun m =>
      (d.db.participants.filter fun o => o.gameId = g.id ∧ o.color ≠ m.color ∧ o.providerUserId ≠ some q.userId).flatMap
        fun o => (d.db.users.filter fun u => o.providerUserId = some u.id ∧ u.provider = q.provider).map fun u =>
          (u.id, u.usernameNormalized, g.id)

/-- `opponents_of_user` -/
def Discovery.opponentsOfUser (d : Discovery) (q : OpponentQuery) : List OpponentEdge :=
  let rows := d.opponentRows q
  let groups := (rows.map fun r => (r.1, r.2.1)).dedup.map fun (id, name) =>
    let games := (rows.filter fun r => r.1 = id ∧ r.2.1 = name).map fun r => r.2.2
    (⟨id, name, games.min?.getD 0, games.dedup.length⟩ : OpponentEdge)
  groups.mergeSort fun a b => decide (b.gameCount < a.gameCount) ||
    decide (b.gameCount = a.gameCount) && decide (a.opponentUsername ≤ b.opponentUsername)

/-! ## Recording edges -/

/-- The arguments of `record_discovery_edges`, with its clock. -/
structure Recording where
  crawlRunId : Option Nat
  provider : String
  fromUserId : Nat
  depth : Int
  edges : List OpponentEdge
  now : Int
deriving DecidableEq, Repr

/-- `ON CONFLICT(provider, from_user_id, to_user_id) DO UPDATE` -/
def DiscoveryEdge.combine (old new : DiscoveryEdge) : DiscoveryEdge :=
  { old with
    crawlRunId := old.crawlRunId.or new.crawlRunId
    gameCount := max old.gameCount new.gameCount
    depth := min old.depth new.depth
    viaGameId := old.viaGameId.or new.viaGameId }

def Recording.row (r : Recording) (id : Nat) (e : OpponentEdge) : DiscoveryEdge :=
  ⟨id, r.crawlRunId, r.provider, r.fromUserId, e.opponentUserId, some e.viaGameId, e.gameCount, r.depth, "opponent", r.now⟩

/-- One edge, and the membership of the run in the row that is returned. A conflict uses up a number too. -/
def Discovery.recordEdge (r : Recording) (d : Discovery) (e : OpponentEdge) : Discovery :=
  let row := r.row (d.edgeSeq + 1) e
  let edges := upsert DiscoveryEdge.key DiscoveryEdge.combine d.db.edges row
  let memberships := match r.crawlRunId, edges.find? fun x => x.key = row.key with
    | some run, some x => upsert (fun m => m) (fun old _ => old) d.db.runEdges ⟨run, x.id⟩
    | _, _ => d.db.runEdges
  { d with db := { d.db with edges := edges, runEdges := memberships }, edgeSeq := d.edgeSeq + 1 }

/-- The rows that an edge refers to are there. -/
def Recording.referenced (r : Recording) (db : Archive) (e : OpponentEdge) : Bool :=
  r.crawlRunId.all (fun run => db.runs.any fun x => x.id = run) && db.users.any (fun u => u.id = r.fromUserId) &&
    db.users.any (fun u => u.id = e.opponentUserId) && db.games.any fun g => g.id = e.viaGameId

/-- `record_discovery_edges`; `none` is the error of a missing reference, which undoes the call. -/
def Discovery.recordDiscoveryEdges (d : Discovery) (r : Recording) : Option (Nat × Discovery) :=
  if r.edges.all (r.referenced d.db) then
    some (r.edges.length, (r.edges.mergeSort fun a b => decide (a.opponentUserId ≤ b.opponentUserId)).foldl
      (Discovery.recordEdge r) d)
  else none

/-! ## Runs -/

/-- The opponents that workers have read and not recorded yet, beside the tables. -/
structure Expansion where
  store : Discovery
  readings : List (OpponentQuery × List OpponentEdge)

inductive ExpansionEvent
  | observe (o : Observed) (now : Int)
  | resolveCaptureAccount (provider username : String) (observedAt : Int) (isPublic : Bool) (now : Int)
  /-- any change of the tables beside accounts and edges -/
  | evidence (db : Archive) (runGames : List (Nat × Nat)) (endedAt : Nat → Option Int)
  | read (q : OpponentQuery)
  /-- the edges of a reading that the frontier keeps -/
  | record (i : Nat) (keep : OpponentEdge → Bool) (depth now : Int)

def Discovery.account (normalize : String → String) (d : Discovery) (e : AccountEvent) : Discovery :=
  { d with db := d.db.accountStep normalize e }

/-- `record_discovery_edges` as `expand_opponent_frontier` calls it. -/
def Discovery.expand (d : Discovery) (q : OpponentQuery) (edges : List OpponentEdge) (depth now : Int) : Discovery :=
  ((d.recordDiscoveryEdges ⟨q.crawlRunId, q.provider, q.userId, depth, edges, now⟩).map Prod.snd).getD d

def Expansion.step (normalize : String → String) (s : Expansion) : ExpansionEvent → Option Expansion
  | .observe o now => some { s with store := s.store.account normalize (.observe o now) }
  | .resolveCaptureAccount provider username observedAt isPublic now =>
    some { s with store :=
      s.store.account normalize (.resolveCaptureAccount provider username observedAt isPublic now) }
  | .evidence other runGames endedAt =>
    let db : Archive := { other with
      users := s.store.db.users, userSeq := s.store.db.userSeq, edges := s.store.db.edges,
      runEdges := s.store.db.runEdges }
    some { s with store := ⟨db, s.store.edgeSeq, runGames, endedAt⟩ }
  | .read q => some { s with readings := s.readings ++ [(q, s.store.opponentsOfUser q)] }
  | .record i keep depth now => s.readings[i]?.map fun (q, edges) =>
    { s with store := s.store.expand q (edges.filter keep) depth now }

def expansion (normalize : String → String) : System Expansion ExpansionEvent where
  init s := s.store.db.users = [] ∧ s.store.db.userSeq = 0 ∧ s.store.db.edges = [] ∧ s.store.db.runEdges = [] ∧
    s.store.edgeSeq = 0 ∧ s.readings = []
  step := Expansion.step normalize

/-! ## Accounts that a merge joins -/

section Merging
variable {normalize : String → String} {db : Archive}

/-- An edge between the two accounts, in either direction. -/
def Archive.Joined (db : Archive) (survivor replaced : Nat) : Prop :=
  ∃ e ∈ db.edges, (e.fromUserId = survivor ∧ e.toUserId = replaced) ∨ (e.fromUserId = replaced ∧ e.toUserId = survivor)

instance (db : Archive) (survivor replaced : Nat) : Decidable (db.Joined survivor replaced) :=
  inferInstanceAs (Decidable (∃ e ∈ db.edges,
    (e.fromUserId = survivor ∧ e.toUserId = replaced) ∨ (e.fromUserId = replaced ∧ e.toUserId = survivor)))

/-- The account that a call keeps and the placeholder that it merges into it, where it merges. -/
def Archive.merging (normalize : String → String) (db : Archive) (o : Observed) : Option (Nat × Nat) :=
  match db.identified o, db.named normalize o with
  | some existing, some other =>
    if !db.staleProfile existing.id o &&
        !(o.profileRawPayloadId.isNone && existing.updatedAt.any fun t => decide (o.timestamp < t)) &&
        decide (other.id ≠ existing.id) && other.providerUserId.isNone && !db.staleProfile other.id o then
      some (existing.id, other.id)
    else none
  | _, _ => none

theorem merging_ne {o : Observed} {survivor replaced : Nat}
    (h : db.merging normalize o = some (survivor, replaced)) : survivor ≠ replaced := by
  unfold Archive.merging at h
  split at h
  · split at h
    · next hcond =>
      cases h
      simp only [Bool.and_eq_true, decide_eq_true_eq] at hcond
      exact Ne.symm hcond.1.1.2
    · cases h
  · cases h

theorem updateUser_edges (id : Nat) (f : ProviderUser → ProviderUser) : (db.updateUser id f).edges = db.edges := rfl

/-- An observation changes the edges exactly where it merges. -/
theorem upsert_edges (o : Observed) (now : Int) : (db.upsertProviderUserLocked normalize o now).2.edges =
    match db.merging normalize o with
    | some (survivor, replaced) => (db.mergeUserPlaceholder normalize survivor replaced now).edges
    | none => db.edges := by
  unfold Archive.upsertProviderUserLocked Archive.merging
  cases hid : db.identified o with
  | none =>
    dsimp only [Option.none_or]
    split
    · rfl
    · cases hnamed : db.named normalize o with
      | none => rfl
      | some other =>
        dsimp only
        unfold Archive.observeExisting
        simp only [ne_eq, not_true_eq_false, if_false, Option.isSome_none, Bool.false_and, Bool.false_eq_true]
        split <;> rfl
  | some existing =>
    simp only [Option.isNone_some, Bool.false_and, Bool.false_eq_true, if_false, Option.some_or]
    unfold Archive.observeExisting
    cases hnamed : db.named normalize o with
    | none =>
      dsimp only
      split
      · rfl
      · split <;> rfl
    | some other =>
      by_cases hstale : db.staleProfile existing.id o = true
      · simp [hstale]
      · by_cases hold : (o.profileRawPayloadId.isNone && existing.updatedAt.any fun t => decide (o.timestamp < t)) = true
        · simp [hstale, hold]
        · by_cases hne : other.id ≠ existing.id
          · cases hplace : other.providerUserId with
            | some id => simp [hstale, hold, hne, hplace]
            | none =>
              by_cases hlate : db.staleProfile other.id o = true
              · simp [hstale, hold, hne, hplace, hlate]
              · simp [hstale, hold, hne, hplace, hlate, updateUser_edges]
          · simp [hstale, hold, hne, updateUser_edges]

/-- A capture's account has no stable id, so nothing is merged. -/
theorem resolveCaptureAccount_edges (provider username : String) (observedAt : Int) (isPublic : Bool) (now : Int) :
    (db.resolveCaptureAccount normalize provider username observedAt isPublic now).2.edges = db.edges := by
  unfold Archive.resolveCaptureAccount
  split
  · rfl
  · split
    · rw [upsert_edges]
      rfl
    · rfl

end Merging

/-! ## What a merge does to the edges -/

section Edges
variable {normalize : String → String} {db : Archive} {survivor replaced : Nat}

theorem foldl_edges {β : Type} {f : Archive → β → Archive} (hf : ∀ db b, (f db b).edges = db.edges) (bs : List β) :
    ∀ db, (bs.foldl f db).edges = db.edges := by
  induction bs with
  | nil => exact fun _ => rfl
  | cons b bs ih =>
    intro db
    rw [List.foldl_cons, ih, hf]

theorem mergePlayerEvidence_edges (db : Archive) : (db.mergePlayerEvidence normalize survivor replaced).edges = db.edges := by
  unfold Archive.mergePlayerEvidence
  refine (foldl_edges (fun db s => ?_) _ _).trans (foldl_edges (fun db a => ?_) _ _)
  · unfold Archive.mergeResourceSnapshot
    split <;> rfl
  · unfold Archive.mergeAlias
    rfl

theorem mergeEvidence_edges (normalize : String → String) (survivor replaced : Nat) (db : Archive) :
    (db.mergeEvidence normalize survivor replaced).edges = db.edges := by
  unfold Archive.mergeEvidence
  refine (foldl_edges (fun db s => ?_) _ _).trans (mergePlayerEvidence_edges _)
  unfold Archive.mergeSnapshot
  split
  · rfl
  · dsimp only [Archive.mergeSourceRecords]
    split <;> rfl

theorem mergeUserPlaceholder_edges (db : Archive) (now : Int) :
    (db.mergeUserPlaceholder normalize survivor replaced now).edges =
      ((db.mergeEvidence normalize survivor replaced).mergeUserEdges survivor replaced).1.edges := by
  have hcounters : ∀ (db : Archive) (run : Nat), (Archive.refreshCounters now db run).edges = db.edges := fun _ _ => rfl
  rw [mergeUserPlaceholder_eq, foldl_edges hcounters]
  rfl

/-- The constraints of `discovery_edges`, and its sequence. -/
structure EdgesOk (edges : List DiscoveryEdge) (seq : Nat) : Prop where
  ids : (edges.map DiscoveryEdge.id).Nodup
  keys : (edges.map DiscoveryEdge.key).Nodup
  seq : ∀ e ∈ edges, e.id ≤ seq

def NoLoops (edges : List DiscoveryEdge) : Prop := ∀ e ∈ edges, e.fromUserId ≠ e.toUserId

/-- The renamed ends of an edge meet exactly when they did, or when it joins the two accounts. -/
theorem renamed_eq_renamed (a b : Nat) : renamed survivor replaced a = renamed survivor replaced b ↔
    a = b ∨ (a = survivor ∧ b = replaced) ∨ (a = replaced ∧ b = survivor) := by
  unfold renamed
  split
  · split <;> omega
  · split <;> omega

theorem merge_edges (normalize : String → String) (hne : survivor ≠ replaced) {seq : Nat} (hok : EdgesOk db.edges seq) (now : Int) :
    EdgesOk (db.mergeUserPlaceholder normalize survivor replaced now).edges seq ∧
      (NoLoops db.edges → (NoLoops (db.mergeUserPlaceholder normalize survivor replaced now).edges ↔
        ¬ db.Joined survivor replaced)) := by
  have hev := mergeEvidence_edges normalize survivor replaced db
  rw [mergeUserPlaceholder_edges]
  generalize db.mergeEvidence normalize survivor replaced = ev at hev ⊢
  obtain ⟨ρ, hmoved, _, _, hsettled⟩ := mergeEdges_loop hne
    (fun e => (rfl : DiscoveryEdge.id (e.rename survivor replaced) = DiscoveryEdge.id e)) (fun _ _ _ => .inl rfl) (hev ▸ hok.ids) (hev ▸ hok.keys)
  rw [hev] at hmoved
  generalize (ev.mergeUserEdges survivor replaced).1.edges = edges at hmoved hsettled ⊢
  refine ⟨⟨hmoved.ids, hmoved.keys, fun b hb => ?_⟩, fun hfree => ⟨fun hnone hjoined => ?_, fun hapart b hb hloop => ?_⟩⟩
  · obtain ⟨a, ha, _, hval⟩ := hmoved.represents b hb
    rw [hval]
    exact hok.seq a ha
  · -- the edge that joins them is represented by an edge from the survivor to itself
    obtain ⟨a, ha, hends⟩ := hjoined
    obtain ⟨b, hb, _, hkey, _⟩ := hmoved.represented a ha
    have hstays : DiscoveryEdge.key (b.rename survivor replaced) = b.key := not_not.mp (hsettled b hb)
    have hmeets : renamed survivor replaced a.fromUserId = renamed survivor replaced a.toUserId :=
      (renamed_eq_renamed _ _).mpr (.inr hends)
    have hb' : b.key = (a.provider, renamed survivor replaced a.fromUserId, renamed survivor replaced a.toUserId) :=
      hstays.symm.trans hkey
    simp only [DiscoveryEdge.key, Prod.mk.injEq] at hb'
    exact hnone b hb (by rw [hb'.2.1, hb'.2.2, hmeets])
  · rcases hmoved.changed b hb with hold | ⟨c, hc, _, hkey⟩
    · exact hfree b hold hloop
    · have hb' : b.key = (c.provider, renamed survivor replaced c.fromUserId, renamed survivor replaced c.toUserId) :=
        hkey
      simp only [DiscoveryEdge.key, Prod.mk.injEq] at hb'
      rw [hb'.2.1, hb'.2.2, renamed_eq_renamed] at hloop
      rcases hloop with hsame | hends
      · exact hfree c hc hsame
      · exact hapart ⟨c, hc, hends⟩

end Edges

/-! ## What recording does to the edges -/

section Recorded
variable {d : Discovery} {r : Recording}

theorem opponentsOfUser_ne {q : OpponentQuery} {e : OpponentEdge} (h : e ∈ d.opponentsOfUser q) :
    e.opponentUserId ≠ q.userId := by
  unfold Discovery.opponentsOfUser at h
  rw [List.mem_mergeSort] at h
  obtain ⟨group, hgroup, rfl⟩ := List.mem_map.mp h
  obtain ⟨row, hrow, rfl⟩ := List.mem_map.mp (List.mem_dedup.mp hgroup)
  unfold Discovery.opponentRows at hrow
  simp only [List.mem_flatMap, List.mem_map, List.mem_filter, decide_eq_true_eq] at hrow
  obtain ⟨g, _, m, _, o, ⟨_, _, _, hother⟩, u, ⟨_, hsame, _⟩, rfl⟩ := hrow
  intro heq
  dsimp only at heq
  rw [hsame, heq] at hother
  exact hother rfl

/-- Recording an edge between different accounts. -/
theorem recordEdge_edges (hok : EdgesOk d.db.edges d.edgeSeq) {e : OpponentEdge} (hne : e.opponentUserId ≠ r.fromUserId) :
    EdgesOk (d.recordEdge r e).db.edges (d.recordEdge r e).edgeSeq ∧
      (NoLoops d.db.edges → NoLoops (d.recordEdge r e).db.edges) := by
  have hkeep : ∀ old : DiscoveryEdge, old.key = (r.row (d.edgeSeq + 1) e).key →
      (old.combine (r.row (d.edgeSeq + 1) e)).key = (r.row (d.edgeSeq + 1) e).key := fun old h => h
  refine ⟨⟨?_, upsert_keys_nodup hkeep hok.keys, fun x hx => ?_⟩, fun hfree x hx => ?_⟩
  · show ((upsert DiscoveryEdge.key DiscoveryEdge.combine d.db.edges (r.row (d.edgeSeq + 1) e)).map
      DiscoveryEdge.id).Nodup
    unfold upsert
    split
    · rw [List.map_map]
      have hids : ∀ x ∈ d.db.edges, (DiscoveryEdge.id ∘ fun x =>
          if x.key = (r.row (d.edgeSeq + 1) e).key then x.combine (r.row (d.edgeSeq + 1) e) else x) x = x.id := by
        intro x _
        dsimp only [Function.comp]
        split <;> rfl
      rw [List.map_congr_left hids]
      exact hok.ids
    · rw [List.map_append, List.map_singleton, List.nodup_append]
      refine ⟨hok.ids, List.nodup_singleton _, fun n hn n' hn' => ?_⟩
      obtain ⟨x, hx, rfl⟩ := List.mem_map.mp hn
      have hle := hok.seq x hx
      rw [List.mem_singleton.mp hn']
      show x.id ≠ d.edgeSeq + 1
      omega
  · show x.id ≤ d.edgeSeq + 1
    rcases upsert_mem hx with hold | rfl | ⟨old, hold, _, rfl⟩
    · exact Nat.le_succ_of_le (hok.seq x hold)
    · exact Nat.le_refl _
    · exact Nat.le_succ_of_le (hok.seq old hold)
  · rcases upsert_mem hx with hold | rfl | ⟨old, hold, _, rfl⟩
    · exact hfree x hold
    · exact Ne.symm hne
    · exact hfree old hold

theorem recordEdges_edges {edges : List OpponentEdge} (hne : ∀ e ∈ edges, e.opponentUserId ≠ r.fromUserId) :
    ∀ d : Discovery, EdgesOk d.db.edges d.edgeSeq →
      EdgesOk (edges.foldl (Discovery.recordEdge r) d).db.edges (edges.foldl (Discovery.recordEdge r) d).edgeSeq ∧
        (NoLoops d.db.edges → NoLoops (edges.foldl (Discovery.recordEdge r) d).db.edges) := by
  induction edges with
  | nil => exact fun d hok => ⟨hok, fun h => h⟩
  | cons e edges ih =>
    intro d hok
    obtain ⟨hok₁, hfree₁⟩ := recordEdge_edges hok (hne e List.mem_cons_self)
    obtain ⟨hok₂, hfree₂⟩ := ih (fun e he => hne e (List.mem_cons_of_mem _ he)) (d.recordEdge r e) hok₁
    exact ⟨hok₂, fun h => hfree₂ (hfree₁ h)⟩

theorem expand_edges {q : OpponentQuery} {edges : List OpponentEdge} (hok : EdgesOk d.db.edges d.edgeSeq)
    (hne : ∀ e ∈ edges, e.opponentUserId ≠ q.userId) (depth now : Int) :
    EdgesOk (d.expand q edges depth now).db.edges (d.expand q edges depth now).edgeSeq ∧
      (NoLoops d.db.edges → NoLoops (d.expand q edges depth now).db.edges) := by
  unfold Discovery.expand Discovery.recordDiscoveryEdges
  split
  · refine recordEdges_edges (fun e he => hne e ?_) d hok
    exact (List.mem_mergeSort).mp he
  · exact ⟨hok, fun h => h⟩

end Recorded

/-! ## Runs without loops -/

section Loops
variable {normalize : String → String} {s t : Expansion}

/-- The constraints of the table, and that what was read joins different accounts. -/
structure ExpansionOk (s : Expansion) : Prop where
  edges : EdgesOk s.store.db.edges s.store.edgeSeq
  readings : ∀ x ∈ s.readings, ∀ e ∈ x.2, e.opponentUserId ≠ x.1.userId

/-- No observation merges two accounts that an edge joins. -/
def Apart (normalize : String → String) (s : Expansion) : ExpansionEvent → Prop
  | .observe o _ => ∀ pair ∈ s.store.db.merging normalize o, ¬ s.store.db.Joined pair.1 pair.2
  | _ => True

instance (normalize : String → String) (s : Expansion) (e : ExpansionEvent) : Decidable (Apart normalize s e) :=
  match e with
  | .observe o _ => inferInstanceAs (Decidable (∀ pair ∈ s.store.db.merging normalize o, ¬ s.store.db.Joined pair.1 pair.2))
  | .resolveCaptureAccount .. => .isTrue trivial
  | .evidence .. => .isTrue trivial
  | .read _ => .isTrue trivial
  | .record .. => .isTrue trivial

/-- A step from a graph without loops leaves one exactly when it merges two accounts that an edge joins. -/
theorem expansion_step (h : ExpansionOk s) {e : ExpansionEvent} (ht : s.step normalize e = some t) :
    ExpansionOk t ∧ (NoLoops s.store.db.edges → (NoLoops t.store.db.edges ↔ Apart normalize s e)) := by
  cases e with
  | observe o now =>
    cases ht
    have hedges : (s.store.account normalize (.observe o now)).db.edges = _ :=
      (upsert_edges o now : (s.store.db.upsertProviderUserLocked normalize o now).2.edges = _)
    cases hm : s.store.db.merging normalize o with
    | none =>
      rw [hm] at hedges
      refine ⟨⟨by rw [hedges]; exact h.edges, h.readings⟩, fun hfree => ?_⟩
      rw [hedges]
      refine iff_of_true hfree fun _ hp => ?_
      rw [hm] at hp
      cases hp
    | some pair =>
      obtain ⟨survivor, replaced⟩ := pair
      rw [hm] at hedges
      obtain ⟨hok, hiff⟩ := merge_edges normalize (merging_ne hm) h.edges now
      refine ⟨⟨by rw [hedges]; exact hok, h.readings⟩, fun hfree => ?_⟩
      rw [hedges, hiff hfree]
      constructor
      · intro hapart _ hp
        rw [hm] at hp
        cases hp
        exact hapart
      · exact fun hall => hall (survivor, replaced) hm
  | resolveCaptureAccount provider username observedAt isPublic now =>
    cases ht
    have hedges : (s.store.account normalize
        (.resolveCaptureAccount provider username observedAt isPublic now)).db.edges = s.store.db.edges :=
      resolveCaptureAccount_edges provider username observedAt isPublic now
    refine ⟨⟨by rw [hedges]; exact h.edges, h.readings⟩, fun hfree => ?_⟩
    rw [hedges]
    exact iff_of_true hfree trivial
  | evidence other runGames endedAt =>
    cases ht
    exact ⟨⟨h.edges, h.readings⟩, fun hfree => iff_of_true hfree trivial⟩
  | read q =>
    cases ht
    refine ⟨⟨h.edges, fun x hx => ?_⟩, fun hfree => iff_of_true hfree trivial⟩
    rcases List.mem_append.mp hx with hold | hnew
    · exact h.readings x hold
    · rw [List.mem_singleton.mp hnew]
      exact fun e he => opponentsOfUser_ne he
  | record i keep depth now =>
    simp only [Expansion.step, Option.map_eq_some_iff] at ht
    obtain ⟨⟨q, edges⟩, hread, rfl⟩ := ht
    have hne : ∀ e ∈ edges.filter keep, e.opponentUserId ≠ q.userId :=
      fun e he => h.readings _ (List.mem_of_getElem? hread) e (List.mem_filter.mp he).1
    obtain ⟨hok, hfree⟩ := expand_edges h.edges hne depth now
    exact ⟨⟨hok, h.readings⟩, fun hs => iff_of_true (hfree hs) trivial⟩

theorem expansion_ok (hr : Reachable (expansion normalize) s) : ExpansionOk s := by
  refine Reachable.invariant (I := ExpansionOk) ?_ (fun s e t h ht => (expansion_step h ht).1) hr
  rintro s ⟨_, _, hedges, _, _, hreadings⟩
  refine ⟨⟨?_, ?_, ?_⟩, ?_⟩
  · rw [hedges]
    exact List.nodup_nil
  · rw [hedges]
    exact List.nodup_nil
  · rw [hedges]
    exact nofun
  · rw [hreadings]
    exact nofun

/-- In every run that merges no two accounts while an edge joins them, every edge joins two different accounts; and
the step that does merge such accounts leaves an edge from the survivor to itself. -/
theorem edges_join_distinct_when_apart (normalize : String → String) {s : Expansion}
    (hr : Reach (expansion normalize) (Apart normalize) s) :
    (∀ e ∈ s.store.db.edges, e.fromUserId ≠ e.toUserId) ∧
      ∀ e t, s.step normalize e = some t →
        ((∀ x ∈ t.store.db.edges, x.fromUserId ≠ x.toUserId) ↔ Apart normalize s e) := by
  have hfree : NoLoops s.store.db.edges := by
    refine hr.invariant (I := fun s => NoLoops s.store.db.edges) ?_ fun s e t hs h hapart ht => ?_
    · rintro s ⟨_, _, hedges, _⟩
      rw [hedges]
      exact nofun
    · exact ((expansion_step (expansion_ok hs.reachable) ht).2 h).mpr hapart
  exact ⟨hfree, fun e t ht => (expansion_step (expansion_ok hr.reachable) ht).2 hfree⟩

end Loops

/-- A placeholder `ann` and an account `bob` with a stable id have played each other, and the edge is recorded. -/
def played : List ExpansionEvent :=
  [.observe ⟨"lichess", "ann", none, none, none, none, 1, none⟩ 1,
    .observe ⟨"lichess", "bob", some "x1", none, none, none, 2, none⟩ 2,
    .evidence { emptyArchive with
      games := [⟨1, "lichess"⟩]
      participants := [⟨1, 1, .white, some 2, some "bob"⟩, ⟨2, 1, .black, some 1, some "ann"⟩]
      runs := [⟨7, "running", none, 0, none, 1⟩] } [(7, 1)] (fun _ => none),
    .read ⟨"lichess", 2, some 7, none, none⟩,
    .record 0 (fun _ => true) 1 3]

/-- Then `bob` turns out to be called `ann`: the edge runs from the account to itself. -/
theorem no_self_edges_fails_renamed : ∃ s, Reachable (expansion fun s => s) s ∧
    ∃ e ∈ s.store.db.edges, e.fromUserId = e.toUserId := by
  obtain ⟨s, hr, hp⟩ := Reach.of_exec (expansion fun s => s) (fun _ _ => True)
    (s := ⟨⟨emptyArchive, 0, [], fun _ => none⟩, []⟩) ⟨rfl, rfl, rfl, rfl, rfl, rfl⟩
    (played ++ [.observe ⟨"lichess", "ann", some "x1", none, none, none, 4, none⟩ 4])
    (fun s => decide (s.store.db.edges.map (fun e => (e.fromUserId, e.toUserId)) = [(2, 2)])) (by decide +kernel)
  have hedges := of_decide_eq_true hp
  refine ⟨s, hr, ?_⟩
  obtain ⟨e, he, hends⟩ := List.mem_map.mp (hedges ▸ List.mem_singleton_self (2, 2))
  exact ⟨e, he, (congrArg Prod.fst hends).trans (congrArg Prod.snd hends).symm⟩

/-- Where `ann` turns out to be a former name of a third account, the edge is rewritten and runs from `bob` to it. -/
theorem edges_join_distinct_when_apart_renamed : ∃ s, Reach (expansion fun s => s) (Apart fun s => s) s ∧
    s.store.db.edges.map (fun e => (e.fromUserId, e.toUserId)) = [(2, 3)] ∧
    ∀ e ∈ s.store.db.edges, e.fromUserId ≠ e.toUserId := by
  obtain ⟨s, hr, hp⟩ := Reach.of_exec (expansion fun s => s) (Apart fun s => s)
    (s := ⟨⟨emptyArchive, 0, [], fun _ => none⟩, []⟩) ⟨rfl, rfl, rfl, rfl, rfl, rfl⟩
    (played ++ [.observe ⟨"lichess", "cleo", some "x3", none, none, none, 4, none⟩ 4,
      .observe ⟨"lichess", "ann", some "x3", none, none, none, 5, none⟩ 5])
    (fun s => decide (s.store.db.edges.map (fun e => (e.fromUserId, e.toUserId)) = [(2, 3)])) (by decide +kernel)
  exact ⟨s, hr, of_decide_eq_true hp, (edges_join_distinct_when_apart _ hr).1⟩

end ChessCrawl.Identity
