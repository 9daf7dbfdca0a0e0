import ChessCrawl.Normalize.Cap
import ChessCrawl.Normalize.Keys

/-! Members of a bounded run that are processed again. A member that the identities of a listing find costs
nothing. The locked transaction looks for no other: a checkpoint's game that they no longer find, because
newer payloads have renamed its row, is counted as new to the run, though its association already exists.
Where every such checkpoint is recognised, what a call has used of its allowance is what it added to the
run. -/
namespace ChessCrawl.Normalize
open ChessCrawl.Lib
set_option autoImplicit false

/-! ## Members are stored games -/

structure KeepsIds (a a' : Archive) : Prop where
  keyed : a.Keyed → a'.Keyed
  gameSeq : a.gameSeq ≤ a'.gameSeq

theorem KeepsTables.ids {a a' : Archive} (h : KeepsTables a a') : KeepsIds a a' :=
  ⟨fun ha => ha.of_tables (by rw [h.games]) h.versions h.sources h.gameSeq h.versionSeq, h.gameSeq.ge⟩

theorem upsertGame_ids {a a' : Archive} {g : NormalizedGame} {gameId : Nat}
    (h : a.upsertGame g = .ok (gameId, a')) : KeepsIds a a' := by
  refine ⟨fun ha => upsertGame_keyed ha h, ?_⟩
  unfold Archive.upsertGame at h
  split at h
  · cases h
    exact Nat.le_succ _
  · dsimp only at h
    split at h
    · cases h
    · cases h
      exact Nat.le_refl _

theorem normalizeGame_ids {a a' : Archive} {evidence pointer : String} {rawId gameId : Nat} {g : NormalizedGame}
    {prepared : Bool} (h : a.normalizeGame evidence rawId pointer g prepared = .ok (gameId, a')) : KeepsIds a a' := by
  refine ⟨fun ha => normalizeGame_keyed ha h, ?_⟩
  obtain ⟨mid, v, hfacts, hev⟩ := normalizeGame_cases h
  rw [hev.gameSeq]
  cases hfacts with
  | inserted => exact Nat.le_succ _
  | replaced => exact Nat.le_refl _
  | kept => exact Nat.le_refl _

theorem step_ids {s t : World} {e : Event} (h : Stepped s e t) : KeepsIds s.db.archive t.db.archive := by
  have hrefl : KeepsIds s.db.archive s.db.archive := (KeepsTables.refl _).ids
  cases h with
  | storePayload hstore => exact (storePayload_tables hstore).ids
  | observe hobserve => exact (observe_tables hobserve).ids
  | createRun => exact hrefl
  | upsert hupsert => exact upsertGame_ids hupsert
  | associate hall =>
    rw [(associateAll_attributed hall).archive]
    exact hrefl
  | ledger => exact hrefl
  | start _ hstart => exact (startCall_tables hstart).ids
  | act _ hact =>
    rcases act_archive hact with ⟨hk, _⟩ | ⟨_, _, _, _, _, _, _, _, _, _, hwrite⟩
    · exact hk.ids
    · cases writeGame_archive hwrite with
      | excluded => exact hrefl
      | reused _ _ _ harchive _ =>
        exact harchive.symm ▸ hrefl
      | rewrote _ _ hnorm _ => exact normalizeGame_ids hnorm
  | abandon => exact hrefl

/-- Members have ids that were given out. -/
structure MembersOk (s : World) : Prop where
  keyed : s.db.archive.Keyed
  members : ∀ m ∈ s.db.runGames, m.gameId ≤ s.db.archive.gameSeq

theorem membersOk_step {s t : World} {e : Event} (hs : MembersOk s) (h : Stepped s e t) : MembersOk t := by
  have hids := step_ids h
  have hkeyed := hids.keyed hs.keyed
  refine ⟨hkeyed, fun m hm => ?_⟩
  have hold : m ∈ s.db.runGames → m.gameId ≤ t.db.archive.gameSeq := fun hmem =>
    (hs.members m hmem).trans hids.gameSeq
  rcases step_attributes h with ⟨_, _, hdb⟩ | ⟨mid, _, hgames, hattr⟩
  · rw [hdb] at hm
    exact hold hm
  · rcases hattr.fresh m hm with hmid | ⟨⟨row, hrow, _⟩, _⟩
    · rw [hgames] at hmid
      exact hold hmid
    · have hid : row.id = m.gameId := by simpa using List.find?_some hrow
      rw [← hid]
      exact hkeyed.gameSeq row (List.mem_of_find?_eq_some hrow)

theorem membersOk_of_reachable {s : World} (h : Reachable normalizers s) : MembersOk s := by
  refine Reachable.invariant (I := MembersOk) ?_ (fun s e t hI hstep => membersOk_step hI (step_stepped hstep)) h
  rintro _ rfl
  exact ⟨Archive.keyed_empty, fun m hm => absurd hm List.not_mem_nil⟩

/-- A member stays one. -/
theorem step_members {s t : World} {e : Event} (h : Stepped s e t) : s.db.runGames ⊆ t.db.runGames := by
  rcases step_attributes h with ⟨_, _, hdb⟩ | ⟨mid, _, hgames, hattr⟩
  · rw [hdb]
    exact List.Subset.refl _
  · rw [← hgames]
    exact hattr.kept

/-! ## A member that is found -/

/-- The call is at a game whose stored row is a member of its run. -/
def Call.AtMember (c : Call) (db : Db) (runId : Nat) : Prop :=
  c.request.crawlRunId = some runId ∧
    ∃ pointer g rest row, c.todo = (pointer, g) :: rest ∧ db.archive.findExistingGame g = some row ∧
      db.runHasGame runId row.id = true

theorem moved_member {c : Call} {c' : Option Call} {db db' : Db} {runId : Nat} (h : Moved c db c' db')
    (hm : c.AtMember db runId) :
    db'.runs = db.runs ∧ db'.runGames = db.runGames ∧
      ∀ d, c' = some d → d.remaining = c.remaining ∧ d.gameIds = c.gameIds := by
  obtain ⟨hrun, pointer, g, rest, row, htodo, hrow, hhas⟩ := hm
  have hmember : c.alreadyAcquired db g = true := by
    simp [Call.alreadyAcquired, hrun, hrow, hhas]
  cases h with
  | raised => exact ⟨rfl, rfl, fun d hd => by cases hd⟩
  | kept hk =>
    refine ⟨rfl, rfl, fun d hd => ?_⟩
    cases hd
    exact ⟨hk.remaining, hk.gameIds⟩
  | paid hk =>
    refine ⟨rfl, rfl, fun d hd => ?_⟩
    cases hd
    exact ⟨hk.remaining, hk.gameIds⟩
  | wrote htodo' hwrite =>
    rw [htodo] at htodo'
    cases htodo'
    have hwrote := writeGame_wrote hwrite
    cases hwrote with
    | excluded =>
      refine ⟨rfl, rfl, fun d hd => ?_⟩
      cases hd
      exact ⟨rfl, rfl⟩
    | refreshed hreserve hstored =>
      obtain ⟨L, rfl⟩ := reserveGame_db hreserve
      refine ⟨hstored.runs, hstored.runGames, fun d hd => ?_⟩
      cases hd
      exact ⟨rfl, rfl⟩
    | acquired _ _ _ hreserve _ _ =>
      have hnew := reserveGame_acquired hreserve
      rw [hmember] at hnew
      cases hnew
  | finished =>
    obtain ⟨hr, hg, _⟩ := certify_runs db c.request.rawId c.request.parserVersion c.observed c.pointers
      c.pointers.isEmpty
    refine ⟨hr, hg, fun d hd => ?_⟩
    cases hd
    exact ⟨rfl, rfl⟩

theorem associateAll_members {runId : Nat} {gameIds : List Nat} {db db' : Db}
    (h : db.associateAll runId gameIds = .ok db') (hm : ∀ id ∈ gameIds, db.runHasGame runId id = true) :
    db' = db := by
  induction gameIds with
  | nil =>
    cases h
    rfl
  | cons gameId rest ih =>
    obtain ⟨⟨added, db₁⟩, hone, h₁⟩ := bind_ok h
    rcases associateRunGame_cases hone with ⟨_, rfl⟩ | ⟨hadmitted, _⟩
    · exact ih h₁ fun id hid => hm id (List.mem_cons_of_mem _ hid)
    · have habsent := hadmitted.absent
      rw [hm gameId List.mem_cons_self] at habsent
      cases habsent

/-! ## A member that a checkpoint names -/

/-- Where a call with an allowance stops at a checkpoint whose game is a member of its run, the identities
that the payload lists still find a member. -/
def Call.recognises (c : Call) (db : Db) : Bool :=
  c.remaining.isNone ||
    match c.request.crawlRunId, c.todo with
    | some runId, (pointer, g) :: _ =>
      c.rewrites db pointer g || ((c.reusable pointer).all fun gameId => !db.runHasGame runId gameId) ||
        c.alreadyAcquired db g
    | _, _ => true

theorem refreshed_acquired {c : Call} {db db' : Db} {g : NormalizedGame} {pointer : String} {gameId : Nat}
    (h : WroteGame c db g pointer (.refreshed gameId) db') :
    c.alreadyAcquired db g = true ∧ db'.runGames = db.runGames := by
  cases h with
  | refreshed hreserve hstored =>
    have hold := (reserveGame_acquired hreserve).symm
    obtain ⟨L, rfl⟩ := reserveGame_db hreserve
    exact ⟨hold, hstored.runGames⟩

/-- An association that exists is found under the lock. -/
theorem acquired_member {c : Call} {db db' : Db} {g : NormalizedGame} {pointer : String} {runId gameId : Nat}
    (h : WroteGame c db g pointer (.acquired gameId) db') (hrun : c.request.crawlRunId = some runId)
    (hhas : db.runHasGame runId gameId = true) : db'.runGames = db.runGames := by
  cases h with
  | @acquired _ _ charged mid _ _ _ _ _ hreserve hstored hattr =>
    obtain ⟨L, rfl⟩ := reserveGame_db hreserve
    simp only [Call.attribute, hrun] at hattr
    cases ha : mid.associateRunGame runId gameId with
    | error e =>
      rw [ha] at hattr
      cases hattr
    | ok r =>
      rw [ha] at hattr
      cases hattr
      rcases associateRunGame_cases ha with ⟨_, heq⟩ | ⟨hadmitted, _⟩
      · rw [heq]
        exact hstored.runGames
      · have habsent := hadmitted.absent
        unfold Db.runHasGame at habsent hhas
        rw [hstored.runGames, hhas] at habsent
        cases habsent

/-- What a call acquires for a run is a member afterwards. -/
theorem acquired_added {c : Call} {db db' : Db} {g : NormalizedGame} {pointer : String} {runId gameId : Nat}
    (h : WroteGame c db g pointer (.acquired gameId) db') (hrun : c.request.crawlRunId = some runId) :
    db'.runHasGame runId gameId = true := by
  cases h with
  | @acquired _ _ charged mid _ _ _ _ _ _ _ hattr =>
    simp only [Call.attribute, hrun] at hattr
    cases ha : mid.associateRunGame runId gameId with
    | error e =>
      rw [ha] at hattr
      cases hattr
    | ok r =>
      rw [ha] at hattr
      cases hattr
      rcases associateRunGame_cases ha with ⟨hhas, heq⟩ | ⟨_, heq⟩
      · rw [heq]
        exact hhas
      · rw [heq]
        exact decide_eq_true (List.mem_append_right _ List.mem_cons_self)

/-- A rewrite of a member finds it: a row that it inserts has an id that no member has. -/
theorem rewrote_member {c : Call} {db : Db} {a : Archive} {g : NormalizedGame} {pointer : String}
    {prepared : Bool} {runId gameId : Nat} (hrun : c.request.crawlRunId = some runId)
    (hmembers : ∀ m ∈ db.runGames, m.gameId ≤ db.archive.gameSeq)
    (hwrite : db.archive.normalizeGame c.request.evidenceVersion c.request.rawId pointer g prepared = .ok (gameId, a))
    (hhas : db.runHasGame runId gameId = true) : c.alreadyAcquired db g = true := by
  obtain ⟨mid, v, hfacts, _⟩ := normalizeGame_cases hwrite
  have hfound : ∀ row, db.archive.findExistingGame g = some row → row.id = gameId →
      c.alreadyAcquired db g = true := by
    intro row hrow hid
    simp [Call.alreadyAcquired, hrun, hrow, hid, hhas]
  cases hfacts with
  | inserted =>
    have hle := hmembers _ (of_decide_eq_true hhas)
    dsimp only at hle
    omega
  | replaced hrow => exact hfound _ hrow rfl
  | kept hrow => exact hfound _ hrow rfl

/-- What the transaction of a member costs: nothing, exactly if the member was recognised. -/
theorem wrote_pays {c : Call} {db db' : Db} {g : NormalizedGame} {pointer : String}
    {rest : List (String × NormalizedGame)} {prepared : Bool} {now : Int} {written : Written} {runId gameId : Nat}
    (hmembers : ∀ m ∈ db.runGames, m.gameId ≤ db.archive.gameSeq) (hrun : c.request.crawlRunId = some runId)
    (htodo : c.todo = (pointer, g) :: rest) (h : c.writeGame db pointer g prepared now = .ok (written, db'))
    (hid : written.gameId = some gameId) (hhas : db.runHasGame runId gameId = true) :
    db'.runGames = db.runGames ∧
      ((c.wrote pointer written).remaining = c.remaining ↔ c.recognises db = true) := by
  have hwrote := writeGame_wrote h
  cases written with
  | excluded => cases hid
  | refreshed id =>
    obtain ⟨hold, hgames⟩ := refreshed_acquired hwrote
    refine ⟨hgames, iff_of_true rfl ?_⟩
    simp [Call.recognises, hrun, htodo, hold]
  | acquired id =>
    obtain rfl := Option.some.inj hid
    have hnew := (acquired_room hwrote).2
    refine ⟨acquired_member hwrote hrun hhas, ?_⟩
    have hrecognises : c.recognises db = c.remaining.isNone := by
      cases writeGame_archive h with
      | reused hsame hre hreuse _ _ =>
        obtain rfl := Option.some.inj hsame
        simp [Call.recognises, hrun, htodo, hre, hreuse, hhas, hnew]
      | rewrote hsame _ hwrite _ =>
        obtain rfl := Option.some.inj hsame
        rw [rewrote_member hrun hmembers hwrite hhas] at hnew
        cases hnew
    rw [hrecognises]
    cases hleft : c.remaining with
    | none => simp [Call.wrote, hleft]
    | some left => simp [Call.wrote, hleft]

/-- A write goes through its transaction, or goes back to prepare the evidence of the game. -/
theorem act_write {c d : Call} {db db' : Db} {now : Int} (h : c.act db (.write now) = some (some d, db')) :
    ∃ prepared pointer g rest, c.todo = (pointer, g) :: rest ∧
      ((∃ written, d = c.wrote pointer written ∧ c.writeGame db pointer g prepared now = .ok (written, db')) ∨
        d = { c with phase := .paid true }) := by
  generalize hd : some d = c' at h
  cases act_acted h with
  | @write _ prepared pointer g rest _ htodo =>
    refine ⟨prepared, pointer, g, rest, htodo, ?_⟩
    rcases write_cases c db pointer g prepared now with ⟨written, hwrite, hwrote⟩ | ⟨_, hnone | hagain⟩
    · exact .inl ⟨written, Option.some.inj (hd.trans hwrote), hwrite⟩
    · rw [hnone] at hd
      cases hd
    · exact .inr (Option.some.inj (hd.trans hagain))

/-! ## What a call spends -/

/-- A call for the run that counts its games. -/
structure Call.Limited (c : Call) (runId : Nat) : Prop where
  run : c.request.crawlRunId = some runId
  maxGames : c.request.maxGames.isSome = true

/-- What the calls of the run have counted is what they added to it. -/
structure Spent (runId : Nat) (s : World) : Prop where
  once : ∀ w c, s.calls w = some c → c.Limited runId →
    c.gameIds.Nodup ∧ ∀ id ∈ c.gameIds, s.db.runHasGame runId id = true
  apart : ∀ w c w' c', s.calls w = some c → s.calls w' = some c' → w ≠ w' → c.Limited runId → c'.Limited runId →
    ∀ id ∈ c.gameIds, id ∉ c'.gameIds

/-- No write for the run stops at a checkpoint of a member that its listing no longer finds. -/
def World.Recognised (runId : Nat) (s : World) : Event → Prop
  | .act worker (.write _) => ∀ c ∈ s.calls worker, c.request.crawlRunId = some runId → c.recognises s.db = true
  | _ => True

/-- One step of a limited call: it starts, or counts what it counted before, or adds a game to the run. -/
inductive Counted (runId : Nat) (s t : World) (w : Nat) (d : Call) : Prop
  | started : d.gameIds = [] → Counted runId s t w d
  | kept {c : Call} : s.calls w = some c → c.Limited runId → d.gameIds = c.gameIds → Counted runId s t w d
  | added {c : Call} {gameId : Nat} : s.calls w = some c → c.Limited runId → d.gameIds = c.gameIds ++ [gameId] →
      s.db.runHasGame runId gameId = false → t.db.runHasGame runId gameId = true →
      (∀ w', w' ≠ w → t.calls w' = s.calls w') → Counted runId s t w d

theorem setCall_others (s : World) {worker w : Nat} (c : Option Call) (db : Db) (hw : w ≠ worker) :
    (s.setCall worker c db).calls w = s.calls w := by
  simp [World.setCall, hw]

theorem Call.Limited.of_request {c d : Call} {runId : Nat} (h : d.Limited runId) (hr : d.request = c.request) :
    c.Limited runId := ⟨hr ▸ h.run, hr ▸ h.maxGames⟩

/-- A limited call that recognises its members adds what it counts. -/
theorem wrote_adds {c : Call} {db db' : Db} {g : NormalizedGame} {pointer : String}
    {rest : List (String × NormalizedGame)} {prepared : Bool} {now : Int} {runId gameId : Nat} (hc : c.Within)
    (hl : c.Limited runId) (hmembers : ∀ m ∈ db.runGames, m.gameId ≤ db.archive.gameSeq)
    (htodo : c.todo = (pointer, g) :: rest)
    (h : c.writeGame db pointer g prepared now = .ok (.acquired gameId, db')) (hr : c.recognises db = true) :
    db.runHasGame runId gameId = false := by
  obtain ⟨limit, hlimit⟩ := Option.isSome_iff_exists.mp hl.maxGames
  obtain ⟨left, hleft, _, _⟩ := hc limit hlimit
  by_contra hhas
  have hpays := (wrote_pays hmembers hl.run htodo h rfl (Bool.eq_true_of_not_eq_false hhas)).2.mpr hr
  simp only [Call.wrote, hleft, Option.map_some, Option.some.injEq] at hpays
  omega

/-- Only a write counts. -/
theorem act_ids {c d : Call} {db db' : Db} {a : Act} (h : c.act db a = some (some d, db')) :
    d.gameIds = c.gameIds ∨ ∃ now, a = .write now := by
  generalize hd : some d = c' at h
  cases act_acted h with
  | checkpoint =>
    cases hd
    exact .inl rfl
  | retain =>
    cases hd
    exact .inl rfl
  | preflight =>
    left
    obtain ⟨_, _, ⟨_, rfl⟩ | ⟨_, rfl⟩ | rfl⟩ := preflight_cases hd.symm <;> rfl
  | select =>
    cases hd
    left
    split <;> rfl
  | @pay now pointer _ _ =>
    left
    obtain ⟨_, _, hnone | ⟨_, hpaid⟩⟩ := pay_cases c db pointer now
    · rw [hnone] at hd
      cases hd
    · rw [Option.some.inj (hd.trans hpaid)]
  | write => exact .inr ⟨_, rfl⟩
  | finish =>
    cases hd
    exact .inl rfl

theorem act_counted {s : World} {w : Nat} {a : Act} {c d : Call} {db : Db} {runId : Nat} (hc : c.Within)
    (hmembers : ∀ m ∈ s.db.runGames, m.gameId ≤ s.db.archive.gameSeq) (hcall : s.calls w = some c)
    (hok : s.Recognised runId (.act w a)) (h : c.act s.db a = some (some d, db)) (hl : d.Limited runId) :
    Counted runId s (s.setCall w (some d) db) w d := by
  have hlim : c.Limited runId := hl.of_request (act_todo h).1
  rcases act_ids h with hsame | ⟨now, rfl⟩
  · exact .kept hcall hlim hsame
  obtain ⟨prepared, pointer, g, rest, htodo, ⟨written, rfl, hwrite⟩ | rfl⟩ := act_write h
  · cases written with
    | excluded => exact .kept hcall hlim rfl
    | refreshed => exact .kept hcall hlim rfl
    | acquired gameId =>
      exact .added hcall hlim rfl (wrote_adds hc hlim hmembers htodo hwrite (hok c hcall hlim.run))
        (acquired_added (writeGame_wrote hwrite) hlim.run) fun w' hw' => setCall_others s _ db hw'
  · exact .kept hcall hlim rfl

theorem step_counted {s t : World} {e : Event} {runId : Nat} (hcap : CapOk s) (hs : MembersOk s)
    (hok : s.Recognised runId e) (h : Stepped s e t) {w : Nat} {d : Call} (hd : t.calls w = some d)
    (hl : d.Limited runId) : Counted runId s t w d := by
  cases h with
  | start _ hstart =>
    rcases setCall_calls hd with hold | ⟨_, hnew⟩
    · exact .kept hold hl rfl
    · cases hnew
      exact .started (startCall_cases hstart).2.2.1
  | act hcall hact =>
    rcases setCall_calls hd with hold | ⟨rfl, rfl⟩
    · exact .kept hold hl rfl
    · exact act_counted (hcap.calls _ _ hcall) hs.members hcall hok hact hl
  | abandon =>
    rcases setCall_calls hd with hold | ⟨_, hnew⟩
    · exact .kept hold hl rfl
    · cases hnew
  | storePayload => exact .kept hd hl rfl
  | observe => exact .kept hd hl rfl
  | createRun => exact .kept hd hl rfl
  | upsert => exact .kept hd hl rfl
  | associate => exact .kept hd hl rfl
  | ledger => exact .kept hd hl rfl

/-- An id that a limited call has counted is an older count of it, or a game that this step added. -/
theorem Counted.ids {s t : World} {w gameId : Nat} {d : Call} {runId : Nat} (h : Counted runId s t w d)
    (hid : gameId ∈ d.gameIds) :
    (∃ c, s.calls w = some c ∧ c.Limited runId ∧ gameId ∈ c.gameIds) ∨
      (s.db.runHasGame runId gameId = false ∧ t.db.runHasGame runId gameId = true ∧
        ∀ w', w' ≠ w → t.calls w' = s.calls w') := by
  cases h with
  | started hnone =>
    rw [hnone] at hid
    exact absurd hid List.not_mem_nil
  | kept hcall hlim hsame => exact .inl ⟨_, hcall, hlim, hsame ▸ hid⟩
  | added hcall hlim hids habsent hhas hothers =>
    rw [hids] at hid
    rcases List.mem_append.mp hid with hold | hnew
    · exact .inl ⟨_, hcall, hlim, hold⟩
    · obtain rfl := List.mem_singleton.mp hnew
      exact .inr ⟨habsent, hhas, hothers⟩

theorem spent_step {s t : World} {e : Event} {runId : Nat} (hcap : CapOk s) (hm : MembersOk s)
    (hs : Spent runId s) (hok : s.Recognised runId e) (h : Stepped s e t) : Spent runId t := by
  have hkept : ∀ id, s.db.runHasGame runId id = true → t.db.runHasGame runId id = true := fun id hid =>
    decide_eq_true (step_members h (of_decide_eq_true hid))
  constructor
  · intro w d hd hl
    have hcounted := step_counted hcap hm hok h hd hl
    refine ⟨?_, fun id hid => ?_⟩
    · cases hcounted with
      | started hnone =>
        rw [hnone]
        exact List.nodup_nil
      | kept hcall hlim hsame =>
        rw [hsame]
        exact (hs.once w _ hcall hlim).1
      | added hcall hlim hids habsent _ _ =>
        obtain ⟨hnodup, hmember⟩ := hs.once w _ hcall hlim
        rw [hids]
        refine List.nodup_append.mpr ⟨hnodup, List.nodup_singleton _, fun x hx y hy hxy => ?_⟩
        rw [hxy, List.mem_singleton.mp hy] at hx
        rw [hmember _ hx] at habsent
        cases habsent
    · rcases hcounted.ids hid with ⟨c, hcall, hlim, hold⟩ | ⟨_, hhas, _⟩
      · exact hkept id ((hs.once w c hcall hlim).2 id hold)
      · exact hhas
  · intro w d w' d' hd hd' hne hl hl' id hid hid'
    rcases (step_counted hcap hm hok h hd hl).ids hid with ⟨c, hcall, hlim, hold⟩ | ⟨habsent, _, hothers⟩
    · rcases (step_counted hcap hm hok h hd' hl').ids hid' with ⟨c', hcall', hlim', hold'⟩ | ⟨habsent, _, _⟩
      · exact hs.apart w c w' c' hcall hcall' hne hlim hlim' id hold hold'
      · -- the game that the step adds is no member yet, and what was counted is
        rw [(hs.once w c hcall hlim).2 id hold] at habsent
        cases habsent
    · rw [hothers w' (Ne.symm hne)] at hd'
      rw [(hs.once w' d' hd' hl').2 id hid'] at habsent
      cases habsent

theorem spent_of_reach {s : World} {runId : Nat} (h : Reach normalizers (World.Recognised runId) s) :
    Spent runId s := by
  refine Reach.invariant (I := Spent runId) ?_ (fun s e t hr hI hok hstep => spent_step
    (capOk_of_reachable hr.reachable) (membersOk_of_reachable hr.reachable) hI hok (step_stepped hstep)) h
  rintro _ rfl
  exact ⟨fun w c hw => (by cases hw), fun w c w' c' hw => (by cases hw)⟩

/-! ## The cap of every run -/

/-- The cap and the window of every bounded run, and what its members cost. A member that the listed
identities find costs nothing at any step; one that a write reaches costs nothing exactly if it is
recognised. Where all writes recognise their members, the ids of the calls are the games they added. -/
theorem run_game_cap {s : World} {run : CrawlRun} {cap : Nat} {since stop : Int} (h : Reachable normalizers s)
    (hrun : s.db.run run.id = some run) (hb : run.Bounded cap since stop) :
    (s.db.members run.id).length ≤ cap ∧
    (∀ e t, s.step e = some t → ∀ m ∈ t.db.members run.id, m ∈ s.db.members run.id ∨
      ∃ row ended, t.db.archive.game m.gameId = some row ∧ row.endedAt = some ended ∧
        since ≤ ended ∧ ended < stop) ∧
    (∀ w c a t, s.calls w = some c → c.AtMember s.db run.id → s.step (.act w a) = some t →
      t.db.runGames = s.db.runGames ∧ ∀ d, t.calls w = some d → d.gameIds = c.gameIds ∧
        t.db.runGameBounds run.id run.provider d.remaining =
          s.db.runGameBounds run.id run.provider c.remaining) ∧
    (∀ w c d pointer gameId now t, s.calls w = some c → c.request.crawlRunId = some run.id →
      s.step (.act w (.write now)) = some t → t.calls w = some d →
      d.checkpoints = (pointer, gameId) :: c.checkpoints → s.db.runHasGame run.id gameId = true →
      t.db.runGames = s.db.runGames ∧ (d.remaining = c.remaining ↔ c.recognises s.db = true)) ∧
    (∀ gameIds t, (∀ id ∈ gameIds, s.db.runHasGame run.id id = true) →
      s.step (.associate run.id gameIds) = some t → t = s) ∧
    (∀ w c limit, s.calls w = some c → c.request.maxGames = some limit → (c.gameIds.length : Int) ≤ limit) ∧
    (Reach normalizers (World.Recognised run.id) s → Spent run.id s) := by
  have hok := capOk_of_reachable h
  have hmembers := (membersOk_of_reachable h).members
  -- the call that an act leaves is the one its machine returned
  have hact : ∀ w c a t, s.calls w = some c → s.step (.act w a) = some t →
      c.act s.db a = some (t.calls w, t.db) := by
    intro w c a t hc hstep
    cases step_stepped hstep with
    | act hc' hact =>
      have hsame : _ = c := Option.some.inj (hc'.symm.trans hc)
      subst hsame
      rw [setCall_self]
      exact hact
  refine ⟨?_, fun e t hstep => step_fresh hrun hb (step_stepped hstep), ?_, ?_, ?_, ?_, spent_of_reach⟩
  · have hcap := hok.capped run.id run hrun hb.mode cap hb.maxGames
    omega
  · intro w c a t hc hm hstep
    obtain ⟨hruns, hgames, hcall⟩ := moved_member (act_moved (hact w c a t hc hstep)) hm
    refine ⟨hgames, fun d hd => ?_⟩
    obtain ⟨hremaining, hids⟩ := hcall d hd
    refine ⟨hids, ?_⟩
    rw [hremaining]
    exact runGameBounds_congr hruns hgames _ _ _
  · intro w c d pointer gameId now t hc hrunId hstep hd hcheck hhas
    have hmoved := hact w c (.write now) t hc hstep
    rw [hd] at hmoved
    obtain ⟨_, p, g, rest, htodo, ⟨written, rfl, hwrite⟩ | rfl⟩ := act_write hmoved
    · refine wrote_pays hmembers hrunId htodo hwrite ?_ hhas
      cases written with
      | excluded => exact absurd hcheck.symm (List.cons_ne_self _ _)
      | refreshed id => exact congrArg some (Prod.mk.inj (List.cons.inj hcheck).1).2
      | acquired id => exact congrArg some (Prod.mk.inj (List.cons.inj hcheck).1).2
    · exact absurd hcheck.symm (List.cons_ne_self _ _)
  · intro gameIds t hm hstep
    cases step_stepped hstep with
    | associate hall => rw [associateAll_members hall hm]
  · intro w c limit hc hlimit
    obtain ⟨left, _, hpos, hsum⟩ := hok.calls w c hc limit hlimit
    omega

/-- Two workers pass the preflight for different games while one place is left; the first write takes it,
and the other worker only refreshes the game that has become a member. -/
def racingWorkers : List Event :=
  List.flatten [
    [.storePayload (monthOf 1 [listedGame "a" 150, listedGame "z" 900]), .observe ⟨1, 1, 200, 50⟩,
      .storePayload (monthOf 2 [listedGame "b" 160, listedGame "a" 150]), .observe ⟨2, 2, 200, 50⟩,
      .createRun singleGameRun, .start 0 (runRequest 1), .start 1 (runRequest 2)],
    upToWrite 0, upToWrite 1,
    [.act 0 (.write 0), .act 1 (.write 0), .act 0 .preflight, .act 0 .finish, .act 1 .preflight,
      .act 1 .select, .act 1 (.pay 0), .act 1 (.write 0), .act 1 .finish]]

theorem run_game_cap_raced : ∃ s, Reachable normalizers s ∧ s.db.run 1 = some singleGameRun ∧
    (s.db.archive.games.map GameRow.id, s.db.runGames, (s.calls 1).map Call.gameIds) =
      ([1], [⟨1, 1⟩], some []) ∧
    (s.db.members 1).length ≤ 1 := by
  obtain ⟨s, hs, hp⟩ := Reach.of_exec normalizers (fun _ _ => True) (s := World.initial) rfl racingWorkers
    (fun s => decide (s.db.run 1 = some singleGameRun ∧
      (s.db.archive.games.map GameRow.id, s.db.runGames, (s.calls 1).map Call.gameIds) =
        ([1], [⟨1, 1⟩], some []))) (by decide +kernel)
  obtain ⟨hrun, hstate⟩ := of_decide_eq_true hp
  have hbounded : singleGameRun.Bounded 1 100 200 := ⟨rfl, rfl, rfl, rfl⟩
  exact ⟨s, hs, hrun, hstate, (run_game_cap hs hrun hbounded).1⟩

/-! Two newer months rename the row of a member, one after the other; the first month is then normalized
again for the run. -/

def fiveGameRun : CrawlRun := ⟨1, .chessCom, ⟨false, some 5, some 100, some 200, none, none⟩⟩

def namedGame (key url : String) : NormalizedGame := { listedGame key 150 with canonicalUrl := some url }

/-- A whole call of the run for a body with one game. -/
def wholeRunCall (rawId : Nat) : List Event :=
  List.flatten [[.start 0 (runRequest rawId)], upToWrite 0, [.act 0 (.write 0), .act 0 .finish]]

def renamedMember : List Event :=
  List.flatten [
    [.createRun fiveGameRun, .storePayload (monthOf 1 [namedGame "a" "url-1"]), .observe ⟨1, 1, 200, 50⟩],
    wholeRunCall 1,
    [.storePayload (monthOf 2 [namedGame "b" "url-1"]), .observe ⟨2, 2, 200, 60⟩],
    wholeRunCall 2,
    [.storePayload (monthOf 3 [namedGame "b" "url-2"]), .observe ⟨3, 3, 200, 70⟩],
    wholeRunCall 3, [.start 0 (runRequest 1)], upToWrite 0]

/-- The call returns the id of the member and counts it, though the run does not get it. -/
theorem renamed_member_costs : ∃ s t c d, Reachable normalizers s ∧ s.db.run 1 = some fiveGameRun ∧
    s.calls 0 = some c ∧ c.request.crawlRunId = some 1 ∧ s.step (.act 0 (.write 0)) = some t ∧ t.calls 0 = some d ∧
    d.checkpoints = ("/games/0", 1) :: c.checkpoints ∧ s.db.runHasGame 1 1 = true ∧
    t.db.runGames = s.db.runGames ∧ (c.remaining, d.remaining) = (some 2, some 1) ∧ d.gameIds = [1] := by
  obtain ⟨s, hs, hp⟩ := Reach.of_exec normalizers (fun _ _ => True) (s := World.initial) rfl renamedMember
    (fun s => decide (s.db.run 1 = some fiveGameRun ∧ s.db.runHasGame 1 1 = true) &&
      (s.calls 0).any fun c => (s.step (.act 0 (.write 0))).any fun t => (t.calls 0).any fun d =>
        decide (c.request.crawlRunId = some 1 ∧ d.checkpoints = ("/games/0", 1) :: c.checkpoints ∧
          t.db.runGames = s.db.runGames ∧ (c.remaining, d.remaining) = (some 2, some 1) ∧ d.gameIds = [1]))
    (by decide +kernel)
  obtain ⟨hstate, hcalls⟩ := Bool.and_eq_true_iff.mp hp
  obtain ⟨hrun, hhas⟩ := of_decide_eq_true hstate
  obtain ⟨c, hc, hc'⟩ := (Option.any_eq_true _ _).mp hcalls
  obtain ⟨t, ht, ht'⟩ := (Option.any_eq_true _ _).mp hc'
  obtain ⟨d, hd, hd'⟩ := (Option.any_eq_true _ _).mp ht'
  obtain ⟨hrunId, hcheck, hgames, hleft, hids⟩ := of_decide_eq_true hd'
  exact ⟨s, t, c, d, hs, hrun, hc, hrunId, ht, hd, hcheck, hhas, hgames, hleft, hids⟩

end ChessCrawl.Normalize
