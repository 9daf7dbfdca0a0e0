import ChessCrawl.Budget.Games
import ChessCrawl.Normalize.Steps

/-! Attribution of games to bounded runs. Every row of `run_games` passes `associate_run_game`, which reads
the stored game and counts the run's members under the run lock; the allowance that a call read before
taking the lock decides nothing by itself. -/
namespace ChessCrawl.Normalize
open ChessCrawl.Lib
set_option autoImplicit false

/-! ## Bounds -/

theorem runGameBounds_ok {db : Db} {runId : Nat} {provider : Provider} {requested : Option Int}
    {bounds : RunGameBounds} (h : db.runGameBounds runId provider requested = .ok bounds) :
    ∃ run, db.run runId = some run ∧
      bounds.remaining = run.params.remaining (db.members runId).length requested ∧
      (run.params.collection = false → bounds.since = run.params.since ∧ bounds.stop = run.params.stop) := by
  unfold Db.runGameBounds at h
  split at h
  · cases h
  next run hrun =>
  split at h
  · cases h
  · cases h
    refine ⟨run, hrun, rfl, fun hmode => ?_⟩
    simp [hmode]

/-- An exhausted request leaves nothing, with or without a run. -/
theorem remaining_of_zero (p : RunParams) (acquired : Nat) : p.remaining acquired (some 0) = some 0 := by
  unfold RunParams.remaining
  split
  · rfl
  · dsimp only
    congr 1
    omega

theorem includes_ended {b : RunGameBounds} {since stop : Int} {endedAt createdMs : Option Int}
    (h : b.includes endedAt createdMs = true) (hsince : b.since = some since) (hstop : b.stop = some stop) :
    ∃ ended, endedAt = some ended ∧ since ≤ ended ∧ ended < stop := by
  unfold RunGameBounds.includes at h
  rw [Bool.and_eq_true] at h
  have hwindow := h.2
  rw [hsince, hstop] at hwindow
  cases hended : endedAt with
  | none => simp [hended] at hwindow
  | some ended => exact ⟨ended, rfl, by simpa [hended, within] using hwindow⟩

/-! ## The write of a member -/

/-- What an association found, and the row it left. -/
structure Admitted (db : Db) (runId gameId : Nat) : Prop where
  absent : db.runHasGame runId gameId = false
  passed : ∃ row bounds, db.archive.game gameId = some row ∧ db.runGameBounds runId row.provider none = .ok bounds ∧
    bounds.includes row.endedAt (db.archive.createdMs row) = true ∧ bounds.remaining ≠ some 0

theorem associateRunGame_cases {db db' : Db} {runId gameId : Nat} {added : Bool}
    (h : db.associateRunGame runId gameId = .ok (added, db')) :
    (db.runHasGame runId gameId = true ∧ db' = db) ∨
      (Admitted db runId gameId ∧ db' = { db with runGames := db.runGames ++ [⟨runId, gameId⟩] }) := by
  unfold Db.associateRunGame at h
  split at h
  · cases h
  next row hrow =>
  split at h
  · next hhas =>
    cases h
    exact .inl ⟨hhas, rfl⟩
  next hhas =>
  obtain ⟨bounds, hbounds, h₁⟩ := bind_ok h
  split at h₁
  · cases h₁
  next hin =>
  split at h₁
  · cases h₁
  next hzero =>
  cases h₁
  exact .inr ⟨⟨by simpa using hhas, row, bounds, hrow, hbounds, not_not.mp hin, hzero⟩, rfl⟩

/-! ## What attribution keeps -/

/-- No bounded run has more members than its cap. -/
def Capped (db : Db) : Prop :=
  ∀ runId run, db.run runId = some run → run.params.collection = false →
    ∀ cap, run.params.maxGames = some cap → ((db.members runId).length : Int) ≤ max 0 cap

/-- The stored end of the row's game lies in the window of its run, if that is a bounded one. -/
def InWindow (db : Db) (m : RunGame) : Prop :=
  ∃ row, db.archive.game m.gameId = some row ∧
    ∀ run, db.run m.crawlRunId = some run → run.params.collection = false →
      ∀ since stop, run.params.since = some since → run.params.stop = some stop →
        ∃ ended, row.endedAt = some ended ∧ since ≤ ended ∧ ended < stop

/-- Only `run_games` changed, by rows of known runs that were admitted one after another. -/
structure Attributed (db db' : Db) : Prop where
  archive : db'.archive = db.archive
  runs : db'.runs = db.runs
  items : db'.items = db.items
  progress : db'.progress = db.progress
  ledger : db'.ledger = db.ledger
  kept : db.runGames ⊆ db'.runGames
  fresh : ∀ m ∈ db'.runGames, m ∈ db.runGames ∨ (InWindow db' m ∧ (db'.run m.crawlRunId).isSome)
  capped : Capped db → Capped db'

theorem Attributed.refl (db : Db) : Attributed db db :=
  ⟨rfl, rfl, rfl, rfl, rfl, List.Subset.refl _, fun _ hm => .inl hm, id⟩

theorem InWindow.congr {db db' : Db} {m : RunGame} (h : InWindow db m) (ha : db'.archive = db.archive)
    (hr : db'.runs = db.runs) : InWindow db' m := by
  unfold InWindow Db.run at h ⊢
  rw [ha, hr]
  exact h

theorem Attributed.trans {db₁ db₂ db₃ : Db} (h : Attributed db₁ db₂) (h' : Attributed db₂ db₃) :
    Attributed db₁ db₃ := by
  refine ⟨h'.archive.trans h.archive, h'.runs.trans h.runs, h'.items.trans h.items,
    h'.progress.trans h.progress, h'.ledger.trans h.ledger, List.Subset.trans h.kept h'.kept, fun m hm => ?_,
    fun hc => h'.capped (h.capped hc)⟩
  rcases h'.fresh m hm with hold | hnew
  · rcases h.fresh m hold with holder | ⟨hwin, hknown⟩
    · exact .inl holder
    · right
      refine ⟨hwin.congr h'.archive h'.runs, ?_⟩
      unfold Db.run at hknown ⊢
      rw [h'.runs]
      exact hknown
  · exact .inr hnew

theorem capped_append {db : Db} {runId gameId : Nat} {run : CrawlRun} (hc : Capped db)
    (hrun : db.run runId = some run)
    (hroom : run.params.remaining (db.members runId).length none ≠ some 0) :
    Capped { db with runGames := db.runGames ++ [⟨runId, gameId⟩] } := by
  intro id r hr hmode cap hcap
  have hold := hc id r hr hmode cap hcap
  have hmembers : Db.members { db with runGames := db.runGames ++ [⟨runId, gameId⟩] } id =
      db.members id ++ if runId = id then [⟨runId, gameId⟩] else [] := by
    unfold Db.members
    rw [List.filter_append]
    by_cases hid : runId = id <;> simp [hid]
  rw [hmembers]
  by_cases hid : runId = id
  · subst hid
    have hsame : r = run := Option.some.inj (hr.symm.trans hrun)
    subst hsame
    -- the count that the check read is the count before the row
    have hleft : max 0 (cap - ((db.members runId).length : Int)) ≠ 0 := by
      intro hzero
      apply hroom
      simp [RunParams.remaining, hmode, hcap, hzero]
    simp only [if_true, List.length_append, List.length_singleton, Nat.cast_add, Nat.cast_one]
    omega
  · simpa [hid] using hold

theorem Admitted.attributed {db : Db} {runId gameId : Nat} (h : Admitted db runId gameId) :
    Attributed db { db with runGames := db.runGames ++ [⟨runId, gameId⟩] } := by
  obtain ⟨_, row, bounds, hrow, hbounds, hin, hzero⟩ := h
  obtain ⟨run, hrun, hremaining, hwindow⟩ := runGameBounds_ok hbounds
  refine ⟨rfl, rfl, rfl, rfl, rfl, List.subset_append_left _ _, fun m hm => ?_, fun hc => ?_⟩
  · rcases List.mem_append.mp hm with hold | hnew
    · exact .inl hold
    · right
      obtain rfl := List.mem_singleton.mp hnew
      refine ⟨⟨row, hrow, fun r hr hmode since stop hsince hstop => ?_⟩, Option.isSome_of_mem hrun⟩
      have hsame : r = run := Option.some.inj (hr.symm.trans hrun)
      subst hsame
      obtain ⟨hs, he⟩ := hwindow hmode
      exact includes_ended hin (hs.trans hsince) (he.trans hstop)
  · rw [hremaining] at hzero
    exact capped_append hc hrun hzero

theorem associateRunGame_attributed {db db' : Db} {runId gameId : Nat} {added : Bool}
    (h : db.associateRunGame runId gameId = .ok (added, db')) : Attributed db db' := by
  rcases associateRunGame_cases h with ⟨_, rfl⟩ | ⟨hadmitted, rfl⟩
  · exact .refl db'
  · exact hadmitted.attributed

theorem associateAll_attributed {runId : Nat} {gameIds : List Nat} {db db' : Db}
    (h : db.associateAll runId gameIds = .ok db') : Attributed db db' := by
  induction gameIds generalizing db with
  | nil =>
    cases h
    exact .refl _
  | cons gameId rest ih =>
    obtain ⟨⟨added, db₁⟩, hone, h₁⟩ := bind_ok h
    exact (associateRunGame_attributed hone).trans (ih h₁)

theorem attribute_attributed {c : Call} {db db' : Db} {gameId : Nat} {written : Written}
    (h : c.attribute db gameId = .ok (written, db')) : Attributed db db' := by
  unfold Call.attribute at h
  split at h
  · cases h
    exact .refl db
  · next runId _ =>
    cases ha : db.associateRunGame runId gameId with
    | error e =>
      rw [ha] at h
      cases h
    | ok r =>
      rw [ha] at h
      cases h
      exact associateRunGame_attributed ha

/-! ## Steps -/

/-- Before the attribution, a step may have written anything but runs and their members. -/
def Attributes (db db' : Db) : Prop :=
  ∃ mid : Db, mid.runs = db.runs ∧ mid.runGames = db.runGames ∧ Attributed mid db'

theorem Attributes.of_same {db db' : Db} (hr : db'.runs = db.runs) (hg : db'.runGames = db.runGames) :
    Attributes db db' :=
  ⟨db', hr, hg, .refl db'⟩

theorem writeGame_attributes {c : Call} {db db' : Db} {g : NormalizedGame} {pointer : String}
    {written : Written} (h : WroteGame c db g pointer written db') : Attributes db db' := by
  cases h with
  | excluded => exact .of_same rfl rfl
  | refreshed hreserve hstored =>
    obtain ⟨L, rfl⟩ := reserveGame_db hreserve
    exact .of_same hstored.runs hstored.runGames
  | acquired _ _ _ hreserve hstored hattr =>
    obtain ⟨L, rfl⟩ := reserveGame_db hreserve
    exact ⟨_, hstored.runs, hstored.runGames, attribute_attributed hattr⟩

theorem certify_runs (db : Db) (rawId : Nat) (parserVersion : String) (observed : Nat) (pointers : List String)
    (empty : Bool) :
    (db.certify rawId parserVersion observed pointers empty).runs = db.runs ∧
      (db.certify rawId parserVersion observed pointers empty).runGames = db.runGames ∧
      (db.certify rawId parserVersion observed pointers empty).ledger = db.ledger := by
  unfold Db.certify Db.finishNormalization
  split
  · next hfin =>
    split at hfin <;> cases hfin
    exact ⟨rfl, rfl, rfl⟩
  · next hfin =>
    split at hfin <;> cases hfin
    exact ⟨rfl, rfl, rfl⟩

theorem moved_attributes {c : Call} {db db' : Db} {c' : Option Call} (h : Moved c db c' db') :
    Attributes db db' := by
  cases h with
  | raised => exact .of_same rfl rfl
  | kept => exact .of_same rfl rfl
  | paid => exact .of_same rfl rfl
  | wrote _ hwrite => exact writeGame_attributes (writeGame_wrote hwrite)
  | finished =>
    obtain ⟨hr, hg, _⟩ := certify_runs db c.request.rawId c.request.parserVersion c.observed c.pointers
      c.pointers.isEmpty
    exact .of_same hr hg

theorem beginNormalization_runs {db db' : Db} {rawId observed : Nat} {parserVersion : String}
    (h : db.beginNormalization rawId parserVersion = .ok (observed, db')) :
    db'.runs = db.runs ∧ db'.runGames = db.runGames ∧ db'.ledger = db.ledger := by
  unfold Db.beginNormalization at h
  split at h
  · cases h
  · cases h
    split <;> exact ⟨rfl, rfl, rfl⟩

theorem startCall_runs {db db' : Db} {q : Request} {c : Call} (h : db.startCall q = .ok (c, db')) :
    db'.runs = db.runs ∧ db'.runGames = db.runGames ∧ db'.ledger = db.ledger := by
  obtain ⟨_, _, _, _, raw, _, ⟨_, _, hbegin⟩ | ⟨_, rfl⟩⟩ := startCall_cases h
  · exact beginNormalization_runs hbegin
  · exact ⟨rfl, rfl, rfl⟩

/-- Every step creates a run or attributes. -/
theorem step_attributes {s t : World} {e : Event} (h : Stepped s e t) :
    (∃ run, s.db.run run.id = none ∧ t.db = { s.db with runs := s.db.runs ++ [run] }) ∨
      Attributes s.db t.db := by
  cases h with
  | createRun hnone => exact .inl ⟨_, hnone, rfl⟩
  | storePayload => exact .inr (.of_same rfl rfl)
  | observe => exact .inr (.of_same rfl rfl)
  | upsert => exact .inr (.of_same rfl rfl)
  | ledger => exact .inr (.of_same rfl rfl)
  | abandon => exact .inr (.of_same rfl rfl)
  | associate hall => exact .inr ⟨s.db, rfl, rfl, associateAll_attributed hall⟩
  | start _ hstart =>
    obtain ⟨hr, hg, _⟩ := startCall_runs hstart
    exact .inr (.of_same hr hg)
  | act _ hact => exact .inr (moved_attributes (act_moved hact))

end ChessCrawl.Normalize
