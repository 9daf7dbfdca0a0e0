import ChessCrawl.Normalize.Attribution

/-! The game cap of a bounded run, over every interleaving of workers. The members of a run never exceed
its cap, a new member's stored end lies in the run's window, and what a call has returned and what it may
still return add up to what it was asked for. -/
namespace ChessCrawl.Normalize
open ChessCrawl.Lib
set_option autoImplicit false

/-! ## Calls -/

/-- What a call has returned and what it may still return add up to its request. -/
def Call.Within (c : Call) : Prop :=
  ∀ limit, c.request.maxGames = some limit →
    ∃ left, c.remaining = some left ∧ 0 ≤ left ∧ (c.gameIds.length : Int) + left = limit

theorem Call.Within.keeps {c c' : Call} (h : c.Within) (hk : c.Keeps c') : c'.Within := by
  intro limit hlimit
  rw [hk.request] at hlimit
  rw [hk.remaining, hk.gameIds]
  exact h limit hlimit

/-- The locked charge reports what the membership read before it said. -/
theorem reserveGame_acquired {c : Call} {db db' : Db} {g : NormalizedGame} {now : Int} {acquired : Bool}
    (h : c.reserveGame db g now = .ok (acquired, db')) : acquired = c.alreadyAcquired db g := by
  unfold Call.reserveGame at h
  split at h
  · cases h
    rfl
  next budgetId hbudget =>
  split at h
  · cases h
  next isNew L hreserve =>
  cases h
  cases hrun : c.request.crawlRunId with
  | some runId => rfl
  | none =>
    have hnew := (Budget.reserveGame_spec hreserve).1
    simp [Call.alreadyAcquired, hrun, hbudget, hnew, Db.workBudgetHasGame, Budget.Ledger.hasGame]

/-- The allowance under the lock is exhausted once the request is. -/
theorem allowance_of_zero {c : Call} {db : Db} {bounds : Option RunGameBounds} (hb : c.bounds db = .ok bounds)
    (hzero : c.remaining = some 0) : c.allowance bounds = some 0 := by
  unfold Call.bounds at hb
  split at hb
  · cases hb
    exact hzero
  next runId _ =>
  cases hrun : db.runGameBounds runId c.provider c.remaining with
  | error e =>
    rw [hrun] at hb
    cases hb
  | ok b =>
    rw [hrun] at hb
    cases hb
    obtain ⟨run, _, hremaining, _⟩ := runGameBounds_ok hrun
    rw [hzero, remaining_of_zero] at hremaining
    exact hremaining

/-- A game counts against a call only while the call has capacity and the game is new to it. -/
theorem acquired_room {c : Call} {db db' : Db} {g : NormalizedGame} {pointer : String} {gameId : Nat}
    (h : WroteGame c db g pointer (.acquired gameId) db') :
    c.remaining ≠ some 0 ∧ c.alreadyAcquired db g = false := by
  cases h with
  | acquired hbounds _ hallow hreserve _ _ =>
    have hnew := (reserveGame_acquired hreserve).symm
    refine ⟨fun hzero => ?_, hnew⟩
    rw [hnew] at hallow
    rcases hallow with hold | hroom
    · cases hold
    · exact hroom (allowance_of_zero hbounds hzero)

theorem wrote_within {c : Call} {db db' : Db} {g : NormalizedGame} {pointer : String} {written : Written}
    (hc : c.Within) (h : WroteGame c db g pointer written db') : (c.wrote pointer written).Within := by
  cases written with
  | excluded => exact hc.keeps c.keeps_next
  | refreshed gameId => exact hc.keeps ⟨rfl, rfl, rfl, rfl, rfl, rfl⟩
  | acquired gameId =>
    intro limit hlimit
    obtain ⟨left, hleft, hpos, hsum⟩ := hc limit hlimit
    have hroom := (acquired_room h).1
    have hne : left ≠ 0 := fun h0 => hroom (hleft.trans (congrArg some h0))
    refine ⟨left - 1, ?_, by omega, ?_⟩
    · simp [Call.wrote, hleft]
    · simp only [Call.wrote, List.length_append, List.length_singleton, Nat.cast_add, Nat.cast_one]
      omega

theorem moved_within {c c' : Call} {db db' : Db} (hc : c.Within) (h : Moved c db (some c') db') : c'.Within := by
  cases h with
  | kept hk => exact hc.keeps hk
  | paid hk => exact hc.keeps hk
  | wrote _ hwrite => exact wrote_within hc (writeGame_wrote hwrite)
  | finished => exact hc.keeps ⟨rfl, rfl, rfl, rfl, rfl, rfl⟩

theorem startCall_within {db db' : Db} {q : Request} {c : Call} (h : db.startCall q = .ok (c, db')) :
    c.Within := by
  obtain ⟨hmax, hrequest, hids, hremaining, _⟩ := startCall_cases h
  intro limit hlimit
  rw [hrequest] at hlimit
  rw [hids, hremaining, hlimit]
  exact ⟨limit, rfl, hmax limit hlimit, by simp⟩

/-! ## The invariant -/

structure CapOk (s : World) : Prop where
  known : ∀ m ∈ s.db.runGames, (s.db.run m.crawlRunId).isSome
  capped : Capped s.db
  calls : ∀ w c, s.calls w = some c → c.Within

theorem run_append {db : Db} {run r : CrawlRun} {runId : Nat} (h : db.run runId = some r) :
    Db.run { db with runs := db.runs ++ [run] } runId = some r := by
  unfold Db.run at h ⊢
  rw [List.find?_append, h]
  rfl

/-- A new run has no members. -/
theorem createRun_capped {db : Db} {run : CrawlRun}
    (hknown : ∀ m ∈ db.runGames, (db.run m.crawlRunId).isSome) (hc : Capped db) :
    Capped { db with runs := db.runs ++ [run] } := by
  intro runId r hr hmode cap hcap
  cases hold : db.run runId with
  | some r' =>
    have hsame : r' = r := Option.some.inj ((run_append hold).symm.trans hr)
    subst hsame
    exact hc runId r' hold hmode cap hcap
  | none =>
    have hempty : db.members runId = [] := by
      refine List.filter_eq_nil_iff.mpr fun m hm heq => ?_
      have hsome := hknown m hm
      rw [of_decide_eq_true heq, hold] at hsome
      cases hsome
    show ((db.members runId).length : Int) ≤ max 0 cap
    rw [hempty, List.length_nil]
    omega

theorem Attributes.known {db db' : Db} (h : Attributes db db')
    (hk : ∀ m ∈ db.runGames, (db.run m.crawlRunId).isSome) :
    ∀ m ∈ db'.runGames, (db'.run m.crawlRunId).isSome := by
  obtain ⟨mid, hruns, hgames, hattr⟩ := h
  intro m hm
  rcases hattr.fresh m hm with hold | ⟨_, hnew⟩
  · rw [hgames] at hold
    have hsome := hk m hold
    unfold Db.run at hsome ⊢
    rw [hattr.runs, hruns]
    exact hsome
  · exact hnew

theorem Attributes.capped {db db' : Db} (h : Attributes db db') (hc : Capped db) : Capped db' := by
  obtain ⟨mid, hruns, hgames, hattr⟩ := h
  refine hattr.capped ?_
  unfold Capped Db.run Db.members at hc ⊢
  rw [hruns, hgames]
  exact hc

theorem calls_within {s t : World} {e : Event} (hs : ∀ w c, s.calls w = some c → c.Within)
    (h : Stepped s e t) : ∀ w c, t.calls w = some c → c.Within := by
  intro w c hw
  cases h with
  | start _ hstart =>
    rcases setCall_calls hw with hold | ⟨_, hnew⟩
    · exact hs w c hold
    · cases hnew
      exact startCall_within hstart
  | act hc hact =>
    rcases setCall_calls hw with hold | ⟨_, hnew⟩
    · exact hs w c hold
    · subst hnew
      exact moved_within (hs _ _ hc) (act_moved hact)
  | abandon =>
    rcases setCall_calls hw with hold | ⟨_, hnew⟩
    · exact hs w c hold
    · cases hnew
  | storePayload => exact hs w c hw
  | observe => exact hs w c hw
  | createRun => exact hs w c hw
  | upsert => exact hs w c hw
  | associate => exact hs w c hw
  | ledger => exact hs w c hw

theorem capOk_step {s t : World} {e : Event} (hs : CapOk s) (h : Stepped s e t) : CapOk t := by
  rcases step_attributes h with ⟨run, _, hdb⟩ | hattr
  · refine ⟨?_, ?_, calls_within hs.calls h⟩
    · rw [hdb]
      intro m hm
      obtain ⟨r, hr⟩ := Option.isSome_iff_exists.mp (hs.known m hm)
      exact Option.isSome_of_mem (run_append hr)
    · rw [hdb]
      exact createRun_capped hs.known hs.capped
  · exact ⟨hattr.known hs.known, hattr.capped hs.capped, calls_within hs.calls h⟩

theorem capOk_of_reachable {s : World} (h : Reachable normalizers s) : CapOk s := by
  refine Reachable.invariant (I := CapOk) ?_ (fun s e t hI hstep => capOk_step hI (step_stepped hstep)) h
  rintro _ rfl
  refine ⟨fun m hm => absurd hm List.not_mem_nil, fun runId run hrun => ?_, fun w c hw => nomatch hw⟩
  cases hrun

/-! ## The cap in every run -/

/-- A bounded run with a cap and a window. -/
structure CrawlRun.Bounded (run : CrawlRun) (cap : Nat) (since stop : Int) : Prop where
  mode : run.params.collection = false
  maxGames : run.params.maxGames = some (cap : Int)
  since : run.params.since = some since
  stop : run.params.stop = some stop

/-- What `run_game_bounds` reads of a run is its row and its members. -/
theorem runGameBounds_congr {db db' : Db} (hr : db'.runs = db.runs) (hg : db'.runGames = db.runGames)
    (runId : Nat) (provider : Provider) (requested : Option Int) :
    db'.runGameBounds runId provider requested = db.runGameBounds runId provider requested := by
  unfold Db.runGameBounds Db.run Db.members
  rw [hr, hg]

/-- A row that a step added to a bounded run. -/
theorem step_fresh {s t : World} {e : Event} {run : CrawlRun} {cap : Nat} {since stop : Int}
    (hrun : s.db.run run.id = some run) (hb : run.Bounded cap since stop) (h : Stepped s e t) :
    ∀ m ∈ t.db.members run.id, m ∈ s.db.members run.id ∨
      ∃ row ended, t.db.archive.game m.gameId = some row ∧ row.endedAt = some ended ∧
        since ≤ ended ∧ ended < stop := by
  intro m hm
  obtain ⟨hmem, hid⟩ := List.mem_filter.mp hm
  rcases step_attributes h with ⟨_, _, hdb⟩ | ⟨mid, hruns, hgames, hattr⟩
  · rw [hdb] at hmem
    exact .inl (List.mem_filter.mpr ⟨hmem, hid⟩)
  · rcases hattr.fresh m hmem with hold | ⟨⟨row, hrow, hwindow⟩, _⟩
    · rw [hgames] at hold
      exact .inl (List.mem_filter.mpr ⟨hold, hid⟩)
    · right
      have hsame : t.db.run m.crawlRunId = some run := by
        rw [of_decide_eq_true hid]
        unfold Db.run at hrun ⊢
        rw [hattr.runs, hruns]
        exact hrun
      obtain ⟨ended, hended, hge, hlt⟩ := hwindow run hsame hb.mode since stop hb.since hb.stop
      exact ⟨row, ended, hrow, hended, hge, hlt⟩

/-! ## Payloads and runs -/

def blitzFacts : GameFacts := ⟨true, some .whiteWin, false, some "mate", "chess", "180"⟩

/-- A finished game as a month lists it. -/
def listedGame (key : String) (ended : Int) : NormalizedGame :=
  ⟨.chessCom, some key, none, "hash-" ++ key, blitzFacts, none, some ended, false, false, none, "revision-" ++ key⟩

def monthOf (rawId : Nat) (games : List NormalizedGame) : RawPayload :=
  ⟨rawId, .chessCom, .monthlyArchive, games, 50, .pending, none⟩

def runRequest (rawId : Nat) : Request := ⟨rawId, some 1, some 2, none, true, "v5/e1", "e1"⟩

def singleGameRun : CrawlRun := ⟨1, .chessCom, ⟨false, some 1, some 100, some 200, none, none⟩⟩

/-- The statements of a call up to its first write. -/
def upToWrite (w : Nat) : List Event :=
  [.act w .checkpoint, .act w .retain, .act w .preflight, .act w (.pay 0)]

end ChessCrawl.Normalize
