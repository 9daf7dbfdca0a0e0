import ChessCrawl.Normalize.Payload

/-! What one step of a call can do. A step either reads, charges an interpretation unit, runs the locked
transaction of the current game, or closes the call; everything else about the call and the tables stays. -/
namespace ChessCrawl.Normalize
open ChessCrawl.Lib
set_option autoImplicit false

/-! ## Calls -/

/-- The part of a call that only an acquisition changes. -/
structure Call.Keeps (c c' : Call) : Prop where
  request : c'.request = c.request
  provider : c'.provider = c.provider
  pointers : c'.pointers = c.pointers
  observed : c'.observed = c.observed
  gameIds : c'.gameIds = c.gameIds
  remaining : c'.remaining = c.remaining

theorem Call.keeps_next (c : Call) : c.Keeps c.next := ⟨rfl, rfl, rfl, rfl, rfl, rfl⟩

inductive Moved (c : Call) (db : Db) : Option Call → Db → Prop
  | raised : Moved c db none db
  | kept {c' : Call} : c.Keeps c' → Moved c db (some c') db
  | paid {c' : Call} {budgetId : Nat} {now : Int} {isNew : Bool} {L : Budget.Ledger} : c.Keeps c' →
      c.request.workBudgetId = some budgetId →
      db.ledger.reserveNormalization budgetId none 1 now = .ok (isNew, L) →
      Moved c db (some c') { db with ledger := L }
  | wrote {pointer : String} {g : NormalizedGame} {rest : List (String × NormalizedGame)} {prepared : Bool}
      {now : Int} {written : Written} {db' : Db} : c.todo = (pointer, g) :: rest →
      c.writeGame db pointer g prepared now = .ok (written, db') →
      Moved c db (some (c.wrote pointer written)) db'
  | finished : Moved c db (some { c with phase := .returned })
      (db.certify c.request.rawId c.request.parserVersion c.observed c.pointers c.pointers.isEmpty)

theorem preflight_moved (c : Call) (db : Db) (g : NormalizedGame) : Moved c db (c.preflight db g) db := by
  unfold Call.preflight
  split
  · apply Moved.raised
  · apply Moved.kept
    split
    · exact c.keeps_next
    · split <;> exact ⟨rfl, rfl, rfl, rfl, rfl, rfl⟩

theorem pay_moved (c : Call) (db : Db) (pointer : String) (now : Int) :
    Moved c db (c.pay db pointer now).1 (c.pay db pointer now).2 := by
  unfold Call.pay
  dsimp only
  split
  · apply Moved.kept
    exact ⟨rfl, rfl, rfl, rfl, rfl, rfl⟩
  · next budgetId hbudget =>
    split
    · apply Moved.raised
    · next isNew L hreserve => exact Moved.paid ⟨rfl, rfl, rfl, rfl, rfl, rfl⟩ hbudget hreserve

theorem write_moved (c : Call) (db : Db) {pointer : String} {g : NormalizedGame}
    {rest : List (String × NormalizedGame)} (htodo : c.todo = (pointer, g) :: rest) (prepared : Bool) (now : Int) :
    Moved c db (c.write db pointer g prepared now).1 (c.write db pointer g prepared now).2 := by
  unfold Call.write
  split
  · next written db' hwrite => exact Moved.wrote htodo hwrite
  · apply Moved.kept
    exact ⟨rfl, rfl, rfl, rfl, rfl, rfl⟩
  · apply Moved.raised

/-- Where each step of a call finds it. -/
inductive Acted (c : Call) (db : Db) : Act → Option Call → Db → Prop
  | checkpoint : c.phase = .begun → Acted c db .checkpoint
      (some { c with
        checkpoints := db.processedItems c.request.rawId c.request.parserVersion c.observed
        phase := .checkpointed }) db
  | retain : c.phase = .checkpointed → Acted c db .retain
      (some { c with
        retained := db.archive.reusableGameSources c.request.evidenceVersion c.request.rawId c.todo
        phase := .scanning }) db
  | preflight {pointer : String} {g : NormalizedGame} {rest : List (String × NormalizedGame)} :
      c.phase = .scanning → c.todo = (pointer, g) :: rest → Acted c db .preflight (c.preflight db g) db
  | select {pointer : String} {g : NormalizedGame} {rest : List (String × NormalizedGame)} :
      c.phase = .exhausted → c.todo = (pointer, g) :: rest →
      Acted c db .select (some (if c.alreadyAcquired db g then { c with phase := .admitted } else c.next)) db
  | pay {now : Int} {pointer : String} {g : NormalizedGame} {rest : List (String × NormalizedGame)} :
      c.phase = .admitted → c.todo = (pointer, g) :: rest →
      Acted c db (.pay now) (c.pay db pointer now).1 (c.pay db pointer now).2
  | write {now : Int} {prepared : Bool} {pointer : String} {g : NormalizedGame}
      {rest : List (String × NormalizedGame)} : c.phase = .paid prepared → c.todo = (pointer, g) :: rest →
      Acted c db (.write now) (c.write db pointer g prepared now).1 (c.write db pointer g prepared now).2
  | finish : c.phase = .scanning → c.todo = [] → Acted c db .finish (some { c with phase := .returned })
      (db.certify c.request.rawId c.request.parserVersion c.observed c.pointers c.pointers.isEmpty)

theorem act_acted {c : Call} {db db' : Db} {a : Act} {c' : Option Call} (h : c.act db a = some (c', db')) :
    Acted c db a c' db' := by
  unfold Call.act at h
  split at h
  · split at h
    · next hphase =>
      cases h
      exact .checkpoint hphase
    · cases h
  · split at h
    · next hphase =>
      cases h
      exact .retain hphase
    · cases h
  · split at h
    · next hphase htodo =>
      cases h
      exact .preflight hphase htodo
    · cases h
  · split at h
    · next hphase htodo =>
      cases h
      exact .select hphase htodo
    · cases h
  · split at h
    · next hphase htodo =>
      have hpay : Acted c db (.pay ‹Int›) _ _ := .pay hphase htodo
      rw [Option.some.inj h] at hpay
      exact hpay
    · cases h
  · split at h
    · next hphase htodo =>
      have hwrite : Acted c db (.write ‹Int›) _ _ := .write hphase htodo
      rw [Option.some.inj h] at hwrite
      exact hwrite
    · cases h
  · split at h
    · next hphase htodo =>
      cases h
      exact .finish hphase htodo
    · cases h

theorem act_moved {c : Call} {db db' : Db} {a : Act} {c' : Option Call} (h : c.act db a = some (c', db')) :
    Moved c db c' db' := by
  cases act_acted h with
  | checkpoint => exact .kept ⟨rfl, rfl, rfl, rfl, rfl, rfl⟩
  | retain => exact .kept ⟨rfl, rfl, rfl, rfl, rfl, rfl⟩
  | preflight => apply preflight_moved
  | select =>
    apply Moved.kept
    split
    · exact ⟨rfl, rfl, rfl, rfl, rfl, rfl⟩
    · exact c.keeps_next
  | pay => apply pay_moved
  | write _ htodo => exact write_moved c db htodo _ _
  | finish => exact .finished

/-- The preflight leaves the game, or goes on with it under the allowance or without it. -/
theorem preflight_cases {c d : Call} {db : Db} {g : NormalizedGame} (h : c.preflight db g = some d) :
    ∃ bounds, c.bounds db = .ok bounds ∧ ((admits bounds g = false ∧ d = c.next) ∨
      (c.allowance bounds = some 0 ∧ d = { c with phase := .exhausted }) ∨ d = { c with phase := .admitted }) := by
  unfold Call.preflight at h
  split at h
  · cases h
  next bounds hbounds =>
  cases h
  refine ⟨bounds, hbounds, ?_⟩
  split
  · next hadmits => exact .inl ⟨Bool.eq_false_iff.mpr hadmits, rfl⟩
  · split
    · next hzero => exact .inr (.inl ⟨hzero, rfl⟩)
    · exact .inr (.inr rfl)

theorem pay_cases (c : Call) (db : Db) (pointer : String) (now : Int) : ∃ L : Budget.Ledger,
    (c.pay db pointer now).2 = { db with ledger := L } ∧ ((c.pay db pointer now).1 = none ∨
      ∃ prepared, (c.pay db pointer now).1 = some { c with phase := .paid prepared }) := by
  unfold Call.pay
  dsimp only
  split
  · exact ⟨db.ledger, rfl, .inr ⟨_, rfl⟩⟩
  · split
    · exact ⟨db.ledger, rfl, .inl rfl⟩
    · exact ⟨_, rfl, .inr ⟨_, rfl⟩⟩

theorem write_cases (c : Call) (db : Db) (pointer : String) (g : NormalizedGame) (prepared : Bool) (now : Int) :
    (∃ written, c.writeGame db pointer g prepared now = .ok (written, (c.write db pointer g prepared now).2) ∧
        (c.write db pointer g prepared now).1 = some (c.wrote pointer written)) ∨
      ((c.write db pointer g prepared now).2 = db ∧ ((c.write db pointer g prepared now).1 = none ∨
        (c.write db pointer g prepared now).1 = some { c with phase := .paid true })) := by
  unfold Call.write
  split
  · next written db' hwrite => exact .inl ⟨written, hwrite, rfl⟩
  · exact .inr ⟨rfl, .inr rfl⟩
  · exact .inr ⟨rfl, .inl rfl⟩

/-! ## The locked transaction -/

/-- Stored bodies and fetch logs are not what a game's writes change. -/
structure SameBodies (a a' : Archive) : Prop where
  raws : a'.raws = a.raws
  logs : a'.logs = a.logs

theorem SameBodies.trans {a b c : Archive} (h : SameBodies a b) (h' : SameBodies b c) : SameBodies a c :=
  ⟨h'.raws.trans h.raws, h'.logs.trans h.logs⟩

theorem upsertGame_bodies {a a' : Archive} {g : NormalizedGame} {gameId : Nat}
    (h : a.upsertGame g = .ok (gameId, a')) : SameBodies a a' := by
  unfold Archive.upsertGame at h
  split at h
  · cases h
    exact ⟨rfl, rfl⟩
  · dsimp only at h
    split at h
    · cases h
    · cases h
      exact ⟨rfl, rfl⟩

theorem writeFacts_bodies {a a' : Archive} {rawId gameId : Nat} {g : NormalizedGame}
    (h : a.writeFacts rawId g = .ok (gameId, a')) : SameBodies a a' := by
  unfold Archive.writeFacts at h
  split at h
  · split at h
    · exact upsertGame_bodies h
    · cases h
      exact ⟨rfl, rfl⟩
  · exact upsertGame_bodies h

theorem storeGameEvidence_bodies {a a' : Archive} {version pointer : String} {gameId rawId : Nat}
    {g : NormalizedGame} {evidence : Bool}
    (h : a.storeGameEvidence version gameId rawId pointer g evidence = .ok a') : SameBodies a a' := by
  unfold Archive.storeGameEvidence at h
  split at h
  · cases h
    exact ⟨rfl, rfl⟩
  · split at h
    · cases h
      exact ⟨rfl, rfl⟩
    · cases h

theorem normalizeGame_bodies {a a' : Archive} {version pointer : String} {rawId gameId : Nat}
    {g : NormalizedGame} {evidence : Bool}
    (h : a.normalizeGame version rawId pointer g evidence = .ok (gameId, a')) : SameBodies a a' := by
  unfold Archive.normalizeGame at h
  obtain ⟨⟨id, a₁⟩, hfacts, h₁⟩ := bind_ok h
  obtain ⟨a₂, hstore, h₂⟩ := bind_ok h₁
  cases h₂
  have hrecord : SameBodies a₁ (a₁.insertSourceRecord gameId rawId) := ⟨rfl, rfl⟩
  exact (writeFacts_bodies hfacts).trans (hrecord.trans (storeGameEvidence_bodies hstore))

/-- The tables between the charge of a game and its attribution. -/
structure Stored (c : Call) (db mid : Db) (pointer : String) (gameId : Nat) : Prop where
  bodies : SameBodies db.archive mid.archive
  runs : mid.runs = db.runs
  runGames : mid.runGames = db.runGames
  progress : mid.progress = db.progress
  ledger : mid.ledger = db.ledger
  items : mid.items = (db.markItem ⟨c.request.rawId, c.request.parserVersion, pointer, c.observed, gameId⟩).items

/-- How a transaction got where it is: what it checked, charged, stored and attributed. -/
inductive WroteGame (c : Call) (db : Db) (g : NormalizedGame) (pointer : String) : Written → Db → Prop
  | excluded : WroteGame c db g pointer .excluded db
  | refreshed {gameId : Nat} {now : Int} {charged mid : Db} :
      c.reserveGame db g now = .ok (true, charged) → Stored c charged mid pointer gameId →
      WroteGame c db g pointer (.refreshed gameId) mid
  | acquired {gameId : Nat} {now : Int} {charged mid db' : Db} {bounds : Option RunGameBounds} :
      c.bounds db = .ok bounds → admits bounds g = true →
      (c.alreadyAcquired db g = true ∨ c.allowance bounds ≠ some 0) →
      c.reserveGame db g now = .ok (false, charged) → Stored c charged mid pointer gameId →
      c.attribute mid gameId = .ok (.acquired gameId, db') →
      WroteGame c db g pointer (.acquired gameId) db'

theorem reserveGame_db {c : Call} {db db' : Db} {g : NormalizedGame} {now : Int} {acquired : Bool}
    (h : c.reserveGame db g now = .ok (acquired, db')) : ∃ L, db' = { db with ledger := L } := by
  unfold Call.reserveGame at h
  split at h
  · cases h
    exact ⟨db.ledger, rfl⟩
  · split at h
    · cases h
    · next L _ =>
      cases h
      exact ⟨L, rfl⟩

theorem storeGame_db {c : Call} {db db' : Db} {pointer : String} {g : NormalizedGame} {prepared : Bool}
    {gameId : Nat} (h : c.storeGame db pointer g prepared = .ok (gameId, db')) :
    ∃ a, SameBodies db.archive a ∧ db' = { db with archive := a } := by
  unfold Call.storeGame at h
  dsimp only at h
  split at h
  · cases h
    exact ⟨db.archive, ⟨rfl, rfl⟩, rfl⟩
  · cases hwrite : db.archive.normalizeGame c.request.evidenceVersion c.request.rawId pointer g prepared with
    | error e =>
      rw [hwrite] at h
      cases h
    | ok r =>
      rw [hwrite] at h
      cases h
      exact ⟨r.2, normalizeGame_bodies hwrite, rfl⟩

theorem attribute_acquired {c : Call} {db db' : Db} {gameId : Nat} {written : Written}
    (h : c.attribute db gameId = .ok (written, db')) : written = .acquired gameId := by
  unfold Call.attribute at h
  split at h
  · cases h
    rfl
  · next runId _ =>
    cases ha : db.associateRunGame runId gameId with
    | error e =>
      rw [ha] at h
      cases h
    | ok r =>
      rw [ha] at h
      cases h
      rfl

theorem writeAdmitted_wrote {c : Call} {db db' : Db} {pointer : String} {g : NormalizedGame} {prepared : Bool}
    {now : Int} {written : Written} {bounds : Option RunGameBounds} (hbounds : c.bounds db = .ok bounds)
    (hadmits : admits bounds g = true) (hallow : c.alreadyAcquired db g = true ∨ c.allowance bounds ≠ some 0)
    (h : c.writeAdmitted db pointer g prepared now = .ok (written, db')) :
    WroteGame c db g pointer written db' := by
  unfold Call.writeAdmitted at h
  obtain ⟨⟨acquired, charged⟩, hreserve, h₁⟩ := bind_ok h
  obtain ⟨⟨gameId, db₂⟩, hstore, h₂⟩ := bind_ok h₁
  obtain ⟨a, hbodies, rfl⟩ := storeGame_db hstore
  have hstored : Stored c charged (Db.markItem { charged with archive := a }
      ⟨c.request.rawId, c.request.parserVersion, pointer, c.observed, gameId⟩) pointer gameId :=
    ⟨hbodies, rfl, rfl, rfl, rfl, rfl⟩
  cases acquired with
  | true =>
    cases h₂
    exact .refreshed hreserve hstored
  | false =>
    have hattr : c.attribute _ gameId = .ok (written, db') := h₂
    obtain rfl := attribute_acquired hattr
    exact .acquired hbounds hadmits hallow hreserve hstored hattr

theorem writeGame_wrote {c : Call} {db db' : Db} {pointer : String} {g : NormalizedGame} {prepared : Bool}
    {now : Int} {written : Written} (h : c.writeGame db pointer g prepared now = .ok (written, db')) :
    WroteGame c db g pointer written db' := by
  unfold Call.writeGame at h
  obtain ⟨bounds, hbounds, h₁⟩ := bind_ok h
  split at h₁
  · cases h₁
    exact .excluded
  next hadmits =>
  split at h₁
  · cases h₁
    exact .excluded
  next hallow =>
  refine writeAdmitted_wrote hbounds (not_not.mp hadmits) ?_ h₁
  by_cases hacq : c.alreadyAcquired db g = true
  · exact .inl hacq
  · exact .inr fun hzero => hallow ⟨hacq, hzero⟩

/-! ## Steps of the system -/

inductive Stepped (s : World) : Event → World → Prop
  | storePayload {raw : RawPayload} {a : Archive} : s.db.archive.storePayload raw = some a →
      Stepped s (.storePayload raw) { s with db := { s.db with archive := a } }
  | observe {log : FetchLog} {a : Archive} : s.db.archive.observe log = some a →
      Stepped s (.observe log) { s with db := { s.db with archive := a } }
  | createRun {run : CrawlRun} : s.db.run run.id = none →
      Stepped s (.createRun run) { s with db := { s.db with runs := s.db.runs ++ [run] } }
  | upsert {g : NormalizedGame} {gameId : Nat} {a : Archive} : s.db.archive.upsertGame g = .ok (gameId, a) →
      Stepped s (.upsert g) { s with db := { s.db with archive := a } }
  | associate {runId : Nat} {gameIds : List Nat} {db : Db} : s.db.associateAll runId gameIds = .ok db →
      Stepped s (.associate runId gameIds) { s with db := db }
  | ledger {e : Budget.Event} {L : Budget.Ledger} : s.db.ledger.step e = .ok L →
      Stepped s (.ledger e) { s with db := { s.db with ledger := L } }
  | start {worker : Nat} {q : Request} {c : Call} {db : Db} : s.free worker = true →
      s.db.startCall q = .ok (c, db) → Stepped s (.start worker q) (s.setCall worker (some c) db)
  | act {worker : Nat} {a : Act} {c : Call} {c' : Option Call} {db : Db} : s.calls worker = some c →
      c.act s.db a = some (c', db) → Stepped s (.act worker a) (s.setCall worker c' db)
  | abandon {worker : Nat} : Stepped s (.abandon worker) (s.setCall worker none s.db)

theorem step_stepped {s t : World} {e : Event} (h : s.step e = some t) : Stepped s e t := by
  cases e with
  | storePayload raw =>
    obtain ⟨a, ha, rfl⟩ := Option.map_eq_some_iff.mp h
    exact .storePayload ha
  | observe log =>
    obtain ⟨a, ha, rfl⟩ := Option.map_eq_some_iff.mp h
    exact .observe ha
  | createRun run =>
    obtain ⟨db, hdb, rfl⟩ := Option.map_eq_some_iff.mp h
    unfold Db.createRun at hdb
    split at hdb
    · next hnone =>
      cases hdb
      exact .createRun (Option.isNone_iff_eq_none.mp hnone)
    · cases hdb
  | upsert g =>
    obtain ⟨r, hr, rfl⟩ := Option.map_eq_some_iff.mp h
    exact .upsert (toOption_some hr)
  | associate runId gameIds =>
    obtain ⟨db, hdb, rfl⟩ := Option.map_eq_some_iff.mp h
    exact .associate (toOption_some hdb)
  | ledger e =>
    obtain ⟨L, hL, rfl⟩ := Option.map_eq_some_iff.mp h
    exact .ledger (toOption_some hL)
  | start worker q =>
    simp only [World.step] at h
    split at h
    · next hfree =>
      obtain ⟨r, hr, rfl⟩ := Option.map_eq_some_iff.mp h
      exact .start hfree (toOption_some hr)
    · cases h
  | act worker a =>
    obtain ⟨c, hc, h₁⟩ := Option.bind_eq_some_iff.mp h
    obtain ⟨r, hr, rfl⟩ := Option.map_eq_some_iff.mp h₁
    exact .act hc hr
  | abandon worker =>
    cases h
    exact .abandon

theorem setCall_self (s : World) (worker : Nat) (c : Option Call) (db : Db) :
    (s.setCall worker c db).calls worker = c := by
  simp [World.setCall]

/-- A call of the world after a step is an old one or the one that the step set. -/
theorem setCall_calls {s : World} {worker w : Nat} {c : Option Call} {db : Db} {d : Call}
    (h : (s.setCall worker c db).calls w = some d) : s.calls w = some d ∨ (w = worker ∧ c = some d) := by
  by_cases hw : w = worker
  · subst hw
    rw [setCall_self] at h
    exact .inr ⟨rfl, h⟩
  · left
    simpa [World.setCall, hw] using h

/-- What a started call is. -/
theorem startCall_cases {db db' : Db} {q : Request} {c : Call} (h : db.startCall q = .ok (c, db')) :
    (∀ m, q.maxGames = some m → 0 ≤ m) ∧ c.request = q ∧ c.gameIds = [] ∧ c.remaining = q.maxGames ∧
    ∃ raw, db.archive.raw q.rawId = some raw ∧
      ((c.phase = .begun ∧ c.pointers = raw.pointers ∧
          db.beginNormalization q.rawId q.parserVersion = .ok (c.observed, db')) ∨
        (c.phase = .returned ∧ db' = db)) := by
  unfold Db.startCall at h
  split at h
  · cases h
  next hneg =>
  have hmax : ∀ m, q.maxGames = some m → 0 ≤ m := by
    intro m hm
    rw [hm] at hneg
    simpa using hneg
  split at h
  · cases h
  next raw hraw =>
  split at h
  · obtain ⟨⟨observed, db₁⟩, hbegin, h₁⟩ := bind_ok h
    cases h₁
    exact ⟨hmax, rfl, rfl, rfl, raw, hraw, .inl ⟨rfl, rfl, hbegin⟩⟩
  · cases h
    exact ⟨hmax, rfl, rfl, rfl, raw, hraw, .inr ⟨rfl, rfl⟩⟩

end ChessCrawl.Normalize
