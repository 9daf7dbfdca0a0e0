import ChessCrawl.Normalize.Revisions

/-! The game tables along a run: what the transaction of one game does to them, and that every other step
leaves them, so that the tables stay coherent and a call works through listings of its own body. -/
namespace ChessCrawl.Normalize
open ChessCrawl.Lib
set_option autoImplicit false

/-! ## The locked transaction -/

/-- The game that the worker's next write is about. -/
def World.writing (s : World) (worker : Nat) : Option (Call × Bool × String × NormalizedGame) :=
  (s.calls worker).bind fun c =>
    match c.phase, c.todo with
    | .paid prepared, (pointer, g) :: _ => some (c, prepared, pointer, g)
    | _, _ => none

/-- The write does not stop at a checkpoint. -/
def Call.rewrites (c : Call) (db : Db) (pointer : String) (g : NormalizedGame) : Bool :=
  ((db.archive.findExistingGame g).any fun row => db.archive.gameSourceNeedsRefresh row.id c.request.rawId) ||
    (c.reusable pointer).isNone

def Written.gameId : Written → Option Nat
  | .excluded => none
  | .refreshed gameId => some gameId
  | .acquired gameId => some gameId

theorem storeGame_cases {c : Call} {db db' : Db} {pointer : String} {g : NormalizedGame} {prepared : Bool}
    {gameId : Nat} (h : c.storeGame db pointer g prepared = .ok (gameId, db')) :
    (c.rewrites db pointer g = false ∧ c.reusable pointer = some gameId ∧ db' = db) ∨
      (c.rewrites db pointer g = true ∧ ∃ a, db' = { db with archive := a } ∧
        db.archive.normalizeGame c.request.evidenceVersion c.request.rawId pointer g prepared = .ok (gameId, a)) := by
  unfold Call.storeGame at h
  dsimp only at h
  unfold Call.rewrites
  split at h
  · next id hid =>
    cases h
    split at hid
    · cases hid
    · next hrefresh =>
      left
      rw [hid]
      refine ⟨?_, rfl, rfl⟩
      simpa using hrefresh
  · next hnone =>
    right
    refine ⟨?_, ?_⟩
    · split at hnone
      · next hrefresh => rw [hrefresh, Bool.true_or]
      · rw [hnone, Option.isNone_none, Bool.or_true]
    · cases hwrite : db.archive.normalizeGame c.request.evidenceVersion c.request.rawId pointer g prepared with
      | error e =>
        rw [hwrite] at h
        cases h
      | ok r =>
        rw [hwrite] at h
        cases h
        exact ⟨r.2, rfl, rfl⟩

/-- What the transaction of one game did to the archive and to the checkpoints. -/
inductive WroteArchive (c : Call) (db : Db) (pointer : String) (g : NormalizedGame) (prepared : Bool) :
    Written → Db → Prop
  | excluded : WroteArchive c db pointer g prepared .excluded db
  | reused {written : Written} {gameId : Nat} {db' : Db} : written.gameId = some gameId →
      c.rewrites db pointer g = false → c.reusable pointer = some gameId → db'.archive = db.archive →
      db'.items = (db.markItem ⟨c.request.rawId, c.request.parserVersion, pointer, c.observed, gameId⟩).items →
      WroteArchive c db pointer g prepared written db'
  | rewrote {written : Written} {gameId : Nat} {db' : Db} : written.gameId = some gameId →
      c.rewrites db pointer g = true →
      db.archive.normalizeGame c.request.evidenceVersion c.request.rawId pointer g prepared =
        .ok (gameId, db'.archive) →
      db'.items = (db.markItem ⟨c.request.rawId, c.request.parserVersion, pointer, c.observed, gameId⟩).items →
      WroteArchive c db pointer g prepared written db'

theorem writeGame_archive {c : Call} {db db' : Db} {pointer : String} {g : NormalizedGame} {prepared : Bool}
    {now : Int} {written : Written} (h : c.writeGame db pointer g prepared now = .ok (written, db')) :
    WroteArchive c db pointer g prepared written db' := by
  unfold Call.writeGame at h
  obtain ⟨bounds, _, h⟩ := bind_ok h
  split at h
  · cases h
    exact .excluded
  split at h
  · cases h
    exact .excluded
  unfold Call.writeAdmitted at h
  obtain ⟨⟨acquired, charged⟩, hreserve, h₁⟩ := bind_ok h
  obtain ⟨⟨gameId, stored⟩, hstore, h₂⟩ := bind_ok h₁
  obtain ⟨L, rfl⟩ := reserveGame_db hreserve
  -- the transaction ends with the mark, or with an attribution that touches neither table
  have hend : written.gameId = some gameId ∧ db'.archive = stored.archive ∧ db'.items = (stored.markItem
      ⟨c.request.rawId, c.request.parserVersion, pointer, c.observed, gameId⟩).items := by
    cases acquired with
    | true =>
      cases h₂
      exact ⟨rfl, rfl, rfl⟩
    | false =>
      have hattr : c.attribute _ gameId = .ok (written, db') := h₂
      obtain rfl := attribute_acquired hattr
      exact ⟨rfl, (attribute_attributed hattr).archive, (attribute_attributed hattr).items⟩
  obtain ⟨hid, harchive, hitems⟩ := hend
  rcases storeGame_cases hstore with ⟨hre, hreuse, rfl⟩ | ⟨hre, a, rfl, hwrite⟩
  · exact .reused hid hre hreuse harchive hitems
  · refine .rewrote hid hre ?_ hitems
    rw [harchive]
    exact hwrite

/-! ## Sources of every run -/

/-- Captures and normalizations under one evidence parser, of payloads that list a game at one place. -/
def Ordinary (evidence : String) (s : World) : Event → Prop
  | .upsert _ => False
  | .start _ q => q.evidenceVersion = evidence
  | .act worker (.write _) => ∀ x ∈ s.writing worker, ∀ row ∈ s.db.archive.findExistingGame x.2.2.2,
      Evidenced.ListedOnce s.db.archive row.id x.1.request.rawId x.2.2.1
  | _ => True

/-- A call works through listings of its body. -/
structure Call.Reads (c : Call) (evidence : String) (a : Archive) : Prop where
  version : c.request.evidenceVersion = evidence
  todo : ∀ entry ∈ c.todo, a.Lists c.request.rawId entry.1 entry.2

structure SourcesOk (evidence : String) (s : World) : Prop where
  coherent : s.db.archive.Coherent evidence
  calls : ∀ w c, s.calls w = some c → c.Reads evidence s.db.archive

theorem Call.Reads.keeps {c : Call} {evidence : String} {a a' : Archive} (h : c.Reads evidence a)
    (hk : a.KeepsBodies a') : c.Reads evidence a' :=
  ⟨h.version, fun entry he => hk.lists _ _ _ (h.todo entry he)⟩

/-- The rest of a call after a step. -/
theorem act_todo {c d : Call} {db db' : Db} {a : Act} (h : c.act db a = some (some d, db')) :
    d.request = c.request ∧ (d.todo = c.todo ∨ d.todo = c.todo.tail) := by
  generalize hd : some d = c' at h
  cases act_acted h with
  | checkpoint =>
    cases hd
    exact ⟨rfl, .inl rfl⟩
  | retain =>
    cases hd
    exact ⟨rfl, .inl rfl⟩
  | preflight =>
    obtain ⟨_, _, ⟨_, rfl⟩ | ⟨_, rfl⟩ | rfl⟩ := preflight_cases hd.symm
    · exact ⟨rfl, .inr rfl⟩
    · exact ⟨rfl, .inl rfl⟩
    · exact ⟨rfl, .inl rfl⟩
  | select =>
    cases hd
    split
    · exact ⟨rfl, .inl rfl⟩
    · exact ⟨rfl, .inr rfl⟩
  | @pay now pointer _ _ =>
    obtain ⟨_, _, hnone | ⟨_, hpaid⟩⟩ := pay_cases c db pointer now
    · rw [hnone] at hd
      cases hd
    · cases hd.trans hpaid
      exact ⟨rfl, .inl rfl⟩
  | @write now prepared pointer g _ =>
    rcases write_cases c db pointer g prepared now with ⟨written, _, hwrote⟩ | ⟨_, hnone | hagain⟩
    · cases hd.trans hwrote
      cases written <;> exact ⟨rfl, .inr rfl⟩
    · rw [hnone] at hd
      cases hd
    · cases hd.trans hagain
      exact ⟨rfl, .inl rfl⟩
  | finish =>
    cases hd
    exact ⟨rfl, .inl rfl⟩

theorem Call.Reads.act {c d : Call} {evidence : String} {ar : Archive} {db db' : Db} {a : Act}
    (h : c.Reads evidence ar) (ha : c.act db a = some (some d, db')) : d.Reads evidence ar := by
  obtain ⟨hrequest, htodo⟩ := act_todo ha
  refine ⟨by rw [hrequest]; exact h.version, fun entry he => ?_⟩
  rw [hrequest]
  rcases htodo with heq | heq
  · rw [heq] at he
    exact h.todo entry he
  · rw [heq] at he
    exact h.todo entry (List.mem_of_mem_tail he)

/-- Bodies may be marked and may arrive with their logs; the game tables stay. -/
structure KeepsTables (a a' : Archive) : Prop where
  bodies : a.KeepsBodies a'
  games : a'.games = a.games
  records : a'.sourceRecords = a.sourceRecords
  versions : a'.versions = a.versions
  sources : a'.versionSources = a.versionSources
  gameSeq : a'.gameSeq = a.gameSeq
  versionSeq : a'.versionSeq = a.versionSeq

theorem KeepsTables.refl (a : Archive) : KeepsTables a a := ⟨.refl a, rfl, rfl, rfl, rfl, rfl, rfl⟩

theorem KeepsTables.trans {a b c : Archive} (h : KeepsTables a b) (h' : KeepsTables b c) : KeepsTables a c :=
  ⟨⟨fun _ _ _ hl => h'.bodies.lists _ _ _ (h.bodies.lists _ _ _ hl), fun hs => h'.bodies.single (h.bodies.single hs)⟩,
    h'.games.trans h.games, h'.records.trans h.records, h'.versions.trans h.versions, h'.sources.trans h.sources,
    h'.gameSeq.trans h.gameSeq, h'.versionSeq.trans h.versionSeq⟩

theorem KeepsTables.coherent {evidence : String} {a a' : Archive} (h : KeepsTables a a')
    (ha : a.Coherent evidence) : a'.Coherent evidence :=
  ha.of_bodies h.bodies h.games h.records h.versions h.sources h.gameSeq h.versionSeq

theorem storePayload_tables {a a' : Archive} {raw : RawPayload} (h : a.storePayload raw = some a') :
    KeepsTables a a' := by
  refine ⟨storePayload_keeps h, ?_, ?_, ?_, ?_, ?_, ?_⟩ <;>
    (obtain ⟨_, rfl, _⟩ := storePayload_extends h; rfl)

theorem observe_tables {a a' : Archive} {log : FetchLog} (h : a.observe log = some a') : KeepsTables a a' := by
  obtain ⟨rfl, _⟩ := observe_eq h
  exact ⟨⟨fun _ _ _ hl => hl, fun hs => hs⟩, rfl, rfl, rfl, rfl, rfl, rfl⟩

theorem startCall_tables {db db' : Db} {q : Request} {c : Call} (h : db.startCall q = .ok (c, db')) :
    KeepsTables db.archive db'.archive := by
  obtain ⟨_, _, _, _, raw, _, ⟨_, _, hbegin⟩ | ⟨_, rfl⟩⟩ := startCall_cases h
  · unfold Db.beginNormalization at hbegin
    split at hbegin
    · cases hbegin
    · obtain rfl := (Prod.mk.inj (Except.ok.inj hbegin)).2
      split
      · exact ⟨mapRaws_keeps _ q.rawId (fun r => { r with status := .pending }) (fun _ => rfl) (fun _ => rfl)
          fun _ => rfl, rfl, rfl, rfl, rfl, rfl, rfl⟩
      · exact .refl _
  · exact .refl _

theorem certify_tables (db : Db) (rawId : Nat) (parserVersion : String) (observed : Nat) (pointers : List String)
    (empty : Bool) : KeepsTables db.archive (db.certify rawId parserVersion observed pointers empty).archive := by
  rcases certify_cases db rawId parserVersion observed pointers empty with hsame | ⟨_, _, _, harchive⟩
  · rw [hsame]
    exact .refl _
  · rw [harchive]
    exact ⟨mapRaws_keeps _ rawId (fun r => { r with status := _, parserVersion := some parserVersion })
      (fun _ => rfl) (fun _ => rfl) fun _ => rfl, rfl, rfl, rfl, rfl, rfl, rfl⟩

/-- A step of a call leaves the game tables or is the transaction of its current game. -/
theorem act_archive {c : Call} {db db' : Db} {a : Act} {c' : Option Call} (h : c.act db a = some (c', db')) :
    (KeepsTables db.archive db'.archive ∧ db'.archive.logs = db.archive.logs) ∨
      ∃ now prepared pointer g rest written, a = .write now ∧ c.phase = .paid prepared ∧
        c.todo = (pointer, g) :: rest ∧ c' = some (c.wrote pointer written) ∧
        c.writeGame db pointer g prepared now = .ok (written, db') := by
  have hrefl : KeepsTables db.archive db.archive ∧ db.archive.logs = db.archive.logs := ⟨.refl _, rfl⟩
  cases act_acted h with
  | checkpoint => exact .inl hrefl
  | retain => exact .inl hrefl
  | preflight => exact .inl hrefl
  | select => exact .inl hrefl
  | @pay now pointer _ _ =>
    obtain ⟨L, hdb, _⟩ := pay_cases c db pointer now
    rw [hdb]
    exact .inl hrefl
  | @write now prepared pointer g _ hphase htodo =>
    rcases write_cases c db pointer g prepared now with ⟨written, hwrite, hwrote⟩ | ⟨hdb, _⟩
    · exact .inr ⟨_, _, _, _, _, written, rfl, hphase, htodo, hwrote, hwrite⟩
    · rw [hdb]
      exact .inl hrefl
  | finish =>
    refine .inl ⟨certify_tables _ _ _ _ _ _, ?_⟩
    rcases certify_cases db c.request.rawId c.request.parserVersion c.observed c.pointers
      c.pointers.isEmpty with hsame | ⟨_, _, _, harchive⟩
    · rw [hsame]
    · rw [harchive]
      rfl

theorem writing_of {s : World} {w : Nat} {c : Call} {prepared : Bool} {pointer : String} {g : NormalizedGame}
    {rest : List (String × NormalizedGame)} (hc : s.calls w = some c) (hphase : c.phase = .paid prepared)
    (htodo : c.todo = (pointer, g) :: rest) : s.writing w = some (c, prepared, pointer, g) := by
  unfold World.writing
  rw [hc, Option.bind_some, hphase, htodo]

/-- A started call has its whole listing to do and no checkpoint yet. -/
theorem startCall_reads {db db' : Db} {q : Request} {c : Call} (h : db.startCall q = .ok (c, db')) :
    (c.phase = .begun → ∃ raw, db.archive.raw q.rawId = some raw ∧ c.todo = raw.pointers.zip raw.games) ∧
      c.checkpoints = [] ∧ ∀ entry ∈ c.todo, db.archive.Lists q.rawId entry.1 entry.2 := by
  unfold Db.startCall at h
  split at h
  · cases h
  split at h
  · cases h
  next raw hraw =>
  split at h
  · obtain ⟨_, _, hrest⟩ := bind_ok h
    cases hrest
    exact ⟨fun _ => ⟨raw, hraw, rfl⟩, rfl, fun entry he => ⟨raw, hraw, he⟩⟩
  · cases h
    exact ⟨fun hp => (nomatch hp), rfl, fun entry he => absurd he List.not_mem_nil⟩

/-- The tables that a rewrite leaves are coherent. -/
theorem normalizeGame_coherent {evidence pointer : String} {a a' : Archive} {rawId gameId : Nat}
    {g : NormalizedGame} {prepared : Bool} (ha : a.Coherent evidence) (hlists : a.Lists rawId pointer g)
    (honce : ∀ row ∈ a.findExistingGame g, Evidenced.ListedOnce a row.id rawId pointer)
    (h : a.normalizeGame evidence rawId pointer g prepared = .ok (gameId, a')) : a'.Coherent evidence := by
  obtain ⟨mid, v, hfacts, hev⟩ := normalizeGame_cases h
  refine hev.coherent (hfacts.coherent ha) (hfacts.gameId_le ha) (hfacts.bodies.keeps.lists _ _ _ hlists) ?_
  cases hfacts with
  | inserted =>
    -- the new id has no version yet
    rintro s hs _ ⟨⟨w, hw, _, hgame⟩, _⟩
    have hle := (ha.versionSeq w hw).2.1
    omega
  | replaced hrow => exact honce _ hrow
  | kept hrow => exact honce _ hrow

theorem sourcesOk_step {evidence : String} {s t : World} {e : Event} (hs : SourcesOk evidence s)
    (hok : Ordinary evidence s e) (h : Stepped s e t) : SourcesOk evidence t := by
  have hcalls : ∀ {a' : Archive}, KeepsTables s.db.archive a' → ∀ w c, s.calls w = some c → c.Reads evidence a' :=
    fun hk w c hc => (hs.calls w c hc).keeps hk.bodies
  cases h with
  | storePayload hstore =>
    have hk := storePayload_tables hstore
    exact ⟨hk.coherent hs.coherent, hcalls hk⟩
  | observe hobserve =>
    have hk := observe_tables hobserve
    exact ⟨hk.coherent hs.coherent, hcalls hk⟩
  | createRun => exact ⟨hs.coherent, hs.calls⟩
  | upsert => exact hok.elim
  | associate hall =>
    refine ⟨?_, fun w c hc => ?_⟩
    · rw [(associateAll_attributed hall).archive]
      exact hs.coherent
    · rw [(associateAll_attributed hall).archive]
      exact hs.calls w c hc
  | ledger => exact ⟨hs.coherent, hs.calls⟩
  | start _ hstart =>
    have hk := startCall_tables hstart
    refine ⟨hk.coherent hs.coherent, fun w c hc => ?_⟩
    rcases setCall_calls hc with hold | ⟨_, hnew⟩
    · exact hcalls hk w c hold
    · cases hnew
      refine Call.Reads.keeps ?_ hk.bodies
      obtain ⟨_, _, htodo⟩ := startCall_reads hstart
      obtain ⟨_, hrequest, _⟩ := startCall_cases hstart
      refine ⟨?_, fun entry he => ?_⟩
      · rw [hrequest]
        exact hok
      · rw [hrequest]
        exact htodo entry he
  | @act w a c c' db hcall hact =>
    have hread := hs.calls w c hcall
    have hdone : s.db.archive.KeepsBodies db.archive → db.archive.Coherent evidence →
        SourcesOk evidence (s.setCall w c' db) := by
      intro hk hcoherent
      refine ⟨hcoherent, fun w' d hd => ?_⟩
      rcases setCall_calls hd with hold | ⟨_, hnew⟩
      · exact (hs.calls w' d hold).keeps hk
      · subst hnew
        exact (hread.keeps hk).act hact
    rcases act_archive hact with ⟨hk, _⟩ | ⟨now, prepared, pointer, g, rest, written, rfl, hphase, htodo, rfl, hwrite⟩
    · exact hdone hk.bodies (hk.coherent hs.coherent)
    · cases writeGame_archive hwrite with
      | excluded => exact hdone (.refl _) hs.coherent
      | reused _ _ _ harchive _ =>
        refine hdone ?_ ?_
        · rw [harchive]
          exact .refl _
        · rw [harchive]
          exact hs.coherent
      | rewrote _ _ hnorm _ =>
        rw [hread.version] at hnorm
        have hlists : s.db.archive.Lists c.request.rawId pointer g :=
          hread.todo (pointer, g) (by rw [htodo]; exact List.mem_cons_self)
        exact hdone (normalizeGame_bodies hnorm).keeps (normalizeGame_coherent hs.coherent hlists
          (hok _ (writing_of hcall hphase htodo)) hnorm)
  | abandon =>
    refine ⟨hs.coherent, fun w c hc => ?_⟩
    rcases setCall_calls hc with hold | ⟨_, hnew⟩
    · exact hs.calls w c hold
    · cases hnew

theorem sourcesOk_initial (evidence : String) : SourcesOk evidence World.initial :=
  ⟨Archive.coherent_empty evidence, fun _ _ hc => nomatch hc⟩

end ChessCrawl.Normalize
