import ChessCrawl.Normalize.Provenance

/-! Whether the current revision of a game and its mutable facts come from one body. The pointer is
recomputed by every write of evidence and the facts are replaced only by the payload that is the latest,
so the two part when an older body is written while the latest one waits for its own write. -/
namespace ChessCrawl.Normalize
open ChessCrawl.Lib
set_option autoImplicit false

/-! ## Suppliers -/

/-- The write replaces the facts of its game. -/
def Call.replacesFacts (c : Call) (db : Db) (pointer : String) (g : NormalizedGame) : Bool :=
  c.rewrites db pointer g &&
    (db.archive.findExistingGame g).all fun row => db.archive.isLatestGameSource row.id c.request.rawId

/-- The game whose facts the event replaces, with the payload that they come from. -/
def World.supplies (s : World) : Event → Option (Nat × Nat)
  | .act worker (.write now) =>
    (s.writing worker).bind fun (c, prepared, pointer, g) =>
      match c.writeGame s.db pointer g prepared now with
      | .ok (written, _) =>
        if c.replacesFacts s.db pointer g then written.gameId.map fun gameId => (gameId, c.request.rawId) else none
      | .error _ => none
  | _ => none

/-- The world with the payload that last supplied each game's facts. -/
structure Traced where
  world : World
  supplier : Nat → Option Nat

def Traced.step (t : Traced) (e : Event) : Option Traced :=
  (t.world.step e).map fun world =>
    ⟨world, match t.world.supplies e with
      | some (gameId, rawId) => Function.update t.supplier gameId (some rawId)
      | none => t.supplier⟩

def traced : System Traced Event where
  init t := t.world = World.initial ∧ ∀ gameId, t.supplier gameId = none
  step := Traced.step

/-- The body behind the row's current revision is the one that supplied its facts. -/
def Archive.Agrees (a : Archive) (supplier : Nat → Option Nat) (row : GameRow) : Prop :=
  ∃ s ∈ a.versionSources, row.currentVersionId = some s.versionId ∧ supplier row.id = some s.rawPayloadId ∧
    ∃ g, a.Lists s.rawPayloadId s.jsonPointer g ∧ row.facts = g.facts ∧ row.contentHash = g.contentHash

/-- An older body of a game is written only while no source of the game waits for a refresh. -/
def SettledWrites (s : World) : Event → Prop
  | .act worker (.write _) => ∀ x ∈ s.writing worker, ∀ row ∈ s.db.archive.findExistingGame x.2.2.2,
      s.db.archive.isLatestGameSource row.id x.1.request.rawId = true ∨
        ∀ r ∈ s.db.archive.sourceRecords, r.gameId = row.id →
          s.db.archive.gameSourceNeedsRefresh row.id r.rawPayloadId = false
  | _ => True

/-! ## One write -/

section Write
variable {evidence pointer : String} {a mid a' : Archive} {rawId gameId : Nat} {g : NormalizedGame} {v : GameVersion}

theorem needsRefresh_false {gid p : Nat} (h : a.gameSourceNeedsRefresh gid p = false)
    (hlatest : a.isLatestGameSource gid p = true) :
    ∃ row ∈ a.games, row.id = gid ∧ ∃ s ∈ a.versionSources, row.currentVersionId = some s.versionId ∧
      s.rawPayloadId = p := by
  unfold Archive.gameSourceNeedsRefresh at h
  dsimp only at h
  rw [hlatest, Bool.and_true, Bool.not_eq_false', List.any_eq_true] at h
  obtain ⟨row, hrow, h⟩ := h
  obtain ⟨hid, h⟩ := Bool.and_eq_true_iff.mp h
  obtain ⟨s, hs, h⟩ := List.any_eq_true.mp h
  obtain ⟨hcur, hraw⟩ := Bool.and_eq_true_iff.mp h
  exact ⟨row, hrow, of_decide_eq_true hid, s, hs, of_decide_eq_true hcur, of_decide_eq_true hraw⟩

/-- Some payload leads the sources of a game that has a source with a stored body, and the pointer is
its version. -/
theorem Evidenced.points (h : Evidenced evidence mid a' gameId rawId pointer g v) (hm : mid.Coherent evidence)
    (hlists : mid.Lists rawId pointer g) : ∃ version p, a'.currentVersion gameId = some version ∧
      a'.Backs gameId version p ∧ a'.Leads (insert rawId (mid.recordedFor gameId)) p := by
  obtain ⟨r, hr, _⟩ := h.bodies.keeps.lists _ _ _ hlists
  have hrid : r.id = rawId := by simpa using List.find?_some hr
  have hback := (h.backs_iff hm gameId v.id rawId).mpr (.inr ⟨rfl, rfl, rfl⟩)
  obtain ⟨version, hversion⟩ := currentVersion_isSome hback (List.mem_of_find?_eq_some hr) hrid
  obtain ⟨p, hp, hleads, _⟩ := currentVersion_spec hversion
  rw [h.sourcesOf_eq hm, ← hm.records] at hleads
  exact ⟨version, p, hversion, hp, hleads⟩

theorem leads_congr (h : SameBodies a a') {S : Set Nat} {p : Nat} : a'.Leads S p ↔ a.Leads S p := by
  have hseen : ∀ q k, a'.Seen q k ↔ a.Seen q k := by
    intro q k
    unfold Archive.Seen Archive.sightings
    rw [h.raws, h.logs]
  unfold Archive.Leads
  simp only [hseen]

/-- A latest payload gives the game both its facts and its pointer. -/
theorem Evidenced.latest (h : Evidenced evidence mid a' gameId rawId pointer g v) (hm : mid.Coherent evidence)
    (hlists : mid.Lists rawId pointer g) (hleads : mid.Leads (insert rawId (mid.recordedFor gameId)) rawId)
    (ha' : a'.Coherent evidence) : a'.currentVersion gameId = some v.id := by
  obtain ⟨version, p, hversion, hback, hp⟩ := h.points hm hlists
  have hp := (leads_congr h.bodies).mp hp
  have hpS : p ∈ insert rawId (mid.recordedFor gameId) := by
    rw [hm.records, ← h.sourcesOf_eq hm]
    exact ⟨version, hback⟩
  obtain rfl := hp.unique hleads hpS (.inl rfl)
  have hnew := (h.backs_iff hm gameId v.id p).mpr (.inr ⟨rfl, rfl, rfl⟩)
  rw [hversion, ha'.single_version hback hnew]

/-- An older payload moves the pointer only to a source that was waiting for a refresh. -/
theorem Evidenced.older (h : Evidenced evidence a a' gameId rawId pointer g v) (ha : a.Coherent evidence)
    (ha' : a'.Coherent evidence) (hlists : a.Lists rawId pointer g)
    (hold : a.isLatestGameSource gameId rawId = false)
    (hsettled : ∀ r ∈ a.sourceRecords, r.gameId = gameId → a.gameSourceNeedsRefresh gameId r.rawPayloadId = false)
    {row : GameRow} (hrow : row ∈ a.games) (hid : row.id = gameId) :
    a'.currentVersion gameId = row.currentVersionId := by
  obtain ⟨version, p, hversion, hback, hp⟩ := h.points ha hlists
  have hp := (leads_congr h.bodies).mp hp
  have hne : p ≠ rawId := by
    rintro rfl
    rw [(isLatestGameSource_iff a gameId p).mpr hp] at hold
    cases hold
  have hrec : p ∈ a.recordedFor gameId := by
    have hpS : p ∈ insert rawId (a.recordedFor gameId) := by
      rw [ha.records, ← h.sourcesOf_eq ha]
      exact ⟨version, hback⟩
    exact hpS.resolve_left hne
  have hlatest : a.isLatestGameSource gameId p = true := by
    refine (isLatestGameSource_iff a gameId p).mpr (hp.mono ?_)
    rintro q (rfl | hq)
    · exact .inr hrec
    · exact .inr hq
  obtain ⟨r, hr, hrid, s, hs, hcur, hraw⟩ := needsRefresh_false (hsettled _ hrec rfl) hlatest
  obtain rfl := ha.row_eq hr hrow (hrid.trans hid.symm)
  obtain ⟨w, hw, hwid, hwg⟩ := ha.current r hr s.versionId hcur
  have hold := (h.backs_iff ha gameId s.versionId p).mpr (.inl ⟨⟨w, hw, hwid, hwg.trans hrid⟩, s, hs, rfl, hraw⟩)
  rw [hversion, hcur, ha'.single_version hback hold]

theorem KeepsTables.agrees (h : KeepsTables a a') {supplier : Nat → Option Nat} {row : GameRow}
    (hrow : a.Agrees supplier row) : a'.Agrees supplier row := by
  obtain ⟨s, hs, hcur, hsup, g, hlists, hfacts⟩ := hrow
  exact ⟨s, by rw [h.sources]; exact hs, hcur, hsup, g, h.bodies.lists _ _ _ hlists, hfacts⟩

/-- The transaction of a game from the latest payload, or from an older one over a settled game. -/
theorem normalizeGame_agrees {supplier : Nat → Option Nat} {prepared : Bool} (ha : a.Coherent evidence)
    (ha' : a'.Coherent evidence) (hlists : a.Lists rawId pointer g)
    (hsettled : ∀ row ∈ a.findExistingGame g, a.isLatestGameSource row.id rawId = true ∨
      ∀ r ∈ a.sourceRecords, r.gameId = row.id → a.gameSourceNeedsRefresh row.id r.rawPayloadId = false)
    (hagrees : ∀ row ∈ a.games, a.Agrees supplier row)
    (h : a.normalizeGame evidence rawId pointer g prepared = .ok (gameId, a')) :
    ∀ row ∈ a'.games, a'.Agrees (if ((a.findExistingGame g).all fun row => a.isLatestGameSource row.id rawId) then
      Function.update supplier gameId (some rawId) else supplier) row := by
  obtain ⟨mid, v, hfacts, hev⟩ := normalizeGame_cases h
  have hm := hfacts.coherent ha
  have hmlists := hfacts.bodies.keeps.lists _ _ _ hlists
  intro row' hrow'
  rw [hev.games] at hrow'
  obtain ⟨old, hold, heq⟩ := List.mem_map.mp hrow'
  by_cases hid : old.id = gameId
  · rw [if_pos hid] at heq
    subst heq
    have hsource : (⟨v.id, rawId, pointer⟩ : VersionSource) ∈ a'.versionSources := (hev.sources _).mpr (.inr rfl)
    cases hfacts with
    | inserted hnone =>
      have hleads : Archive.Leads { a with games := a.games ++ [g.row (a.gameSeq + 1)], gameSeq := a.gameSeq + 1 }
          (insert rawId (Archive.recordedFor { a with
            games := a.games ++ [g.row (a.gameSeq + 1)], gameSeq := a.gameSeq + 1 } (a.gameSeq + 1))) rawId := by
        obtain ⟨version, p, hversion, ⟨hv, hs⟩, hp⟩ := hev.points hm hmlists
        have hp := (leads_congr hev.bodies).mp hp
        have hpS : p ∈ insert rawId (a.recordedFor (a.gameSeq + 1)) := by
          have hin : p ∈ a'.sourcesOf (a.gameSeq + 1) := ⟨version, hv, hs⟩
          rw [hev.sourcesOf_eq hm, ← hm.records] at hin
          exact hin
        rcases hpS with rfl | hrec
        · exact hp
        · -- the new id has no source record
          rw [ha.records] at hrec
          obtain ⟨_, ⟨w, hw, _, hgame⟩, _⟩ := hrec
          have hle := (ha.versionSeq w hw).2.1
          omega
      have hrownew : old = g.row (a.gameSeq + 1) := by
        rcases List.mem_append.mp hold with hin | hlast
        · have hle := ha.gameSeq old hin
          omega
        · exact List.mem_singleton.mp hlast
      rw [hnone]
      subst hrownew
      exact ⟨_, hsource, hev.latest hm hmlists hleads ha', Function.update_self _ _ _, g,
        hev.bodies.keeps.lists _ _ _ hmlists, rfl, rfl⟩
    | @replaced row hrow hlatest =>
      have hleads : (a.replaceGame (row.merge g)).Leads
          (insert rawId ((a.replaceGame (row.merge g)).recordedFor row.id)) rawId :=
        (isLatestGameSource_iff a row.id rawId).mp hlatest
      have hmerged : old = row.merge g := by
        refine hm.row_eq hold ?_ hid
        exact List.mem_map.mpr ⟨row, findExistingGame_mem hrow, if_pos rfl⟩
      rw [hrow, Option.all_some, hlatest]
      subst hmerged
      exact ⟨_, hsource, hev.latest hm hmlists hleads ha', Function.update_self _ _ _, g,
        hev.bodies.keeps.lists _ _ _ hmlists, rfl, rfl⟩
    | @kept row hrow hnot =>
      have hwait := (hsettled row hrow).resolve_left (by rw [hnot]; exact Bool.false_ne_true)
      rw [hrow, Option.all_some, hnot, hev.older ha ha' hlists hnot hwait hold hid]
      obtain ⟨s, hs, hcur, hsup, g', hlists', hsame⟩ := hagrees old hold
      exact ⟨s, (hev.sources s).mpr (.inl hs), hcur, hsup, g', hev.bodies.keeps.lists _ _ _ hlists', hsame⟩
  · rw [if_neg hid] at heq
    subst heq
    obtain ⟨s, hs, hcur, hsup, g', hlists', hsame⟩ := hagrees old (hfacts.others hold hid)
    refine ⟨s, (hev.sources s).mpr (.inl ?_), hcur, ?_, g', ?_, hsame⟩
    · cases hfacts <;> exact hs
    · split
      · rw [Function.update_of_ne hid]
        exact hsup
      · exact hsup
    · exact hev.bodies.keeps.lists _ _ _ (hfacts.bodies.keeps.lists _ _ _ hlists')

end Write

/-! ## Every run -/

structure TracedOk (evidence : String) (t : Traced) : Prop where
  sources : SourcesOk evidence t.world
  agrees : ∀ row ∈ t.world.db.archive.games, t.world.db.archive.Agrees t.supplier row

theorem supplies_writing {s : World} {w : Nat} {now : Int} {c : Call} {prepared : Bool} {pointer : String}
    {g : NormalizedGame} {written : Written} {db : Db} (hw : s.writing w = some (c, prepared, pointer, g))
    (hwrite : c.writeGame s.db pointer g prepared now = .ok (written, db)) :
    s.supplies (.act w (.write now)) = if c.replacesFacts s.db pointer g then
      written.gameId.map fun gameId => (gameId, c.request.rawId) else none := by
  unfold World.supplies
  dsimp only
  rw [hw, Option.bind_some]
  dsimp only
  rw [hwrite]

/-- A step that leaves the game tables supplies nothing. -/
theorem tracedOk_tables {evidence : String} {t : Traced} {e : Event} {world : World} (ht : TracedOk evidence t)
    (hok : Ordinary evidence t.world e) (hstep : Stepped t.world e world)
    (hk : KeepsTables t.world.db.archive world.db.archive) (hnone : t.world.supplies e = none) :
    TracedOk evidence ⟨world, match t.world.supplies e with
      | some (gameId, rawId) => Function.update t.supplier gameId (some rawId)
      | none => t.supplier⟩ := by
  rw [hnone]
  refine ⟨sourcesOk_step ht.sources hok hstep, fun row hrow => ?_⟩
  rw [hk.games] at hrow
  exact hk.agrees (ht.agrees row hrow)

theorem tracedOk_write {evidence : String} {t : Traced} {w : Nat} {now : Int} {c : Call} {prepared : Bool}
    {pointer : String} {g : NormalizedGame} {rest : List (String × NormalizedGame)} {written : Written} {db : Db}
    {world : World} (ht : TracedOk evidence t) (hok : Ordinary evidence t.world (.act w (.write now)))
    (hsettled : SettledWrites t.world (.act w (.write now))) (hcall : t.world.calls w = some c)
    (hphase : c.phase = .paid prepared) (htodo : c.todo = (pointer, g) :: rest)
    (hwrite : c.writeGame t.world.db pointer g prepared now = .ok (written, db)) (hdb : world.db = db)
    (hstep : Stepped t.world (.act w (.write now)) world) :
    TracedOk evidence ⟨world, match t.world.supplies (.act w (.write now)) with
      | some (gameId, rawId) => Function.update t.supplier gameId (some rawId)
      | none => t.supplier⟩ := by
  have hw := writing_of hcall hphase htodo
  have hsources := sourcesOk_step ht.sources hok hstep
  have hread := ht.sources.calls w c hcall
  have hlists : t.world.db.archive.Lists c.request.rawId pointer g :=
    hread.todo (pointer, g) (by rw [htodo]; exact List.mem_cons_self)
  have hsupplies := supplies_writing hw hwrite
  cases writeGame_archive hwrite with
  | excluded =>
    refine tracedOk_tables ht hok hstep ?_ ?_
    · rw [hdb]
      exact .refl _
    · rw [hsupplies]
      split <;> rfl
  | reused _ hre _ harchive _ =>
    refine tracedOk_tables ht hok hstep ?_ ?_
    · rw [hdb, harchive]
      exact .refl _
    · rw [hsupplies, if_neg]
      unfold Call.replacesFacts
      rw [hre]
      exact Bool.false_ne_true
  | @rewrote _ gameId _ hid hre hnorm _ =>
    refine ⟨hsources, ?_⟩
    rw [hread.version, ← hdb] at hnorm
    have hagrees := normalizeGame_agrees ht.sources.coherent hsources.coherent hlists (hsettled _ hw) ht.agrees hnorm
    rw [hsupplies, hid]
    unfold Call.replacesFacts
    rw [hre, Bool.true_and]
    intro row hrow
    have hrow := hagrees row hrow
    split at hrow
    · next hlatest =>
      rw [if_pos hlatest]
      exact hrow
    · next hlatest =>
      rw [if_neg hlatest]
      exact hrow

theorem supplies_of_tables {s : World} {w : Nat} {a : Act} {c : Call} {c' : Option Call} {db : Db}
    (hcall : s.calls w = some c) (hact : c.act s.db a = some (c', db))
    (hnot : ¬ ∃ now prepared pointer g rest written, a = .write now ∧ c.phase = .paid prepared ∧
      c.todo = (pointer, g) :: rest ∧ c' = some (c.wrote pointer written) ∧
      c.writeGame s.db pointer g prepared now = .ok (written, db)) : s.supplies (.act w a) = none := by
  cases a with
  | write now =>
    unfold Call.act at hact
    dsimp only at hact
    split at hact
    · next prepared pointer g rest hphase htodo =>
      simp only [Option.some.injEq] at hact
      unfold World.supplies
      dsimp only
      rw [writing_of hcall hphase htodo, Option.bind_some]
      dsimp only
      unfold Call.write at hact
      split at hact
      · next written db₁ hwrite =>
        cases hact
        exact absurd ⟨now, prepared, pointer, g, rest, written, rfl, hphase, htodo, rfl, hwrite⟩ hnot
      · next herror => rw [herror]
      · next herror => rw [herror]
    · cases hact
  | _ => rfl

theorem tracedOk_step {evidence : String} {t u : Traced} {e : Event} (ht : TracedOk evidence t)
    (hok : Ordinary evidence t.world e ∧ SettledWrites t.world e) (h : t.step e = some u) : TracedOk evidence u := by
  obtain ⟨world, hworld, rfl⟩ := Option.map_eq_some_iff.mp h
  have hstep := step_stepped hworld
  obtain ⟨hord, hund⟩ := hok
  cases hstep with
  | storePayload hstore => exact tracedOk_tables ht hord (.storePayload hstore) (storePayload_tables hstore) rfl
  | observe hobserve => exact tracedOk_tables ht hord (.observe hobserve) (observe_tables hobserve) rfl
  | createRun hnone => exact tracedOk_tables ht hord (.createRun hnone) (.refl _) rfl
  | upsert => exact hord.elim
  | associate hall =>
    refine tracedOk_tables ht hord (.associate hall) ?_ rfl
    rw [(associateAll_attributed hall).archive]
    exact .refl _
  | ledger hL => exact tracedOk_tables ht hord (.ledger hL) (.refl _) rfl
  | start hfree hstart => exact tracedOk_tables ht hord (.start hfree hstart) (startCall_tables hstart) rfl
  | @act w a c c' db hcall hact =>
    by_cases hwrote : ∃ now prepared pointer g rest written, a = .write now ∧ c.phase = .paid prepared ∧
        c.todo = (pointer, g) :: rest ∧ c' = some (c.wrote pointer written) ∧
        c.writeGame t.world.db pointer g prepared now = .ok (written, db)
    · obtain ⟨now, prepared, pointer, g, rest, written, rfl, hphase, htodo, rfl, hwrite⟩ := hwrote
      exact tracedOk_write ht hord hund hcall hphase htodo hwrite rfl (.act hcall hact)
    · have hk := (act_archive hact).resolve_right hwrote
      exact tracedOk_tables ht hord (.act hcall hact) hk.1 (supplies_of_tables hcall hact hwrote)
  | abandon => exact tracedOk_tables ht hord .abandon (.refl _) rfl

theorem revision_and_facts_agree {evidence : String} {t : Traced}
    (h : Reach traced (fun t e => Ordinary evidence t.world e ∧ SettledWrites t.world e) t) :
    ∀ row ∈ t.world.db.archive.games, t.world.db.archive.Agrees t.supplier row := by
  refine (Reach.invariant (I := TracedOk evidence) ?_
    (fun t e u _ hI hok hstep => tracedOk_step hI hok hstep) h).agrees
  rintro t ⟨hworld, _⟩
  refine ⟨?_, fun row hrow => ?_⟩
  · rw [hworld]
    exact sourcesOk_initial evidence
  · rw [hworld] at hrow
    exact absurd hrow List.not_mem_nil

/-! Two bodies list one game. Body 2 is the newer one until body 1 is observed again; a replay of body 2
then comes before or after the normalization that this observation calls for. -/

instance (a : Archive) (gameId version rawId : Nat) : Decidable (a.Backs gameId version rawId) :=
  inferInstanceAs (Decidable (_ ∧ _))

instance (a : Archive) (gameId rawId : Nat) (pointer : String) :
    Decidable (Evidenced.ListedOnce a gameId rawId pointer) :=
  inferInstanceAs (Decidable (∀ s ∈ a.versionSources, _))

instance (evidence : String) (s : World) (e : Event) : Decidable (Ordinary evidence s e) := by
  unfold Ordinary
  split <;> infer_instance

instance (s : World) (e : Event) : Decidable (SettledWrites s e) := by
  unfold SettledWrites
  split <;> infer_instance

def liveFacts : GameFacts := ⟨true, none, true, some "started", "chess", "180"⟩

def overFacts : GameFacts := ⟨true, some .whiteWin, false, some "mate", "chess", "180"⟩

def bodyOf (rawId : Nat) (facts : GameFacts) (hash revision : String) : RawPayload :=
  ⟨rawId, .lichess, .game, [⟨.lichess, some "abcd", none, hash, facts, none, none, false, false, none, revision⟩],
    rawId, .pending, none⟩

def replayOf (rawId : Nat) : Request := ⟨rawId, none, none, none, false, "v5/e1", "e1"⟩

/-- A whole call for a body with one game. -/
def wholeCall (rawId : Nat) : List Event :=
  [.start 0 (replayOf rawId), .act 0 .checkpoint, .act 0 .retain, .act 0 .preflight, .act 0 (.pay 0),
    .act 0 (.write 0), .act 0 .finish]

/-- Both bodies are captured and normalized, and body 1 is observed once more. -/
def recurrence : List Event :=
  List.flatten [
    [.storePayload (bodyOf 1 overFacts "hash-1" "revision-1"), .observe ⟨1, 1, 200, 10⟩,
      .storePayload (bodyOf 2 liveFacts "hash-2" "revision-2"), .observe ⟨2, 2, 200, 20⟩],
    wholeCall 1, wholeCall 2, [.observe ⟨3, 1, 304, 30⟩]]

theorem revision_and_facts_agree_refreshed : ∃ t : Traced,
    Reach traced (fun t e => Ordinary "e1" t.world e ∧ SettledWrites t.world e) t ∧
    ∃ row ∈ t.world.db.archive.games, row.facts = overFacts ∧ t.world.db.archive.Agrees t.supplier row := by
  obtain ⟨t, ht, hp⟩ := Reach.of_exec traced (fun t e => Ordinary "e1" t.world e ∧ SettledWrites t.world e)
    (s := ⟨World.initial, fun _ => none⟩) ⟨rfl, fun _ => rfl⟩
    (List.flatten [recurrence, wholeCall 1, wholeCall 2])
    (fun t => decide (∃ row ∈ t.world.db.archive.games, row.facts = overFacts)) (by decide +kernel)
  obtain ⟨row, hrow, hfacts⟩ := of_decide_eq_true hp
  exact ⟨t, ht, row, hrow, hfacts, revision_and_facts_agree ht row hrow⟩

/-- The replay of body 2 points the game at body 1 and leaves it the facts of body 2. -/
theorem replay_splits_revision_and_facts : ∃ t : Traced,
    Reach traced (fun t e => Ordinary "e1" t.world e) t ∧
    ∃ row ∈ t.world.db.archive.games, row.facts = liveFacts ∧ t.supplier row.id = some 2 ∧
      (∀ s ∈ t.world.db.archive.versionSources, row.currentVersionId = some s.versionId → s.rawPayloadId = 1) ∧
      ¬ t.world.db.archive.Agrees t.supplier row := by
  obtain ⟨t, ht, hp⟩ := Reach.of_exec traced (fun t e => Ordinary "e1" t.world e)
    (s := ⟨World.initial, fun _ => none⟩) ⟨rfl, fun _ => rfl⟩ (List.flatten [recurrence, wholeCall 2])
    (fun t => decide (∃ row ∈ t.world.db.archive.games, row.facts = liveFacts ∧ t.supplier row.id = some 2 ∧
      ∀ s ∈ t.world.db.archive.versionSources, row.currentVersionId = some s.versionId → s.rawPayloadId = 1))
    (by decide +kernel)
  obtain ⟨row, hrow, hfacts, hsup, hsources⟩ := of_decide_eq_true hp
  refine ⟨t, ht, row, hrow, hfacts, hsup, hsources, ?_⟩
  rintro ⟨s, hs, hcur, hs2, _⟩
  rw [hsup, hsources s hs hcur] at hs2
  cases hs2

end ChessCrawl.Normalize
