import ChessCrawl.Normalize.Cap
import ChessCrawl.Normalize.Agreement
import ChessCrawl.Normalize.Keys

/-! Admission by payload and admission by row. The locked check of `normalize_games_payload` tests the end
and the `createdAt` that the body lists; `associate_run_game`, later in the same transaction, tests the
stored end of the game and the `createdAt` of its current revision. The two differ where a newer source has
supplied the facts of the game, and there a game that was admitted fails its attribution. -/
namespace ChessCrawl.Normalize
open ChessCrawl.Lib
set_option autoImplicit false

/-! ## The facts in force -/

/-- The sightings of the stored revisions of a game. -/
def Archive.revisionSightings (a : Archive) (gameId : Nat) : List Sighting :=
  ((a.versions.filter fun v => v.gameId = gameId).flatMap fun v =>
    a.versionSources.filter fun s => s.versionId = v.id).flatMap fun s =>
      (a.raws.filter fun r => r.id = s.rawPayloadId).flatMap (a.sightings s.versionId)

/-- The sightings of a payload as the source of one revision. -/
def Archive.payloadSightings (a : Archive) (version rawId : Nat) : List Sighting :=
  (a.raws.filter fun r => r.id = rawId).flatMap (a.sightings version)

/-- The id of the revision of a listed game: that of an equal one, or the next. -/
def Archive.revisionId (a : Archive) (evidenceVersion : String) (gameId : Nat) (g : NormalizedGame) : Nat :=
  match a.versions.find? fun v =>
      v.gameId = gameId && v.contentHash = g.revisionHash && v.evidenceVersion = evidenceVersion with
  | some v => v.id
  | none => a.versionSeq + 1

/-- The end time after the write: that of the listing, unless a newer source supplied the row's. -/
def Archive.endInForce (a : Archive) (rawId : Nat) (g : NormalizedGame) (row : GameRow) : Option Int :=
  if a.isLatestGameSource row.id rawId then g.endTime else row.endedAt

/-- The `createdAt` after the write: that of the latest stored revision where this one was seen after the
payload, and that of the listing elsewhere. -/
def Archive.createdInForce (a : Archive) (evidenceVersion : String) (rawId : Nat) (g : NormalizedGame)
    (row : GameRow) : Option Int :=
  match latestSighting (a.revisionSightings row.id) with
  | some t =>
    if (a.payloadSightings (a.revisionId evidenceVersion row.id g) rawId).all t.after then
      (a.versions.find? fun v => v.id = t.version).bind GameVersion.createdAt
    else g.createdAt
  | none => g.createdAt

/-- The window and the provider of the run, at given facts. -/
def Db.inWindow (db : Db) (runId : Nat) (provider : Provider) (endedAt createdMs : Option Int) : Bool :=
  match db.runGameBounds runId provider none with
  | .ok bounds => bounds.includes endedAt createdMs
  | .error _ => false

/-- A checkpoint gives the game without a write, and the run has it already: `associate_run_game` returns
before it looks at the window. -/
def Call.revisits (c : Call) (db : Db) (runId : Nat) (pointer : String) (g : NormalizedGame) : Bool :=
  !c.rewrites db pointer g && (c.reusable pointer).any fun gameId =>
    (db.archive.game gameId).isSome && db.runHasGame runId gameId

/-- The facts in force lie in the window of the run: those of a checkpoint's game as its row stands, or
those that the write is about to leave on the row of the game. A game without a row takes the facts of its
listing. -/
def Call.agrees (c : Call) (db : Db) (runId : Nat) (pointer : String) (g : NormalizedGame) : Bool :=
  if c.rewrites db pointer g then
    (db.archive.findExistingGame g).all fun row => db.inWindow runId row.provider
      (db.archive.endInForce c.request.rawId g row)
      (db.archive.createdInForce c.request.evidenceVersion c.request.rawId g row)
  else
    (c.reusable pointer).all fun gameId => (db.archive.game gameId).any fun row =>
      db.inWindow runId row.provider row.endedAt (db.archive.createdMs row)

/-- The transaction of an admitted game that is new to the run, up to its attribution. -/
def Call.attributing (c : Call) (db : Db) (pointer : String) (g : NormalizedGame) (prepared : Bool) (now : Int) :
    Option (Nat × Db) :=
  (c.bounds db).toOption.bind fun bounds =>
    if admits bounds g = true ∧ c.allowance bounds ≠ some 0 then
      (c.reserveGame db g now).toOption.bind fun r =>
        if r.1 then none
        else (c.storeGame r.2 pointer g prepared).toOption.map fun x =>
          (x.1, x.2.markItem ⟨c.request.rawId, c.request.parserVersion, pointer, c.observed, x.1⟩)
    else none

structure Call.Attributing (c : Call) (db : Db) (pointer : String) (g : NormalizedGame) (prepared : Bool)
    (now : Int) (runId gameId : Nat) (mid : Db) : Prop where
  run : c.request.crawlRunId = some runId
  admitted : ∃ bounds, c.bounds db = .ok bounds ∧ admits bounds g = true ∧ c.allowance bounds ≠ some 0
  stored : ∃ charged stored, c.reserveGame db g now = .ok (false, charged) ∧
    c.storeGame charged pointer g prepared = .ok (gameId, stored) ∧
    mid = stored.markItem ⟨c.request.rawId, c.request.parserVersion, pointer, c.observed, gameId⟩

theorem attributing_of {c : Call} {db mid : Db} {pointer : String} {g : NormalizedGame} {prepared : Bool} {now : Int}
    {runId gameId : Nat} (hrun : c.request.crawlRunId = some runId)
    (h : c.attributing db pointer g prepared now = some (gameId, mid)) :
    c.Attributing db pointer g prepared now runId gameId mid := by
  obtain ⟨bounds, hbounds, h⟩ := Option.bind_eq_some_iff.mp h
  split at h
  · next hadmits =>
    obtain ⟨⟨acquired, charged⟩, hreserve, h⟩ := Option.bind_eq_some_iff.mp h
    split at h
    · cases h
    · next hnew =>
      obtain ⟨⟨id, stored⟩, hstore, heq⟩ := Option.map_eq_some_iff.mp h
      cases heq
      obtain rfl : acquired = false := by simpa using hnew
      exact ⟨hrun, ⟨bounds, toOption_some hbounds, hadmits⟩, charged, stored, toOption_some hreserve,
        toOption_some hstore, rfl⟩
  · cases h

/-- What is left of the transaction is its attribution. -/
theorem Call.Attributing.writeGame_eq {c : Call} {db mid : Db} {pointer : String} {g : NormalizedGame} {prepared : Bool}
    {now : Int} {runId gameId : Nat} (h : c.Attributing db pointer g prepared now runId gameId mid) :
    c.writeGame db pointer g prepared now =
      (mid.associateRunGame runId gameId).map fun r => (.acquired gameId, r.2) := by
  obtain ⟨bounds, hbounds, hadmits, hallow⟩ := h.admitted
  obtain ⟨charged, stored, hreserve, hstore, rfl⟩ := h.stored
  unfold Call.writeGame
  rw [ok_bind hbounds, if_neg (by simp [hadmits]), if_neg fun hfull => hallow hfull.2]
  unfold Call.writeAdmitted
  rw [ok_bind hreserve]
  dsimp only
  rw [ok_bind hstore]
  simp [Call.attribute, h.run]

/-! ## Latest sightings -/

theorem Sighting.ext_rank {s t : Sighting} (hrank : s.rank = t.rank) (hversion : s.version = t.version) : s = t := by
  obtain ⟨seen, log, raw, version⟩ := s
  obtain ⟨seen', log', raw', version'⟩ := t
  simp only [Sighting.rank, toLex_inj, Prod.mk.injEq, logRank_inj] at hrank
  obtain ⟨rfl, rfl, rfl⟩ := hrank
  obtain rfl := hversion
  rfl

theorem Sighting.Tops.eq {s t : Sighting} {ts : List Sighting} (hs : s.Tops ts) (ht : t.Tops ts) (hsm : s ∈ ts)
    (htm : t ∈ ts) : s = t := by
  rcases hs t htm with hlt | ⟨heq, hle⟩
  · rcases ht s hsm with hlt' | ⟨heq', _⟩
    · exact absurd (hlt.trans hlt') (lt_irrefl _)
    · exact absurd hlt (heq'.symm ▸ lt_irrefl _)
  · rcases ht s hsm with hlt' | ⟨_, hle'⟩
    · exact absurd hlt' (heq ▸ lt_irrefl _)
    · exact Sighting.ext_rank heq.symm (le_antisymm hle' hle)

theorem Sighting.after_of_tops {s t : Sighting} {ts : List Sighting} (ht : t.Tops ts) (hs : s ∈ ts) (hne : s ≠ t) :
    t.after s = true := by
  rw [Sighting.after_iff]
  rcases ht s hs with hlt | ⟨heq, hle⟩
  · exact .inl hlt
  · refine .inr ⟨heq, lt_of_le_of_ne hle fun hv => hne (Sighting.ext_rank heq hv)⟩

theorem mem_payloadSightings {a : Archive} {version rawId : Nat} {t : Sighting} :
    t ∈ a.payloadSightings version rawId ↔ ∃ r ∈ a.raws, r.id = rawId ∧ t ∈ a.sightings version r := by
  simp only [Archive.payloadSightings, List.mem_flatMap, List.mem_filter, decide_eq_true_eq, and_assoc]

theorem mem_revisionSightings {a : Archive} {gameId : Nat} {t : Sighting} : t ∈ a.revisionSightings gameId ↔
    a.Backs gameId t.version t.rawId ∧ ∃ r ∈ a.raws, r.id = t.rawId ∧ t ∈ a.sightings t.version r :=
  mem_currentSightings

/-! ## The row after the write -/

section Write
variable {evidence pointer : String} {a mid a' : Archive} {rawId gameId : Nat} {g : NormalizedGame} {v : GameVersion}

theorem sightings_congr (h : SameBodies a a') (version : Nat) (r : RawPayload) :
    a'.sightings version r = a.sightings version r := by
  unfold Archive.sightings
  rw [h.logs]

theorem Evidenced.mem_sightings (h : Evidenced evidence a a' gameId rawId pointer g v) (ha : a.Keyed)
    {t : Sighting} : t ∈ a'.revisionSightings gameId ↔
      t ∈ a.revisionSightings gameId ∨ t ∈ a.payloadSightings v.id rawId := by
  simp only [mem_revisionSightings, mem_payloadSightings, h.backs ha, h.bodies.raws, sightings_congr h.bodies]
  constructor
  · rintro ⟨hold | ⟨_, hversion, hraw⟩, r, hr, hid, ht⟩
    · exact .inl ⟨hold, r, hr, hid, ht⟩
    · rw [hversion] at ht
      exact .inr ⟨r, hr, hid.trans hraw, ht⟩
  · rintro (⟨hold, r, hr, hid, ht⟩ | ⟨r, hr, hid, ht⟩)
    · exact ⟨.inl hold, r, hr, hid, ht⟩
    · obtain ⟨hraw, hversion, _⟩ := Normalize.mem_sightings ht
      rw [hversion]
      exact ⟨.inr ⟨trivial, rfl, hraw.trans hid⟩, r, hr, hraw.symm, ht⟩

theorem Evidenced.revisionId_eq (h : Evidenced evidence a a' gameId rawId pointer g v) (ha : a.Keyed) :
    a.revisionId evidence gameId g = v.id := by
  unfold Archive.revisionId
  split
  · next w hw =>
    have hspec := List.find?_some hw
    simp only [Bool.and_eq_true, decide_eq_true_eq] at hspec
    obtain ⟨⟨hgame, hhash⟩, hversion⟩ := hspec
    have hmem := List.mem_of_find?_eq_some hw
    rcases h.versions with ⟨hv, _⟩ | ⟨_, _, _, hnew⟩
    · rw [ha.revisions w hmem v hv (hgame.trans h.gameId_eq.symm) (hhash.trans h.hash_eq.symm)
        (hversion.trans h.evidence_eq.symm)]
    · exact absurd hversion (hnew w hmem hgame hhash)
  · next hnone =>
    rcases h.versions with ⟨hv, _⟩ | ⟨_, hid, _⟩
    · have hno := List.find?_eq_none.mp hnone v hv
      simp [h.gameId_eq, h.hash_eq, h.evidence_eq] at hno
    · exact hid.symm

theorem find_version (ha : a.Keyed) (hv : v ∈ a.versions) : (a.versions.find? fun w => w.id = v.id) = some v := by
  have hsome : (a.versions.find? fun w => w.id = v.id).isSome = true := List.find?_isSome.mpr ⟨v, hv, by simp⟩
  obtain ⟨w, hw⟩ := Option.isSome_iff_exists.mp hsome
  have hid : w.id = v.id := by simpa using List.find?_some hw
  rw [hw, ha.version_eq (List.mem_of_find?_eq_some hw) hv hid]

/-- The current revision after the write is the stored one that overtakes the payload, or the payload's. -/
theorem Evidenced.createdMs_eq (h : Evidenced evidence a a' gameId rawId pointer g v) (ha : a.Keyed) (ha' : a'.Keyed)
    (hcreated : v.createdAt = g.createdAt) (hraw : ∃ r ∈ a.raws, r.id = rawId) {row row' : GameRow}
    (hid : row.id = gameId) (hcurrent : row'.currentVersionId = a'.currentVersion gameId) :
    a'.createdMs row' = a.createdInForce evidence rawId g row := by
  obtain ⟨r, hr, hrid⟩ := hraw
  obtain ⟨own, hown⟩ := exists_sighting a v.id r
  have hown : own ∈ a.payloadSightings v.id rawId := mem_payloadSightings.mpr ⟨r, hr, hrid, hown⟩
  obtain ⟨u, hu⟩ := latestSighting_isSome ((h.mem_sightings ha).mpr (.inr hown))
  obtain ⟨humem, hutop⟩ := latestSighting_spec hu
  have hversion : row'.currentVersionId = some u.version := by
    rw [hcurrent]
    show (latestSighting (a'.revisionSightings gameId)).map Sighting.version = _
    rw [hu, Option.map_some]
  have hlookup : ∀ w ∈ a'.versions, w.id = u.version → a'.createdMs row' = w.createdAt := by
    intro w hw hwid
    unfold Archive.createdMs
    simp only [hversion, Option.some.injEq, ← hwid, eq_comm (a := w.id), find_version ha' hw, Option.bind_some]
  have hself : u ∈ a.payloadSightings v.id rawId → a'.createdMs row' = g.createdAt := by
    intro hu
    obtain ⟨_, _, _, hu⟩ := mem_payloadSightings.mp hu
    rw [hlookup v (h.mem_versions.mpr (.inr rfl)) (Normalize.mem_sightings hu).2.1.symm, hcreated]
  have hstored : ∀ t, t ∈ a.revisionSightings gameId → u = t →
      a'.createdMs row' = (a.versions.find? fun w => w.id = t.version).bind GameVersion.createdAt := by
    rintro t ht rfl
    obtain ⟨⟨⟨w, hw, hwid, _⟩, _⟩, _⟩ := mem_revisionSightings.mp ht
    rw [hlookup w (h.mem_versions.mpr (.inl hw)) hwid, ← hwid, find_version ha hw, Option.bind_some]
  unfold Archive.createdInForce
  rw [hid, h.revisionId_eq ha]
  split
  · next t ht =>
    obtain ⟨htmem, httop⟩ := latestSighting_spec ht
    split
    · next hafter =>
      -- everything seen of the payload comes before a stored revision
      refine hstored t htmem ?_
      refine hutop.eq (fun s hs => ?_) humem ((h.mem_sightings ha).mpr (.inl htmem))
      rcases (h.mem_sightings ha).mp hs with hs | hs
      · exact httop s hs
      · have hbefore := List.all_eq_true.mp hafter s hs
        rw [Sighting.after_iff] at hbefore
        exact hbefore.imp_right fun hle => ⟨hle.1, hle.2.le⟩
    · next hafter =>
      refine hself ?_
      rcases (h.mem_sightings ha).mp humem with hold | hnew
      · by_contra hnot
        refine hafter (List.all_eq_true.mpr fun s hs => ?_)
        have hut : u = t := (Sighting.Tops.eq (fun s hs => hutop s ((h.mem_sightings ha).mpr (.inl hs))) httop hold htmem)
        rw [← hut]
        refine Sighting.after_of_tops hutop ((h.mem_sightings ha).mpr (.inr hs)) ?_
        rintro rfl
        exact hnot hs
      · exact hnew
  · next hnone =>
    refine hself (((h.mem_sightings ha).mp humem).resolve_left fun hold => ?_)
    obtain ⟨t, ht⟩ := latestSighting_isSome hold
    rw [hnone] at ht
    cases ht

theorem game_of_mem (ha : a.Keyed) {row : GameRow} (hrow : row ∈ a.games) : a.game row.id = some row := by
  have hsome : (a.game row.id).isSome = true := List.find?_isSome.mpr ⟨row, hrow, by simp⟩
  obtain ⟨found, hfound⟩ := Option.isSome_iff_exists.mp hsome
  have hid : found.id = row.id := by simpa using List.find?_some hfound
  rw [hfound, ha.row_eq (List.mem_of_find?_eq_some hfound) hrow hid]

/-- The row that the facts were written to. -/
theorem Facts.game_eq (h : Facts a rawId g gameId mid) (ha : a.Keyed) : mid.game gameId =
    some ((a.findExistingGame g).elim (g.row gameId) fun row =>
      if a.isLatestGameSource row.id rawId then row.merge g else row) := by
  have hmid := h.keyed ha
  cases h with
  | inserted hnone =>
    rw [hnone]
    exact game_of_mem hmid (List.mem_append_right _ (List.mem_singleton_self _))
  | @replaced row hrow hlatest =>
    rw [hrow, Option.elim_some, if_pos hlatest]
    have hmem : row.merge g ∈ (a.replaceGame (row.merge g)).games :=
      List.mem_map.mpr ⟨row, findExistingGame_mem hrow, if_pos rfl⟩
    exact game_of_mem hmid hmem
  | @kept row hrow hold =>
    rw [hrow, Option.elim_some, hold, if_neg Bool.false_ne_true]
    exact game_of_mem hmid (findExistingGame_mem hrow)

theorem Evidenced.game_eq (h : Evidenced evidence mid a' gameId rawId pointer g v) (ha' : a'.Keyed) {row : GameRow}
    (hrow : mid.game gameId = some row) :
    a'.game gameId = some { row with currentVersionId := a'.currentVersion gameId } := by
  have hid : row.id = gameId := by simpa using List.find?_some hrow
  have hmem : { row with currentVersionId := a'.currentVersion gameId } ∈ a'.games := by
    rw [h.games]
    exact List.mem_map.mpr ⟨row, List.mem_of_find?_eq_some hrow, if_pos hid⟩
  rw [← hid] at hmem ⊢
  exact game_of_mem ha' hmem

end Write

/-! ## Attribution under the lock -/

theorem runGameBounds_includes {db : Db} {runId : Nat} {p p' : Provider} {requested requested' : Option Int}
    {b b' : RunGameBounds} (h : db.runGameBounds runId p requested = .ok b)
    (h' : db.runGameBounds runId p' requested' = .ok b') (endedAt createdMs : Option Int) :
    b.includes endedAt createdMs = b'.includes endedAt createdMs := by
  unfold Db.runGameBounds at h h'
  split at h
  · cases h
  next run hrun =>
  rw [hrun] at h'
  dsimp only at h'
  split at h
  · cases h
  next hp =>
  split at h'
  · cases h'
  next hp' =>
  cases h
  cases h'
  have hp : p = run.provider := (not_not.mp hp).symm
  have hp' : p' = run.provider := (not_not.mp hp').symm
  subst hp hp'
  rfl

/-- An end that the window admits is not the one that a sparse merge would fill in. -/
theorem includes_merge {b : RunGameBounds} {ended old createdMs : Option Int} (replace : Bool)
    (h : b.includes ended createdMs = true) (created : Option Int) :
    b.includes (mergeFact replace ended old) created = b.includes ended created := by
  unfold RunGameBounds.includes at h ⊢
  rw [Bool.and_eq_true] at h
  obtain ⟨_, hend⟩ := h
  dsimp only
  by_cases hopen : (b.since.isNone && b.stop.isNone) = true
  · simp [hopen]
  · rw [if_neg hopen] at hend ⊢
    cases ended with
    | none => simp at hend
    | some e =>
      have hmerge : mergeFact replace (some e) old = some e := by
        unfold mergeFact
        split <;> rfl
      rw [hmerge, if_neg hopen]

theorem remaining_room {p : RunParams} {acquired : Nat} {requested : Option Int}
    (hpos : ∀ r, requested = some r → 0 ≤ r) (h : p.remaining acquired requested ≠ some 0) :
    p.remaining acquired none ≠ some 0 := by
  unfold RunParams.remaining at h ⊢
  split
  · intro hnone
    cases hnone
  next cap hcap =>
  rw [hcap] at h
  dsimp only at h ⊢
  intro hzero
  have hzero := Option.some.inj hzero
  apply h
  cases requested with
  | none => exact congrArg some hzero
  | some r =>
    have hr := hpos r rfl
    dsimp only
    congr 1
    omega

theorem associateRunGame_ok_iff {db : Db} {runId gameId : Nat} {row : GameRow}
    (hrow : db.archive.game gameId = some row)
    (hroom : ∀ b, db.runGameBounds runId row.provider none = .ok b → b.remaining ≠ some 0) :
    (∃ r, db.associateRunGame runId gameId = .ok r) ↔ (db.runHasGame runId gameId ||
      db.inWindow runId row.provider row.endedAt (db.archive.createdMs row)) = true := by
  unfold Db.associateRunGame Db.inWindow
  rw [hrow]
  dsimp only
  by_cases hhas : db.runHasGame runId gameId = true
  · simp [hhas]
  rw [if_neg hhas, Bool.eq_false_iff.mpr hhas, Bool.false_or]
  cases hbounds : db.runGameBounds runId row.provider none with
  | error e =>
    dsimp only
    constructor
    · rintro ⟨r, hr⟩
      cases hr
    · exact fun h => absurd h Bool.false_ne_true
  | ok b =>
    dsimp only
    rw [ok_bind rfl]
    by_cases hin : b.includes row.endedAt (db.archive.createdMs row) = true
    · simp [hin, hroom b hbounds]
    · simp [hin]

/-! ## Every run -/

/-- What the parsers read from a body: games of the body's provider, whose revision digest covers the
`createdAt` that the source gives. -/
def Event.Parsed (createdOf : String → Option Int) : Event → Prop
  | .storePayload raw => ∀ g ∈ raw.games, g.provider = raw.provider ∧ g.createdAt = createdOf g.revisionHash
  | _ => True

instance (createdOf : String → Option Int) : (e : Event) → Decidable (e.Parsed createdOf)
  | .storePayload raw => inferInstanceAs (Decidable (∀ g ∈ raw.games, g.provider = raw.provider ∧
      g.createdAt = createdOf g.revisionHash))
  | .observe _ | .createRun _ | .upsert _ | .associate _ _ | .ledger _ | .start _ _ | .act _ _ | .abandon _ => isTrue trivial

/-- What a body keeps of itself while its status changes. -/
def RawPayload.listing (r : RawPayload) : Nat × Provider × List NormalizedGame := (r.id, r.provider, r.games)

structure Call.Listed (c : Call) (a : Archive) : Prop where
  todo : ∀ entry ∈ c.todo, ∃ games, entry.2 ∈ games ∧ (c.request.rawId, c.provider, games) ∈ a.raws.map RawPayload.listing
  room : ∀ left, c.remaining = some left → 0 ≤ left

structure AdmissionOk (createdOf : String → Option Int) (s : World) : Prop where
  keyed : s.db.archive.Keyed
  parsed : ∀ id provider games, (id, provider, games) ∈ s.db.archive.raws.map RawPayload.listing →
    ∀ g ∈ games, g.provider = provider ∧ g.createdAt = createdOf g.revisionHash
  created : ∀ v ∈ s.db.archive.versions, v.createdAt = createdOf v.contentHash
  calls : ∀ w c, s.calls w = some c → c.Listed s.db.archive

theorem normalizeGame_versions {a a' : Archive} {evidence pointer : String} {rawId gameId : Nat} {g : NormalizedGame}
    {prepared : Bool} (h : a.normalizeGame evidence rawId pointer g prepared = .ok (gameId, a')) :
    ∀ v ∈ a'.versions, v ∈ a.versions ∨ (v.contentHash = g.revisionHash ∧ v.createdAt = g.createdAt) := by
  unfold Archive.normalizeGame at h
  obtain ⟨⟨id, mid⟩, hfacts, h⟩ := bind_ok h
  obtain ⟨stored, hstore, h⟩ := bind_ok h
  cases h
  have hmid : mid.versions = a.versions := by
    cases writeFacts_facts hfacts <;> rfl
  intro v hv
  unfold Archive.storeGameEvidence at hstore
  split at hstore
  · cases hstore
    exact .inl (hmid ▸ hv)
  · split at hstore
    · cases hstore
      rcases List.mem_append.mp hv with hv | hv
      · exact .inl (hmid ▸ hv)
      · rw [List.mem_singleton.mp hv]
        exact .inr ⟨rfl, rfl⟩
    · cases hstore

theorem mapRaws_listing (raws : List RawPayload) (rawId : Nat) (mark : RawPayload → RawPayload)
    (hmark : ∀ r, (mark r).listing = r.listing) :
    (raws.map fun r => if r.id = rawId then mark r else r).map RawPayload.listing = raws.map RawPayload.listing := by
  rw [List.map_map]
  refine List.map_congr_left fun r _ => ?_
  simp only [Function.comp_apply]
  split
  · exact hmark r
  · rfl

theorem startCall_listing {db db' : Db} {q : Request} {c : Call} (h : db.startCall q = .ok (c, db')) :
    db'.archive.raws.map RawPayload.listing = db.archive.raws.map RawPayload.listing := by
  obtain ⟨_, _, _, _, raw, _, ⟨_, _, hbegin⟩ | ⟨_, rfl⟩⟩ := startCall_cases h
  · unfold Db.beginNormalization at hbegin
    split at hbegin
    · cases hbegin
    · obtain rfl := (Prod.mk.inj (Except.ok.inj hbegin)).2
      split
      · exact mapRaws_listing _ q.rawId (fun r => { r with status := .pending }) fun _ => rfl
      · rfl
  · rfl

theorem certify_listing (db : Db) (rawId : Nat) (parserVersion : String) (observed : Nat) (pointers : List String)
    (empty : Bool) : (db.certify rawId parserVersion observed pointers empty).archive.raws.map RawPayload.listing =
      db.archive.raws.map RawPayload.listing := by
  rcases certify_cases db rawId parserVersion observed pointers empty with hsame | ⟨_, _, _, harchive⟩
  · rw [hsame]
  · rw [harchive]
    exact mapRaws_listing _ rawId (fun r => { r with status := _, parserVersion := some parserVersion }) fun _ => rfl

/-- What a step may do to the archive, apart from storing a body. -/
structure KeepsKeys (createdOf : String → Option Int) (a a' : Archive) : Prop where
  keyed : a.Keyed → a'.Keyed
  listing : a'.raws.map RawPayload.listing = a.raws.map RawPayload.listing
  created : (∀ v ∈ a.versions, v.createdAt = createdOf v.contentHash) →
    ∀ v ∈ a'.versions, v.createdAt = createdOf v.contentHash

variable {createdOf : String → Option Int}

theorem KeepsKeys.of_tables {a a' : Archive} (h : KeepsTables a a')
    (hlisting : a'.raws.map RawPayload.listing = a.raws.map RawPayload.listing) : KeepsKeys createdOf a a' := by
  refine ⟨fun ha => ?_, hlisting, ?_⟩
  · exact ha.of_tables (by rw [h.games]) h.versions h.sources h.gameSeq h.versionSeq
  · rw [h.versions]
    exact id

theorem upsertGame_keeps {a a' : Archive} {g : NormalizedGame} {gameId : Nat}
    (h : a.upsertGame g = .ok (gameId, a')) : KeepsKeys createdOf a a' := by
  refine ⟨fun ha => upsertGame_keyed ha h, by rw [(upsertGame_bodies h).raws], ?_⟩
  have hversions : a'.versions = a.versions := by
    unfold Archive.upsertGame at h
    split at h
    · cases h
      rfl
    · dsimp only at h
      split at h
      · cases h
      · cases h
        rfl
  rw [hversions]
  exact id

theorem writeGame_keeps {c : Call} {db db' : Db} {pointer : String} {g : NormalizedGame} {prepared : Bool} {now : Int}
    {written : Written} (hg : g.createdAt = createdOf g.revisionHash)
    (h : c.writeGame db pointer g prepared now = .ok (written, db')) :
    KeepsKeys createdOf db.archive db'.archive := by
  cases writeGame_archive h with
  | excluded => exact .of_tables (.refl _) rfl
  | reused _ _ _ harchive =>
    rw [harchive]
    exact .of_tables (.refl _) rfl
  | rewrote _ _ hwrite =>
    refine ⟨fun ha => normalizeGame_keyed ha hwrite, by rw [(normalizeGame_bodies hwrite).raws], fun hv v hmem => ?_⟩
    rcases normalizeGame_versions hwrite v hmem with hold | ⟨hhash, hcreated⟩
    · exact hv v hold
    · rw [hhash, hcreated, hg]

theorem act_keeps {c : Call} {c' : Option Call} {db db' : Db} {a : Act}
    (hg : ∀ entry ∈ c.todo, entry.2.createdAt = createdOf entry.2.revisionHash)
    (h : c.act db a = some (c', db')) : KeepsKeys createdOf db.archive db'.archive := by
  cases act_moved h with
  | raised => exact .of_tables (.refl _) rfl
  | kept => exact .of_tables (.refl _) rfl
  | paid => exact .of_tables (.refl _) rfl
  | wrote htodo hwrite =>
    exact writeGame_keeps (hg _ (htodo ▸ List.mem_cons_self)) hwrite
  | finished => exact .of_tables (certify_tables _ _ _ _ _ _) (certify_listing _ _ _ _ _ _)

theorem Call.Listed.act {c d : Call} {db db' : Db} {a : Act} (hc : c.Listed db.archive)
    (hlisting : db'.archive.raws.map RawPayload.listing = db.archive.raws.map RawPayload.listing)
    (h : c.act db a = some (some d, db')) : d.Listed db'.archive := by
  obtain ⟨hrequest, htodo⟩ := act_todo h
  have hmoved : d.provider = c.provider ∧ ∀ left, d.remaining = some left → 0 ≤ left := by
    cases act_moved h with
    | kept hk => exact ⟨hk.provider, hk.remaining ▸ hc.room⟩
    | paid hk => exact ⟨hk.provider, hk.remaining ▸ hc.room⟩
    | finished => exact ⟨rfl, hc.room⟩
    | @wrote pointer _ _ _ _ written _ _ hwrite =>
      cases written with
      | excluded => exact ⟨rfl, hc.room⟩
      | refreshed gameId => exact ⟨rfl, hc.room⟩
      | acquired gameId =>
        refine ⟨rfl, fun left hleft => ?_⟩
        obtain ⟨before, hbefore, rfl⟩ := Option.map_eq_some_iff.mp hleft
        have hpos := hc.room before hbefore
        have hne : before ≠ 0 := fun h0 =>
          (acquired_room (writeGame_wrote hwrite)).1 (hbefore.trans (congrArg some h0))
        omega
  refine ⟨fun entry he => ?_, hmoved.2⟩
  rw [hlisting, hrequest, hmoved.1]
  rcases htodo with hsame | htail
  · exact hc.todo entry (hsame ▸ he)
  · exact hc.todo entry (List.mem_of_mem_tail (htail ▸ he))

theorem startCall_listed {db db' : Db} {q : Request} {c : Call} (h : db.startCall q = .ok (c, db')) :
    c.Listed db'.archive := by
  have hlisting := startCall_listing h
  obtain ⟨hmax, hrequest, _, hremaining, _⟩ := startCall_cases h
  refine ⟨?_, ?_⟩
  · rw [hlisting, hrequest]
    unfold Db.startCall at h
    split at h
    · cases h
    split at h
    · cases h
    next raw hraw =>
    split at h
    · obtain ⟨_, _, hrest⟩ := bind_ok h
      cases hrest
      intro entry he
      have hmem : raw ∈ db.archive.raws := List.mem_of_find?_eq_some hraw
      have hid : raw.id = q.rawId := by simpa using List.find?_some hraw
      refine ⟨raw.games, (List.of_mem_zip he).2, List.mem_map.mpr ⟨raw, hmem, ?_⟩⟩
      rw [← hid]
      rfl
    · cases h
      exact fun entry he => absurd he List.not_mem_nil
  · rw [hremaining]
    exact hmax

theorem AdmissionOk.entry {s : World} {w : Nat} {c : Call} {entry : String × NormalizedGame} (hs : AdmissionOk createdOf s)
    (hc : s.calls w = some c) (he : entry ∈ c.todo) : entry.2.provider = c.provider ∧
      entry.2.createdAt = createdOf entry.2.revisionHash ∧ ∃ r ∈ s.db.archive.raws, r.id = c.request.rawId := by
  obtain ⟨games, hmem, hlisted⟩ := (hs.calls w c hc).todo entry he
  obtain ⟨hprovider, hcreated⟩ := hs.parsed _ _ games hlisted entry.2 hmem
  obtain ⟨r, hr, heq⟩ := List.mem_map.mp hlisted
  exact ⟨hprovider, hcreated, r, hr, congrArg Prod.fst heq⟩

/-- A step that stores no body keeps the invariant, if the calls after it list their bodies. -/
theorem AdmissionOk.step {s t : World} (hs : AdmissionOk createdOf s) (hk : KeepsKeys createdOf s.db.archive t.db.archive)
    (hcalls : ∀ w c, t.calls w = some c → c.Listed t.db.archive ∨ s.calls w = some c) : AdmissionOk createdOf t := by
  refine ⟨hk.keyed hs.keyed, ?_, hk.created hs.created, fun w c hc => ?_⟩
  · rw [hk.listing]
    exact hs.parsed
  · rcases hcalls w c hc with hnew | hold
    · exact hnew
    · obtain ⟨htodo, hroom⟩ := hs.calls w c hold
      refine ⟨?_, hroom⟩
      rw [hk.listing]
      exact htodo

theorem admissionOk_step {s t : World} {e : Event} (hs : AdmissionOk createdOf s) (hok : e.Parsed createdOf)
    (h : Stepped s e t) : AdmissionOk createdOf t := by
  have hrefl : KeepsKeys createdOf s.db.archive s.db.archive := .of_tables (.refl _) rfl
  cases h with
  | @storePayload raw a hstore =>
    obtain ⟨_, rfl, _⟩ := storePayload_extends hstore
    have hsub : ∀ x, x ∈ s.db.archive.raws.map RawPayload.listing →
        x ∈ (s.db.archive.raws ++ [raw]).map RawPayload.listing := by
      intro x hx
      rw [List.map_append]
      exact List.mem_append_left _ hx
    refine ⟨hs.keyed.of_tables rfl rfl rfl rfl rfl, fun id provider games hmem g hg => ?_, hs.created, fun w c hc => ?_⟩
    · rw [List.map_append] at hmem
      rcases List.mem_append.mp hmem with hold | hnew
      · exact hs.parsed id provider games hold g hg
      · have heq := List.mem_singleton.mp hnew
        obtain ⟨rfl, rfl, rfl⟩ : id = raw.id ∧ provider = raw.provider ∧ games = raw.games := by
          simpa [RawPayload.listing] using heq
        exact hok g hg
    · obtain ⟨htodo, hroom⟩ := hs.calls w c hc
      refine ⟨fun entry he => ?_, hroom⟩
      obtain ⟨games, hmem, hlisted⟩ := htodo entry he
      exact ⟨games, hmem, hsub _ hlisted⟩
  | observe hobserve =>
    refine hs.step (.of_tables (observe_tables hobserve) ?_) fun w c hc => .inr hc
    obtain ⟨rfl, _⟩ := observe_eq hobserve
    rfl
  | createRun => exact hs.step hrefl fun w c hc => .inr hc
  | upsert hupsert => exact hs.step (upsertGame_keeps hupsert) fun w c hc => .inr hc
  | associate hall =>
    refine hs.step ?_ fun w c hc => .inr hc
    rw [(associateAll_attributed hall).archive]
    exact hrefl
  | ledger => exact hs.step hrefl fun w c hc => .inr hc
  | start _ hstart =>
    refine hs.step (.of_tables (startCall_tables hstart) (startCall_listing hstart)) fun w c hc => ?_
    rcases setCall_calls hc with hold | ⟨_, heq⟩
    · exact .inr hold
    · cases heq
      exact .inl (startCall_listed hstart)
  | @act worker a c₀ c' db hcall hact =>
    have hk := act_keeps (fun entry he => (hs.entry hcall he).2.1) hact
    refine hs.step hk fun w c hc => ?_
    rcases setCall_calls hc with hold | ⟨_, heq⟩
    · exact .inr hold
    · subst heq
      exact .inl ((hs.calls _ _ hcall).act hk.listing hact)
  | abandon =>
    refine hs.step hrefl fun w c hc => ?_
    rcases setCall_calls hc with hold | ⟨_, heq⟩
    · exact .inr hold
    · cases heq

theorem admissionOk_of_reach {s : World} (h : Reach normalizers (fun _ e => e.Parsed createdOf) s) :
    AdmissionOk createdOf s := by
  refine Reach.invariant (I := AdmissionOk createdOf) ?_
    (fun s e t _ hs hok hstep => admissionOk_step hs hok (step_stepped hstep)) h
  rintro s rfl
  refine ⟨Archive.keyed_empty, fun _ _ _ h => absurd h List.not_mem_nil, fun _ h => absurd h List.not_mem_nil,
    fun w c hc => ?_⟩
  cases hc

/-! ## Admission by row -/

/-- The bounds under the lock, and the room that they leave to every attribution of the transaction. -/
theorem Call.Attributing.bounds {c : Call} {db mid : Db} {pointer : String} {g : NormalizedGame} {prepared : Bool}
    {now : Int} {runId gameId : Nat} (h : c.Attributing db pointer g prepared now runId gameId mid)
    (hpos : ∀ left, c.remaining = some left → 0 ≤ left) :
    ∃ b, db.runGameBounds runId c.provider c.remaining = .ok b ∧ b.includes g.endTime g.createdAt = true ∧
      ∀ provider b', db.runGameBounds runId provider none = .ok b' → b'.remaining ≠ some 0 := by
  obtain ⟨bounds, hbounds, hadmits, hallow⟩ := h.admitted
  simp only [Call.bounds, h.run] at hbounds
  cases hb : db.runGameBounds runId c.provider c.remaining with
  | error e =>
    rw [hb] at hbounds
    cases hbounds
  | ok b =>
    rw [hb] at hbounds
    cases hbounds
    refine ⟨b, rfl, hadmits, fun provider b' hb' => ?_⟩
    obtain ⟨run, hrun, hremaining, _⟩ := runGameBounds_ok hb
    obtain ⟨run', hrun', hremaining', _⟩ := runGameBounds_ok hb'
    obtain rfl := Option.some.inj (hrun.symm.trans hrun')
    rw [hremaining']
    refine remaining_room hpos ?_
    rw [← hremaining]
    exact hallow

/-- The row that a rewrite leaves, as far as the attribution reads it. -/
theorem normalizeGame_row {a a' : Archive} {evidence pointer : String} {rawId gameId : Nat} {g : NormalizedGame}
    {prepared : Bool} (ha : a.Keyed) (hraw : ∃ r ∈ a.raws, r.id = rawId)
    (hcreated : ∀ v ∈ a'.versions, v.contentHash = g.revisionHash → v.createdAt = g.createdAt)
    (h : a.normalizeGame evidence rawId pointer g prepared = .ok (gameId, a')) :
    ∃ row', a'.game gameId = some row' ∧
      ((a.findExistingGame g = none ∧ row'.provider = g.provider ∧ row'.endedAt = g.endTime ∧
          a'.createdMs row' = g.createdAt) ∨
        ∃ row, a.findExistingGame g = some row ∧ gameId = row.id ∧ row'.provider = row.provider ∧
          row'.endedAt = (if a.isLatestGameSource row.id rawId then
            mergeFact g.replacesEndedAt g.endTime row.endedAt else row.endedAt) ∧
          a'.createdMs row' = a.createdInForce evidence rawId g row) := by
  obtain ⟨mid, v, hfacts, hev⟩ := normalizeGame_cases h
  have hmid := hfacts.keyed ha
  have ha' := normalizeGame_keyed ha h
  have hv := hcreated v (hev.mem_versions.mpr (.inr rfl)) hev.hash_eq
  have hrawMid : ∃ r ∈ mid.raws, r.id = rawId := hfacts.bodies.raws ▸ hraw
  have hrow := hfacts.game_eq ha
  refine ⟨_, hev.game_eq ha' hrow, ?_⟩
  cases hfound : a.findExistingGame g with
  | none =>
    refine .inl ⟨rfl, rfl, rfl, ?_⟩
    -- nothing is stored yet about an id that was not given out
    have hempty : mid.revisionSightings gameId = [] := by
      refine List.eq_nil_iff_forall_not_mem.mpr fun t ht => ?_
      obtain ⟨⟨⟨w, hw, _, hgame⟩, _⟩, _⟩ := mem_revisionSightings.mp ht
      cases hfacts with
      | inserted =>
        have hle := (ha.versionSeq w hw).2
        omega
      | replaced hsome =>
        rw [hfound] at hsome
        cases hsome
      | kept hsome =>
        rw [hfound] at hsome
        cases hsome
    have hid : (g.row gameId).id = gameId := rfl
    rw [Option.elim_none, hev.createdMs_eq hmid ha' hv hrawMid hid rfl]
    unfold Archive.createdInForce
    rw [hid, hempty]
    rfl
  | some row =>
    refine .inr ⟨row, rfl, ?_⟩
    have hid : gameId = row.id := by
      cases hfacts with
      | inserted hnone =>
        rw [hfound] at hnone
        cases hnone
      | replaced hsome => rw [Option.some.inj (hsome.symm.trans hfound)]
      | kept hsome => rw [Option.some.inj (hsome.symm.trans hfound)]
    refine ⟨hid, ?_, ?_, ?_⟩
    · rw [Option.elim_some]
      split <;> rfl
    · rw [Option.elim_some]
      split <;> rfl
    · rw [hev.createdMs_eq hmid ha' hv hrawMid hid.symm rfl]
      cases hfacts <;> rfl

/-- The window of a run does not depend on the allowance that is asked for. -/
theorem inWindow_iff {db : Db} {runId : Nat} {p : Provider} {requested : Option Int} {b : RunGameBounds}
    (hb : db.runGameBounds runId p requested = .ok b) (provider : Provider) (endedAt createdMs : Option Int) :
    db.inWindow runId provider endedAt createdMs = true ↔
      (∃ b', db.runGameBounds runId provider none = .ok b') ∧ b.includes endedAt createdMs = true := by
  unfold Db.inWindow
  cases hb' : db.runGameBounds runId provider none with
  | error e => simp
  | ok b' => simp [runGameBounds_includes hb' hb]

theorem runGameBounds_none {db : Db} {runId : Nat} {p : Provider} {requested : Option Int} {b : RunGameBounds}
    (hb : db.runGameBounds runId p requested = .ok b) : ∃ b', db.runGameBounds runId p none = .ok b' := by
  unfold Db.runGameBounds at hb ⊢
  split at hb
  · cases hb
  next run hrun =>
  split at hb
  · cases hb
  next hp => exact ⟨_, if_neg hp⟩

theorem attributing_ok_iff {s : World} (hs : AdmissionOk createdOf s) {w : Nat} {c : Call} {prepared : Bool}
    {pointer : String} {g : NormalizedGame} {rest : List (String × NormalizedGame)} (hc : s.calls w = some c)
    (htodo : c.todo = (pointer, g) :: rest) {now : Int} {runId gameId : Nat} {mid : Db}
    (h : c.Attributing s.db pointer g prepared now runId gameId mid) :
    (∃ r, mid.associateRunGame runId gameId = .ok r) ↔
      (c.revisits s.db runId pointer g || c.agrees s.db runId pointer g) = true := by
  have hentry : (pointer, g) ∈ c.todo := htodo ▸ List.mem_cons_self
  obtain ⟨hprovider, hcreated, hraw⟩ := hs.entry hc hentry
  dsimp only at hprovider hcreated
  obtain ⟨b, hb, hin, hroom⟩ := h.bounds (hs.calls w c hc).room
  obtain ⟨charged, stored, hreserve, hstore, rfl⟩ := h.stored
  have hnew := (reserveGame_acquired hreserve).symm
  obtain ⟨L, rfl⟩ := reserveGame_db hreserve
  unfold Call.revisits Call.agrees
  rcases storeGame_cases hstore with ⟨hre, hreuse, rfl⟩ | ⟨hre, a', rfl, hwrite⟩
  · -- the checkpoint's game, as its row stands
    rw [show c.rewrites s.db pointer g = false from hre, if_neg Bool.false_ne_true, hreuse, Option.all_some, Option.any_some,
      Bool.not_false, Bool.true_and]
    cases hrow : s.db.archive.game gameId with
    | none =>
      rw [Option.any_none, Option.isSome_none, Bool.false_and, Bool.or_false]
      refine ⟨?_, fun hfalse => absurd hfalse Bool.false_ne_true⟩
      rintro ⟨r, hr⟩
      unfold Db.associateRunGame at hr
      simp only [Db.markItem, hrow] at hr
      cases hr
    | some row =>
      rw [Option.any_some, Option.isSome_some, Bool.true_and]
      exact associateRunGame_ok_iff hrow fun b' hb' => hroom _ b' hb'
  · rw [show c.rewrites s.db pointer g = true from hre, if_pos rfl, Bool.not_true, Bool.false_and, Bool.false_or]
    have hvs : ∀ v ∈ a'.versions, v.contentHash = g.revisionHash → v.createdAt = g.createdAt := by
      intro v hv hhash
      rcases normalizeGame_versions hwrite v hv with hold | ⟨_, hgv⟩
      · rw [hs.created v hold, hhash, hcreated]
      · exact hgv
    obtain ⟨row', hrow', hcases⟩ := normalizeGame_row hs.keyed hraw hvs hwrite
    let after := ({ s.db with archive := a', ledger := L } : Db).markItem
      ⟨c.request.rawId, c.request.parserVersion, pointer, c.observed, gameId⟩
    have hafter : after.archive.game gameId = some row' := hrow'
    have hrow : (∃ r, after.associateRunGame runId gameId = .ok r) ↔ (s.db.runHasGame runId gameId ||
        s.db.inWindow runId row'.provider row'.endedAt (a'.createdMs row')) = true :=
      associateRunGame_ok_iff hafter fun b' hb' => hroom _ b' hb'
    refine hrow.trans ?_
    have hin' := (inWindow_iff hb c.provider g.endTime g.createdAt).mpr ⟨runGameBounds_none hb, hin⟩
    rcases hcases with ⟨hnone, hp, hend, hms⟩ | ⟨row, hsome, rfl, hp, hend, hms⟩
    · -- a new row takes what was admitted
      rw [hnone, Option.all_none, hp, hend, hms, hprovider, hin', Bool.or_true]
    · have hhas : s.db.runHasGame runId row.id = false := by
        simpa [Call.alreadyAcquired, h.run, hsome] using hnew
      rw [hsome, Option.all_some, hhas, Bool.false_or, hp, hend, hms]
      unfold Archive.endInForce
      split
      · rw [inWindow_iff hb, inWindow_iff hb, includes_merge _ hin]
      · exact Iff.rfl

def movedGame : NormalizedGame := { listedGame "a" 900 with revisionHash := "revision-b" }

/-- A newer month lists the game with an end outside of the window, and is normalized first. -/
def movedEnd : List Event :=
  List.flatten [
    [.storePayload (monthOf 1 [listedGame "a" 150]), .observe ⟨1, 1, 200, 10⟩,
      .storePayload (monthOf 2 [movedGame]), .observe ⟨2, 2, 200, 20⟩],
    wholeCall 2, [.createRun singleGameRun, .start 0 (runRequest 1)], upToWrite 0]

/-- The call for the older month stands in front of the game's transaction, which will raise. -/
def atMovedGame (s : World) : Bool :=
  (s.calls 0).any fun c => decide (c.todo = [("/games/0", listedGame "a" 150)] ∧ c.request.crawlRunId = some 1 ∧
    (c.attributing s.db "/games/0" (listedGame "a" 150) true 0).isSome = true ∧
    c.revisits s.db 1 "/games/0" (listedGame "a" 150) = false ∧ c.agrees s.db 1 "/games/0" (listedGame "a" 150) = false)

end ChessCrawl.Normalize
