import ChessCrawl.Normalize.Agreement
import ChessCrawl.Normalize.Replay

/-! What a payload gives to a game. A payload that was written after its last observation is a source of
the game, and while it leads the game's sources the row has its facts and its revision; this stays true
until the payload is observed again. -/
namespace ChessCrawl.Normalize
open ChessCrawl.Lib
set_option autoImplicit false

/-- The payload's listing is a source of the game, and its content is the row's while it leads. -/
def Archive.Fed (a : Archive) (gameId rawId : Nat) (pointer : String) : Prop :=
  ∃ version g, ⟨version, rawId, pointer⟩ ∈ a.versionSources ∧ a.Backs gameId version rawId ∧
    a.Lists rawId pointer g ∧ (∃ row ∈ a.games, row.id = gameId) ∧
    (a.Leads (a.recordedFor gameId) rawId → ∀ row ∈ a.games, row.id = gameId →
      row.currentVersionId = some version ∧ row.facts = g.facts ∧ row.contentHash = g.contentHash)

/-! ## Observations -/

theorem mem_sightings_iff {a : Archive} {v : Nat} {r : RawPayload} {s : Sighting} : s ∈ a.sightings v r ↔
    ((∀ l ∈ a.logs, l.rawPayloadId = r.id → l.observation = false) ∧ s = ⟨r.fetchedAt, none, r.id, v⟩) ∨
      ∃ l ∈ a.logs, l.rawPayloadId = r.id ∧ l.observation = true ∧ s = ⟨l.attemptedAt, some l.id, r.id, v⟩ := by
  have hmem : ∀ l, l ∈ (a.logs.filter fun l => decide (l.rawPayloadId = r.id) && l.observation) ↔
      l ∈ a.logs ∧ l.rawPayloadId = r.id ∧ l.observation = true := by
    intro l
    rw [List.mem_filter, Bool.and_eq_true, decide_eq_true_eq]
  unfold Archive.sightings
  split
  · next hnil =>
    have hnone : ∀ l ∈ a.logs, l.rawPayloadId = r.id → l.observation = false := by
      intro l hl hraw
      refine Bool.eq_false_iff.mpr fun hobs => ?_
      have hin := (hmem l).mpr ⟨hl, hraw, hobs⟩
      rw [hnil] at hin
      exact absurd hin List.not_mem_nil
    rw [List.mem_singleton]
    constructor
    · exact fun hs => .inl ⟨hnone, hs⟩
    · rintro (⟨_, hs⟩ | ⟨l, hl, hraw, hobs, _⟩)
      · exact hs
      · rw [hnone l hl hraw] at hobs
        cases hobs
  · next hne =>
    rw [List.mem_map]
    constructor
    · rintro ⟨l, hl, rfl⟩
      obtain ⟨hl, hraw, hobs⟩ := (hmem l).mp hl
      exact .inr ⟨l, hl, hraw, hobs, rfl⟩
    · rintro (⟨hnone, _⟩ | ⟨l, hl, hraw, hobs, rfl⟩)
      · obtain ⟨l, hl⟩ := List.exists_mem_of_ne_nil _ hne
        obtain ⟨hl, hraw, hobs⟩ := (hmem l).mp hl
        rw [hnone l hl hraw] at hobs
        cases hobs
      · exact ⟨l, (hmem l).mpr ⟨hl, hraw, hobs⟩, rfl⟩

/-- The payload has been observed. -/
def Archive.Observed (a : Archive) (rawId : Nat) : Prop :=
  ∃ l ∈ a.logs, l.rawPayloadId = rawId ∧ l.observation = true

theorem observe_seen {a : Archive} {log : FetchLog} {p : Nat} {k : Int ×ₗ Nat ×ₗ Nat} (hne : log.rawPayloadId ≠ p) :
    Archive.Seen { a with logs := a.logs ++ [log] } p k ↔ a.Seen p k := by
  have hsight : ∀ r : RawPayload, r.id = p →
      Archive.sightings { a with logs := a.logs ++ [log] } 0 r = a.sightings 0 r := by
    intro r hr
    unfold Archive.sightings
    dsimp only
    rw [List.filter_append, List.filter_cons_of_neg, List.filter_nil, List.append_nil]
    rw [hr, Bool.and_eq_true, decide_eq_true_eq]
    exact fun hlog => hne hlog.1
  constructor
  · rintro ⟨r, hr, hid, s, hs, hk⟩
    rw [hsight r hid] at hs
    exact ⟨r, hr, hid, s, hs, hk⟩
  · rintro ⟨r, hr, hid, s, hs, hk⟩
    exact ⟨r, hr, hid, s, by rw [hsight r hid]; exact hs, hk⟩

/-- What was seen of an observed payload stays seen. -/
theorem observe_seen_mono {a : Archive} {log : FetchLog} {p : Nat} {k : Int ×ₗ Nat ×ₗ Nat} (hp : a.Observed p)
    (h : a.Seen p k) : Archive.Seen { a with logs := a.logs ++ [log] } p k := by
  obtain ⟨r, hr, hid, s, hs, hk⟩ := h
  refine ⟨r, hr, hid, s, ?_, hk⟩
  rcases mem_sightings_iff.mp hs with ⟨hnone, _⟩ | ⟨l, hl, hraw, hobs, heq⟩
  · obtain ⟨l, hl, hraw, hobs⟩ := hp
    rw [hnone l hl (hraw.trans hid.symm)] at hobs
    cases hobs
  · exact mem_sightings_iff.mpr (.inr ⟨l, List.mem_append_left _ hl, hraw, hobs, heq⟩)

/-- Another payload's observation does not put a payload in front. -/
theorem observe_leads {a : Archive} {log : FetchLog} {S : Set Nat} {p : Nat} (hlog : a.Observed log.rawPayloadId)
    (hne : log.rawPayloadId ≠ p) (h : Archive.Leads { a with logs := a.logs ++ [log] } S p) : a.Leads S p := by
  obtain ⟨k, hk, hall⟩ := h
  refine ⟨k, (observe_seen hne).mp hk, fun q hq k' hk' => hall q hq k' ?_⟩
  by_cases hlq : log.rawPayloadId = q
  · subst hlq
    exact observe_seen_mono hlog hk'
  · exact (observe_seen hlq).mpr hk'

theorem raw_none {a : Archive} {rawId : Nat} (h : a.raw rawId = none) : ∀ r ∈ a.raws, r.id ≠ rawId := by
  intro r hr hid
  have hno := List.find?_eq_none.mp h r hr
  simp [hid] at hno

theorem serial_lt {a : Archive} {log : FetchLog} (h : a.serial log = true) :
    ∀ l ∈ a.logs, l.rawPayloadId = log.rawPayloadId → l.id < log.id := by
  intro l hl hraw
  have hlog := List.all_eq_true.mp h l hl
  simpa [hraw] using hlog

theorem persistResponse_eq {a a' : Archive} {raw : RawPayload} {log : FetchLog}
    (h : a.persistResponse raw log = some a') :
    a' = { a with raws := a.raws ++ [raw], logs := a.logs ++ [log] } ∧ a.raw raw.id = none ∧
      log.rawPayloadId = raw.id ∧ log.observation = true ∧
      (∀ l ∈ a.logs, l.rawPayloadId = log.rawPayloadId → l.id < log.id) ∧ 0 < log.id := by
  unfold Archive.persistResponse at h
  split at h
  · next hok =>
    obtain ⟨mid, hstore, hobserve⟩ := Option.bind_eq_some_iff.mp h
    obtain ⟨rfl, _, _, hpos⟩ := observe_eq hobserve
    obtain ⟨_, rfl, _⟩ := storePayload_extends hstore
    unfold Archive.storePayload at hstore
    split at hstore
    · next hnew =>
      refine ⟨rfl, Option.isNone_iff_eq_none.mp hnew.1, hok.1, ?_, ?_, hpos⟩
      · unfold FetchLog.observation
        rw [hok.2.1]
        rfl
      · exact serial_lt hok.2.2
    · cases hstore
  · cases h

theorem persist_seen {a : Archive} {raw : RawPayload} {log : FetchLog} {p : Nat} {k : Int ×ₗ Nat ×ₗ Nat}
    (hlog : log.rawPayloadId = raw.id) (hne : raw.id ≠ p) :
    Archive.Seen { a with raws := a.raws ++ [raw], logs := a.logs ++ [log] } p k ↔ a.Seen p k := by
  have hmid : Archive.Seen { a with raws := a.raws ++ [raw], logs := a.logs ++ [log] } p k ↔
      Archive.Seen { a with raws := a.raws ++ [raw] } p k :=
    observe_seen (a := { a with raws := a.raws ++ [raw] }) (hlog ▸ hne)
  rw [hmid]
  constructor
  · rintro ⟨r, hr, hid, hs⟩
    rcases List.mem_append.mp hr with hold | hlast
    · exact ⟨r, hold, hid, hs⟩
    · rw [List.mem_singleton.mp hlast] at hid
      exact absurd hid hne
  · rintro ⟨r, hr, hid, hs⟩
    exact ⟨r, List.mem_append_left _ hr, hid, hs⟩

theorem persist_leads {a : Archive} {raw : RawPayload} {log : FetchLog} {S : Set Nat} {p : Nat}
    (hnew : a.raw raw.id = none) (hlog : log.rawPayloadId = raw.id) (hne : raw.id ≠ p)
    (h : Archive.Leads { a with raws := a.raws ++ [raw], logs := a.logs ++ [log] } S p) : a.Leads S p := by
  obtain ⟨k, hk, hall⟩ := h
  refine ⟨k, (persist_seen hlog hne).mp hk, fun q hq k' hk' => hall q hq k' ?_⟩
  by_cases hrq : raw.id = q
  · obtain ⟨r, hr, hid, _⟩ := hk'
    exact absurd (hid.trans hrq.symm) (raw_none hnew r hr)
  · exact (persist_seen hlog hrq).mpr hk'

/-! ## Marks -/

/-- A mark on a payload changes neither when it was fetched nor its logs. -/
theorem mapRaws_leads (a : Archive) (rawId : Nat) (mark : RawPayload → RawPayload) (hid : ∀ r, (mark r).id = r.id)
    (hfetched : ∀ r, (mark r).fetchedAt = r.fetchedAt) (S : Set Nat) (p : Nat) :
    Archive.Leads { a with raws := a.raws.map fun r => if r.id = rawId then mark r else r } S p ↔ a.Leads S p := by
  have hsame : ∀ r : RawPayload, (if r.id = rawId then mark r else r).id = r.id ∧
      (if r.id = rawId then mark r else r).fetchedAt = r.fetchedAt := by
    intro r
    split
    · exact ⟨hid r, hfetched r⟩
    · exact ⟨rfl, rfl⟩
  have hsight : ∀ r : RawPayload, Archive.sightings
      { a with raws := a.raws.map fun r => if r.id = rawId then mark r else r } 0
        (if r.id = rawId then mark r else r) = a.sightings 0 r := by
    intro r
    unfold Archive.sightings
    rw [(hsame r).1, (hsame r).2]
  have hseen : ∀ q k, Archive.Seen { a with raws := a.raws.map fun r => if r.id = rawId then mark r else r } q k ↔
      a.Seen q k := by
    intro q k
    constructor
    · rintro ⟨r, hr, hrid, s, hs, hk⟩
      obtain ⟨old, hold, rfl⟩ := List.mem_map.mp hr
      rw [hsight] at hs
      exact ⟨old, hold, (hsame old).1.symm.trans hrid, s, hs, hk⟩
    · rintro ⟨r, hr, hrid, s, hs, hk⟩
      exact ⟨_, List.mem_map_of_mem hr, (hsame r).1.trans hrid, s, by rw [hsight]; exact hs, hk⟩
  unfold Archive.Leads
  simp only [hseen]

theorem startCall_leads {db db' : Db} {q : Request} {c : Call} (h : db.startCall q = .ok (c, db')) (S : Set Nat)
    (p : Nat) : db'.archive.Leads S p ↔ db.archive.Leads S p := by
  obtain ⟨_, _, _, _, raw, _, ⟨_, _, hbegin⟩ | ⟨_, rfl⟩⟩ := startCall_cases h
  · unfold Db.beginNormalization at hbegin
    split at hbegin
    · cases hbegin
    · obtain rfl := (Prod.mk.inj (Except.ok.inj hbegin)).2
      split
      · exact mapRaws_leads db.archive q.rawId (fun r => { r with status := .pending }) (fun _ => rfl)
          (fun _ => rfl) S p
      · exact Iff.rfl
  · exact Iff.rfl

theorem certify_leads (db : Db) (rawId : Nat) (parserVersion : String) (observed : Nat) (pointers : List String)
    (empty : Bool) (S : Set Nat) (p : Nat) :
    (db.certify rawId parserVersion observed pointers empty).archive.Leads S p ↔ db.archive.Leads S p := by
  rcases certify_cases db rawId parserVersion observed pointers empty with hsame | ⟨_, _, _, harchive⟩
  · rw [hsame]
  · rw [harchive]
    exact mapRaws_leads db.archive rawId
      (fun r => { r with status := _, parserVersion := some parserVersion }) (fun _ => rfl) (fun _ => rfl) S p

/-! ## Writes -/

theorem KeepsTables.fed {a a' : Archive} (hk : KeepsTables a a') {gameId rawId : Nat} {pointer : String}
    (hl : a'.Leads (a.recordedFor gameId) rawId → a.Leads (a.recordedFor gameId) rawId)
    (h : a.Fed gameId rawId pointer) : a'.Fed gameId rawId pointer := by
  obtain ⟨version, g, hs, hb, hlists, hrow, hlead⟩ := h
  have hrec : a'.recordedFor gameId = a.recordedFor gameId := by
    unfold Archive.recordedFor
    rw [hk.records]
  refine ⟨version, g, by rw [hk.sources]; exact hs, ?_, hk.bodies.lists _ _ _ hlists, by rw [hk.games]; exact hrow, ?_⟩
  · unfold Archive.Backs at hb ⊢
    rw [hk.versions, hk.sources]
    exact hb
  · rw [hrec, hk.games]
    exact fun h' => hlead (hl h')

section Write
variable {evidence pointer : String} {a mid a' : Archive} {rawId gameId : Nat} {g : NormalizedGame} {v : GameVersion}

theorem Facts.keeps_others (h : Facts a rawId g gameId mid) {row : GameRow} (hrow : row ∈ a.games)
    (hne : row.id ≠ gameId) : row ∈ mid.games := by
  cases h with
  | inserted => exact List.mem_append_left _ hrow
  | @replaced old hold _ => exact List.mem_map.mpr ⟨row, hrow, if_neg hne⟩
  | kept => exact hrow

/-- The game has a row after its facts were written. -/
theorem Facts.exists_row (h : Facts a rawId g gameId mid) : ∃ row ∈ mid.games, row.id = gameId := by
  cases h with
  | inserted => exact ⟨_, List.mem_append_right _ List.mem_cons_self, rfl⟩
  | @replaced old hold _ => exact ⟨old.merge g, List.mem_map.mpr ⟨old, findExistingGame_mem hold, if_pos rfl⟩, rfl⟩
  | kept hold => exact ⟨_, findExistingGame_mem hold, rfl⟩

theorem Evidenced.recordedFor_eq (h : Evidenced evidence mid a' gameId rawId pointer g v) :
    a'.recordedFor gameId = insert rawId (mid.recordedFor gameId) := by
  refine Set.ext fun p => (h.records ⟨gameId, p⟩).trans ⟨?_, ?_⟩
  · rintro (hold | heq)
    · exact .inr hold
    · exact .inl (congrArg SourceRecord.rawPayloadId heq)
  · rintro (rfl | hold)
    · exact .inr rfl
    · exact .inl hold

theorem Evidenced.recordedFor_other (h : Evidenced evidence mid a' gameId rawId pointer g v) {gid : Nat}
    (hne : gid ≠ gameId) : a'.recordedFor gid = mid.recordedFor gid := by
  refine Set.ext fun p => (h.records ⟨gid, p⟩).trans ⟨?_, .inl⟩
  rintro (hold | heq)
  · exact hold
  · exact absurd (congrArg SourceRecord.gameId heq) hne

/-- The rows of the game after its evidence was stored. -/
theorem Evidenced.row_of (h : Evidenced evidence mid a' gameId rawId pointer g v) {row : GameRow}
    (hrow : row ∈ a'.games) (hid : row.id = gameId) : row.currentVersionId = a'.currentVersion gameId ∧
      ∃ old ∈ mid.games, old.id = gameId ∧ row.facts = old.facts ∧ row.contentHash = old.contentHash := by
  rw [h.games] at hrow
  obtain ⟨old, hold, rfl⟩ := List.mem_map.mp hrow
  by_cases hold' : old.id = gameId
  · rw [if_pos hold'] at hid ⊢
    exact ⟨rfl, old, hold, hold', rfl, rfl⟩
  · rw [if_neg hold'] at hid
    exact absurd hid hold'

theorem Evidenced.mem_other (h : Evidenced evidence mid a' gameId rawId pointer g v) {row : GameRow}
    (hne : row.id ≠ gameId) : row ∈ a'.games ↔ row ∈ mid.games := by
  rw [h.games, List.mem_map]
  constructor
  · rintro ⟨old, hold, rfl⟩
    split at hne
    · next hid => exact absurd hid hne
    · next hid =>
      rw [if_neg hid]
      exact hold
  · exact fun hrow => ⟨row, hrow, if_neg hne⟩

theorem Evidenced.exists_row (h : Evidenced evidence mid a' gameId rawId pointer g v)
    (hmid : ∃ row ∈ mid.games, row.id = gameId) : ∃ row ∈ a'.games, row.id = gameId := by
  obtain ⟨row, hrow, hid⟩ := hmid
  refine ⟨{ row with currentVersionId := a'.currentVersion gameId }, ?_, hid⟩
  rw [h.games]
  exact List.mem_map.mpr ⟨row, hrow, if_pos hid⟩

/-- What the written payload gives. -/
theorem fed_self (hf : Facts a rawId g gameId mid) (h : Evidenced evidence mid a' gameId rawId pointer g v)
    (ha : a.Coherent evidence) (ha' : a'.Coherent evidence) (hlists : a.Lists rawId pointer g) :
    a'.Fed gameId rawId pointer := by
  have hm := hf.coherent ha
  have hmlists := hf.bodies.keeps.lists _ _ _ hlists
  refine ⟨v.id, g, (h.sources _).mpr (.inr rfl), (h.backs_iff hm _ _ _).mpr (.inr ⟨rfl, rfl, rfl⟩),
    h.bodies.keeps.lists _ _ _ hmlists, h.exists_row hf.exists_row, fun hleads row hrow hid => ?_⟩
  rw [h.recordedFor_eq] at hleads
  have hleads := (leads_congr h.bodies).mp hleads
  obtain ⟨hcur, old, hold, holdid, hfacts, hhash⟩ := h.row_of hrow hid
  rw [hcur, h.latest hm hmlists hleads ha', hfacts, hhash]
  cases hf with
  | inserted =>
    rcases List.mem_append.mp hold with hin | hlast
    · have hle := ha.gameSeq old hin
      omega
    · rw [List.mem_singleton.mp hlast]
      exact ⟨rfl, rfl, rfl⟩
  | @replaced row' hrow' _ =>
    have hmerged : old = row'.merge g :=
      hm.row_eq hold (List.mem_map.mpr ⟨row', findExistingGame_mem hrow', if_pos rfl⟩) holdid
    rw [hmerged]
    exact ⟨rfl, rfl, rfl⟩
  | kept _ hnot =>
    rw [(isLatestGameSource_iff _ _ _).mpr hleads] at hnot
    cases hnot

/-- What other payloads gave before stays. -/
theorem fed_other (hf : Facts a rawId g gameId mid) (h : Evidenced evidence mid a' gameId rawId pointer g v)
    (ha : a.Coherent evidence) (ha' : a'.Coherent evidence) (hlists : a.Lists rawId pointer g)
    (honce : ∀ row ∈ a.findExistingGame g, Evidenced.ListedOnce a row.id rawId pointer) {gid p : Nat} {ptr : String}
    (hfed : a.Fed gid p ptr) : a'.Fed gid p ptr := by
  have hself := fed_self hf h ha ha' hlists
  have hm := hf.coherent ha
  have hmlists := hf.bodies.keeps.lists _ _ _ hlists
  obtain ⟨version, g', hs, hb, hl, hrow, hlead⟩ := hfed
  have hs' : (⟨version, p, ptr⟩ : VersionSource) ∈ a'.versionSources := by
    refine (h.sources _).mpr (.inl ?_)
    cases hf <;> exact hs
  have hb' := (h.backs_iff hm gid version p).mpr (.inl ((hf.backs gid version p).mpr hb))
  have hl' := h.bodies.keeps.lists _ _ _ (hf.bodies.keeps.lists _ _ _ hl)
  by_cases hgid : gid = gameId
  · subst hgid
    have hrec : p ∈ a.recordedFor gid := by
      rw [ha.records]
      exact ⟨version, hb⟩
    by_cases hp : p = rawId
    · -- the payload itself: its place in the game is the one just written
      subst hp
      have hptr : ptr = pointer := by
        cases hf with
        | inserted =>
          obtain ⟨⟨w, hw, _, hgame⟩, _⟩ := hb
          have hle := (ha.versionSeq w hw).2.1
          omega
        | replaced hrow' => exact honce _ hrow' _ hs rfl hb
        | kept hrow' => exact honce _ hrow' _ hs rfl hb
      rw [hptr]
      exact hself
    · refine ⟨version, g', hs', hb', hl', h.exists_row hf.exists_row, fun hleads row hrow' hid => ?_⟩
      rw [h.recordedFor_eq, hf.recordedFor] at hleads
      have hleads := (leads_congr hf.bodies).mp ((leads_congr h.bodies).mp hleads)
      obtain ⟨hcur, old, hold, holdid, hfacts, hhash⟩ := h.row_of hrow' hid
      cases hf with
      | inserted =>
        obtain ⟨⟨w, hw, _, hgame⟩, _⟩ := hb
        have hle := (ha.versionSeq w hw).2.1
        omega
      | replaced _ hlatest =>
        have hboth := (isLatestGameSource_iff _ _ _).mp hlatest
        exact absurd (hleads.unique hboth (.inr hrec) (.inl rfl)) hp
      | @kept found _ _ =>
        obtain ⟨hc, hf', hh'⟩ := hlead (hleads.mono fun q hq => .inr hq) old hold holdid
        obtain ⟨w, q, hw, hwq, hq⟩ := h.points hm hmlists
        have hq := (leads_congr h.bodies).mp hq
        have hqS : q ∈ insert rawId (a.recordedFor found.id) := by
          rw [hm.records, ← h.sourcesOf_eq hm]
          exact ⟨w, hwq⟩
        obtain rfl := hq.unique hleads hqS (.inr hrec)
        rw [hcur, hw, hfacts, hhash, ha'.single_version hwq hb']
        exact ⟨rfl, hf', hh'⟩
  · refine ⟨version, g', hs', hb', hl', ?_, fun hleads row hrow' hid => ?_⟩
    · obtain ⟨row, hrow, hid⟩ := hrow
      have hne : row.id ≠ gameId := by
        rw [hid]
        exact hgid
      exact ⟨row, (h.mem_other hne).mpr (hf.keeps_others hrow hne), hid⟩
    · rw [h.recordedFor_other hgid, hf.recordedFor] at hleads
      have hleads := (leads_congr hf.bodies).mp ((leads_congr h.bodies).mp hleads)
      have hne : row.id ≠ gameId := by
        rw [hid]
        exact hgid
      exact hlead hleads row (hf.others ((h.mem_other hne).mp hrow') hne) hid

end Write
end ChessCrawl.Normalize
