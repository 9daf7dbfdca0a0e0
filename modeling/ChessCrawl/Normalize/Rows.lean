import ChessCrawl.Normalize.Order

/-! The rows of one game. Where listings tell the game apart, `find_existing_game` never crosses from the
game to another one: the game has at most one row, and the sources of that row are its listings. -/
namespace ChessCrawl.Normalize
open ChessCrawl.Lib
set_option autoImplicit false

structure Archive.Identified (G : GameIdentity) (a : Archive) : Prop where
  tells : ∀ r ∈ a.raws, ∀ g ∈ r.games, G.Tells g
  rows : ∀ row ∈ a.games, G.Owns row ∨ G.Foreign row
  one : ∀ row ∈ a.games, ∀ row' ∈ a.games, G.Owns row → G.Owns row' → row.id = row'.id
  sources : ∀ s ∈ a.versionSources, ∀ v ∈ a.versions, v.id = s.versionId → ∀ row ∈ a.games, row.id = v.gameId →
    ∀ g, a.Lists s.rawPayloadId s.jsonPointer g → (G.Is g ↔ G.Owns row)

theorem Archive.identified_empty (G : GameIdentity) : Archive.empty.Identified G :=
  ⟨fun _ h => absurd h List.not_mem_nil, fun _ h => absurd h List.not_mem_nil,
    fun _ h => absurd h List.not_mem_nil, fun _ h => absurd h List.not_mem_nil⟩

variable {G : GameIdentity} {evidence pointer : String} {a mid a' : Archive} {rawId gameId : Nat}
  {g : NormalizedGame} {v : GameVersion}

theorem GameIdentity.Owns.not_foreign {row : GameRow} (h : G.Owns row) : ¬ G.Foreign row :=
  fun hf => hf.id h.id

theorem Archive.Lists.mem {ptr : String} (h : a.Lists rawId ptr g) : ∃ r ∈ a.raws, r.id = rawId ∧ g ∈ r.games := by
  obtain ⟨r, hr, hmem⟩ := h
  obtain ⟨hin, hid⟩ := raw_mem hr
  exact ⟨r, hin, hid, (List.of_mem_zip hmem).2⟩

/-- The row that a lookup finds bears one of the three names. -/
theorem findExistingGame_named {row : GameRow} (h : a.findExistingGame g = some row) :
    (row.provider = g.provider ∧ g.providerGameId.isSome ∧ row.providerGameId = g.providerGameId) ∨
      (g.canonicalUrl.isSome ∧ row.canonicalUrl = g.canonicalUrl) ∨ row.contentHash = g.contentHash := by
  unfold Archive.findExistingGame at h
  dsimp only at h
  rcases Option.or_eq_some_iff.mp h with h | ⟨_, h⟩
  · rcases Option.or_eq_some_iff.mp h with h | ⟨_, h⟩
    · obtain ⟨id, hid, h⟩ := Option.bind_eq_some_iff.mp h
      have hfound := List.find?_some h
      obtain ⟨hp, hpid⟩ := of_decide_eq_true hfound
      left
      rw [hid]
      exact ⟨hp, rfl, hpid⟩
    · obtain ⟨url, hurl, h⟩ := Option.bind_eq_some_iff.mp h
      have hfound := List.find?_some h
      right; left
      rw [hurl]
      exact ⟨rfl, of_decide_eq_true hfound⟩
  · have hfound := List.find?_some h
    exact .inr (.inr (of_decide_eq_true hfound))

/-- A row of the game is found. -/
theorem findExistingGame_owned {row : GameRow} (hrow : row ∈ a.games) (ho : G.Owns row) (hg : G.Is g) :
    ∃ found, a.findExistingGame g = some found := by
  have hbyId : ∃ found, (a.games.find? fun r =>
      decide (r.provider = g.provider ∧ r.providerGameId = some G.id)) = some found := by
    refine Option.isSome_iff_exists.mp (List.find?_isSome.mpr ⟨row, hrow, decide_eq_true ⟨?_, ho.id⟩⟩)
    exact ho.provider.trans hg.1.symm
  obtain ⟨found, hfound⟩ := hbyId
  refine ⟨found, ?_⟩
  unfold Archive.findExistingGame
  rw [hg.2, Option.bind_some, hfound]
  rfl

/-- A lookup stays with the game. -/
theorem findExistingGame_kind {row : GameRow} (ha : a.Identified G) (htells : G.Tells g)
    (h : a.findExistingGame g = some row) : (G.Is g → G.Owns row) ∧ (¬ G.Is g → G.Foreign row) := by
  have hkind := ha.rows row (findExistingGame_mem h)
  have hnamed := findExistingGame_named h
  constructor
  · intro his
    have hnames := htells.1 his
    refine hkind.resolve_right fun hf => ?_
    rcases hnamed with ⟨_, _, hpid⟩ | ⟨hsome, hurl⟩ | hhash
    · exact hf.id (hpid.trans his.2)
    · obtain ⟨u, hu⟩ := Option.isSome_iff_exists.mp hsome
      exact hf.url u (hurl.trans hu) (hnames.url u hu)
    · exact hf.hash (hhash ▸ hnames.hash)
  · intro hnot
    have hapart := htells.2 hnot
    refine hkind.resolve_left fun ho => ?_
    rcases hnamed with ⟨_, _, hpid⟩ | ⟨hsome, hurl⟩ | hhash
    · exact hapart.id (hpid.symm.trans ho.id)
    · obtain ⟨u, hu⟩ := Option.isSome_iff_exists.mp hsome
      exact hapart.url u hu (ho.names.url u (hurl.trans hu))
    · exact hapart.hash (hhash ▸ ho.names.hash)

theorem or_mem {α : Type} {x y : Option α} {u : α} (h : u ∈ x.or y) : u ∈ x ∨ u ∈ y := by
  rcases Option.or_eq_some_iff.mp h with h | ⟨_, h⟩
  · exact .inl h
  · exact .inr h

/-- The row that a write leaves is the game's exactly when the listing is. -/
theorem Facts.row_kind (h : Facts a rawId g gameId mid) (ha : a.Identified G) (hc : a.Coherent evidence)
    (htells : G.Tells g) {row : GameRow} (hrow : row ∈ mid.games) (hid : row.id = gameId) :
    (G.Is g → G.Owns row) ∧ (¬ G.Is g → G.Foreign row) := by
  cases h with
  | inserted =>
    rcases List.mem_append.mp hrow with hold | hlast
    · have hle := hc.gameSeq row hold
      omega
    · rw [List.mem_singleton.mp hlast]
      exact ⟨fun his => ⟨his.1, his.2, htells.1 his⟩, htells.2⟩
  | @replaced old hold _ =>
    have hkind := findExistingGame_kind ha htells hold
    have hmerged : row = old.merge g := by
      obtain ⟨r, hr, rfl⟩ := List.mem_map.mp hrow
      split
      · rfl
      · next hne =>
        rw [if_neg hne] at hid
        exact absurd hid hne
    rw [hmerged]
    constructor
    · intro his
      have ho := hkind.1 his
      have hnames := htells.1 his
      refine ⟨ho.provider, ?_, ?_, hnames.hash⟩
      · change g.providerGameId.or old.providerGameId = some G.id
        rw [his.2]
        rfl
      · intro u hu
        rcases or_mem hu with hu | hu
        · exact hnames.url u hu
        · exact ho.names.url u hu
    · intro hnot
      have hf := hkind.2 hnot
      have hapart := htells.2 hnot
      refine ⟨fun heq => ?_, fun u hu => ?_, hapart.hash⟩
      · rcases or_mem heq with hpid | hpid
        · exact hapart.id hpid
        · exact hf.id hpid
      · rcases or_mem hu with hu | hu
        · exact hapart.url u hu
        · exact hf.url u hu
  | kept hold _ =>
    rw [hc.row_eq hrow (findExistingGame_mem hold) hid]
    exact findExistingGame_kind ha htells hold

/-- A row of the tables before the write has a successor of the same kind. -/
theorem Facts.exists_old (h : Facts a rawId g gameId mid) {row : GameRow} (hrow : row ∈ mid.games) :
    (∃ old ∈ a.games, old.id = row.id) ∨ (row.id = gameId ∧ a.findExistingGame g = none) := by
  cases h with
  | inserted hnone =>
    rcases List.mem_append.mp hrow with hold | hlast
    · exact .inl ⟨row, hold, rfl⟩
    · rw [List.mem_singleton.mp hlast]
      exact .inr ⟨rfl, hnone⟩
  | @replaced found hfound _ =>
    obtain ⟨r, hr, rfl⟩ := List.mem_map.mp hrow
    left
    split
    · exact ⟨found, findExistingGame_mem hfound, rfl⟩
    · exact ⟨r, hr, rfl⟩
  | kept => exact .inl ⟨row, hrow, rfl⟩

theorem Facts.gameId_of (h : Facts a rawId g gameId mid) {row : GameRow} (hrow : a.findExistingGame g = some row) :
    gameId = row.id := by
  cases h with
  | inserted hnone =>
    rw [hnone] at hrow
    cases hrow
  | replaced hold _ => rw [Option.some.inj (hold.symm.trans hrow)]
  | kept hold _ => rw [Option.some.inj (hold.symm.trans hrow)]

theorem Facts.identified (h : Facts a rawId g gameId mid) (ha : a.Identified G) (hc : a.Coherent evidence)
    (htells : G.Tells g) : mid.Identified G := by
  have hm := h.coherent hc
  have hkind := fun {row : GameRow} (hrow : row ∈ mid.games) (hid : row.id = gameId) =>
    h.row_kind ha hc htells hrow hid
  -- an owned row that is not the written one keeps the game's listing from being written elsewhere
  have hone : ∀ row ∈ mid.games, row.id ≠ gameId → G.Owns row → ¬ G.Is g := by
    intro row hrow hne ho his
    have hold := h.others hrow hne
    obtain ⟨found, hfound⟩ := findExistingGame_owned hold ho his
    refine hne ?_
    rw [h.gameId_of hfound]
    exact ha.one row hold found (findExistingGame_mem hfound) ho ((findExistingGame_kind ha htells hfound).1 his)
  have hrows : ∀ row ∈ mid.games, G.Owns row ∨ G.Foreign row := by
    intro row hrow
    by_cases hid : row.id = gameId
    · by_cases his : G.Is g
      · exact .inl ((hkind hrow hid).1 his)
      · exact .inr ((hkind hrow hid).2 his)
    · exact ha.rows row (h.others hrow hid)
  have hwritten : ∀ row ∈ mid.games, row.id = gameId → G.Owns row → G.Is g := by
    intro row hrow hid ho
    by_contra hnot
    exact ho.not_foreign ((hkind hrow hid).2 hnot)
  refine ⟨?_, hrows, fun row hrow row' hrow' ho ho' => ?_, fun s hs w hw hws row hrow hrw g' hg' => ?_⟩
  · rw [h.bodies.raws]
    exact ha.tells
  · by_cases hid : row.id = gameId
    · by_cases hid' : row'.id = gameId
      · exact hid.trans hid'.symm
      · exact absurd (hwritten row hrow hid ho) (hone row' hrow' hid' ho')
    · by_cases hid' : row'.id = gameId
      · exact absurd (hwritten row' hrow' hid' ho') (hone row hrow hid ho)
      · exact ha.one row (h.others hrow hid) row' (h.others hrow' hid') ho ho'
  · have hg' : a.Lists s.rawPayloadId s.jsonPointer g' := by
      unfold Archive.Lists at hg' ⊢
      rw [raw_of_raws h.bodies.raws] at hg'
      exact hg'
    have hs : s ∈ a.versionSources := by cases h <;> exact hs
    have hw : w ∈ a.versions := by cases h <;> exact hw
    by_cases hid : row.id = gameId
    · -- the version was there before the write, so the row was, too
      rcases h.exists_old hrow with ⟨old, hold, heq⟩ | ⟨_, hnone⟩
      · have hsource := ha.sources s hs w hw hws old hold (heq.trans hrw) g' hg'
        have hsame : G.Owns old ↔ G.Owns row := by
          cases h with
          | inserted hnone =>
            have hle := hc.gameSeq old hold
            omega
          | @replaced found hfound _ =>
            have hfold : found = old :=
              hc.row_eq (findExistingGame_mem hfound) hold (hid.symm.trans heq.symm)
            have hbefore := findExistingGame_kind ha htells hfound
            rw [← hfold]
            constructor
            · intro ho
              by_cases his : G.Is g
              · exact (hkind hrow hid).1 his
              · exact absurd (hbefore.2 his) ho.not_foreign
            · exact fun ho => hbefore.1 (hwritten row hrow hid ho)
          | kept => rw [hc.row_eq hold hrow heq]
        exact hsource.trans hsame
      · cases h with
        | inserted =>
          have hle := (hc.versionSeq w hw).2.1
          omega
        | replaced hold _ =>
          rw [hnone] at hold
          cases hold
        | kept hold _ =>
          rw [hnone] at hold
          cases hold
    · exact ha.sources s hs w hw hws row (h.others hrow hid) hrw g' hg'

/-- The choice of the current version renames no row. -/
theorem Evidenced.exists_mid (h : Evidenced evidence mid a' gameId rawId pointer g v) {row : GameRow}
    (hrow : row ∈ a'.games) : ∃ old ∈ mid.games, old.id = row.id ∧ (G.Owns old ↔ G.Owns row) ∧
      (G.Foreign old ↔ G.Foreign row) := by
  rw [h.games] at hrow
  obtain ⟨old, hold, rfl⟩ := List.mem_map.mp hrow
  refine ⟨old, hold, ?_⟩
  split
  · exact ⟨rfl, ⟨fun h => ⟨h.provider, h.id, h.names⟩, fun h => ⟨h.provider, h.id, h.names⟩⟩, Iff.rfl⟩
  · exact ⟨rfl, Iff.rfl, Iff.rfl⟩

theorem normalizeGame_identified {prepared : Bool} (ha : a.Identified G) (hc : a.Coherent evidence)
    (hlists : a.Lists rawId pointer g) (h : a.normalizeGame evidence rawId pointer g prepared = .ok (gameId, a')) :
    a'.Identified G := by
  obtain ⟨mid, v, hfacts, hev⟩ := normalizeGame_cases h
  obtain ⟨r, hr, _, hgr⟩ := hlists.mem
  have htells := ha.tells r hr g hgr
  have hm := hfacts.identified ha hc htells
  have hmc := hfacts.coherent hc
  refine ⟨?_, fun row hrow => ?_, fun row hrow row' hrow' ho ho' => ?_,
    fun s hs w hw hws row hrow hrw g' hg' => ?_⟩
  · rw [hev.bodies.raws]
    exact hm.tells
  · obtain ⟨old, hold, _, howns, hforeign⟩ := hev.exists_mid (G := G) hrow
    exact (hm.rows old hold).imp howns.mp hforeign.mp
  · obtain ⟨old, hold, hid, howns, _⟩ := hev.exists_mid (G := G) hrow
    obtain ⟨old', hold', hid', howns', _⟩ := hev.exists_mid (G := G) hrow'
    rw [← hid, ← hid']
    exact hm.one old hold old' hold' (howns.mpr ho) (howns'.mpr ho')
  · obtain ⟨old, hold, hid, howns, _⟩ := hev.exists_mid (G := G) hrow
    have hg'mid : mid.Lists s.rawPayloadId s.jsonPointer g' := by
      unfold Archive.Lists at hg' ⊢
      rw [raw_of_raws hev.bodies.raws] at hg'
      exact hg'
    rw [← howns]
    rcases (hev.sources s).mp hs with hsold | rfl
    · -- a source of before names a version of before
      obtain ⟨x, hx, hxid, _⟩ := hmc.sources s hsold
      have hwmid : w ∈ mid.versions := by
        rcases (hev.mem_versions).mp hw with hw | rfl
        · exact hw
        · rcases hev.versions with ⟨hin, _⟩ | ⟨_, hnew, _⟩
          · exact hin
          · have hle := (hmc.versionSeq x hx).1
            omega
      exact hm.sources s hsold w hwmid hws old hold (hid.trans hrw) g' hg'mid
    · have hgg : g' = g := hg'mid.unique hmc.single (hfacts.bodies.keeps.lists _ _ _ hlists)
      rw [hgg]
      have hwgame : w.gameId = gameId := by
        rcases (hev.mem_versions).mp hw with hwold | rfl
        · rcases hev.versions with ⟨hin, _⟩ | ⟨_, hnew, _⟩
          · rw [hmc.version_eq hwold hin hws]
            exact hev.gameId_eq
          · have hle := (hmc.versionSeq w hwold).1
            have : w.id = v.id := hws
            omega
        · exact hev.gameId_eq
      have hkind := hfacts.row_kind ha hc htells hold (hid.trans (hrw.trans hwgame))
      exact ⟨hkind.1, fun ho => by_contra fun hnot => ho.not_foreign (hkind.2 hnot)⟩

end ChessCrawl.Normalize
