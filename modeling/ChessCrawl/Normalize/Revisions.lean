import ChessCrawl.Normalize.Sources

/-! What `_normalize_game` does to the archive: it inserts or replaces facts or leaves them, then records
the source with its version and recomputes the pointer of the one game. -/
namespace ChessCrawl.Normalize
open ChessCrawl.Lib
set_option autoImplicit false

/-! ## The evidence -/

/-- The tables after `insert_source_record` and `store_game_evidence`. -/
structure Evidenced (evidence : String) (a a' : Archive) (gameId rawId : Nat) (pointer : String)
    (g : NormalizedGame) (v : GameVersion) : Prop where
  bodies : SameBodies a a'
  gameSeq : a'.gameSeq = a.gameSeq
  gameId_eq : v.gameId = gameId
  hash_eq : v.contentHash = g.revisionHash
  evidence_eq : v.evidenceVersion = evidence
  versions : (v ∈ a.versions ∧ a'.versions = a.versions ∧ a'.versionSeq = a.versionSeq) ∨
    (a'.versions = a.versions ++ [v] ∧ v.id = a.versionSeq + 1 ∧ a'.versionSeq = v.id ∧
      ∀ w ∈ a.versions, w.gameId = gameId → w.contentHash = g.revisionHash → w.evidenceVersion ≠ evidence)
  sources : ∀ s, s ∈ a'.versionSources ↔ s ∈ a.versionSources ∨ s = ⟨v.id, rawId, pointer⟩
  records : ∀ r, r ∈ a'.sourceRecords ↔ r ∈ a.sourceRecords ∨ r = ⟨gameId, rawId⟩
  games : a'.games = a.games.map fun row =>
    if row.id = gameId then { row with currentVersionId := a'.currentVersion gameId } else row

theorem mem_addVersionSource (a : Archive) (source s : VersionSource) :
    s ∈ (a.addVersionSource source).versionSources ↔ s ∈ a.versionSources ∨ s = source := by
  unfold Archive.addVersionSource
  dsimp only
  split
  · next h => exact ⟨.inl, fun hs => hs.elim id fun heq => heq ▸ h⟩
  · rw [List.mem_append, List.mem_singleton]

theorem mem_insertSourceRecord (a : Archive) (gameId rawId : Nat) (r : SourceRecord) :
    r ∈ (a.insertSourceRecord gameId rawId).sourceRecords ↔ r ∈ a.sourceRecords ∨ r = ⟨gameId, rawId⟩ := by
  unfold Archive.insertSourceRecord
  dsimp only
  split
  · next h => exact ⟨.inl, fun hs => hs.elim id fun heq => heq ▸ h⟩
  · rw [List.mem_append, List.mem_singleton]

theorem storeGameEvidence_evidenced {a a' : Archive} {evidence pointer : String} {gameId rawId : Nat}
    {g : NormalizedGame} {prepared : Bool}
    (h : (a.insertSourceRecord gameId rawId).storeGameEvidence evidence gameId rawId pointer g prepared = .ok a') :
    ∃ v, Evidenced evidence a a' gameId rawId pointer g v := by
  unfold Archive.storeGameEvidence at h
  split at h
  · next v hv =>
    cases h
    have hspec := List.find?_some hv
    simp only [Bool.and_eq_true, decide_eq_true_eq] at hspec
    obtain ⟨⟨hgame, hhash⟩, hversion⟩ := hspec
    have hmem : v ∈ a.versions := List.mem_of_find?_eq_some hv
    exact ⟨v, ⟨⟨rfl, rfl⟩, rfl, hgame, hhash, hversion, .inl ⟨hmem, rfl, rfl⟩,
      fun s => mem_addVersionSource _ _ s, fun r => mem_insertSourceRecord a gameId rawId r, rfl⟩⟩
  · next hnone =>
    split at h
    · cases h
      refine ⟨_, ⟨⟨rfl, rfl⟩, rfl, rfl, rfl, rfl, .inr ⟨rfl, rfl, rfl, fun w hw hgame hhash hversion => ?_⟩,
        fun s => mem_addVersionSource _ _ s, fun r => mem_insertSourceRecord a gameId rawId r, rfl⟩⟩
      have hno := List.find?_eq_none.mp hnone w hw
      simp [hgame, hhash, hversion] at hno
    · cases h

namespace Evidenced
variable {evidence pointer : String} {a a' : Archive} {gameId rawId : Nat} {g : NormalizedGame} {v : GameVersion}

theorem mem_versions (h : Evidenced evidence a a' gameId rawId pointer g v) {w : GameVersion} :
    w ∈ a'.versions ↔ w ∈ a.versions ∨ w = v := by
  rcases h.versions with ⟨hv, heq, _⟩ | ⟨heq, _⟩
  · rw [heq]
    exact ⟨.inl, fun hw => hw.elim id fun heq => heq ▸ hv⟩
  · rw [heq, List.mem_append, List.mem_singleton]

/-- An old source does not point at a version that is being made. -/
theorem backs_iff (h : Evidenced evidence a a' gameId rawId pointer g v) (ha : a.Coherent evidence)
    (gid w p : Nat) : a'.Backs gid w p ↔ a.Backs gid w p ∨ (gid = gameId ∧ w = v.id ∧ p = rawId) := by
  constructor
  · rintro ⟨⟨x, hx, hxid, hxg⟩, s, hs, hsv, hsr⟩
    rcases (h.sources s).mp hs with hold | rfl
    · left
      refine ⟨?_, s, hold, hsv, hsr⟩
      obtain ⟨y, hy, hyid, _⟩ := ha.sources s hold
      rcases h.mem_versions.mp hx with hx | rfl
      · exact ⟨x, hx, hxid, hxg⟩
      · rcases h.versions with ⟨hv, _⟩ | ⟨_, hvid, _⟩
        · exact ⟨x, hv, hxid, hxg⟩
        · have hle := (ha.versionSeq y hy).1
          have heq : y.id = x.id := hyid.trans (hsv.trans hxid.symm)
          omega
    · right
      dsimp only at hsv hsr
      refine ⟨?_, hsv.symm, hsr.symm⟩
      have hxv : x.id = v.id := hxid.trans hsv.symm
      rcases h.mem_versions.mp hx with hx | rfl
      · rcases h.versions with ⟨hv, _⟩ | ⟨_, hvid, _⟩
        · rw [← hxg, ha.version_eq hx hv hxv, h.gameId_eq]
        · have hle := (ha.versionSeq x hx).1
          omega
      · rw [← hxg, h.gameId_eq]
  · rintro (⟨⟨x, hx, hxid, hxg⟩, s, hs, hsv, hsr⟩ | ⟨rfl, rfl, rfl⟩)
    · exact ⟨⟨x, h.mem_versions.mpr (.inl hx), hxid, hxg⟩, s, (h.sources s).mpr (.inl hs), hsv, hsr⟩
    · exact ⟨⟨v, h.mem_versions.mpr (.inr rfl), rfl, h.gameId_eq⟩, _, (h.sources _).mpr (.inr rfl), rfl, rfl⟩

theorem sourcesOf_eq (h : Evidenced evidence a a' gameId rawId pointer g v) (ha : a.Coherent evidence) :
    a'.sourcesOf gameId = insert rawId (a.sourcesOf gameId) := by
  refine Set.ext fun p => ⟨?_, ?_⟩
  · rintro ⟨w, hw⟩
    rcases (h.backs_iff ha gameId w p).mp hw with hold | ⟨_, _, rfl⟩
    · exact .inr ⟨w, hold⟩
    · exact .inl rfl
  · rintro (rfl | ⟨w, hw⟩)
    · exact ⟨v.id, (h.backs_iff ha gameId v.id p).mpr (.inr ⟨rfl, rfl, rfl⟩)⟩
    · exact ⟨w, (h.backs_iff ha gameId w p).mpr (.inl hw)⟩

theorem sourcesOf_other (h : Evidenced evidence a a' gameId rawId pointer g v) (ha : a.Coherent evidence)
    {gid : Nat} (hne : gid ≠ gameId) : a'.sourcesOf gid = a.sourcesOf gid := by
  refine Set.ext fun p => exists_congr fun w => ?_
  rw [h.backs_iff ha gid w p]
  exact ⟨fun hb => hb.resolve_right fun hnew => hne hnew.1, .inl⟩

/-- The payload's places in the game are one place. -/
def ListedOnce (a : Archive) (gameId rawId : Nat) (pointer : String) : Prop :=
  ∀ s ∈ a.versionSources, s.rawPayloadId = rawId → a.Backs gameId s.versionId rawId → s.jsonPointer = pointer

theorem coherent (h : Evidenced evidence a a' gameId rawId pointer g v) (ha : a.Coherent evidence)
    (hgame : gameId ≤ a.gameSeq) (hlists : a.Lists rawId pointer g) (honce : ListedOnce a gameId rawId pointer) :
    a'.Coherent evidence := by
  have hk := h.bodies.keeps
  refine ⟨hk.single ha.single, ?_, ?_, ?_, ?_, ?_, ?_, fun gid => ?_, ?_, ?_⟩
  · rw [h.games, List.map_map]
    have hids : (GameRow.id ∘ fun row => if row.id = gameId then
        { row with currentVersionId := a'.currentVersion gameId } else row) = GameRow.id := by
      funext row
      simp only [Function.comp_apply]
      split <;> rfl
    rw [hids]
    exact ha.gameIds
  · rw [h.games, h.gameSeq]
    intro row hrow
    obtain ⟨old, hold, rfl⟩ := List.mem_map.mp hrow
    split
    · exact ha.gameSeq old hold
    · exact ha.gameSeq old hold
  · rcases h.versions with ⟨_, heq, _⟩ | ⟨heq, hvid, _, _⟩
    · rw [heq]
      exact ha.versionIds
    · rw [heq, List.map_append]
      refine List.nodup_append.mpr ⟨ha.versionIds, List.nodup_singleton _, fun x hx y hy hxy => ?_⟩
      obtain ⟨w, hw, rfl⟩ := List.mem_map.mp hx
      have hle := (ha.versionSeq w hw).1
      rw [List.mem_singleton.mp hy] at hxy
      omega
  · intro w hw
    rw [h.gameSeq]
    rcases h.versions with ⟨_, heq, hseq⟩ | ⟨heq, hvid, hseq, _⟩
    · rw [heq] at hw
      rw [hseq]
      exact ha.versionSeq w hw
    · rcases h.mem_versions.mp hw with hold | rfl
      · obtain ⟨hle, hg, he⟩ := ha.versionSeq w hold
        exact ⟨by omega, hg, he⟩
      · exact ⟨hseq.ge, by rw [h.gameId_eq]; exact hgame, h.evidence_eq⟩
  · intro x hx y hy hxy hhash
    rcases h.versions with ⟨_, heq, _⟩ | ⟨heq, _, _, hnew⟩
    · rw [heq] at hx hy
      exact ha.revisions x hx y hy hxy hhash
    · rcases h.mem_versions.mp hx with hx | rfl
      · rcases h.mem_versions.mp hy with hy | rfl
        · exact ha.revisions x hx y hy hxy hhash
        · exact absurd (ha.versionSeq x hx).2.2
            (hnew x hx (hxy.trans h.gameId_eq) (hhash.trans h.hash_eq))
      · rcases h.mem_versions.mp hy with hy | rfl
        · exact absurd (ha.versionSeq y hy).2.2
            (hnew y hy (hxy.symm.trans h.gameId_eq) (hhash.symm.trans h.hash_eq))
        · rfl
  · intro s hs
    rcases (h.sources s).mp hs with hold | rfl
    · obtain ⟨w, hw, hid, g', hg', hhash⟩ := ha.sources s hold
      exact ⟨w, h.mem_versions.mpr (.inl hw), hid, g', hk.lists _ _ _ hg', hhash⟩
    · exact ⟨v, h.mem_versions.mpr (.inr rfl), rfl, g, hk.lists _ _ _ hlists, h.hash_eq⟩
  · by_cases hgid : gid = gameId
    · subst hgid
      rw [h.sourcesOf_eq ha, ← ha.records]
      refine Set.ext fun p => ?_
      refine (h.records ⟨gid, p⟩).trans ⟨?_, ?_⟩
      · rintro (hold | heq)
        · exact .inr hold
        · exact .inl (congrArg SourceRecord.rawPayloadId heq)
      · rintro (rfl | hold)
        · exact .inr rfl
        · exact .inl hold
    · rw [h.sourcesOf_other ha hgid, ← ha.records]
      refine Set.ext fun p => (h.records ⟨gid, p⟩).trans ⟨?_, .inl⟩
      rintro (hold | heq)
      · exact hold
      · exact absurd (congrArg SourceRecord.gameId heq) hgid
  · intro s hs s' hs' gid hb hb' hraw
    have hold : ∀ t ∈ a.versionSources, t.rawPayloadId = rawId → ∀ w p, a'.Backs gid w p → w = t.versionId →
        p = rawId → gid = gameId → t.jsonPointer = pointer := by
      rintro t ht htr w p hback rfl rfl rfl
      rcases (h.backs_iff ha _ _ _).mp hback with hback | ⟨_, hv, _⟩
      · exact honce t ht htr hback
      · obtain ⟨y, hy, hyid, _⟩ := ha.sources t ht
        rcases h.versions with ⟨hmem, _⟩ | ⟨_, hvid, _⟩
        · exact honce t ht htr ⟨⟨v, hmem, hv.symm, h.gameId_eq⟩, t, ht, rfl, htr⟩
        · have hle := (ha.versionSeq y hy).1
          omega
    have hgid : ∀ w, a'.Backs gid w rawId → w = v.id → gid = gameId := by
      rintro w ⟨⟨x, hx, hxid, hxg⟩, _⟩ rfl
      rcases h.mem_versions.mp hx with hx | rfl
      · rcases h.versions with ⟨hmem, _⟩ | ⟨_, hvid, _⟩
        · rw [← hxg, ha.version_eq hx hmem hxid, h.gameId_eq]
        · have hle := (ha.versionSeq x hx).1
          omega
      · rw [← hxg, h.gameId_eq]
    rcases (h.sources s).mp hs with hso | rfl
    · rcases (h.sources s').mp hs' with hso' | rfl
      · rcases (h.backs_iff ha _ _ _).mp hb with hbo | ⟨h1, _, h3⟩
        · rcases (h.backs_iff ha _ _ _).mp hb' with hbo' | ⟨h1, _, h3⟩
          · exact ha.once s hso s' hso' gid hbo hbo' hraw
          · rw [hold s hso (hraw.trans h3) _ _ hb rfl (hraw.trans h3) h1,
              hold s' hso' h3 _ _ hb' rfl h3 h1]
        · rw [hold s hso h3 _ _ hb rfl h3 h1,
            hold s' hso' (hraw.symm.trans h3) _ _ hb' rfl (hraw.symm.trans h3) h1]
      · exact hold s hso hraw _ _ hb rfl hraw (hgid _ hb' rfl)
    · rcases (h.sources s').mp hs' with hso' | rfl
      · exact (hold s' hso' hraw.symm _ _ hb' rfl hraw.symm (hgid _ hb rfl)).symm
      · rfl
  · intro row hrow version hversion
    rw [h.games] at hrow
    obtain ⟨old, hold, rfl⟩ := List.mem_map.mp hrow
    split at hversion
    · next hid =>
      obtain ⟨_, ⟨hv, _⟩, _⟩ := currentVersion_spec hversion
      rw [if_pos hid]
      rw [← hid] at hv
      exact hv
    · next hid =>
      rw [if_neg hid]
      obtain ⟨w, hw, hwid⟩ := ha.current old hold version hversion
      exact ⟨w, h.mem_versions.mpr (.inl hw), hwid⟩

end Evidenced

/-! ## The facts -/

/-- The row of a game that had none. -/
def NormalizedGame.row (g : NormalizedGame) (id : Nat) : GameRow :=
  ⟨id, g.provider, g.providerGameId, g.canonicalUrl, g.contentHash, g.facts, g.startTime, g.endTime, none⟩

inductive Facts (a : Archive) (rawId : Nat) (g : NormalizedGame) : Nat → Archive → Prop
  | inserted : a.findExistingGame g = none →
      Facts a rawId g (a.gameSeq + 1) { a with games := a.games ++ [g.row (a.gameSeq + 1)], gameSeq := a.gameSeq + 1 }
  | replaced {row : GameRow} : a.findExistingGame g = some row → a.isLatestGameSource row.id rawId = true →
      Facts a rawId g row.id (a.replaceGame (row.merge g))
  | kept {row : GameRow} : a.findExistingGame g = some row → a.isLatestGameSource row.id rawId = false →
      Facts a rawId g row.id a

theorem writeFacts_facts {a a' : Archive} {rawId gameId : Nat} {g : NormalizedGame}
    (h : a.writeFacts rawId g = .ok (gameId, a')) : Facts a rawId g gameId a' := by
  unfold Archive.writeFacts at h
  split at h
  · next row hrow =>
    split at h
    · next hlatest =>
      unfold Archive.upsertGame at h
      rw [hrow] at h
      dsimp only at h
      split at h
      · cases h
      · cases h
        exact .replaced hrow hlatest
    · next hold =>
      cases h
      exact .kept hrow (Bool.eq_false_iff.mpr hold)
  · next hnone =>
    unfold Archive.upsertGame at h
    rw [hnone] at h
    cases h
    exact .inserted hnone

theorem normalizeGame_cases {a a' : Archive} {evidence pointer : String} {rawId gameId : Nat}
    {g : NormalizedGame} {prepared : Bool}
    (h : a.normalizeGame evidence rawId pointer g prepared = .ok (gameId, a')) :
    ∃ mid v, Facts a rawId g gameId mid ∧ Evidenced evidence mid a' gameId rawId pointer g v := by
  unfold Archive.normalizeGame at h
  obtain ⟨⟨id, mid⟩, hfacts, h₁⟩ := bind_ok h
  obtain ⟨a₂, hstore, h₂⟩ := bind_ok h₁
  cases h₂
  obtain ⟨v, hv⟩ := storeGameEvidence_evidenced hstore
  exact ⟨mid, v, writeFacts_facts hfacts, hv⟩

theorem findExistingGame_mem {a : Archive} {g : NormalizedGame} {row : GameRow}
    (h : a.findExistingGame g = some row) : row ∈ a.games := by
  unfold Archive.findExistingGame at h
  dsimp only at h
  rcases Option.or_eq_some_iff.mp h with h | ⟨_, h⟩
  · rcases Option.or_eq_some_iff.mp h with h | ⟨_, h⟩
    · obtain ⟨_, _, h⟩ := Option.bind_eq_some_iff.mp h
      exact List.mem_of_find?_eq_some h
    · obtain ⟨_, _, h⟩ := Option.bind_eq_some_iff.mp h
      exact List.mem_of_find?_eq_some h
  · exact List.mem_of_find?_eq_some h

namespace Facts
variable {evidence : String} {a a' : Archive} {rawId gameId : Nat} {g : NormalizedGame}

theorem bodies (h : Facts a rawId g gameId a') : SameBodies a a' := by
  cases h <;> exact ⟨rfl, rfl⟩

theorem backs (h : Facts a rawId g gameId a') (gid v p : Nat) : a'.Backs gid v p ↔ a.Backs gid v p := by
  cases h <;> exact Iff.rfl

theorem recordedFor (h : Facts a rawId g gameId a') (gid : Nat) : a'.recordedFor gid = a.recordedFor gid := by
  cases h <;> rfl

theorem gameId_le (h : Facts a rawId g gameId a') (ha : a.Coherent evidence) : gameId ≤ a'.gameSeq := by
  cases h with
  | inserted => exact Nat.le_refl _
  | replaced hrow => exact ha.gameSeq _ (findExistingGame_mem hrow)
  | kept hrow => exact ha.gameSeq _ (findExistingGame_mem hrow)

theorem coherent (h : Facts a rawId g gameId a') (ha : a.Coherent evidence) : a'.Coherent evidence := by
  cases h with
  | inserted =>
    refine ⟨ha.single, ?_, ?_, ha.versionIds, ?_, ha.revisions, ha.sources, ha.records, ha.once, ?_⟩
    · rw [List.map_append]
      refine List.nodup_append.mpr ⟨ha.gameIds, List.nodup_singleton _, fun x hx y hy hxy => ?_⟩
      obtain ⟨row, hrow, rfl⟩ := List.mem_map.mp hx
      have hle := ha.gameSeq row hrow
      have hy : y = a.gameSeq + 1 := List.mem_singleton.mp hy
      omega
    · intro row hrow
      rcases List.mem_append.mp hrow with hold | hnew
      · exact Nat.le_succ_of_le (ha.gameSeq row hold)
      · rw [List.mem_singleton.mp hnew]
        exact Nat.le_refl _
    · intro v hv
      obtain ⟨hid, hgame, he⟩ := ha.versionSeq v hv
      exact ⟨hid, Nat.le_succ_of_le hgame, he⟩
    · intro row hrow version hversion
      rcases List.mem_append.mp hrow with hold | hnew
      · exact ha.current row hold version hversion
      · rw [List.mem_singleton.mp hnew] at hversion
        cases hversion
  | @replaced row hrow hlatest =>
    refine ⟨ha.single, ?_, ?_, ha.versionIds, ha.versionSeq, ha.revisions, ha.sources, ha.records, ha.once, ?_⟩
    · unfold Archive.replaceGame
      rw [List.map_map]
      have hids : (GameRow.id ∘ fun r => if r.id = (row.merge g).id then row.merge g else r) = GameRow.id := by
        funext r
        simp only [Function.comp_apply]
        split
        · next heq => exact heq.symm
        · rfl
      rw [hids]
      exact ha.gameIds
    · intro r hr
      obtain ⟨old, hold, rfl⟩ := List.mem_map.mp hr
      split
      · exact ha.gameSeq row (findExistingGame_mem hrow)
      · exact ha.gameSeq old hold
    · intro r hr version hversion
      obtain ⟨old, hold, rfl⟩ := List.mem_map.mp hr
      split at hversion
      · next hid =>
        rw [if_pos hid]
        exact ha.current row (findExistingGame_mem hrow) version hversion
      · next hid =>
        rw [if_neg hid]
        exact ha.current old hold version hversion
  | kept => exact ha

/-- Rows of other games stay. -/
theorem others (h : Facts a rawId g gameId a') {row : GameRow} (hrow : row ∈ a'.games) (hne : row.id ≠ gameId) :
    row ∈ a.games := by
  cases h with
  | inserted =>
    rcases List.mem_append.mp hrow with hold | hnew
    · exact hold
    · rw [List.mem_singleton.mp hnew] at hne
      exact absurd rfl hne
  | @replaced old hold _ =>
    obtain ⟨r, hr, rfl⟩ := List.mem_map.mp hrow
    split at hne
    · exact absurd rfl hne
    · next hid =>
      rw [if_neg hid]
      exact hr
  | kept => exact hrow

end Facts
end ChessCrawl.Normalize
