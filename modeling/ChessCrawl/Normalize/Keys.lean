import ChessCrawl.Normalize.Provenance

/-! The keys of the game tables, in every run and whatever evidence versions its calls use: ids are given out once and
below their sequences, a game has one revision for a digest and an evidence version, and every version source has its
revision. -/
namespace ChessCrawl.Normalize
open ChessCrawl.Lib
set_option autoImplicit false

structure Archive.Keyed (a : Archive) : Prop where
  gameIds : (a.games.map GameRow.id).Nodup
  gameSeq : ∀ row ∈ a.games, row.id ≤ a.gameSeq
  versionIds : (a.versions.map GameVersion.id).Nodup
  versionSeq : ∀ v ∈ a.versions, v.id ≤ a.versionSeq ∧ v.gameId ≤ a.gameSeq
  revisions : ∀ v ∈ a.versions, ∀ w ∈ a.versions, v.gameId = w.gameId → v.contentHash = w.contentHash →
    v.evidenceVersion = w.evidenceVersion → v = w
  sources : ∀ s ∈ a.versionSources, ∃ v ∈ a.versions, v.id = s.versionId

theorem Archive.keyed_empty : Archive.empty.Keyed := by
  constructor <;> simp [Archive.empty]

section Keyed
variable {evidence pointer : String} {a a' : Archive} {rawId gameId : Nat} {g : NormalizedGame} {v : GameVersion}

theorem Archive.Keyed.version_eq (h : a.Keyed) {v w : GameVersion} (hv : v ∈ a.versions) (hw : w ∈ a.versions)
    (hid : v.id = w.id) : v = w := List.inj_on_of_nodup_map h.versionIds hv hw hid

theorem Archive.Keyed.row_eq (h : a.Keyed) {r r' : GameRow} (hr : r ∈ a.games) (hr' : r' ∈ a.games)
    (hid : r.id = r'.id) : r = r' := List.inj_on_of_nodup_map h.gameIds hr hr' hid

/-- Rows may be rewritten in place, under tables that otherwise stay. -/
theorem Archive.Keyed.of_tables (h : a.Keyed) (hgames : a'.games.map GameRow.id = a.games.map GameRow.id)
    (hversions : a'.versions = a.versions) (hsources : a'.versionSources = a.versionSources)
    (hgs : a'.gameSeq = a.gameSeq) (hvs : a'.versionSeq = a.versionSeq) : a'.Keyed := by
  refine ⟨hgames ▸ h.gameIds, fun row hrow => ?_, ?_, ?_, ?_, ?_⟩
  · rw [hgs]
    have hmem : row.id ∈ a.games.map GameRow.id := hgames ▸ List.mem_map_of_mem hrow
    obtain ⟨old, hold, hid⟩ := List.mem_map.mp hmem
    rw [← hid]
    exact h.gameSeq old hold
  · rw [hversions]
    exact h.versionIds
  · rw [hversions, hgs, hvs]
    exact h.versionSeq
  · rw [hversions]
    exact h.revisions
  · rw [hversions, hsources]
    exact h.sources

theorem Archive.Keyed.insertGame (h : a.Keyed) (row : GameRow) (hid : row.id = a.gameSeq + 1) :
    Archive.Keyed { a with games := a.games ++ [row], gameSeq := a.gameSeq + 1 } where
  gameIds := by
    rw [List.map_append]
    refine List.nodup_append.mpr ⟨h.gameIds, List.nodup_singleton _, fun x hx y hy hxy => ?_⟩
    obtain ⟨old, hold, rfl⟩ := List.mem_map.mp hx
    have hle := h.gameSeq old hold
    have hy : y = row.id := List.mem_singleton.mp hy
    omega
  gameSeq r hr := by
    rcases List.mem_append.mp hr with hold | hnew
    · exact Nat.le_succ_of_le (h.gameSeq r hold)
    · rw [List.mem_singleton.mp hnew, hid]
  versionIds := h.versionIds
  versionSeq w hw := ⟨(h.versionSeq w hw).1, Nat.le_succ_of_le (h.versionSeq w hw).2⟩
  revisions := h.revisions
  sources := h.sources

theorem replaceGame_ids (a : Archive) (row : GameRow) : (a.replaceGame row).games.map GameRow.id = a.games.map GameRow.id := by
  unfold Archive.replaceGame
  rw [List.map_map]
  refine List.map_congr_left fun r _ => ?_
  simp only [Function.comp_apply]
  split
  · next heq => exact heq.symm
  · rfl

theorem Facts.keyed (h : Facts a rawId g gameId a') (ha : a.Keyed) : a'.Keyed := by
  cases h with
  | inserted => exact ha.insertGame _ rfl
  | replaced => exact ha.of_tables (replaceGame_ids a _) rfl rfl rfl rfl
  | kept => exact ha

theorem Facts.id_le (h : Facts a rawId g gameId a') (ha : a.Keyed) : gameId ≤ a'.gameSeq := by
  cases h with
  | inserted => exact Nat.le_refl _
  | replaced hrow => exact ha.gameSeq _ (findExistingGame_mem hrow)
  | kept hrow => exact ha.gameSeq _ (findExistingGame_mem hrow)

theorem upsertGame_keyed (ha : a.Keyed) (h : a.upsertGame g = .ok (gameId, a')) : a'.Keyed := by
  unfold Archive.upsertGame at h
  split at h
  · cases h
    exact ha.insertGame _ rfl
  · dsimp only at h
    split at h
    · cases h
    · cases h
      exact ha.of_tables (replaceGame_ids a _) rfl rfl rfl rfl

/-- A version that is made now has no source yet. -/
theorem Evidenced.version_of_source (h : Evidenced evidence a a' gameId rawId pointer g v) (ha : a.Keyed)
    {s : VersionSource} (hs : s ∈ a.versionSources) (hid : s.versionId = v.id) : v ∈ a.versions := by
  rcases h.versions with ⟨hv, _⟩ | ⟨_, hvid, _⟩
  · exact hv
  · obtain ⟨y, hy, hyid⟩ := ha.sources s hs
    have hle := (ha.versionSeq y hy).1
    omega

theorem Evidenced.backs (h : Evidenced evidence a a' gameId rawId pointer g v) (ha : a.Keyed) (gid w p : Nat) :
    a'.Backs gid w p ↔ a.Backs gid w p ∨ (gid = gameId ∧ w = v.id ∧ p = rawId) := by
  constructor
  · rintro ⟨⟨x, hx, rfl, hxg⟩, s, hs, hsv, hsr⟩
    rcases (h.sources s).mp hs with hold | rfl
    · left
      rcases h.mem_versions.mp hx with hx | rfl
      · exact ⟨⟨x, hx, rfl, hxg⟩, s, hold, hsv, hsr⟩
      · exact ⟨⟨x, h.version_of_source ha hold hsv, rfl, hxg⟩, s, hold, hsv, hsr⟩
    · right
      dsimp only at hsv hsr
      refine ⟨?_, hsv.symm, hsr.symm⟩
      rcases h.mem_versions.mp hx with hx | rfl
      · rcases h.versions with ⟨hv, _⟩ | ⟨_, hvid, _⟩
        · rw [← hxg, ha.version_eq hx hv hsv.symm, h.gameId_eq]
        · have hle := (ha.versionSeq x hx).1
          omega
      · rw [← hxg, h.gameId_eq]
  · rintro (⟨⟨x, hx, hxid, hxg⟩, s, hs, hsv, hsr⟩ | ⟨rfl, rfl, rfl⟩)
    · exact ⟨⟨x, h.mem_versions.mpr (.inl hx), hxid, hxg⟩, s, (h.sources s).mpr (.inl hs), hsv, hsr⟩
    · exact ⟨⟨v, h.mem_versions.mpr (.inr rfl), rfl, h.gameId_eq⟩, _, (h.sources _).mpr (.inr rfl), rfl, rfl⟩

theorem Evidenced.keyed (h : Evidenced evidence a a' gameId rawId pointer g v) (ha : a.Keyed)
    (hgame : gameId ≤ a.gameSeq) : a'.Keyed := by
  have hids : a'.games.map GameRow.id = a.games.map GameRow.id := by
    rw [h.games, List.map_map]
    refine List.map_congr_left fun row _ => ?_
    simp only [Function.comp_apply]
    split <;> rfl
  refine ⟨hids ▸ ha.gameIds, fun row hrow => ?_, ?_, fun w hw => ?_, fun x hx y hy hxy hhash hev => ?_, fun s hs => ?_⟩
  · have hmem : row.id ∈ a.games.map GameRow.id := hids ▸ List.mem_map_of_mem hrow
    obtain ⟨old, hold, hid⟩ := List.mem_map.mp hmem
    rw [← hid, h.gameSeq]
    exact ha.gameSeq old hold
  · rcases h.versions with ⟨_, heq, _⟩ | ⟨heq, hvid, _, _⟩
    · rw [heq]
      exact ha.versionIds
    · rw [heq, List.map_append]
      refine List.nodup_append.mpr ⟨ha.versionIds, List.nodup_singleton _, fun x hx y hy hxy => ?_⟩
      obtain ⟨w, hw, rfl⟩ := List.mem_map.mp hx
      have hle := (ha.versionSeq w hw).1
      rw [List.mem_singleton.mp hy] at hxy
      omega
  · rw [h.gameSeq]
    rcases h.versions with ⟨_, heq, hseq⟩ | ⟨_, hvid, hseq, _⟩
    · rw [heq] at hw
      rw [hseq]
      exact ha.versionSeq w hw
    · rcases h.mem_versions.mp hw with hold | rfl
      · have hle := ha.versionSeq w hold
        exact ⟨by omega, hle.2⟩
      · exact ⟨hseq.ge, by rw [h.gameId_eq]; exact hgame⟩
  · have hnew : ∀ w ∈ a.versions, w.gameId = v.gameId → w.contentHash = v.contentHash →
        w.evidenceVersion = v.evidenceVersion → w = v := by
      intro w hw hgame hhash hev
      rcases h.versions with ⟨hv, _⟩ | ⟨_, _, _, hnone⟩
      · exact ha.revisions w hw v hv hgame hhash hev
      · exact absurd (hev.trans h.evidence_eq) (hnone w hw (hgame.trans h.gameId_eq) (hhash.trans h.hash_eq))
    rcases h.mem_versions.mp hx with hx | rfl <;> rcases h.mem_versions.mp hy with hy | rfl
    · exact ha.revisions x hx y hy hxy hhash hev
    · exact hnew x hx hxy hhash hev
    · exact (hnew y hy hxy.symm hhash.symm hev.symm).symm
    · rfl
  · rcases (h.sources s).mp hs with hold | rfl
    · obtain ⟨w, hw, hid⟩ := ha.sources s hold
      exact ⟨w, h.mem_versions.mpr (.inl hw), hid⟩
    · exact ⟨v, h.mem_versions.mpr (.inr rfl), rfl⟩

theorem normalizeGame_keyed {prepared : Bool} (ha : a.Keyed)
    (h : a.normalizeGame evidence rawId pointer g prepared = .ok (gameId, a')) : a'.Keyed := by
  obtain ⟨mid, v, hfacts, hev⟩ := normalizeGame_cases h
  exact hev.keyed (hfacts.keyed ha) (hfacts.id_le ha)

end Keyed
end ChessCrawl.Normalize
