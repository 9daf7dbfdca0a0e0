import Mathlib
import ChessCrawl.Normalize.Certification
import ChessCrawl.Normalize.Latest

/-! What the archive tables say about each other. A source record and a version source are written by the
same transaction, so both queries of `storage/game_evidence.py` look at the same payloads of a game; a
payload that lists a game at one place has one version of it. -/
namespace ChessCrawl.Normalize
open ChessCrawl.Lib
set_option autoImplicit false

/-! ## Listings -/

/-- The stored body lists the game at the pointer. -/
def Archive.Lists (a : Archive) (rawId : Nat) (pointer : String) (g : NormalizedGame) : Prop :=
  ∃ r, a.raw rawId = some r ∧ (pointer, g) ∈ r.pointers.zip r.games

/-- The endpoint of one game has one game. -/
def Archive.SingleGames (a : Archive) : Prop := ∀ r ∈ a.raws, r.endpointType = .game → r.games.length = 1

theorem jsonPointer_inj {e : EndpointType} (he : e ≠ .game) {i j : Nat}
    (h : jsonPointer e i = jsonPointer e j) : i = j := by
  cases e with
  | game => exact absurd rfl he
  | monthlyArchive => exact Nat.repr_inj.mp ((String.append_right_inj _).mp h)
  | userGamesStream => exact Nat.repr_inj.mp ((String.append_right_inj _).mp h)
  | other => exact Nat.repr_inj.mp ((String.append_right_inj _).mp h)

theorem pointers_nodup {r : RawPayload} (h : r.endpointType = .game → r.games.length = 1) : r.pointers.Nodup := by
  unfold RawPayload.pointers
  by_cases he : r.endpointType = .game
  · rw [h he]
    simp
  · exact (List.nodup_map_iff_inj_on List.nodup_range).mpr fun i _ j _ hij => jsonPointer_inj he hij

theorem Archive.Lists.unique {a : Archive} (ha : a.SingleGames) {rawId : Nat} {pointer : String}
    {g g' : NormalizedGame} (h : a.Lists rawId pointer g) (h' : a.Lists rawId pointer g') : g = g' := by
  obtain ⟨r, hr, hmem⟩ := h
  obtain ⟨r', hr', hmem'⟩ := h'
  rw [hr] at hr'
  cases hr'
  have hlen : r.pointers.length = r.games.length := by simp [RawPayload.pointers]
  have hnodup : ((r.pointers.zip r.games).map Prod.fst).Nodup := by
    rw [List.map_fst_zip hlen.le]
    exact pointers_nodup (ha r (List.mem_of_find?_eq_some hr))
  exact congrArg Prod.snd (List.inj_on_of_nodup_map hnodup hmem hmem' rfl)

/-- Bodies that are stored stay as they are. -/
structure Archive.KeepsBodies (a a' : Archive) : Prop where
  lists : ∀ rawId pointer g, a.Lists rawId pointer g → a'.Lists rawId pointer g
  single : a.SingleGames → a'.SingleGames

theorem Archive.KeepsBodies.refl (a : Archive) : a.KeepsBodies a := ⟨fun _ _ _ h => h, fun h => h⟩

theorem SameBodies.keeps {a a' : Archive} (h : SameBodies a a') : a.KeepsBodies a' := by
  refine ⟨fun rawId pointer g => ?_, fun hs => ?_⟩
  · unfold Archive.Lists
    rw [raw_of_raws h.raws]
    exact id
  · unfold Archive.SingleGames
    rw [h.raws]
    exact hs

theorem mapRaws_keeps (a : Archive) (rawId : Nat) (mark : RawPayload → RawPayload)
    (hid : ∀ r, (mark r).id = r.id) (hgames : ∀ r, (mark r).games = r.games)
    (hend : ∀ r, (mark r).endpointType = r.endpointType) :
    a.KeepsBodies { a with raws := a.raws.map fun r => if r.id = rawId then mark r else r } := by
  have hsame : ∀ r : RawPayload, (if r.id = rawId then mark r else r).games = r.games ∧
      (if r.id = rawId then mark r else r).endpointType = r.endpointType := by
    intro r
    split
    · exact ⟨hgames r, hend r⟩
    · exact ⟨rfl, rfl⟩
  refine ⟨?_, fun hs r hr he => ?_⟩
  · rintro id pointer g ⟨r, hr, hmem⟩
    refine ⟨_, by rw [mapRaws_raw a rawId mark hid, hr]; rfl, ?_⟩
    unfold RawPayload.pointers at hmem ⊢
    rw [(hsame r).1, (hsame r).2]
    exact hmem
  · obtain ⟨old, hold, rfl⟩ := List.mem_map.mp hr
    rw [(hsame old).2] at he
    rw [(hsame old).1]
    exact hs old hold he

theorem storePayload_keeps {a a' : Archive} {raw : RawPayload} (h : a.storePayload raw = some a') :
    a.KeepsBodies a' := by
  unfold Archive.storePayload at h
  split at h
  · next hnew =>
    cases h
    refine ⟨?_, fun hs r hr he => ?_⟩
    · rintro id pointer g ⟨r, hr, hmem⟩
      refine ⟨r, ?_, hmem⟩
      unfold Archive.raw at hr ⊢
      rw [List.find?_append, hr]
      rfl
    · rcases List.mem_append.mp hr with hold | hlast
      · exact hs r hold he
      · rw [List.mem_singleton.mp hlast] at he ⊢
        exact hnew.2.2.2 he
  · cases h

theorem observe_eq {a a' : Archive} {log : FetchLog} (h : a.observe log = some a') :
    a' = { a with logs := a.logs ++ [log] } ∧ (∃ r, a.raw log.rawPayloadId = some r) ∧
      (∀ l ∈ a.logs, l.id ≠ log.id) ∧ 0 < log.id := by
  unfold Archive.observe at h
  split at h
  · next hok =>
    cases h
    exact ⟨rfl, Option.isSome_iff_exists.mp hok.1, hok.2.2, hok.2.1⟩
  · cases h

/-! ## Coherence -/

structure Archive.Coherent (evidence : String) (a : Archive) : Prop where
  single : a.SingleGames
  gameIds : (a.games.map GameRow.id).Nodup
  gameSeq : ∀ row ∈ a.games, row.id ≤ a.gameSeq
  versionIds : (a.versions.map GameVersion.id).Nodup
  versionSeq : ∀ v ∈ a.versions, v.id ≤ a.versionSeq ∧ v.gameId ≤ a.gameSeq ∧ v.evidenceVersion = evidence
  revisions : ∀ v ∈ a.versions, ∀ w ∈ a.versions, v.gameId = w.gameId → v.contentHash = w.contentHash → v = w
  sources : ∀ s ∈ a.versionSources, ∃ v ∈ a.versions, v.id = s.versionId ∧
    ∃ g, a.Lists s.rawPayloadId s.jsonPointer g ∧ v.contentHash = g.revisionHash
  records : ∀ gameId, a.recordedFor gameId = a.sourcesOf gameId
  once : ∀ s ∈ a.versionSources, ∀ s' ∈ a.versionSources, ∀ gameId, a.Backs gameId s.versionId s.rawPayloadId →
    a.Backs gameId s'.versionId s'.rawPayloadId → s.rawPayloadId = s'.rawPayloadId → s.jsonPointer = s'.jsonPointer
  current : ∀ row ∈ a.games, ∀ version, row.currentVersionId = some version →
    ∃ v ∈ a.versions, v.id = version ∧ v.gameId = row.id

variable {evidence : String}

theorem Archive.Coherent.version_eq {a : Archive} (h : a.Coherent evidence) {v w : GameVersion}
    (hv : v ∈ a.versions) (hw : w ∈ a.versions) (hid : v.id = w.id) : v = w :=
  List.inj_on_of_nodup_map h.versionIds hv hw hid

theorem Archive.Coherent.row_eq {a : Archive} (h : a.Coherent evidence) {r r' : GameRow}
    (hr : r ∈ a.games) (hr' : r' ∈ a.games) (hid : r.id = r'.id) : r = r' :=
  List.inj_on_of_nodup_map h.gameIds hr hr' hid

/-- A payload has one version of a game. -/
theorem Archive.Coherent.single_version {a : Archive} (h : a.Coherent evidence) {gameId v w rawId : Nat}
    (hv : a.Backs gameId v rawId) (hw : a.Backs gameId w rawId) : v = w := by
  obtain ⟨⟨x, hx, rfl, hxg⟩, s, hs, hsv, hsr⟩ := id hv
  obtain ⟨⟨y, hy, rfl, hyg⟩, t, ht, htv, htr⟩ := id hw
  have hpointer := h.once s hs t ht gameId (by rw [hsv, hsr]; exact hv) (by rw [htv, htr]; exact hw)
    (hsr.trans htr.symm)
  obtain ⟨x', hx', hxid, g, hg, hxhash⟩ := h.sources s hs
  obtain ⟨y', hy', hyid, g', hg', hyhash⟩ := h.sources t ht
  have hxx := h.version_eq hx' hx (hxid.trans hsv)
  have hyy := h.version_eq hy' hy (hyid.trans htv)
  subst hxx hyy
  rw [hsr, hpointer] at hg
  rw [htr] at hg'
  have hgg := hg.unique h.single hg'
  subst hgg
  rw [h.revisions x' hx y' hy (hxg.trans hyg.symm) (hxhash.trans hyhash.symm)]

theorem Archive.coherent_empty (evidence : String) : Archive.empty.Coherent evidence where
  single := fun r hr => absurd hr List.not_mem_nil
  gameIds := List.nodup_nil
  gameSeq := fun r hr => absurd hr List.not_mem_nil
  versionIds := List.nodup_nil
  versionSeq := fun v hv => absurd hv List.not_mem_nil
  revisions := fun v hv => absurd hv List.not_mem_nil
  sources := fun s hs => absurd hs List.not_mem_nil
  records := by
    intro gameId
    refine Set.ext fun p => ⟨fun h => absurd h List.not_mem_nil, ?_⟩
    rintro ⟨v, ⟨w, hw, _⟩, _⟩
    exact absurd hw List.not_mem_nil
  once := fun s hs => absurd hs List.not_mem_nil
  current := fun row hrow => absurd hrow List.not_mem_nil

/-- Bodies and logs may arrive, and statuses change, under the other tables. -/
theorem Archive.Coherent.of_bodies {a a' : Archive} (h : a.Coherent evidence) (hk : a.KeepsBodies a')
    (hgames : a'.games = a.games) (hrecords : a'.sourceRecords = a.sourceRecords)
    (hversions : a'.versions = a.versions) (hsources : a'.versionSources = a.versionSources)
    (hgs : a'.gameSeq = a.gameSeq) (hvs : a'.versionSeq = a.versionSeq) : a'.Coherent evidence := by
  have hbacks : ∀ gameId v p, a'.Backs gameId v p ↔ a.Backs gameId v p := by
    intro gameId v p
    unfold Archive.Backs
    rw [hversions, hsources]
  refine ⟨hk.single h.single, ?_, ?_, ?_, ?_, ?_, ?_, fun gameId => ?_, ?_, ?_⟩
  · rw [hgames]
    exact h.gameIds
  · rw [hgames, hgs]
    exact h.gameSeq
  · rw [hversions]
    exact h.versionIds
  · rw [hversions, hvs, hgs]
    exact h.versionSeq
  · rw [hversions]
    exact h.revisions
  · rw [hversions, hsources]
    intro s hs
    obtain ⟨v, hv, hid, g, hg, hhash⟩ := h.sources s hs
    exact ⟨v, hv, hid, g, hk.lists _ _ _ hg, hhash⟩
  · have hrec : a'.recordedFor gameId = a.recordedFor gameId := by
      unfold Archive.recordedFor
      rw [hrecords]
    have hsrc : a'.sourcesOf gameId = a.sourcesOf gameId :=
      Set.ext fun p => exists_congr fun v => hbacks gameId v p
    rw [hrec, hsrc, h.records]
  · rw [hsources]
    intro s hs s' hs' gameId hb hb'
    exact h.once s hs s' hs' gameId ((hbacks _ _ _).mp hb) ((hbacks _ _ _).mp hb')
  · rw [hgames, hversions]
    exact h.current

end ChessCrawl.Normalize
