import ChessCrawl.Normalize.Archive
import Mathlib.Data.Prod.Lex
import Mathlib.Data.Set.Insert

/-! The order of observations. `is_latest_game_source` and the choice of `current_version_id` sort two
different joins of the same sightings; both take the payload that leads a set of payloads by time, log id
and payload id, and the second breaks what is left by the version id. -/
namespace ChessCrawl.Normalize
set_option autoImplicit false

/-! ## Sightings -/

/-- A payload without a log comes last among equal times. -/
def logRank : Option Nat → Nat
  | none => 0
  | some n => n + 1

/-- The part of the order that both queries share. -/
def Sighting.rank (s : Sighting) : Int ×ₗ Nat ×ₗ Nat := toLex (s.seenAt, toLex (logRank s.log, s.rawId))

theorem logAfter_iff (m n : Option Nat) : logAfter m n = true ↔ logRank n < logRank m := by
  cases m with
  | none => simp [logAfter, logRank]
  | some m =>
    cases n with
    | none => simp [logAfter, logRank]
    | some n => simp [logAfter, logRank]

theorem logRank_inj {m n : Option Nat} : logRank m = logRank n ↔ m = n := by
  cases m <;> cases n <;> simp [logRank]

theorem Sighting.after_iff (s t : Sighting) :
    s.after t = true ↔ t.rank < s.rank ∨ (t.rank = s.rank ∧ t.version < s.version) := by
  simp only [Sighting.after, Sighting.rank, Bool.or_eq_true, Bool.and_eq_true, decide_eq_true_eq, logAfter_iff,
    Prod.Lex.toLex_lt_toLex, toLex_inj, Prod.mk.injEq, gt_iff_lt, ← logRank_inj (m := s.log)]
  constructor
  · rintro (h | ⟨h1, h | ⟨h2, h | ⟨h3, h⟩⟩⟩)
    · exact .inl (.inl h)
    · exact .inl (.inr ⟨h1.symm, .inl h⟩)
    · exact .inl (.inr ⟨h1.symm, .inr ⟨h2.symm, h⟩⟩)
    · exact .inr ⟨⟨h1.symm, h2.symm, h3.symm⟩, h⟩
  · rintro ((h | ⟨h1, h | ⟨h2, h⟩⟩) | ⟨⟨h1, h2, h3⟩, h⟩)
    · exact .inl h
    · exact .inr ⟨h1.symm, .inl h⟩
    · exact .inr ⟨h1.symm, .inr ⟨h2.symm, .inl h⟩⟩
    · exact .inr ⟨h1.symm, .inr ⟨h2.symm, .inr ⟨h3.symm, h⟩⟩⟩

/-- No sighting comes after `s`. -/
def Sighting.Tops (s : Sighting) (ts : List Sighting) : Prop :=
  ∀ t ∈ ts, t.rank < s.rank ∨ (t.rank = s.rank ∧ t.version ≤ s.version)

theorem Sighting.Tops.trans {s t : Sighting} {ts : List Sighting} (h : t.Tops ts)
    (hst : t.rank < s.rank ∨ (t.rank = s.rank ∧ t.version ≤ s.version)) : s.Tops ts := by
  intro u hu
  rcases h u hu with hlt | ⟨heq, hle⟩
  · rcases hst with hlt' | ⟨heq', _⟩
    · exact .inl (hlt.trans hlt')
    · exact .inl (heq' ▸ hlt)
  · rcases hst with hlt' | ⟨heq', hle'⟩
    · exact .inl (heq ▸ hlt')
    · exact .inr ⟨heq.trans heq', hle.trans hle'⟩

theorem latestSighting_spec {ts : List Sighting} {s : Sighting} (h : latestSighting ts = some s) :
    s ∈ ts ∧ s.Tops ts := by
  induction ts generalizing s with
  | nil => cases h
  | cons t ts ih =>
    rw [latestSighting] at h
    split at h
    · next u hu =>
      obtain ⟨hmem, htop⟩ := ih hu
      split at h
      · next hafter =>
        cases h
        refine ⟨List.mem_cons_of_mem _ hmem, fun v hv => ?_⟩
        rcases List.mem_cons.mp hv with rfl | hv
        · rcases (Sighting.after_iff s v).mp hafter with hlt | ⟨heq, hlt⟩
          · exact .inl hlt
          · exact .inr ⟨heq, hlt.le⟩
        · exact htop v hv
      · next hafter =>
        cases h
        refine ⟨List.mem_cons_self, fun v hv => ?_⟩
        rcases List.mem_cons.mp hv with rfl | hv
        · exact .inr ⟨rfl, le_refl _⟩
        · refine htop.trans ?_ v hv
          rw [Sighting.after_iff] at hafter
          rcases lt_trichotomy u.rank t.rank with hlt | heq | hgt
          · exact .inl hlt
          · exact .inr ⟨heq, not_lt.mp fun hv => hafter (.inr ⟨heq.symm, hv⟩)⟩
          · exact absurd (.inl hgt) hafter
    · next hnone =>
      cases h
      refine ⟨List.mem_cons_self, fun v hv => ?_⟩
      rcases List.mem_cons.mp hv with rfl | hv
      · exact .inr ⟨rfl, le_refl _⟩
      · cases ts with
        | nil => cases hv
        | cons w ws =>
          exfalso
          rw [latestSighting] at hnone
          split at hnone
          · split at hnone <;> cases hnone
          · cases hnone

theorem latestSighting_isSome {ts : List Sighting} {t : Sighting} (ht : t ∈ ts) :
    ∃ s, latestSighting ts = some s := by
  cases ts with
  | nil => cases ht
  | cons u us =>
    rw [latestSighting]
    split
    · split <;> exact ⟨_, rfl⟩
    · exact ⟨_, rfl⟩

/-! ## Payloads -/

/-- Some observation of the payload has the rank. -/
def Archive.Seen (a : Archive) (rawId : Nat) (k : Int ×ₗ Nat ×ₗ Nat) : Prop :=
  ∃ r ∈ a.raws, r.id = rawId ∧ ∃ s ∈ a.sightings 0 r, s.rank = k

/-- The payload has an observation that none of the others is behind. -/
def Archive.Leads (a : Archive) (S : Set Nat) (rawId : Nat) : Prop :=
  ∃ k, a.Seen rawId k ∧ ∀ q ∈ S, ∀ k', a.Seen q k' → k' ≤ k

theorem sightings_version (a : Archive) (v w : Nat) (r : RawPayload) :
    a.sightings v r = (a.sightings w r).map fun s => { s with version := v } := by
  unfold Archive.sightings
  split
  · rfl
  · rw [List.map_map]
    rfl

theorem mem_sightings {a : Archive} {v : Nat} {r : RawPayload} {s : Sighting} (h : s ∈ a.sightings v r) :
    s.rawId = r.id ∧ s.version = v ∧ ∃ t ∈ a.sightings 0 r, t.rank = s.rank := by
  rw [sightings_version a v 0] at h
  obtain ⟨t, ht, rfl⟩ := List.mem_map.mp h
  refine ⟨?_, rfl, t, ht, rfl⟩
  unfold Archive.sightings at ht
  split at ht
  · rw [List.mem_singleton.mp ht]
  · obtain ⟨l, _, rfl⟩ := List.mem_map.mp ht
    rfl

theorem exists_sighting (a : Archive) (v : Nat) (r : RawPayload) : ∃ s, s ∈ a.sightings v r := by
  unfold Archive.sightings
  split
  · exact ⟨_, List.mem_singleton_self _⟩
  · next hlogs =>
    obtain ⟨l, hl⟩ := List.exists_mem_of_ne_nil _ hlogs
    exact ⟨_, List.mem_map_of_mem hl⟩

/-- The rank names the payload. -/
theorem Archive.Seen.rawId_eq {a : Archive} {p : Nat} {k : Int ×ₗ Nat ×ₗ Nat} (h : a.Seen p k) :
    (ofLex (ofLex k).2).2 = p := by
  obtain ⟨r, _, rfl, s, hs, rfl⟩ := h
  exact (mem_sightings hs).1

theorem Archive.Leads.mono {a : Archive} {S T : Set Nat} {p : Nat} (h : a.Leads S p) (hts : T ⊆ S) :
    a.Leads T p := by
  obtain ⟨k, hk, hall⟩ := h
  exact ⟨k, hk, fun q hq => hall q (hts hq)⟩

/-- Only one payload of a set leads it. -/
theorem Archive.Leads.unique {a : Archive} {S : Set Nat} {p q : Nat} (hp : a.Leads S p) (hq : a.Leads S q)
    (hpS : p ∈ S) (hqS : q ∈ S) : p = q := by
  obtain ⟨k, hk, hall⟩ := hp
  obtain ⟨k', hk', hall'⟩ := hq
  have heq : k = k' := le_antisymm (hall' p hpS k hk) (hall q hqS k' hk')
  rw [← hk.rawId_eq, ← hk'.rawId_eq, heq]

/-! ## The two queries -/

/-- The payload is a source of the version, and the version is one of the game. -/
def Archive.Backs (a : Archive) (gameId version rawId : Nat) : Prop :=
  (∃ v ∈ a.versions, v.id = version ∧ v.gameId = gameId) ∧
    ∃ s ∈ a.versionSources, s.versionId = version ∧ s.rawPayloadId = rawId

/-- The payloads behind the game's versions. -/
def Archive.sourcesOf (a : Archive) (gameId : Nat) : Set Nat := fun p => ∃ version, a.Backs gameId version p

/-- The payloads with a source record of the game. -/
def Archive.recordedFor (a : Archive) (gameId : Nat) : Set Nat := fun p => ⟨gameId, p⟩ ∈ a.sourceRecords

theorem isLatestGameSource_iff (a : Archive) (gameId p : Nat) :
    a.isLatestGameSource gameId p = true ↔ a.Leads (insert p (a.recordedFor gameId)) p := by
  have hmem : ∀ r ∈ a.raws, (r.id ∈ insert p (a.recordedFor gameId)) ↔
      (decide (r.id = p) || a.sourceRecords.any fun s => decide (s.gameId = gameId) && decide (s.rawPayloadId = r.id)) = true := by
    intro r _
    simp only [Set.mem_insert_iff, Bool.or_eq_true, decide_eq_true_eq, List.any_eq_true, Bool.and_eq_true]
    refine or_congr_right ⟨fun h => ⟨_, h, rfl, rfl⟩, ?_⟩
    rintro ⟨⟨g, q⟩, hs, hg, hq⟩
    dsimp only at hg hq
    subst hg hq
    exact hs
  unfold Archive.isLatestGameSource
  set sources := a.raws.filter fun r =>
    decide (r.id = p) || a.sourceRecords.any fun s => decide (s.gameId = gameId) && decide (s.rawPayloadId = r.id)
    with hsources
  have hin : ∀ q ∈ insert p (a.recordedFor gameId), ∀ k, a.Seen q k →
      ∃ t ∈ sources.flatMap (a.sightings 0), t.rank = k := by
    rintro q hq k ⟨r, hr, rfl, t, ht, rfl⟩
    exact ⟨t, List.mem_flatMap.mpr ⟨r, List.mem_filter.mpr ⟨hr, (hmem r hr).mp hq⟩, ht⟩, rfl⟩
  have hout : ∀ t ∈ sources.flatMap (a.sightings 0), t.rawId ∈ insert p (a.recordedFor gameId) ∧
      a.Seen t.rawId t.rank := by
    intro t ht
    obtain ⟨r, hr, ht⟩ := List.mem_flatMap.mp ht
    obtain ⟨hraw, hsource⟩ := List.mem_filter.mp hr
    rw [(mem_sightings ht).1]
    exact ⟨(hmem r hraw).mpr hsource, r, hraw, rfl, t, ht, rfl⟩
  constructor
  · intro h
    dsimp only at h
    split at h
    · next s hs =>
      obtain ⟨hs, htop⟩ := latestSighting_spec hs
      have hp : s.rawId = p := of_decide_eq_true h
      have hseen := (hout s hs).2
      rw [hp] at hseen
      refine ⟨s.rank, hseen, fun q hq k hk => ?_⟩
      obtain ⟨t, ht, rfl⟩ := hin q hq k hk
      rcases htop t ht with hlt | ⟨heq, _⟩
      · exact hlt.le
      · exact heq.le
    · cases h
  · rintro ⟨k, hk, hall⟩
    obtain ⟨t, ht, htk⟩ := hin p (Set.mem_insert _ _) k hk
    obtain ⟨s, hs⟩ := latestSighting_isSome ht
    obtain ⟨hmem', htop⟩ := latestSighting_spec hs
    obtain ⟨hset, hseen⟩ := hout s hmem'
    have hle := hall s.rawId hset s.rank hseen
    have hge : k ≤ s.rank := by
      rw [← htk]
      rcases htop t ht with hlt | ⟨heq, _⟩
      · exact hlt.le
      · exact heq.le
    have hrank : s.rank = k := le_antisymm hle hge
    dsimp only
    rw [hs]
    refine decide_eq_true ?_
    rw [← hseen.rawId_eq, hrank, hk.rawId_eq]

/-- The sightings that the choice of the current version sorts. -/
theorem mem_currentSightings {a : Archive} {gameId : Nat} {t : Sighting} :
    t ∈ ((a.versions.filter fun v => v.gameId = gameId).flatMap fun v =>
        a.versionSources.filter fun s => s.versionId = v.id).flatMap (fun s =>
          (a.raws.filter fun r => r.id = s.rawPayloadId).flatMap (a.sightings s.versionId)) ↔
      a.Backs gameId t.version t.rawId ∧ ∃ r ∈ a.raws, r.id = t.rawId ∧ t ∈ a.sightings t.version r := by
  constructor
  · intro h
    obtain ⟨s, hs, h⟩ := List.mem_flatMap.mp h
    obtain ⟨v, hv, hs⟩ := List.mem_flatMap.mp hs
    obtain ⟨r, hr, ht⟩ := List.mem_flatMap.mp h
    obtain ⟨hv, hgame⟩ := List.mem_filter.mp hv
    obtain ⟨hs, hversion⟩ := List.mem_filter.mp hs
    obtain ⟨hr, hraw⟩ := List.mem_filter.mp hr
    have hversion := of_decide_eq_true hversion
    have hraw := of_decide_eq_true hraw
    obtain ⟨hid, hver, _⟩ := mem_sightings ht
    rw [hid, hver]
    exact ⟨⟨⟨v, hv, hversion.symm, of_decide_eq_true hgame⟩, s, hs, rfl, hraw.symm⟩, r, hr, rfl, ht⟩
  · rintro ⟨⟨⟨v, hv, hvid, hgame⟩, s, hs, hsv, hsr⟩, r, hr, hrid, ht⟩
    refine List.mem_flatMap.mpr ⟨s, List.mem_flatMap.mpr ⟨v, ?_, ?_⟩, List.mem_flatMap.mpr ⟨r, ?_, ?_⟩⟩
    · exact List.mem_filter.mpr ⟨hv, decide_eq_true hgame⟩
    · exact List.mem_filter.mpr ⟨hs, decide_eq_true (hsv.trans hvid.symm)⟩
    · exact List.mem_filter.mpr ⟨hr, decide_eq_true (hrid.trans hsr.symm)⟩
    · rw [hsv]
      exact ht

/-- The current version is the greatest one of the payload that leads the game's sources. -/
theorem currentVersion_spec {a : Archive} {gameId version : Nat} (h : a.currentVersion gameId = some version) :
    ∃ p, a.Backs gameId version p ∧ a.Leads (a.sourcesOf gameId) p ∧
      ∀ v, a.Backs gameId v p → v ≤ version := by
  unfold Archive.currentVersion at h
  obtain ⟨s, hs, rfl⟩ := Option.map_eq_some_iff.mp h
  obtain ⟨hmem, htop⟩ := latestSighting_spec hs
  obtain ⟨hbacks, r, hr, hid, hsr⟩ := mem_currentSightings.mp hmem
  obtain ⟨_, _, t, ht, htrank⟩ := mem_sightings hsr
  -- a payload's sightings appear once for each of its versions
  have hother : ∀ v q k, a.Backs gameId v q → a.Seen q k → k < s.rank ∨ (k = s.rank ∧ v ≤ s.version) := by
    rintro v q k hv ⟨r', hr', hr'id, u, hu, rfl⟩
    have hu' : { u with version := v } ∈ a.sightings v r' := by
      rw [sightings_version a v 0]
      exact List.mem_map_of_mem hu
    have huid : u.rawId = q := (mem_sightings hu).1.trans hr'id
    exact htop { u with version := v } (mem_currentSightings.mpr ⟨by rw [huid]; exact hv, r', hr',
      hr'id.trans huid.symm, hu'⟩)
  refine ⟨s.rawId, hbacks, ⟨s.rank, ⟨r, hr, hid, t, ht, htrank⟩, ?_⟩, fun v hv => ?_⟩
  · rintro q ⟨v, hv⟩ k hk
    rcases hother v q k hv hk with hlt | ⟨heq, _⟩
    · exact hlt.le
    · exact heq.le
  · rcases hother v s.rawId s.rank hv ⟨r, hr, hid, t, ht, htrank⟩ with hlt | ⟨_, hle⟩
    · exact absurd hlt (lt_irrefl _)
    · exact hle

theorem currentVersion_isSome {a : Archive} {gameId version p : Nat} (h : a.Backs gameId version p)
    {r : RawPayload} (hr : r ∈ a.raws) (hid : r.id = p) : ∃ v, a.currentVersion gameId = some v := by
  obtain ⟨s, hs⟩ := exists_sighting a version r
  obtain ⟨hrid, hver, _⟩ := mem_sightings hs
  have hbacks : a.Backs gameId s.version s.rawId := by
    rw [hver, hrid, hid]
    exact h
  have hmem := mem_currentSightings.mpr ⟨hbacks, r, hr, hrid.symm, by rw [hver]; exact hs⟩
  obtain ⟨t, ht⟩ := latestSighting_isSome hmem
  unfold Archive.currentVersion
  dsimp only
  rw [ht]
  exact ⟨_, rfl⟩

end ChessCrawl.Normalize
