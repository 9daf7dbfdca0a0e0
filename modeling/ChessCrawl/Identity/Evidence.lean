import ChessCrawl.Identity.Archive
import ChessCrawl.Lib.Reassign
import Mathlib.Data.List.Find

/-! Where the evidence of a placeholder goes, table by table: source records, aliases, acquisitions, and the
snapshots of profiles and of resources with what hangs on them. -/
namespace ChessCrawl.Identity
open ChessCrawl.Lib
set_option autoImplicit false

variable {db db' db'' : Archive} {survivor replaced : Nat}

theorem renamed_ne (hne : survivor ≠ replaced) (u : Nat) : renamed survivor replaced u ≠ replaced := by
  unfold renamed
  split
  · exact hne
  · next h => exact h

theorem renamed_renamed (hne : survivor ≠ replaced) (u : Nat) :
    renamed survivor replaced (renamed survivor replaced u) = renamed survivor replaced u :=
  if_neg (renamed_ne hne u)

theorem renamed_of_ne {u : Nat} (h : u ≠ replaced) : renamed survivor replaced u = u := if_neg h

theorem renamed_self : renamed survivor replaced replaced = survivor := if_pos rfl

/-! ## Source records -/

/-- The source records, by entity and raw payload, are the old ones with their entities redirected by `f`. -/
def SourceImage (f : EntityType → Nat → Nat) (old new : List SourceRecord) : Prop :=
  ∀ t e raw, (t, e, raw) ∈ new.map SourceRecord.key ↔ ∃ e₀, f t e₀ = e ∧ (t, e₀, raw) ∈ old.map SourceRecord.key

/-- The source records of entities outside `I` are the same rows. -/
def SourceSpared (I : EntityType → Nat → Prop) (old new : List SourceRecord) : Prop :=
  ∀ s : SourceRecord, ¬ I s.entityType s.entityId → (s ∈ new ↔ s ∈ old)

section Sources
variable {f g : EntityType → Nat → Nat} {I J : EntityType → Nat → Prop} {old mid new : List SourceRecord}

theorem SourceImage.refl (hf : ∀ t e, f t e = e) (l : List SourceRecord) : SourceImage f l l := by
  intro t e raw
  constructor
  · exact fun hk => ⟨e, hf t e, hk⟩
  · rintro ⟨e₀, rfl, hk⟩
    rwa [hf]

theorem SourceImage.trans (h : SourceImage f old mid) (h' : SourceImage g mid new) :
    SourceImage (fun t e => g t (f t e)) old new := by
  intro t e raw
  rw [h' t e raw]
  constructor
  · rintro ⟨e₁, rfl, hk⟩
    obtain ⟨e₀, rfl, hk₀⟩ := (h t e₁ raw).mp hk
    exact ⟨e₀, rfl, hk₀⟩
  · rintro ⟨e₀, rfl, hk⟩
    exact ⟨f t e₀, rfl, (h t _ raw).mpr ⟨e₀, rfl, hk⟩⟩

theorem SourceImage.congr (h : SourceImage f old new) (hfg : ∀ t e, f t e = g t e) : SourceImage g old new := by
  have : f = g := funext fun t => funext fun e => hfg t e
  exact this ▸ h

theorem SourceSpared.refl (I : EntityType → Nat → Prop) (l : List SourceRecord) : SourceSpared I l l :=
  fun _ _ => Iff.rfl

theorem SourceSpared.trans (h : SourceSpared I old mid) (h' : SourceSpared I mid new) : SourceSpared I old new :=
  fun s hs => (h' s hs).trans (h s hs)

theorem SourceSpared.mono (hIJ : ∀ t e, I t e → J t e) (h : SourceSpared I old new) : SourceSpared J old new :=
  fun s hs => h s fun hI => hs (hIJ _ _ hI)

end Sources

theorem renumbered_key (seq e : Nat) (rows : List SourceRecord) :
    (renumbered seq e rows).map SourceRecord.key = rows.map fun s => (s.entityType, e, s.rawPayloadId) := by
  unfold renumbered
  apply List.ext_getElem
  · simp
  · intro n h₁ h₂
    simp [SourceRecord.key]

theorem mem_filter_keys {α κ : Type} (key : α → κ) {p : α → Bool} (P : κ → Prop) (hp : ∀ a, p a = true ↔ P (key a))
    (l : List α) (k : κ) : k ∈ (l.filter p).map key ↔ k ∈ l.map key ∧ P k := by
  simp only [List.mem_map, List.mem_filter]
  constructor
  · rintro ⟨a, ⟨ha, hpa⟩, rfl⟩
    exact ⟨⟨a, ha, rfl⟩, (hp a).mp hpa⟩
  · rintro ⟨⟨a, ha, rfl⟩, hP⟩
    exact ⟨a, ⟨ha, (hp a).mpr hP⟩, rfl⟩

theorem absorb_source_key (old new : SourceRecord) (h : old.key = new.key) : (old.absorb new).key = new.key := h

theorem mergeSourceRecords_image (T : EntityType) (hne : survivor ≠ replaced) :
    SourceImage (fun t e => if t = T ∧ e = replaced then survivor else e) db.sourceRecords
      (db.mergeSourceRecords T survivor replaced).sourceRecords := by
  intro t e raw
  have hrows : ∀ k, k ∈ (renumbered db.sourceSeq survivor (db.sourceRecords.filter fun s =>
      s.entityType = T ∧ s.entityId = replaced)).map SourceRecord.key ↔
      ∃ raw', k = (T, survivor, raw') ∧ (T, replaced, raw') ∈ db.sourceRecords.map SourceRecord.key := by
    intro k
    rw [renumbered_key]
    simp only [List.mem_map, List.mem_filter, decide_eq_true_eq, SourceRecord.key]
    constructor
    · rintro ⟨s, ⟨hs, rfl, rfl⟩, rfl⟩
      exact ⟨s.rawPayloadId, rfl, s, hs, rfl⟩
    · rintro ⟨raw', rfl, s, hs, heq⟩
      simp only [Prod.mk.injEq] at heq
      exact ⟨s, ⟨hs, heq.1, heq.2.1⟩, by rw [heq.1, heq.2.2]⟩
  refine (mem_filter_keys SourceRecord.key (fun k => ¬ (k.1 = T ∧ k.2.1 = replaced))
    (fun _ => decide_eq_true_iff) _ _).trans ?_
  rw [upsertAll_keys absorb_source_key, hrows]
  constructor
  · rintro ⟨hk | ⟨raw', heq, hk⟩, hnot⟩
    · exact ⟨e, if_neg hnot, hk⟩
    · simp only [Prod.mk.injEq] at heq
      obtain ⟨rfl, rfl, rfl⟩ := heq
      exact ⟨replaced, if_pos ⟨rfl, rfl⟩, hk⟩
  · rintro ⟨e₀, rfl, hk⟩
    dsimp only
    split
    · next h =>
      obtain ⟨rfl, rfl⟩ := h
      exact ⟨.inr ⟨raw, rfl, hk⟩, fun h => hne h.2⟩
    · next h => exact ⟨.inl hk, h⟩

theorem mergeSourceRecords_spared (T : EntityType) (survivor replaced : Nat) :
    SourceSpared (fun t e => t = T ∧ (e = survivor ∨ e = replaced)) db.sourceRecords
      (db.mergeSourceRecords T survivor replaced).sourceRecords := by
  intro s hs
  have hother : ∀ row ∈ renumbered db.sourceSeq survivor (db.sourceRecords.filter fun s =>
      s.entityType = T ∧ s.entityId = replaced), s.key ≠ row.key := by
    intro row hrow heq
    have hk := List.mem_map_of_mem (f := SourceRecord.key) hrow
    rw [renumbered_key, ← heq] at hk
    obtain ⟨r, hr, hkey⟩ := List.mem_map.mp hk
    have hT := of_decide_eq_true (List.mem_filter.mp hr).2
    simp only [SourceRecord.key, Prod.mk.injEq] at hkey
    exact hs ⟨hkey.1 ▸ hT.1, .inl hkey.2.1.symm⟩
  change s ∈ List.filter _ (upsertAll _ _ _ _) ↔ _
  rw [List.mem_filter, upsertAll_other absorb_source_key hother]
  constructor
  · exact fun h => h.1
  · exact fun h => ⟨h, decide_eq_true fun hc => hs ⟨hc.1, .inr hc.2⟩⟩

/-! ## Resource snapshots -/

/-- Resource snapshots move to the survivor; equal contents are one snapshot. -/
def resourceMoving (survivor replaced : Nat) : Moving ResourceSnapshot (Nat × String × String × String × String) where
  id := ResourceSnapshot.id
  key s := (s.providerUserId, s.ownerScope, s.resourceKey, s.parametersHash, s.contentHash)
  move s := { s with providerUserId := renamed survivor replaced s.providerUserId }
  absorb m _ := m

theorem resourceMoving_lawful (hne : survivor ≠ replaced) : (resourceMoving survivor replaced).Lawful where
  move_id _ := rfl
  move_key a b h := by
    simp only [resourceMoving, Prod.mk.injEq] at h ⊢
    obtain ⟨h₁, h₂, h₃, h₄, h₅⟩ := h
    exact ⟨by rw [h₁], h₂, h₃, h₄, h₅⟩
  move_move a := by simp only [resourceMoving, renamed_renamed hne]
  absorb_id _ _ := rfl
  absorb_key _ _ := rfl

theorem resourceMoving_respects :
    (resourceMoving survivor replaced).Respects (fun _ _ => True) (fun _ => ()) :=
  ⟨fun _ => trivial, fun _ _ _ _ _ => trivial, fun _ => trivial, fun _ _ => trivial, fun _ _ => trivial, fun _ => rfl,
    fun _ _ => .inl rfl⟩

theorem resource_affected (hne : survivor ≠ replaced) (s : ResourceSnapshot) :
    (resourceMoving survivor replaced).Affected s ↔ s.providerUserId = replaced := by
  unfold Moving.Affected
  simp only [resourceMoving, ne_eq, Prod.mk.injEq, and_true]
  constructor
  · intro h
    by_contra hc
    exact h (renamed_of_ne hc)
  · rintro h heq
    rw [h, renamed_self] at heq
    exact hne heq

/-- The tables that merging resource snapshots leaves alone. -/
def Archive.besideResources (db : Archive) : Archive :=
  { db with resourceSnapshots := [], resourceObservations := [], ratingPoints := [], sourceRecords := [], sourceSeq := 0 }

/-- What hangs on resource snapshots follows a redirection; `I` holds of the snapshots of the two accounts. -/
structure ResourcesFollow (I : Nat → Prop) (db db' : Archive) (ρ : Nat → Nat) : Prop where
  observations : db'.resourceObservations = db.resourceObservations.map fun o => { o with snapshotId := ρ o.snapshotId }
  sources : SourceImage (fun t e => if t = .userResource then ρ e else e) db.sourceRecords db'.sourceRecords
  spared : SourceSpared (fun t e => t = .userResource ∧ I e) db.sourceRecords db'.sourceRecords
  points : ∀ p : RatingHistoryPoint, ¬ I p.snapshotId → (p ∈ db'.ratingPoints ↔ p ∈ db.ratingPoints)
  fixed : ∀ n, ¬ I n → ρ n = n
  beside : db'.besideResources = db.besideResources

theorem ResourcesFollow.refl (I : Nat → Prop) (h : db'.besideResources = db.besideResources)
    (ho : db'.resourceObservations = db.resourceObservations) (hs : db'.sourceRecords = db.sourceRecords)
    (hp : db'.ratingPoints = db.ratingPoints) : ResourcesFollow I db db' fun n => n where
  observations := by simp [ho]
  sources := hs ▸ SourceImage.refl (fun t e => ite_self e) _
  spared := hs ▸ SourceSpared.refl _ _
  points _ _ := by rw [hp]
  fixed _ _ := rfl
  beside := h

theorem ResourcesFollow.trans {I : Nat → Prop} {ρ ρ' : Nat → Nat} (h : ResourcesFollow I db db' ρ)
    (h' : ResourcesFollow I db' db'' ρ') : ResourcesFollow I db db'' (ρ' ∘ ρ) where
  observations := by
    rw [h'.observations, h.observations, List.map_map]
    rfl
  sources := (h.sources.trans h'.sources).congr fun t e => by
    by_cases ht : t = .userResource <;> simp [ht]
  spared := h.spared.trans h'.spared
  points p hp := (h'.points p hp).trans (h.points p hp)
  fixed n hn := by
    rw [Function.comp_apply, h.fixed n hn, h'.fixed n hn]
  beside := h'.beside.trans h.beside

/-- One pass of the loop is a move of the table, and what hangs on it follows. -/
theorem mergeResourceSnapshot_step (hne : survivor ≠ replaced) {I : Nat → Prop} {s : ResourceSnapshot}
    (hI : ∀ x ∈ db.resourceSnapshots, x.providerUserId = survivor ∨ x.providerUserId = replaced → I x.id)
    (hids : (db.resourceSnapshots.map ResourceSnapshot.id).Nodup) (hs : s ∈ db.resourceSnapshots)
    (hr : s.providerUserId = replaced) :
    (db.mergeResourceSnapshot survivor s).resourceSnapshots =
        (resourceMoving survivor replaced).step db.resourceSnapshots s ∧
      ResourcesFollow I db (db.mergeResourceSnapshot survivor s)
        ((resourceMoving survivor replaced).redirect db.resourceSnapshots s) ∧
      ∀ x ∈ (db.mergeResourceSnapshot survivor s).resourceSnapshots,
        x.providerUserId = survivor ∨ x.providerUserId = replaced → I x.id := by
  have hinj := List.inj_on_of_nodup_map hids
  have hfind : (db.resourceSnapshots.find? fun m => m.providerUserId = survivor ∧ m.ownerScope = s.ownerScope ∧
      m.resourceKey = s.resourceKey ∧ m.parametersHash = s.parametersHash ∧ m.contentHash = s.contentHash) =
      (resourceMoving survivor replaced).matching db.resourceSnapshots s := by
    refine List.find?_congr fun m hm => ?_
    simp only [resourceMoving, hr, renamed_self, Prod.mk.injEq, decide_eq_decide]
    constructor
    · intro h
      exact ⟨h, fun hid => hne ((h.1.symm.trans (congrArg _ (hinj hm hs hid))).trans hr)⟩
    · exact fun h => h.1
  unfold Archive.mergeResourceSnapshot Moving.step Moving.redirect
  rw [hfind]
  cases hm : (resourceMoving survivor replaced).matching db.resourceSnapshots s with
  | none =>
    have hmap : ∀ x ∈ db.resourceSnapshots,
        (if x.id = s.id then { x with providerUserId := survivor } else x) =
          if x.id = s.id then (resourceMoving survivor replaced).move x else x := by
      intro x hx
      split
      · next hid =>
        cases hinj hx hs hid
        simp only [resourceMoving, hr, renamed_self]
      · rfl
    refine ⟨List.map_congr_left hmap, ResourcesFollow.refl I rfl rfl rfl rfl, fun x hx hown => ?_⟩
    obtain ⟨y, hy, rfl⟩ := List.mem_map.mp hx
    split at hown
    · next hid =>
      rw [if_pos hid]
      exact hI y hy (.inr (by rw [hinj hy hs hid]; exact hr))
    · next hid =>
      rw [if_neg hid]
      exact hI y hy hown
  | some m =>
    have hmem : m ∈ db.resourceSnapshots := List.mem_of_find?_eq_some hm
    have hfound := List.find?_some hm
    simp only [resourceMoving, hr, renamed_self, Prod.mk.injEq, decide_eq_true_eq] at hfound
    have hms : m.id ≠ s.id := hfound.2
    have hIm : I m.id := hI m hmem (.inl hfound.1.1)
    have hIs : I s.id := hI s hs (.inr hr)
    refine ⟨?_, ⟨?_, ?_, ?_, fun p hp => ?_, fun n hn => ?_, rfl⟩, fun x hx hown => ?_⟩
    · change db.resourceSnapshots.filter _ = List.filter _ (db.resourceSnapshots.map _)
      have hsame : (db.resourceSnapshots.map fun r =>
          if (resourceMoving survivor replaced).id r = (resourceMoving survivor replaced).id m then
            (resourceMoving survivor replaced).absorb r s else r) = db.resourceSnapshots :=
        (List.map_congr_left fun r _ => ite_self r).trans (List.map_id' _)
      rw [hsame]
      rfl
    · refine List.map_congr_left fun o _ => ?_
      by_cases ho : o.snapshotId = s.id
      · rw [if_pos ho]
        exact congrArg (fun n => { o with snapshotId := n }) (if_pos ho).symm
      · rw [if_neg ho]
        exact congrArg (fun n => { o with snapshotId := n }) (if_neg ho).symm
    · refine SourceImage.congr (mergeSourceRecords_image .userResource hms) fun t e => ?_
      by_cases ht : t = .userResource
      · simp only [ht, true_and, if_true]
        rfl
      · simp only [ht, false_and, if_false]
    · refine SourceSpared.mono ?_ (mergeSourceRecords_spared .userResource m.id s.id)
      rintro t e ⟨ht, rfl | rfl⟩
      · exact ⟨ht, hIm⟩
      · exact ⟨ht, hIs⟩
    · change p ∈ db.ratingPoints.filter _ ↔ _
      rw [List.mem_filter]
      refine ⟨fun h => h.1, fun h => ⟨h, decide_eq_true fun heq => hp (heq ▸ hIs)⟩⟩
    · have hns : n ≠ s.id := fun heq => hn (heq ▸ hIs)
      exact if_neg hns
    · exact hI x (List.mem_filter.mp hx).1 hown

/-! ## Profile snapshots -/

/-- Profile snapshots move to the survivor; of equal contents the later capture's facts are kept. -/
def snapshotMoving (survivor replaced : Nat) : Moving UserSnapshot (Nat × String) where
  id := UserSnapshot.id
  key s := (s.providerUserId, s.contentHash)
  move s := { s with providerUserId := renamed survivor replaced s.providerUserId }
  absorb m s := if s.facts.capturedAt ≥ m.facts.capturedAt then { m with facts := s.facts } else m

theorem snapshotMoving_lawful (hne : survivor ≠ replaced) : (snapshotMoving survivor replaced).Lawful where
  move_id _ := rfl
  move_key a b h := by
    simp only [snapshotMoving, Prod.mk.injEq] at h ⊢
    exact ⟨by rw [h.1], h.2⟩
  move_move a := by simp only [snapshotMoving, renamed_renamed hne]
  absorb_id m s := by
    simp only [snapshotMoving]
    split <;> rfl
  absorb_key m s := by
    simp only [snapshotMoving]
    split <;> rfl

/-- The kept facts are those of one of the two captures, and not of the earlier one. -/
def CapturedNoEarlier (b a : UserSnapshot) : Prop := a.facts.capturedAt ≤ b.facts.capturedAt

theorem snapshotMoving_respects :
    (snapshotMoving survivor replaced).Respects CapturedNoEarlier UserSnapshot.facts where
  refl _ := Int.le_refl _
  trans _ _ _ h h' := Int.le_trans h' h
  move _ := Int.le_refl _
  absorbs m s := by
    unfold CapturedNoEarlier
    simp only [snapshotMoving]
    split
    · next h => exact h
    · exact Int.le_refl _
  absorbed m s := by
    unfold CapturedNoEarlier
    simp only [snapshotMoving]
    split
    · exact Int.le_refl _
    · omega
  val_move _ := rfl
  val_absorb m s := by
    simp only [snapshotMoving]
    split
    · exact .inr rfl
    · exact .inl rfl

theorem snapshot_affected (hne : survivor ≠ replaced) (s : UserSnapshot) :
    (snapshotMoving survivor replaced).Affected s ↔ s.providerUserId = replaced := by
  unfold Moving.Affected
  simp only [snapshotMoving, ne_eq, Prod.mk.injEq, and_true]
  constructor
  · intro h
    by_contra hc
    exact h (renamed_of_ne hc)
  · rintro h heq
    rw [h, renamed_self] at heq
    exact hne heq

/-- The tables that merging profile snapshots leaves alone. -/
def Archive.besideSnapshots (db : Archive) : Archive :=
  { db with snapshots := [], observations := [], ratingRecords := [], sourceRecords := [], sourceSeq := 0 }

/-- What hangs on profile snapshots follows a redirection; `I` holds of the snapshots of the two accounts. -/
structure SnapshotsFollow (I : Nat → Prop) (db db' : Archive) (ρ : Nat → Nat) : Prop where
  observations : db'.observations = db.observations.map fun o => { o with snapshotId := ρ o.snapshotId }
  sources : SourceImage (fun t e => if t = .userSnapshot then ρ e else e) db.sourceRecords db'.sourceRecords
  spared : SourceSpared (fun t e => t = .userSnapshot ∧ I e) db.sourceRecords db'.sourceRecords
  ratings : ∀ r : RatingRecord, ¬ I r.snapshotId → (r ∈ db'.ratingRecords ↔ r ∈ db.ratingRecords)
  performances : ∀ n p, (n, p) ∈ db'.ratingRecords.map RatingRecord.key ↔
    ∃ n₀, ρ n₀ = n ∧ (n₀, p) ∈ db.ratingRecords.map RatingRecord.key
  fixed : ∀ n, ¬ I n → ρ n = n
  beside : db'.besideSnapshots = db.besideSnapshots

theorem SnapshotsFollow.refl (I : Nat → Prop) (h : db'.besideSnapshots = db.besideSnapshots)
    (ho : db'.observations = db.observations) (hs : db'.sourceRecords = db.sourceRecords)
    (hr : db'.ratingRecords = db.ratingRecords) : SnapshotsFollow I db db' fun n => n where
  observations := by simp [ho]
  sources := hs ▸ SourceImage.refl (fun t e => ite_self e) _
  spared := hs ▸ SourceSpared.refl _ _
  ratings _ _ := by rw [hr]
  performances n p := by simp [hr]
  fixed _ _ := rfl
  beside := h

theorem SnapshotsFollow.trans {I : Nat → Prop} {ρ ρ' : Nat → Nat} (h : SnapshotsFollow I db db' ρ)
    (h' : SnapshotsFollow I db' db'' ρ') : SnapshotsFollow I db db'' (ρ' ∘ ρ) where
  observations := by
    rw [h'.observations, h.observations, List.map_map]
    rfl
  sources := (h.sources.trans h'.sources).congr fun t e => by
    by_cases ht : t = .userSnapshot <;> simp [ht]
  spared := h.spared.trans h'.spared
  ratings r hr := (h'.ratings r hr).trans (h.ratings r hr)
  performances n p := by
    rw [h'.performances]
    constructor
    · rintro ⟨n₁, rfl, hk⟩
      obtain ⟨n₀, rfl, hk₀⟩ := (h.performances n₁ p).mp hk
      exact ⟨n₀, rfl, hk₀⟩
    · rintro ⟨n₀, rfl, hk⟩
      exact ⟨ρ n₀, rfl, (h.performances _ p).mpr ⟨n₀, rfl, hk⟩⟩
  fixed n hn := by
    rw [Function.comp_apply, h.fixed n hn, h'.fixed n hn]
  beside := h'.beside.trans h.beside

/-- The rating records of one snapshot become those of another; where both have one, the other's stays. -/
theorem ratingRecords_moved {rows : List RatingRecord} {kept gone : Nat} (hne : kept ≠ gone) (n : Nat) (p : String) :
    (n, p) ∈ ((upsertAll RatingRecord.key (fun old _ => old) rows ((rows.filter fun r => r.snapshotId = gone).map fun r =>
        { r with snapshotId := kept })).filter fun r => r.snapshotId ≠ gone).map RatingRecord.key ↔
      ∃ n₀, (if n₀ = gone then kept else n₀) = n ∧ (n₀, p) ∈ rows.map RatingRecord.key := by
  have hmoved : ∀ k, k ∈ ((rows.filter fun r => r.snapshotId = gone).map fun r =>
      { r with snapshotId := kept }).map RatingRecord.key ↔ ∃ q, k = (kept, q) ∧ (gone, q) ∈ rows.map RatingRecord.key := by
    intro k
    simp only [List.mem_map, List.mem_filter, decide_eq_true_eq, RatingRecord.key]
    constructor
    · rintro ⟨_, ⟨r, ⟨hr, rfl⟩, rfl⟩, rfl⟩
      exact ⟨r.performance, rfl, r, hr, rfl⟩
    · rintro ⟨q, rfl, r, hr, heq⟩
      simp only [Prod.mk.injEq] at heq
      exact ⟨_, ⟨r, ⟨hr, heq.1⟩, rfl⟩, by rw [heq.2]⟩
  refine (mem_filter_keys RatingRecord.key (fun k => k.1 ≠ gone) (fun _ => decide_eq_true_iff) _ _).trans ?_
  rw [upsertAll_keys fun _ _ h => h, hmoved]
  constructor
  · rintro ⟨hk | ⟨q, heq, hk⟩, hnot⟩
    · exact ⟨n, if_neg hnot, hk⟩
    · simp only [Prod.mk.injEq] at heq
      obtain ⟨rfl, rfl⟩ := heq
      exact ⟨gone, if_pos rfl, hk⟩
  · rintro ⟨n₀, rfl, hk⟩
    split
    · next h =>
      subst h
      exact ⟨.inr ⟨p, rfl, hk⟩, hne⟩
    · next h => exact ⟨.inl hk, h⟩

theorem ratingRecords_spared {rows : List RatingRecord} {kept gone : Nat} {r : RatingRecord} (hk : r.snapshotId ≠ kept)
    (hg : r.snapshotId ≠ gone) :
    r ∈ (upsertAll RatingRecord.key (fun old _ => old) rows ((rows.filter fun r => r.snapshotId = gone).map fun r =>
        { r with snapshotId := kept })).filter (fun r => r.snapshotId ≠ gone) ↔ r ∈ rows := by
  rw [List.mem_filter, upsertAll_other fun _ _ h => h]
  · exact ⟨fun h => h.1, fun h => ⟨h, decide_eq_true hg⟩⟩
  · intro row hrow heq
    obtain ⟨x, _, rfl⟩ := List.mem_map.mp hrow
    simp only [RatingRecord.key, Prod.mk.injEq] at heq
    exact hk heq.1

/-- The matching row takes the facts as an absorbing row does, and no other table changes. -/
theorem keepLaterFacts_spec (survivor replaced : Nat) (s : UserSnapshot) {m : UserSnapshot} (hids : (db.snapshots.map UserSnapshot.id).Nodup)
    (hm : m ∈ db.snapshots) :
    (db.keepLaterFacts m s).snapshots = db.snapshots.map (fun x =>
        if x.id = m.id then (snapshotMoving survivor replaced).absorb x s else x) ∧
      (db.keepLaterFacts m s).observations = db.observations ∧
      (db.keepLaterFacts m s).sourceRecords = db.sourceRecords ∧
      (db.keepLaterFacts m s).sourceSeq = db.sourceSeq ∧
      (db.keepLaterFacts m s).ratingRecords = db.ratingRecords ∧
      (db.keepLaterFacts m s).besideSnapshots = db.besideSnapshots := by
  have hinj := List.inj_on_of_nodup_map hids
  unfold Archive.keepLaterFacts
  split
  · next hlate =>
    refine ⟨List.map_congr_left fun x hx => ?_, rfl, rfl, rfl, rfl, rfl⟩
    split
    · next hid =>
      cases hinj hx hm hid
      exact (if_pos hlate).symm
    · rfl
  · next hlate =>
    refine ⟨?_, rfl, rfl, rfl, rfl, rfl⟩
    refine ((List.map_congr_left fun x hx => ?_).trans (List.map_id' _)).symm
    split
    · next hid =>
      cases hinj hx hm hid
      exact if_neg hlate
    · rfl

/-- One pass of the loop is a move of the table, and what hangs on it follows. -/
theorem mergeSnapshot_step (hne : survivor ≠ replaced) {I : Nat → Prop} {s : UserSnapshot}
    (hI : ∀ x ∈ db.snapshots, x.providerUserId = survivor ∨ x.providerUserId = replaced → I x.id)
    (hids : (db.snapshots.map UserSnapshot.id).Nodup) (hs : s ∈ db.snapshots) (hr : s.providerUserId = replaced) :
    (db.mergeSnapshot survivor s).snapshots = (snapshotMoving survivor replaced).step db.snapshots s ∧
      SnapshotsFollow I db (db.mergeSnapshot survivor s)
        ((snapshotMoving survivor replaced).redirect db.snapshots s) ∧
      ∀ x ∈ (db.mergeSnapshot survivor s).snapshots,
        x.providerUserId = survivor ∨ x.providerUserId = replaced → I x.id := by
  have hinj := List.inj_on_of_nodup_map hids
  have hfind : (db.snapshots.find? fun m => m.providerUserId = survivor ∧ m.contentHash = s.contentHash) =
      (snapshotMoving survivor replaced).matching db.snapshots s := by
    refine List.find?_congr fun m hm => ?_
    simp only [snapshotMoving, hr, renamed_self, Prod.mk.injEq, decide_eq_decide]
    constructor
    · intro h
      exact ⟨h, fun hid => hne ((h.1.symm.trans (congrArg _ (hinj hm hs hid))).trans hr)⟩
    · exact fun h => h.1
  unfold Archive.mergeSnapshot Moving.step Moving.redirect
  rw [hfind]
  cases hm : (snapshotMoving survivor replaced).matching db.snapshots s with
  | none =>
    have hmap : ∀ x ∈ db.snapshots,
        (if x.id = s.id then { x with providerUserId := survivor } else x) =
          if x.id = s.id then (snapshotMoving survivor replaced).move x else x := by
      intro x hx
      split
      · next hid =>
        cases hinj hx hs hid
        simp only [snapshotMoving, hr, renamed_self]
      · rfl
    refine ⟨List.map_congr_left hmap, SnapshotsFollow.refl I rfl rfl rfl rfl, fun x hx hown => ?_⟩
    obtain ⟨y, hy, rfl⟩ := List.mem_map.mp hx
    split at hown
    · next hid =>
      rw [if_pos hid]
      exact hI y hy (.inr (by rw [hinj hy hs hid]; exact hr))
    · next hid =>
      rw [if_neg hid]
      exact hI y hy hown
  | some m =>
    have hmem : m ∈ db.snapshots := List.mem_of_find?_eq_some hm
    have hfound := List.find?_some hm
    simp only [snapshotMoving, hr, renamed_self, Prod.mk.injEq, decide_eq_true_eq] at hfound
    have hms : m.id ≠ s.id := hfound.2
    have hIm : I m.id := hI m hmem (.inl hfound.1.1)
    have hIs : I s.id := hI s hs (.inr hr)
    obtain ⟨htable, hobs, hsrc, hseq, hrat, hbeside⟩ := keepLaterFacts_spec survivor replaced s hids hmem
    refine ⟨?_, ⟨?_, ?_, ?_, fun r hr' => ?_, fun n p => ?_, fun n hn => ?_, hbeside⟩, fun x hx hown => ?_⟩
    · change List.filter _ (db.keepLaterFacts m s).snapshots = _
      rw [htable]
      rfl
    · change (db.keepLaterFacts m s).observations.map _ = _
      rw [hobs]
      refine List.map_congr_left fun o _ => ?_
      by_cases ho : o.snapshotId = s.id
      · rw [if_pos ho]
        exact congrArg (fun n => { o with snapshotId := n }) (if_pos ho).symm
      · rw [if_neg ho]
        exact congrArg (fun n => { o with snapshotId := n }) (if_neg ho).symm
    · refine SourceImage.congr (hsrc ▸ mergeSourceRecords_image .userSnapshot hms) fun t e => ?_
      by_cases ht : t = .userSnapshot
      · simp only [ht, true_and, if_true]
        rfl
      · simp only [ht, false_and, if_false]
    · refine SourceSpared.mono ?_ (hsrc ▸ mergeSourceRecords_spared .userSnapshot m.id s.id)
      rintro t e ⟨ht, rfl | rfl⟩
      · exact ⟨ht, hIm⟩
      · exact ⟨ht, hIs⟩
    · change r ∈ List.filter _ (upsertAll _ _ (db.keepLaterFacts m s).ratingRecords
        (((db.keepLaterFacts m s).ratingRecords.filter _).map _)) ↔ _
      rw [hrat]
      exact ratingRecords_spared (fun h => hr' (h ▸ hIm)) fun h => hr' (h ▸ hIs)
    · change (n, p) ∈ (List.filter _ (upsertAll _ _ (db.keepLaterFacts m s).ratingRecords
        (((db.keepLaterFacts m s).ratingRecords.filter _).map _))).map RatingRecord.key ↔ _
      rw [hrat]
      exact ratingRecords_moved hms n p
    · have hns : n ≠ s.id := fun heq => hn (heq ▸ hIs)
      exact if_neg hns
    · have hx' : x ∈ (db.keepLaterFacts m s).snapshots := (List.mem_filter.mp hx).1
      rw [htable] at hx'
      obtain ⟨y, hy, rfl⟩ := List.mem_map.mp hx'
      split at hown
      · next hid =>
        have hkept : ((snapshotMoving survivor replaced).absorb y s).id = y.id := (snapshotMoving_lawful hne).absorb_id y s
        rw [if_pos hid, hkept, hid]
        exact hIm
      · next hid =>
        rw [if_neg hid]
        exact hI y hy hown

end ChessCrawl.Identity
