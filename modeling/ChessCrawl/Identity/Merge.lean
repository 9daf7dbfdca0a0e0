import ChessCrawl.Identity.Graph
import ChessCrawl.Identity.Permanence
import Mathlib.Data.List.Dedup
import Mathlib.Order.Bounds.Basic

/-! Merging a placeholder into an account conserves its evidence. Each loop of `_merge_user_placeholder` is a run of
moves of one table; the tables beside it are carried through unchanged. -/
namespace ChessCrawl.Identity
open ChessCrawl.Lib
set_option autoImplicit false

variable {normalize : String → String} {db db' : Archive} {survivor replaced : Nat}

/-! ## Aliases -/

/-- An alias that was seen at least from and to when another was. -/
def Alias.Spans (b a : Alias) : Prop := b.firstSeenAt ≤ a.firstSeenAt ∧ a.lastSeenAt ≤ b.lastSeenAt

/-- The names of a placeholder become names of the survivor, which keeps its own. -/
structure AliasesCarried (normalize : String → String) (survivor replaced : Nat) (old new : List Alias) : Prop where
  keys : (new.map Alias.key).Nodup
  carried : ∀ a ∈ old, a.providerUserId = replaced →
    ∃ b ∈ new, b.key = (survivor, normalize a.displayUsername) ∧ b.Spans a
  kept : ∀ a ∈ old, a.providerUserId = survivor → ∃ b ∈ new, b.key = a.key ∧ b.Spans a
  none_left : ∀ b ∈ new, b.providerUserId ≠ replaced
  others : ∀ a : Alias, a.providerUserId ≠ survivor → a.providerUserId ≠ replaced → (a ∈ new ↔ a ∈ old)

/-- The two rows that `merge_player_evidence` records of an alias. -/
def Alias.ends (normalize : String → String) (survivor : Nat) (a : Alias) : List Alias :=
  [⟨survivor, normalize a.displayUsername, a.displayUsername, a.firstSeenAt, a.firstSeenAt, a.rawPayloadId⟩,
    ⟨survivor, normalize a.displayUsername, a.displayUsername, a.lastSeenAt, a.lastSeenAt, a.rawPayloadId⟩]

/-- The tables that merging aliases leaves alone. -/
def Archive.besideAliases (db : Archive) : Archive := { db with aliases := [], users := [] }

theorem mergeAliases_eq (rows : List Alias) (db : Archive) :
    (rows.foldl (Archive.mergeAlias normalize survivor) db).aliases =
        upsertAll Alias.key Alias.observe db.aliases (rows.flatMap (Alias.ends normalize survivor)) ∧
      (rows.foldl (Archive.mergeAlias normalize survivor) db).besideAliases = db.besideAliases := by
  induction rows generalizing db with
  | nil => exact ⟨rfl, rfl⟩
  | cons a rows ih =>
    obtain ⟨haliases, hbeside⟩ := ih (db.mergeAlias normalize survivor a)
    refine ⟨?_, hbeside⟩
    rw [List.foldl_cons, haliases, List.flatMap_cons]
    unfold upsertAll
    rw [List.foldl_append]
    rfl

theorem observe_key (old new : Alias) : (old.observe new).key = old.key := rfl

theorem spans_refl (a : Alias) : a.Spans a := ⟨Int.le_refl _, Int.le_refl _⟩

theorem spans_trans (a b c : Alias) (h : a.Spans b) (h' : b.Spans c) : a.Spans c :=
  ⟨Int.le_trans h.1 h'.1, Int.le_trans h'.2 h.2⟩

theorem observe_spans (old new : Alias) : (old.observe new).Spans old ∧ (old.observe new).Spans new := by
  simp only [Alias.Spans, Alias.observe]
  omega

theorem mem_ends {rows : List Alias} {b : Alias} (h : b ∈ rows.flatMap (Alias.ends normalize survivor)) :
    b.providerUserId = survivor := by
  obtain ⟨a, _, hb⟩ := List.mem_flatMap.mp h
  simp only [Alias.ends, List.mem_cons, List.not_mem_nil, or_false] at hb
  rcases hb with rfl | rfl <;> rfl

theorem aliases_carried (hne : survivor ≠ replaced) {old : List Alias} (hkeys : (old.map Alias.key).Nodup) :
    AliasesCarried normalize survivor replaced old
      ((upsertAll Alias.key Alias.observe old ((old.filter fun a => a.providerUserId = replaced).flatMap
        (Alias.ends normalize survivor))).filter fun a => a.providerUserId ≠ replaced) := by
  generalize hrows : (old.filter fun a => a.providerUserId = replaced).flatMap (Alias.ends normalize survivor) = rows
  have hall : ((upsertAll Alias.key Alias.observe old rows).map Alias.key).Nodup :=
    upsertAll_keys_nodup (fun old row h => (observe_key old row).trans h) hkeys
  have hcover : ∀ a, a ∈ old ∨ a ∈ rows → ∃ b ∈ upsertAll Alias.key Alias.observe old rows, b.key = a.key ∧ b.Spans a :=
    fun a ha => upsertAll_covers spans_refl spans_trans observe_key (fun old row => (observe_spans old row).1)
      (fun old row => (observe_spans old row).2) ha
  have hstays : ∀ b ∈ upsertAll Alias.key Alias.observe old rows, b.providerUserId = survivor →
      b ∈ (upsertAll Alias.key Alias.observe old rows).filter fun a => a.providerUserId ≠ replaced :=
    fun b hb howner => List.mem_filter.mpr ⟨hb, decide_eq_true (howner ▸ hne)⟩
  refine ⟨hall.sublist (List.filter_sublist.map _), fun a ha howner => ?_, fun a ha howner => ?_, fun b hb => ?_,
    fun a hs hr => ?_⟩
  · have hends : ∀ b ∈ a.ends normalize survivor, b ∈ rows := by
      intro b hb
      rw [← hrows]
      exact List.mem_flatMap.mpr ⟨a, List.mem_filter.mpr ⟨ha, decide_eq_true howner⟩, hb⟩
    obtain ⟨b, hb, hkey, hspan⟩ := hcover _ (.inr (hends _ List.mem_cons_self))
    obtain ⟨c, hc, hkey', hspan'⟩ := hcover _ (.inr (hends _ (List.mem_cons_of_mem _ List.mem_cons_self)))
    -- both ends are recorded in the one row of that name
    cases List.inj_on_of_nodup_map hall hb hc (hkey.trans hkey'.symm)
    exact ⟨b, hstays b hb (congrArg Prod.fst hkey), hkey, hspan.1, hspan'.2⟩
  · obtain ⟨b, hb, hkey, hspan⟩ := hcover a (.inl ha)
    exact ⟨b, hstays b hb ((congrArg Prod.fst hkey).trans howner), hkey, hspan⟩
  · exact of_decide_eq_true (List.mem_filter.mp hb).2
  · rw [List.mem_filter, upsertAll_other (fun old row h => (observe_key old row).trans h)]
    · exact ⟨fun h => h.1, fun h => ⟨h, decide_eq_true hr⟩⟩
    · intro row hrow heq
      rw [← hrows] at hrow
      exact hs ((congrArg Prod.fst heq).trans (mem_ends hrow))

/-! ## Acquisitions -/

/-- What an acquisition row says about its attempt. -/
def Acquisition.outcome (a : Acquisition) : String × String × String × Int × Int × Option Nat :=
  (a.provider, a.usernameNormalized, a.sourceKey, a.attemptedAt, a.statusCode, a.rawPayloadId)

def Acquisition.ownedBy (user : Nat) (a : Acquisition) : Acquisition := { a with providerUserId := user }

/-- Of the two accounts' rows for a resource the one with the latest attempt is kept. -/
structure AcquisitionsKept (survivor replaced : Nat) (old new : List Acquisition) : Prop where
  keys : (new.map Acquisition.key).Nodup
  latest : ∀ x ∈ old, x.providerUserId = replaced → ∀ y ∈ old, y.key = (x.ownedBy survivor).key →
    ∃ b ∈ new, b.key = y.key ∧ b.outcome = (if y.attemptedAt ≤ x.attemptedAt then x else y).outcome
  carried : ∀ x ∈ old, x.providerUserId = replaced → (∀ y ∈ old, y.key ≠ (x.ownedBy survivor).key) →
    x.ownedBy survivor ∈ new
  kept : ∀ y ∈ old, y.providerUserId = survivor →
    (∀ x ∈ old, x.providerUserId = replaced → y.key ≠ (x.ownedBy survivor).key) → y ∈ new
  none_left : ∀ b ∈ new, b.providerUserId ≠ replaced
  others : ∀ a : Acquisition, a.providerUserId ≠ survivor → a.providerUserId ≠ replaced → (a ∈ new ↔ a ∈ old)

theorem attempt_key (old new : Acquisition) : (old.attempt new).key = old.key := by
  unfold Acquisition.attempt
  split <;> rfl

theorem attempt_outcome (old new : Acquisition) :
    (old.attempt new).outcome = (if old.attemptedAt ≤ new.attemptedAt then new else old).outcome := by
  unfold Acquisition.attempt
  by_cases h : new.attemptedAt ≥ old.attemptedAt
  · rw [if_pos h, if_pos h]
    rfl
  · rw [if_neg h, if_neg h]

theorem acquisitions_kept (hne : survivor ≠ replaced) {old : List Acquisition} (hkeys : (old.map Acquisition.key).Nodup) :
    AcquisitionsKept survivor replaced old
      ((upsertAll Acquisition.key Acquisition.attempt old ((old.filter fun a => a.providerUserId = replaced).map
        (Acquisition.ownedBy survivor))).filter fun a => a.providerUserId ≠ replaced) := by
  have hc : ∀ old row : Acquisition, old.key = row.key → (old.attempt row).key = row.key :=
    fun old row h => (attempt_key old row).trans h
  generalize hrows : (old.filter fun a => a.providerUserId = replaced).map (Acquisition.ownedBy survivor) = rows
  have hmem : ∀ x ∈ old, x.providerUserId = replaced → x.ownedBy survivor ∈ rows := by
    intro x hx howner
    rw [← hrows]
    exact List.mem_map_of_mem (List.mem_filter.mpr ⟨hx, decide_eq_true howner⟩)
  have hof : ∀ row ∈ rows, ∃ x ∈ old, x.providerUserId = replaced ∧ row = x.ownedBy survivor := by
    intro row hrow
    rw [← hrows] at hrow
    obtain ⟨x, hx, rfl⟩ := List.mem_map.mp hrow
    obtain ⟨hx, howner⟩ := List.mem_filter.mp hx
    exact ⟨x, hx, of_decide_eq_true howner, rfl⟩
  -- the placeholder's rows keep their resources apart under the new owner
  have hapart : (rows.map Acquisition.key).Nodup := by
    rw [← hrows, List.map_map]
    refine List.Nodup.map_on (fun x hx y hy heq => ?_) ((List.Nodup.of_map _ hkeys).filter _)
    obtain ⟨hx, hxr⟩ := List.mem_filter.mp hx
    obtain ⟨hy, hyr⟩ := List.mem_filter.mp hy
    refine List.inj_on_of_nodup_map hkeys hx hy (Prod.ext ?_ ?_)
    · exact (of_decide_eq_true hxr).trans (of_decide_eq_true hyr).symm
    · exact congrArg (fun k => k.2) heq
  have hstays : ∀ b ∈ upsertAll Acquisition.key Acquisition.attempt old rows, b.providerUserId ≠ replaced →
      b ∈ (upsertAll Acquisition.key Acquisition.attempt old rows).filter fun a => a.providerUserId ≠ replaced :=
    fun b hb howner => List.mem_filter.mpr ⟨hb, decide_eq_true howner⟩
  refine ⟨(upsertAll_keys_nodup hc hkeys).sublist (List.filter_sublist.map _), fun x hx hxr y hy heq => ?_,
    fun x hx hxr hfree => ?_, fun y hy hys hfree => ?_, fun b hb => ?_, fun a hs hr => ?_⟩
  · have howner : y.providerUserId = survivor := congrArg Prod.fst heq
    refine ⟨y.attempt (x.ownedBy survivor), hstays _ ((upsertAll_row hc hapart (hmem x hx hxr)).1 y hy heq) ?_,
      attempt_key _ _, ?_⟩
    · have hkey : (y.attempt (x.ownedBy survivor)).providerUserId = y.providerUserId := congrArg Prod.fst (attempt_key _ _)
      rw [hkey, howner]
      exact hne
    · rw [attempt_outcome]
      change (if y.attemptedAt ≤ x.attemptedAt then x.ownedBy survivor else y).outcome = _
      split <;> rfl
  · exact hstays _ ((upsertAll_row hc hapart (hmem x hx hxr)).2 hfree) hne
  · refine hstays y ((upsertAll_other hc fun row hrow heq => ?_).mpr hy) (hys ▸ hne)
    obtain ⟨x, hx, hxr, rfl⟩ := hof row hrow
    exact hfree x hx hxr heq
  · exact of_decide_eq_true (List.mem_filter.mp hb).2
  · rw [List.mem_filter, upsertAll_other hc]
    · exact ⟨fun h => h.1, fun h => ⟨h, decide_eq_true hr⟩⟩
    · intro row hrow heq
      obtain ⟨x, _, _, rfl⟩ := hof row hrow
      exact hs (congrArg Prod.fst heq)

/-! ## The loops -/

/-- The snapshots of the two accounts. -/
def Archive.ProfileOf (survivor replaced : Nat) (db : Archive) (n : Nat) : Prop :=
  ∃ s ∈ db.snapshots, s.id = n ∧ (s.providerUserId = survivor ∨ s.providerUserId = replaced)

def Archive.ResourceOf (survivor replaced : Nat) (db : Archive) (n : Nat) : Prop :=
  ∃ s ∈ db.resourceSnapshots, s.id = n ∧ (s.providerUserId = survivor ∨ s.providerUserId = replaced)

/-- The edges that mention one of the two accounts. -/
def Archive.EdgeOf (survivor replaced : Nat) (db : Archive) (n : Nat) : Prop :=
  ∃ e ∈ db.edges, e.id = n ∧ e.Mentions survivor replaced

theorem mergeResources_loop (hne : survivor ≠ replaced) (hids : (db.resourceSnapshots.map ResourceSnapshot.id).Nodup)
    (hkeys : (db.resourceSnapshots.map (resourceMoving survivor replaced).key).Nodup)
    (hdb' : (db.resourceSnapshots.filter fun s => s.providerUserId = replaced).foldl
      (Archive.mergeResourceSnapshot survivor) db = db') :
    ∃ ρ, Reassigned (resourceMoving survivor replaced) (fun _ _ => True) (fun _ => ()) db.resourceSnapshots
        db'.resourceSnapshots ρ ∧
      ResourcesFollow (db.ResourceOf survivor replaced) db db' ρ ∧
      ∀ b ∈ db'.resourceSnapshots, ¬ (resourceMoving survivor replaced).Affected b := by
  have hrows : ∀ a ∈ db.resourceSnapshots.filter fun s => s.providerUserId = replaced,
      a ∈ db.resourceSnapshots ∧ (resourceMoving survivor replaced).Affected a := by
    intro a ha
    obtain ⟨ha, howner⟩ := List.mem_filter.mp ha
    exact ⟨ha, (resource_affected hne a).mpr (of_decide_eq_true howner)⟩
  obtain ⟨ρ, hmoved, hfollow, _, hout⟩ := run_reassigned (resourceMoving_lawful hne) resourceMoving_respects
    Archive.resourceSnapshots (Archive.mergeResourceSnapshot survivor)
    (ResourcesFollow (db.ResourceOf survivor replaced))
    (fun s => ∀ x ∈ s.resourceSnapshots, x.providerUserId = survivor ∨ x.providerUserId = replaced →
      db.ResourceOf survivor replaced x.id)
    (fun s => ResourcesFollow.refl _ rfl rfl rfl rfl) (fun _ _ _ _ _ h h' => h.trans h')
    (fun s a hinv hids ha hA => mergeResourceSnapshot_step hne hinv hids ha ((resource_affected hne a).mp hA))
    (fun x hx howner => ⟨x, hx, rfl, howner⟩) hids hkeys hrows ((List.Nodup.of_map _ hids).filter _)
  rw [hdb'] at hmoved hfollow hout
  refine ⟨ρ, hmoved, hfollow, hmoved.settled (fun a ha hA => ?_) hout⟩
  exact List.mem_filter.mpr ⟨ha, decide_eq_true ((resource_affected hne a).mp hA)⟩

theorem mergeSnapshots_loop (hne : survivor ≠ replaced) (hids : (db.snapshots.map UserSnapshot.id).Nodup)
    (hkeys : (db.snapshots.map (snapshotMoving survivor replaced).key).Nodup)
    (hdb' : (db.snapshots.filter fun s => s.providerUserId = replaced).foldl (Archive.mergeSnapshot survivor) db = db') :
    ∃ ρ, Reassigned (snapshotMoving survivor replaced) CapturedNoEarlier UserSnapshot.facts db.snapshots
        db'.snapshots ρ ∧
      SnapshotsFollow (db.ProfileOf survivor replaced) db db' ρ ∧
      ∀ b ∈ db'.snapshots, ¬ (snapshotMoving survivor replaced).Affected b := by
  have hrows : ∀ a ∈ db.snapshots.filter fun s => s.providerUserId = replaced,
      a ∈ db.snapshots ∧ (snapshotMoving survivor replaced).Affected a := by
    intro a ha
    obtain ⟨ha, howner⟩ := List.mem_filter.mp ha
    exact ⟨ha, (snapshot_affected hne a).mpr (of_decide_eq_true howner)⟩
  obtain ⟨ρ, hmoved, hfollow, _, hout⟩ := run_reassigned (snapshotMoving_lawful hne) snapshotMoving_respects
    Archive.snapshots (Archive.mergeSnapshot survivor) (SnapshotsFollow (db.ProfileOf survivor replaced))
    (fun s => ∀ x ∈ s.snapshots, x.providerUserId = survivor ∨ x.providerUserId = replaced →
      db.ProfileOf survivor replaced x.id)
    (fun s => SnapshotsFollow.refl _ rfl rfl rfl rfl) (fun _ _ _ _ _ h h' => h.trans h')
    (fun s a hinv hids ha hA => mergeSnapshot_step hne hinv hids ha ((snapshot_affected hne a).mp hA))
    (fun x hx howner => ⟨x, hx, rfl, howner⟩) hids hkeys hrows ((List.Nodup.of_map _ hids).filter _)
  rw [hdb'] at hmoved hfollow hout
  refine ⟨ρ, hmoved, hfollow, hmoved.settled (fun a ha hA => ?_) hout⟩
  exact List.mem_filter.mpr ⟨ha, decide_eq_true ((snapshot_affected hne a).mp hA)⟩

/-- The loop over the edges, with a column that absorbing takes from one of two edges. -/
theorem mergeEdges_loop (hne : survivor ≠ replaced) {ν : Type} {val : DiscoveryEdge → ν}
    (hmove : ∀ e, val (e.rename survivor replaced) = val e)
    (habsorb : ∀ n (m e : DiscoveryEdge), val (m.absorb n e) = val m ∨ val (m.absorb n e) = val e)
    (hids : (db.edges.map DiscoveryEdge.id).Nodup) (hkeys : (db.edges.map DiscoveryEdge.key).Nodup) :
    ∃ ρ, Reassigned (edgeMoving survivor replaced db.knownGames) Stands val db.edges
        (db.mergeUserEdges survivor replaced).1.edges ρ ∧
      EdgesFollow (db.EdgeOf survivor replaced) (db, []) (db.mergeUserEdges survivor replaced) ρ ∧
      (∀ run ∈ (db.mergeUserEdges survivor replaced).2, ∃ n, db.EdgeOf survivor replaced n ∧
        (⟨run, n⟩ : RunEdge) ∈ db.runEdges) ∧
      ∀ b ∈ (db.mergeUserEdges survivor replaced).1.edges,
        ¬ (edgeMoving survivor replaced db.knownGames).Affected b := by
  generalize hsel : (db.edges.filter fun e => e.fromUserId = replaced ∨ e.toUserId = replaced).mergeSort
    (fun a b => decide (a.id ≤ b.id)) = rows
  have hmem : ∀ e, e ∈ rows ↔ e ∈ db.edges ∧ (e.fromUserId = replaced ∨ e.toUserId = replaced) := by
    intro e
    rw [← hsel, List.mem_mergeSort, List.mem_filter, decide_eq_true_iff]
  have hn : rows.Nodup := by
    rw [← hsel]
    exact (List.mergeSort_perm _ _).nodup_iff.mpr ((List.Nodup.of_map _ hids).filter _)
  have hrows : ∀ e ∈ rows, e ∈ db.edges ∧ (edgeMoving survivor replaced db.knownGames).Affected e :=
    fun e he => ⟨((hmem e).mp he).1, (edge_affected hne e).mpr ((hmem e).mp he).2⟩
  have hkept : GraphKept survivor replaced db.knownGames (db.EdgeOf survivor replaced) db.runEdges (db, []) :=
    ⟨fun _ _ _ => rfl, fun e he hown => ⟨e, he, rfl, hown⟩, fun run n h hn => ⟨n, hn, h⟩, by simp⟩
  obtain ⟨ρ, hmoved, hfollow, hkept', hout⟩ := run_reassigned (edgeMoving_lawful hne) (edgeMoving_respects hmove habsorb)
    (fun st : Archive × List Nat => st.1.edges) (Archive.mergeEdge survivor replaced)
    (EdgesFollow (db.EdgeOf survivor replaced))
    (GraphKept survivor replaced db.knownGames (db.EdgeOf survivor replaced) db.runEdges)
    (fun _ => EdgesFollow.refl _ rfl rfl) (fun _ _ _ _ _ h h' => h.trans h')
    (fun _ e hk hids he hA => mergeEdge_step hk hids he ((edge_affected hne e).mp hA)) hkept hids hkeys hrows hn
  have hrun : db.mergeUserEdges survivor replaced = rows.foldl (Archive.mergeEdge survivor replaced) (db, []) := by
    rw [← hsel]
    rfl
  rw [hrun]
  refine ⟨ρ, hmoved, hfollow, hkept'.marked, hmoved.settled (fun e he hA => ?_) hout⟩
  exact (hmem e).mpr ⟨he, (edge_affected hne e).mp hA⟩

/-- The tables that refreshing the counters of runs leaves alone. -/
def Archive.besideRuns (db : Archive) : Archive := { db with runs := [] }

/-- `run_counters` -/
def Archive.runCounters (db : Archive) (runId : Nat) : Counters :=
  ⟨db.jobCounters runId, (db.runEdges.filter fun e => e.crawlRunId = runId).length⟩

/-- The row of a run with its counters as they are; new counters are a new revision. -/
def Archive.refreshed (now : Int) (db : Archive) (r : CrawlRun) : CrawlRun :=
  { r with
    counters := some (db.runCounters r.id)
    updatedAt := now
    revision := if r.counters = some (db.runCounters r.id) then r.revision else r.revision + 1 }

theorem setRevision_refreshed (now : Int) (db : Archive) (r : CrawlRun) :
    r.setRevision { r with counters := some (db.runCounters r.id), updatedAt := now } = db.refreshed now r := by
  unfold CrawlRun.setRevision Archive.refreshed
  by_cases h : r.counters = some (db.runCounters r.id)
  · simp [h]
  · simp [h, Ne.symm h]

/-- Refreshed counters stay as they are. -/
theorem refreshed_refreshed (now : Int) (db : Archive) (r : CrawlRun) :
    db.refreshed now (db.refreshed now r) = db.refreshed now r := by
  simp [Archive.refreshed]

theorem refreshCounters_loop (now : Int) (runs : List Nat) (db : Archive) :
    (runs.foldl (Archive.refreshCounters now) db).runs =
        db.runs.map (fun r => if r.id ∈ runs then db.refreshed now r else r) ∧
      (runs.foldl (Archive.refreshCounters now) db).besideRuns = db.besideRuns := by
  induction runs generalizing db with
  | nil => simp
  | cons run runs ih =>
    obtain ⟨hruns, hbeside⟩ := ih (Archive.refreshCounters now db run)
    refine ⟨?_, hbeside⟩
    rw [List.foldl_cons, hruns]
    have hnow : (Archive.refreshCounters now db run).refreshed now = db.refreshed now := rfl
    have hone : (Archive.refreshCounters now db run).runs =
        db.runs.map fun r => if r.id = run then db.refreshed now r else r := by
      refine List.map_congr_left fun r _ => ?_
      split
      · next hr =>
        subst hr
        exact setRevision_refreshed now db r
      · rfl
    rw [hnow, hone, List.map_map]
    refine List.map_congr_left fun r _ => ?_
    simp only [Function.comp, List.mem_cons]
    by_cases hr : r.id = run
    · subst hr
      simp only [if_true, true_or]
      split
      · exact refreshed_refreshed now db r
      · rfl
    · simp only [hr, if_false, false_or]

/-! ## The constraints of the schema -/

/-- The keys of the tables that a merge rewrites, and the reference of memberships to edges. -/
structure Valid (db : Archive) : Prop where
  aliases : (db.aliases.map Alias.key).Nodup
  acquisitions : (db.acquisitions.map Acquisition.key).Nodup
  snapshotIds : (db.snapshots.map UserSnapshot.id).Nodup
  snapshots : (db.snapshots.map fun s => (s.providerUserId, s.contentHash)).Nodup
  resourceIds : (db.resourceSnapshots.map ResourceSnapshot.id).Nodup
  resources : (db.resourceSnapshots.map fun s =>
    (s.providerUserId, s.ownerScope, s.resourceKey, s.parametersHash, s.contentHash)).Nodup
  edgeIds : (db.edges.map DiscoveryEdge.id).Nodup
  edges : (db.edges.map DiscoveryEdge.key).Nodup
  runEdges : ∀ r ∈ db.runEdges, ∃ e ∈ db.edges, e.id = r.discoveryEdgeId

/-! ## `merge_player_evidence` -/

def GameParticipant.rename (survivor replaced : Nat) (p : GameParticipant) : GameParticipant :=
  { p with providerUserId := p.providerUserId.map (renamed survivor replaced) }

def FetchLog.rename (survivor replaced : Nat) (f : FetchLog) : FetchLog :=
  { f with providerUserId := f.providerUserId.map (renamed survivor replaced) }

/-- The tables that `merge_player_evidence` leaves alone. -/
def Archive.besideEvidence (db : Archive) : Archive :=
  { db with
    fetchLogs := [], aliases := [], users := [], observations := [], acquisitions := [], resourceSnapshots := []
    resourceObservations := [], ratingPoints := [], sourceRecords := [], sourceSeq := 0 }

/-- What has become of the tables of `merge_player_evidence`; resource snapshots are redirected by `ρ`. -/
structure EvidenceMerged (normalize : String → String) (survivor replaced : Nat) (db db' : Archive) (ρ : Nat → Nat) :
    Prop where
  fetchLogs : db'.fetchLogs = db.fetchLogs.map (FetchLog.rename survivor replaced)
  aliases : AliasesCarried normalize survivor replaced db.aliases db'.aliases
  observations : db'.observations = db.observations.map fun o =>
    { o with providerUserId := renamed survivor replaced o.providerUserId }
  acquisitions : AcquisitionsKept survivor replaced db.acquisitions db'.acquisitions
  resources : Reassigned (resourceMoving survivor replaced) (fun _ _ => True) (fun _ => ()) db.resourceSnapshots
    db'.resourceSnapshots ρ
  settled : ∀ b ∈ db'.resourceSnapshots, ¬ (resourceMoving survivor replaced).Affected b
  resourceObservations : db'.resourceObservations =
    db.resourceObservations.map fun o => { o with snapshotId := ρ o.snapshotId }
  sources : SourceImage (fun t e => if t = .userResource then ρ e else e) db.sourceRecords db'.sourceRecords
  spared : SourceSpared (fun t e => t = .userResource ∧ db.ResourceOf survivor replaced e) db.sourceRecords db'.sourceRecords
  points : ∀ p : RatingHistoryPoint, ¬ db.ResourceOf survivor replaced p.snapshotId →
    (p ∈ db'.ratingPoints ↔ p ∈ db.ratingPoints)
  fixed : ∀ n, ¬ db.ResourceOf survivor replaced n → ρ n = n
  beside : db'.besideEvidence = db.besideEvidence

theorem rename_owner (o : Option Nat) :
    (if o = some replaced then some survivor else o) = o.map (renamed survivor replaced) := by
  cases o with
  | none => rfl
  | some u =>
    simp only [Option.some.injEq, Option.map_some, renamed]
    split <;> rfl

/-- The rows that name their account are redirected before the loop over resource snapshots. -/
def Archive.carryRows (normalize : String → String) (survivor replaced : Nat) (db : Archive) : Archive :=
  let logs : Archive := { db with
    fetchLogs := db.fetchLogs.map fun f =>
      if f.providerUserId = some replaced then { f with providerUserId := some survivor } else f }
  let named := (db.aliases.filter fun a => a.providerUserId = replaced).foldl (Archive.mergeAlias normalize survivor) logs
  { named with
    aliases := named.aliases.filter fun a => a.providerUserId ≠ replaced
    observations := named.observations.map fun o =>
      if o.providerUserId = replaced then { o with providerUserId := survivor } else o
    acquisitions := (upsertAll Acquisition.key Acquisition.attempt named.acquisitions
      ((named.acquisitions.filter fun a => a.providerUserId = replaced).map (Acquisition.ownedBy survivor))).filter
        fun a => a.providerUserId ≠ replaced }

theorem mergePlayerEvidence_eq :
    db.mergePlayerEvidence normalize survivor replaced =
      ((db.carryRows normalize survivor replaced).resourceSnapshots.filter fun s => s.providerUserId = replaced).foldl
        (Archive.mergeResourceSnapshot survivor) (db.carryRows normalize survivor replaced) := rfl

/-- The tables of `carryRows` before and after. -/
structure RowsCarried (normalize : String → String) (survivor replaced : Nat) (db db' : Archive) : Prop where
  fetchLogs : db'.fetchLogs = db.fetchLogs.map (FetchLog.rename survivor replaced)
  aliases : AliasesCarried normalize survivor replaced db.aliases db'.aliases
  observations : db'.observations = db.observations.map fun o =>
    { o with providerUserId := renamed survivor replaced o.providerUserId }
  acquisitions : AcquisitionsKept survivor replaced db.acquisitions db'.acquisitions
  beside : { db' with fetchLogs := [], aliases := [], users := [], observations := [], acquisitions := [] } =
    { db with fetchLogs := [], aliases := [], users := [], observations := [], acquisitions := [] }

theorem carryRows_carried (normalize : String → String) (hne : survivor ≠ replaced) (hv : Valid db) :
    RowsCarried normalize survivor replaced db (db.carryRows normalize survivor replaced) := by
  obtain ⟨logs, hlogs⟩ : ∃ logs : Archive, logs = { db with
      fetchLogs := db.fetchLogs.map fun f =>
        if f.providerUserId = some replaced then { f with providerUserId := some survivor } else f } := ⟨_, rfl⟩
  obtain ⟨named, hnamed⟩ : ∃ named, named = (db.aliases.filter fun a => a.providerUserId = replaced).foldl
      (Archive.mergeAlias normalize survivor) logs := ⟨_, rfl⟩
  have heq : db.carryRows normalize survivor replaced = { named with
      aliases := named.aliases.filter fun a => a.providerUserId ≠ replaced
      observations := named.observations.map fun o =>
        if o.providerUserId = replaced then { o with providerUserId := survivor } else o
      acquisitions := (upsertAll Acquisition.key Acquisition.attempt named.acquisitions
        ((named.acquisitions.filter fun a => a.providerUserId = replaced).map (Acquisition.ownedBy survivor))).filter
          fun a => a.providerUserId ≠ replaced } := by
    rw [hnamed, hlogs]
    rfl
  have haliases : named.aliases = upsertAll Alias.key Alias.observe db.aliases
      ((db.aliases.filter fun a => a.providerUserId = replaced).flatMap (Alias.ends normalize survivor)) := by
    rw [hnamed, (mergeAliases_eq _ logs).1, hlogs]
  have hbeside : named.besideAliases = logs.besideAliases := by
    rw [hnamed, (mergeAliases_eq _ logs).2]
  rw [heq]
  refine ⟨?_, ?_, ?_, ?_, ?_⟩
  · change named.fetchLogs = _
    rw [show named.fetchLogs = logs.fetchLogs from (congrArg Archive.fetchLogs hbeside :), hlogs]
    refine List.map_congr_left fun f _ => ?_
    rw [FetchLog.rename, ← rename_owner]
    split <;> rfl
  · change AliasesCarried normalize survivor replaced db.aliases (named.aliases.filter _)
    rw [haliases]
    exact aliases_carried hne hv.aliases
  · change named.observations.map _ = _
    rw [show named.observations = logs.observations from (congrArg Archive.observations hbeside :), hlogs]
    refine List.map_congr_left fun o _ => ?_
    unfold renamed
    split <;> rfl
  · change AcquisitionsKept survivor replaced db.acquisitions ((upsertAll _ _ named.acquisitions
      ((named.acquisitions.filter _).map _)).filter _)
    rw [show named.acquisitions = logs.acquisitions from (congrArg Archive.acquisitions hbeside :), hlogs]
    exact acquisitions_kept hne hv.acquisitions
  · have hothers := congrArg (fun x : Archive =>
      { x with fetchLogs := [], observations := [], acquisitions := [] }) hbeside
    rw [hlogs] at hothers
    exact hothers

theorem mergePlayerEvidence_merged (normalize : String → String) (hne : survivor ≠ replaced) (hv : Valid db) :
    ∃ ρ, EvidenceMerged normalize survivor replaced db (db.mergePlayerEvidence normalize survivor replaced) ρ := by
  obtain ⟨hlogs, haliases, hobs, hacq, hothers⟩ := carryRows_carried normalize hne hv
  rw [mergePlayerEvidence_eq]
  generalize db.carryRows normalize survivor replaced = db₁ at hlogs haliases hobs hacq hothers
  have hres : db₁.resourceSnapshots = db.resourceSnapshots := (congrArg Archive.resourceSnapshots hothers :)
  have hsrc : db₁.sourceRecords = db.sourceRecords := (congrArg Archive.sourceRecords hothers :)
  have hroo : db₁.resourceObservations = db.resourceObservations := (congrArg Archive.resourceObservations hothers :)
  have hpts : db₁.ratingPoints = db.ratingPoints := (congrArg Archive.ratingPoints hothers :)
  have hof : db₁.ResourceOf survivor replaced = db.ResourceOf survivor replaced := by
    unfold Archive.ResourceOf
    rw [hres]
  obtain ⟨ρ, hmoved, hfollow, hsettled⟩ := @mergeResources_loop db₁ _ survivor replaced hne (hres ▸ hv.resourceIds)
    (hres ▸ hv.resources) rfl
  generalize (db₁.resourceSnapshots.filter fun s => s.providerUserId = replaced).foldl
    (Archive.mergeResourceSnapshot survivor) db₁ = db₂ at hmoved hfollow hsettled ⊢
  have hb := hfollow.beside
  rw [hof] at hfollow
  rw [hres] at hmoved
  refine ⟨ρ, ?_, ?_, ?_, ?_, hmoved, hsettled, ?_, ?_, ?_, ?_, hfollow.fixed, ?_⟩
  · exact (congrArg Archive.fetchLogs hb).trans hlogs
  · exact (show db₂.aliases = db₁.aliases from (congrArg Archive.aliases hb :)) ▸ haliases
  · exact (congrArg Archive.observations hb).trans hobs
  · exact (show db₂.acquisitions = db₁.acquisitions from (congrArg Archive.acquisitions hb :)) ▸ hacq
  · exact hroo ▸ hfollow.observations
  · exact hsrc ▸ hfollow.sources
  · exact hsrc ▸ hfollow.spared
  · exact hpts ▸ hfollow.points
  · have hleft : db₂.besideEvidence = db₁.besideEvidence := congrArg (fun x : Archive =>
      { x with fetchLogs := [], aliases := [], users := [], observations := [], acquisitions := [] }) hb
    have hright : db₁.besideEvidence = db.besideEvidence := congrArg (fun x : Archive =>
      { x with
        resourceSnapshots := [], resourceObservations := [], ratingPoints := [], sourceRecords := [], sourceSeq := 0 })
      hothers
    exact hleft.trans hright

/-! ## `_merge_user_placeholder` -/

/-- No row names the account. -/
structure Archive.Unreferenced (user : Nat) (db : Archive) : Prop where
  users : ∀ u ∈ db.users, u.id ≠ user
  participants : ∀ p ∈ db.participants, p.providerUserId ≠ some user
  fetchLogs : ∀ f ∈ db.fetchLogs, f.providerUserId ≠ some user
  aliases : ∀ a ∈ db.aliases, a.providerUserId ≠ user
  observations : ∀ o ∈ db.observations, o.providerUserId ≠ user
  snapshots : ∀ s ∈ db.snapshots, s.providerUserId ≠ user
  acquisitions : ∀ a ∈ db.acquisitions, a.providerUserId ≠ user
  resourceSnapshots : ∀ s ∈ db.resourceSnapshots, s.providerUserId ≠ user
  sourceRecords : ∀ s ∈ db.sourceRecords, s.entityType = .user → s.entityId ≠ user
  edges : ∀ e ∈ db.edges, e.fromUserId ≠ user ∧ e.toUserId ≠ user

/-- The edges of a run, by provider and ends. -/
def Archive.runGraph (db : Archive) (run : Nat) : Set (String × Nat × Nat) :=
  { k | ∃ e ∈ db.edges, (⟨run, e.id⟩ : RunEdge) ∈ db.runEdges ∧ e.key = k }

def renameKey (survivor replaced : Nat) (k : String × Nat × Nat) : String × Nat × Nat :=
  (k.1, renamed survivor replaced k.2.1, renamed survivor replaced k.2.2)

/-- The old edges that coincide in an edge. -/
def Archive.coinciding (survivor replaced : Nat) (db : Archive) (e : DiscoveryEdge) : Set DiscoveryEdge :=
  { a | a ∈ db.edges ∧ renameKey survivor replaced a.key = e.key }

/-- Where the entities of source records go. -/
def redirected (survivor replaced : Nat) (profiles resources : Nat → Nat) : EntityType → Nat → Nat
  | .user, e => renamed survivor replaced e
  | .userSnapshot, e => profiles e
  | .userResource, e => resources e
  | .other _, e => e

/-- The entities that are the accounts or theirs. -/
def Archive.EntityOf (survivor replaced : Nat) (db : Archive) : EntityType → Nat → Prop
  | .user, e => e = survivor ∨ e = replaced
  | .userSnapshot, e => db.ProfileOf survivor replaced e
  | .userResource, e => db.ResourceOf survivor replaced e
  | .other _, _ => False

/-- What belonged to the placeholder belongs to the survivor; `profiles` and `resources` say where the rows that
pointed at its snapshots point. -/
structure Conserved (normalize : String → String) (survivor replaced : Nat) (db db' : Archive)
    (profiles resources : Nat → Nat) : Prop where
  unreferenced : db'.Unreferenced replaced
  graph : ∀ run, db'.runGraph run = renameKey survivor replaced '' db.runGraph run
  edges : ∀ a ∈ db.edges, ∃ b ∈ db'.edges, a ∈ db.coinciding survivor replaced b
  depth : ∀ b ∈ db'.edges, IsLeast (DiscoveryEdge.depth '' db.coinciding survivor replaced b) b.depth
  gameCount : ∀ b ∈ db'.edges, b.gameCount ∈ upperBounds (DiscoveryEdge.gameCount '' db.coinciding survivor replaced b)
  firstSeenAt : ∀ b ∈ db'.edges, IsLeast (DiscoveryEdge.firstSeenAt '' db.coinciding survivor replaced b) b.firstSeenAt
  sources : SourceImage (redirected survivor replaced profiles resources) db.sourceRecords db'.sourceRecords
  observations : db'.observations = db.observations.map fun o =>
    { o with
      providerUserId := renamed survivor replaced o.providerUserId
      snapshotId := profiles o.snapshotId }
  resourceObservations : db'.resourceObservations =
    db.resourceObservations.map fun o => { o with snapshotId := resources o.snapshotId }
  snapshots : ∀ s ∈ db.snapshots, ∃ b ∈ db'.snapshots, b.id = profiles s.id ∧
    b.providerUserId = renamed survivor replaced s.providerUserId ∧ b.contentHash = s.contentHash ∧ CapturedNoEarlier b s
  ratings : ∀ n p, (n, p) ∈ db'.ratingRecords.map RatingRecord.key ↔
    ∃ n₀, profiles n₀ = n ∧ (n₀, p) ∈ db.ratingRecords.map RatingRecord.key
  resourceSnapshots : ∀ s ∈ db.resourceSnapshots, ∃ b ∈ db'.resourceSnapshots, b.id = resources s.id ∧
    b.providerUserId = renamed survivor replaced s.providerUserId ∧ b.ownerScope = s.ownerScope ∧
    b.resourceKey = s.resourceKey ∧ b.parametersHash = s.parametersHash ∧ b.contentHash = s.contentHash
  aliases : AliasesCarried normalize survivor replaced db.aliases db'.aliases
  participants : db'.participants = db.participants.map (GameParticipant.rename survivor replaced)
  fetchLogs : db'.fetchLogs = db.fetchLogs.map (FetchLog.rename survivor replaced)
  acquisitions : AcquisitionsKept survivor replaced db.acquisitions db'.acquisitions

/-- Rows that mention neither account are the same rows; of runs with an edge of theirs the counters, the time stamp
and the revision are refreshed. -/
structure OthersKept (survivor replaced : Nat) (now : Int) (db db' : Archive) (profiles resources : Nat → Nat) : Prop where
  users : ∀ u : ProviderUser, u.id ≠ survivor → u.id ≠ replaced → (u ∈ db'.users ↔ u ∈ db.users)
  snapshots : ∀ s : UserSnapshot, s.providerUserId ≠ survivor → s.providerUserId ≠ replaced →
    (s ∈ db'.snapshots ↔ s ∈ db.snapshots)
  profiles : ∀ n, ¬ db.ProfileOf survivor replaced n → profiles n = n
  ratings : ∀ r : RatingRecord, ¬ db.ProfileOf survivor replaced r.snapshotId →
    (r ∈ db'.ratingRecords ↔ r ∈ db.ratingRecords)
  resourceSnapshots : ∀ s : ResourceSnapshot, s.providerUserId ≠ survivor → s.providerUserId ≠ replaced →
    (s ∈ db'.resourceSnapshots ↔ s ∈ db.resourceSnapshots)
  resources : ∀ n, ¬ db.ResourceOf survivor replaced n → resources n = n
  points : ∀ p : RatingHistoryPoint, ¬ db.ResourceOf survivor replaced p.snapshotId →
    (p ∈ db'.ratingPoints ↔ p ∈ db.ratingPoints)
  sources : SourceSpared (db.EntityOf survivor replaced) db.sourceRecords db'.sourceRecords
  edges : ∀ e : DiscoveryEdge, ¬ e.Mentions survivor replaced → (e ∈ db'.edges ↔ e ∈ db.edges)
  runEdges : ∀ run n, ¬ db.EdgeOf survivor replaced n →
    ((⟨run, n⟩ : RunEdge) ∈ db'.runEdges ↔ (⟨run, n⟩ : RunEdge) ∈ db.runEdges)
  runs : ∃ affected : List Nat,
    (∀ run ∈ affected, ∃ n, db.EdgeOf survivor replaced n ∧ (⟨run, n⟩ : RunEdge) ∈ db.runEdges) ∧
    db'.runs = db.runs.map fun r => if r.id ∈ affected then db'.refreshed now r else r
  games : db'.games = db.games
  rawPayloads : db'.rawPayloads = db.rawPayloads
  jobCounters : db'.jobCounters = db.jobCounters

/-- Everything that is merged before the edges. -/
def Archive.mergeEvidence (normalize : String → String) (survivor replaced : Nat) (db : Archive) : Archive :=
  let owned : Archive := { db with
    participants := db.participants.map fun p =>
      if p.providerUserId = some replaced then { p with providerUserId := some survivor } else p }
  let carried := owned.mergePlayerEvidence normalize survivor replaced
  let profiles := (carried.snapshots.filter fun s => s.providerUserId = replaced).foldl (Archive.mergeSnapshot survivor)
    carried
  profiles.mergeSourceRecords .user survivor replaced

/-- The survivor takes over the dates of the placeholder, whose row goes. -/
def Archive.dropPlaceholder (survivor replaced : Nat) (db : Archive) : Archive :=
  let placeholder := db.users.find? fun u => u.id = replaced
  let dated := db.updateUser survivor fun u =>
    u.seen (placeholder.bind (·.firstSeenAt)) (placeholder.bind (·.updatedAt))
  { dated with users := dated.users.filter fun u => u.id ≠ replaced }

theorem mergeUserPlaceholder_eq (normalize : String → String) (db : Archive) (survivor replaced : Nat) (now : Int) :
    db.mergeUserPlaceholder normalize survivor replaced now =
      ((((db.mergeEvidence normalize survivor replaced).mergeUserEdges survivor replaced).2.dedup.mergeSort
        fun a b => decide (a ≤ b)).foldl (Archive.refreshCounters now)
        (((db.mergeEvidence normalize survivor replaced).mergeUserEdges survivor replaced).1.dropPlaceholder survivor
          replaced)) := rfl

/-- The evidence tables after the loops over resource and profile snapshots. -/
structure EvidenceConserved (normalize : String → String) (survivor replaced : Nat) (db db' : Archive)
    (profiles resources : Nat → Nat) : Prop where
  participants : db'.participants = db.participants.map (GameParticipant.rename survivor replaced)
  fetchLogs : db'.fetchLogs = db.fetchLogs.map (FetchLog.rename survivor replaced)
  aliases : AliasesCarried normalize survivor replaced db.aliases db'.aliases
  acquisitions : AcquisitionsKept survivor replaced db.acquisitions db'.acquisitions
  observations : db'.observations = db.observations.map fun o =>
    { o with
      providerUserId := renamed survivor replaced o.providerUserId
      snapshotId := profiles o.snapshotId }
  resourceObservations : db'.resourceObservations =
    db.resourceObservations.map fun o => { o with snapshotId := resources o.snapshotId }
  sources : SourceImage (redirected survivor replaced profiles resources) db.sourceRecords db'.sourceRecords
  spared : SourceSpared (db.EntityOf survivor replaced) db.sourceRecords db'.sourceRecords
  snapshots : Reassigned (snapshotMoving survivor replaced) CapturedNoEarlier UserSnapshot.facts db.snapshots
    db'.snapshots profiles
  snapshotsSettled : ∀ b ∈ db'.snapshots, ¬ (snapshotMoving survivor replaced).Affected b
  ratings : ∀ r : RatingRecord, ¬ db.ProfileOf survivor replaced r.snapshotId →
    (r ∈ db'.ratingRecords ↔ r ∈ db.ratingRecords)
  performances : ∀ n p, (n, p) ∈ db'.ratingRecords.map RatingRecord.key ↔
    ∃ n₀, profiles n₀ = n ∧ (n₀, p) ∈ db.ratingRecords.map RatingRecord.key
  profiles : ∀ n, ¬ db.ProfileOf survivor replaced n → profiles n = n
  resourceSnapshots : Reassigned (resourceMoving survivor replaced) (fun _ _ => True) (fun _ => ()) db.resourceSnapshots
    db'.resourceSnapshots resources
  resourcesSettled : ∀ b ∈ db'.resourceSnapshots, ¬ (resourceMoving survivor replaced).Affected b
  points : ∀ p : RatingHistoryPoint, ¬ db.ResourceOf survivor replaced p.snapshotId →
    (p ∈ db'.ratingPoints ↔ p ∈ db.ratingPoints)
  resources : ∀ n, ¬ db.ResourceOf survivor replaced n → resources n = n
  edges : db'.edges = db.edges
  runEdges : db'.runEdges = db.runEdges
  runs : db'.runs = db.runs
  games : db'.games = db.games
  rawPayloads : db'.rawPayloads = db.rawPayloads
  jobCounters : db'.jobCounters = db.jobCounters

theorem mergeEvidence_conserved (normalize : String → String) (hne : survivor ≠ replaced) (hv : Valid db) :
    ∃ profiles resources, EvidenceConserved normalize survivor replaced db
      (db.mergeEvidence normalize survivor replaced) profiles resources := by
  obtain ⟨owned, howned⟩ : ∃ owned : Archive, owned = { db with
      participants := db.participants.map fun p =>
        if p.providerUserId = some replaced then { p with providerUserId := some survivor } else p } := ⟨_, rfl⟩
  have hvo : Valid owned := by
    rw [howned]
    exact ⟨hv.aliases, hv.acquisitions, hv.snapshotIds, hv.snapshots, hv.resourceIds, hv.resources, hv.edgeIds, hv.edges,
      hv.runEdges⟩
  obtain ⟨resources, hev⟩ := mergePlayerEvidence_merged normalize hne hvo
  have hsnaps : (owned.mergePlayerEvidence normalize survivor replaced).snapshots = owned.snapshots :=
    (congrArg Archive.snapshots hev.beside :)
  obtain ⟨profiles, hmoved, hfollow, hsettled⟩ := @mergeSnapshots_loop
    (owned.mergePlayerEvidence normalize survivor replaced) _ survivor replaced hne (hsnaps ▸ hvo.snapshotIds)
    (hsnaps ▸ hvo.snapshots) rfl
  have heq : db.mergeEvidence normalize survivor replaced =
      (((owned.mergePlayerEvidence normalize survivor replaced).snapshots.filter fun s =>
        s.providerUserId = replaced).foldl (Archive.mergeSnapshot survivor)
          (owned.mergePlayerEvidence normalize survivor replaced)).mergeSourceRecords .user survivor replaced := by
    rw [howned]
    rfl
  rw [heq]
  generalize owned.mergePlayerEvidence normalize survivor replaced = carried at hev hmoved hfollow hsettled hsnaps ⊢
  generalize (carried.snapshots.filter fun s => s.providerUserId = replaced).foldl (Archive.mergeSnapshot survivor)
    carried = final at hmoved hfollow hsettled ⊢
  have hb := hfollow.beside
  have hof : carried.ProfileOf survivor replaced = db.ProfileOf survivor replaced := by
    unfold Archive.ProfileOf
    rw [hsnaps, howned]
  rw [hof] at hfollow
  have hcarried : carried.besideEvidence = owned.besideEvidence := hev.beside
  rw [howned] at hev hcarried
  rw [hsnaps, howned] at hmoved
  have hrat : carried.ratingRecords = db.ratingRecords := (congrArg Archive.ratingRecords hcarried :)
  refine ⟨profiles, resources, ?_⟩
  exact {
    participants := by
      refine ((congrArg Archive.participants hb :).trans (congrArg Archive.participants hcarried :)).trans ?_
      refine List.map_congr_left fun p _ => ?_
      rw [GameParticipant.rename, ← rename_owner]
      split <;> rfl
    fetchLogs := (congrArg Archive.fetchLogs hb :).trans hev.fetchLogs
    aliases := (show final.aliases = carried.aliases from (congrArg Archive.aliases hb :)) ▸ hev.aliases
    acquisitions := (show final.acquisitions = carried.acquisitions from (congrArg Archive.acquisitions hb :)) ▸
      hev.acquisitions
    observations := by
      refine hfollow.observations.trans ?_
      rw [hev.observations, List.map_map]
      rfl
    resourceObservations := (congrArg Archive.resourceObservations hb :).trans hev.resourceObservations
    sources := by
      refine ((hev.sources.trans hfollow.sources).trans (mergeSourceRecords_image .user hne)).congr fun t e => ?_
      cases t <;> simp [redirected, renamed]
    spared := by
      refine SourceSpared.trans (hev.spared.mono ?_) (SourceSpared.trans (hfollow.spared.mono ?_)
        ((mergeSourceRecords_spared .user survivor replaced).mono ?_))
      · rintro t e ⟨rfl, he⟩
        exact he
      · rintro t e ⟨rfl, he⟩
        exact he
      · rintro t e ⟨rfl, he⟩
        exact he
    snapshots := hmoved
    snapshotsSettled := hsettled
    ratings := fun r hr => (hfollow.ratings r hr).trans (by rw [hrat])
    performances := fun n p => (hfollow.performances n p).trans (by rw [hrat])
    profiles := hfollow.fixed
    resourceSnapshots := (show final.resourceSnapshots = carried.resourceSnapshots from
      (congrArg Archive.resourceSnapshots hb :)) ▸ hev.resources
    resourcesSettled := (show final.resourceSnapshots = carried.resourceSnapshots from
      (congrArg Archive.resourceSnapshots hb :)) ▸ hev.settled
    points := (show final.ratingPoints = carried.ratingPoints from (congrArg Archive.ratingPoints hb :)) ▸ hev.points
    resources := hev.fixed
    edges := (congrArg Archive.edges hb :).trans (congrArg Archive.edges hcarried :)
    runEdges := (congrArg Archive.runEdges hb :).trans (congrArg Archive.runEdges hcarried :)
    runs := (congrArg Archive.runs hb :).trans (congrArg Archive.runs hcarried :)
    games := (congrArg Archive.games hb :).trans (congrArg Archive.games hcarried :)
    rawPayloads := (congrArg Archive.rawPayloads hb :).trans (congrArg Archive.rawPayloads hcarried :)
    jobCounters := (congrArg Archive.jobCounters hb :).trans (congrArg Archive.jobCounters hcarried :) }

/-! ### The edges and the runs -/

/-- The graph after the loop over the edges. -/
structure GraphConserved (survivor replaced : Nat) (db : Archive) (out : Archive × List Nat) : Prop where
  ids : (out.1.edges.map DiscoveryEdge.id).Nodup
  keys : (out.1.edges.map DiscoveryEdge.key).Nodup
  references : ∀ r ∈ out.1.runEdges, ∃ e ∈ out.1.edges, e.id = r.discoveryEdgeId
  unreferenced : ∀ e ∈ out.1.edges, e.fromUserId ≠ replaced ∧ e.toUserId ≠ replaced
  graph : ∀ run, out.1.runGraph run = renameKey survivor replaced '' db.runGraph run
  edges : ∀ a ∈ db.edges, ∃ b ∈ out.1.edges, a ∈ db.coinciding survivor replaced b
  depth : ∀ b ∈ out.1.edges, IsLeast (DiscoveryEdge.depth '' db.coinciding survivor replaced b) b.depth
  gameCount : ∀ b ∈ out.1.edges,
    b.gameCount ∈ upperBounds (DiscoveryEdge.gameCount '' db.coinciding survivor replaced b)
  firstSeenAt : ∀ b ∈ out.1.edges,
    IsLeast (DiscoveryEdge.firstSeenAt '' db.coinciding survivor replaced b) b.firstSeenAt
  others : ∀ e : DiscoveryEdge, ¬ e.Mentions survivor replaced → (e ∈ out.1.edges ↔ e ∈ db.edges)
  runEdges : ∀ run n, ¬ db.EdgeOf survivor replaced n →
    ((⟨run, n⟩ : RunEdge) ∈ out.1.runEdges ↔ (⟨run, n⟩ : RunEdge) ∈ db.runEdges)
  affected : ∀ run ∈ out.2, ∃ n, db.EdgeOf survivor replaced n ∧ (⟨run, n⟩ : RunEdge) ∈ db.runEdges
  beside : out.1.besideEdges = db.besideEdges

theorem mergeUserEdges_conserved (hne : survivor ≠ replaced) (hids : (db.edges.map DiscoveryEdge.id).Nodup)
    (hkeys : (db.edges.map DiscoveryEdge.key).Nodup)
    (hrefs : ∀ r ∈ db.runEdges, ∃ e ∈ db.edges, e.id = r.discoveryEdgeId) :
    GraphConserved survivor replaced db (db.mergeUserEdges survivor replaced) := by
  obtain ⟨ρ, hmoved, hfollow, hmarked, hsettled⟩ := mergeEdges_loop hne (fun _ => rfl) absorb_depth hids hkeys
  obtain ⟨_, hseen, _, _, _⟩ := mergeEdges_loop hne (fun _ => rfl) absorb_firstSeenAt hids hkeys
  generalize db.mergeUserEdges survivor replaced = out at hmoved hfollow hmarked hsettled hseen ⊢
  have hcover : ∀ b ∈ out.1.edges, ∀ a ∈ db.coinciding survivor replaced b, b.id = ρ a.id ∧ Stands b a :=
    fun b hb a ha => hmoved.covers hsettled ha.1 hb ha.2.symm
  have hunaffected : ∀ e ∈ out.1.edges, e.fromUserId ≠ replaced ∧ e.toUserId ≠ replaced := by
    intro e he
    rw [← not_or]
    exact fun h => hsettled e he ((edge_affected hne e).mpr h)
  refine ⟨hmoved.ids, hmoved.keys, fun r hr => ?_, hunaffected, fun run => ?_, fun a ha => ?_, fun b hb => ⟨?_, ?_⟩,
    fun b hb => ?_, fun b hb => ⟨?_, ?_⟩, fun e he => ?_, fun run n hn => ?_, hmarked, hfollow.beside⟩
  · obtain ⟨n₀, hn₀, hmem⟩ := (hfollow.runEdges r.crawlRunId r.discoveryEdgeId).mp hr
    obtain ⟨a, ha, hid⟩ := hrefs _ hmem
    obtain ⟨b, hb, hbid, _⟩ := hmoved.found hsettled ha
    exact ⟨b, hb, hbid.trans ((congrArg ρ hid).trans hn₀)⟩
  · ext k
    constructor
    · rintro ⟨b, hb, hmem, rfl⟩
      obtain ⟨n₀, hn₀, hmem₀⟩ := (hfollow.runEdges run b.id).mp hmem
      obtain ⟨a, ha, rfl⟩ := hrefs _ hmem₀
      obtain ⟨c, hc, hcid, hck, _⟩ := hmoved.found hsettled ha
      cases List.inj_on_of_nodup_map hmoved.ids hb hc (hn₀.symm.trans hcid.symm)
      exact ⟨a.key, ⟨a, ha, hmem₀, rfl⟩, hck.symm⟩
    · rintro ⟨_, ⟨a, ha, hmem, rfl⟩, rfl⟩
      obtain ⟨b, hb, hbid, hbk, _⟩ := hmoved.found hsettled ha
      exact ⟨b, hb, (hfollow.runEdges run b.id).mpr ⟨a.id, hbid.symm, hmem⟩, hbk⟩
  · obtain ⟨b, hb, _, hbk, _⟩ := hmoved.found hsettled ha
    exact ⟨b, hb, ha, hbk.symm⟩
  · obtain ⟨a, ha, _, hak, hval⟩ := hmoved.origin hsettled hb
    exact ⟨a, ⟨ha, hak.symm⟩, hval.symm⟩
  · rintro _ ⟨a, ha, rfl⟩
    exact (hcover b hb a ha).2.1
  · rintro _ ⟨a, ha, rfl⟩
    exact (hcover b hb a ha).2.2.1
  · obtain ⟨a, ha, _, hak, hval⟩ := hseen.origin hsettled hb
    exact ⟨a, ⟨ha, hak.symm⟩, hval.symm⟩
  · rintro _ ⟨a, ha, rfl⟩
    exact (hcover b hb a ha).2.2.2
  · refine hmoved.untouched (fun hA => he ?_) fun c hc heq => he ?_
    · rcases (edge_affected hne e).mp hA with h | h
      · exact .inl (.inr h)
      · exact .inr (.inr h)
    · -- the new key of an edge that moves names the survivor
      have hkey : renameKey survivor replaced c.key = e.key := heq
      simp only [renameKey, DiscoveryEdge.key, Prod.mk.injEq] at hkey
      rcases (edge_affected hne c).mp hc with h | h
      · rw [h, renamed_self] at hkey
        exact .inl (.inl hkey.2.1.symm)
      · rw [h, renamed_self] at hkey
        exact .inr (.inl hkey.2.2.symm)
  · rw [hfollow.runEdges run n]
    constructor
    · rintro ⟨n₀, hn₀, hmem⟩
      have hout : ¬ db.EdgeOf survivor replaced n₀ := fun h => hn (hn₀ ▸ hfollow.closed n₀ h)
      rw [hfollow.fixed n₀ hout] at hn₀
      exact hn₀ ▸ hmem
    · exact fun hmem => ⟨n, hfollow.fixed n hn, hmem⟩

theorem snapshots_untouched {ρ : Nat → Nat} {t t' : List UserSnapshot} (hne : survivor ≠ replaced)
    (h : Reassigned (snapshotMoving survivor replaced) CapturedNoEarlier UserSnapshot.facts t t' ρ) (s : UserSnapshot)
    (hs : s.providerUserId ≠ survivor) (hr : s.providerUserId ≠ replaced) : s ∈ t' ↔ s ∈ t := by
  refine h.untouched (fun hA => hr ((snapshot_affected hne s).mp hA)) fun c hc heq => hs ?_
  have howner : renamed survivor replaced c.providerUserId = s.providerUserId := congrArg Prod.fst heq
  rw [(snapshot_affected hne c).mp hc, renamed_self] at howner
  exact howner.symm

theorem resources_untouched {ρ : Nat → Nat} {t t' : List ResourceSnapshot} (hne : survivor ≠ replaced)
    (h : Reassigned (resourceMoving survivor replaced) (fun _ _ => True) (fun _ => ()) t t' ρ) (s : ResourceSnapshot)
    (hs : s.providerUserId ≠ survivor) (hr : s.providerUserId ≠ replaced) : s ∈ t' ↔ s ∈ t := by
  refine h.untouched (fun hA => hr ((resource_affected hne s).mp hA)) fun c hc heq => hs ?_
  have howner : renamed survivor replaced c.providerUserId = s.providerUserId := congrArg Prod.fst heq
  rw [(resource_affected hne c).mp hc, renamed_self] at howner
  exact howner.symm

/-- Nothing that is redirected still names the placeholder. -/
theorem sources_unreferenced (hne : survivor ≠ replaced) {profiles resources : Nat → Nat} {old new : List SourceRecord}
    (h : SourceImage (redirected survivor replaced profiles resources) old new) :
    ∀ s ∈ new, s.entityType = .user → s.entityId ≠ replaced := by
  intro s hs huser heq
  obtain ⟨e₀, he₀, _⟩ := (h s.entityType s.entityId s.rawPayloadId).mp (List.mem_map_of_mem hs)
  rw [huser, heq] at he₀
  exact renamed_ne hne e₀ he₀

theorem rename_unreferenced (hne : survivor ≠ replaced) (o : Option Nat) : o.map (renamed survivor replaced) ≠ some replaced := by
  cases o with
  | none => exact nofun
  | some u => exact fun h => renamed_ne hne u (Option.some.inj h)

/-- For every state of the tables that their keys allow and every two different accounts, merging one into the
other leaves no row that names it; every run's edges are the old ones renamed, coinciding edges with the least
depth and first sight and at least the largest count of games; everything that hung on it hangs on the survivor
and nothing is lost, an alias being carried under the normal form of its spelling; of two acquisition rows for a
resource the later attempt stays; and rows that mention neither account are the same, apart from the counters,
the time stamp and the revision of runs that had an edge of theirs. -/
theorem placeholder_merge_conserves (normalize : String → String) {db : Archive} (hv : Valid db) {survivor replaced : Nat}
    (hne : survivor ≠ replaced) (now : Int) :
    ∃ profiles resources,
      Conserved normalize survivor replaced db (db.mergeUserPlaceholder normalize survivor replaced now) profiles
        resources ∧
      OthersKept survivor replaced now db (db.mergeUserPlaceholder normalize survivor replaced now) profiles resources ∧
      Valid (db.mergeUserPlaceholder normalize survivor replaced now) := by
  obtain ⟨profiles, resources, hev⟩ := mergeEvidence_conserved normalize hne hv
  have husers := (mergeUserPlaceholder_users normalize db survivor replaced now).2
  rw [mergeUserPlaceholder_eq] at husers ⊢
  generalize db.mergeEvidence normalize survivor replaced = ev at hev husers ⊢
  have hg : GraphConserved survivor replaced ev (ev.mergeUserEdges survivor replaced) :=
    mergeUserEdges_conserved hne (hev.edges ▸ hv.edgeIds) (hev.edges ▸ hv.edges)
      (by rw [hev.edges, hev.runEdges]; exact hv.runEdges)
  generalize ev.mergeUserEdges survivor replaced = out at hg husers ⊢
  obtain ⟨hruns, hbeside⟩ := refreshCounters_loop now (out.2.dedup.mergeSort fun a b => decide (a ≤ b))
    (out.1.dropPlaceholder survivor replaced)
  have haffected : ∀ run ∈ out.2.dedup.mergeSort fun a b => decide (a ≤ b),
      ∃ n, db.EdgeOf survivor replaced n ∧ (⟨run, n⟩ : RunEdge) ∈ db.runEdges := by
    intro run hrun
    rw [List.mem_mergeSort, List.mem_dedup] at hrun
    obtain ⟨n, ⟨e, he, hid⟩, hmem⟩ := hg.affected run hrun
    exact ⟨n, ⟨e, hev.edges ▸ he, hid⟩, hev.runEdges ▸ hmem⟩
  generalize (out.2.dedup.mergeSort fun a b => decide (a ≤ b)) = affected at hruns hbeside husers haffected ⊢
  generalize affected.foldl (Archive.refreshCounters now) (out.1.dropPlaceholder survivor replaced) = db' at *
  obtain ⟨g, hsame, hother, husers⟩ := husers
  -- beside the users, the edges and the runs the tables are those of the evidence
  have hdb' : db' = { ev with
      users := db'.users, edges := out.1.edges, runEdges := out.1.runEdges, runs := db'.runs } :=
    calc db' = { db'.besideRuns with runs := db'.runs } := rfl
      _ = { (out.1.dropPlaceholder survivor replaced).besideRuns with runs := db'.runs } := by rw [hbeside]
      _ = { out.1.besideEdges with
            users := (out.1.dropPlaceholder survivor replaced).users
            edges := out.1.edges, runEdges := out.1.runEdges, runs := db'.runs } := rfl
      _ = { ev.besideEdges with
            users := (out.1.dropPlaceholder survivor replaced).users
            edges := out.1.edges, runEdges := out.1.runEdges, runs := db'.runs } := by rw [hg.beside]
      _ = _ := by rw [show db'.users = (out.1.dropPlaceholder survivor replaced).users from
            (congrArg Archive.users hbeside :)]; rfl
  have hrows : db'.runs = db.runs.map fun r => if r.id ∈ affected then db'.refreshed now r else r := by
    have hnow : db'.refreshed now = (out.1.dropPlaceholder survivor replaced).refreshed now :=
      (congrArg (fun x => Archive.refreshed now x) hbeside :)
    have hsame : (out.1.dropPlaceholder survivor replaced).runs = ev.runs := (congrArg Archive.runs hg.beside :)
    rw [hruns, hnow, hsame, hev.runs]
  generalize hU : db'.users = users at hdb' husers
  generalize hR : db'.runs = runs at hdb' hrows
  clear hU hR hbeside hruns
  subst hdb'
  have hcoincide : ev.coinciding survivor replaced = db.coinciding survivor replaced := by
    unfold Archive.coinciding
    rw [hev.edges]
  have hgraph : ev.runGraph = db.runGraph := by
    unfold Archive.runGraph
    rw [hev.edges, hev.runEdges]
  have hedgeOf : ev.EdgeOf survivor replaced = db.EdgeOf survivor replaced := by
    unfold Archive.EdgeOf
    rw [hev.edges]
  refine ⟨profiles, resources, ?_, ?_, ?_⟩
  · exact {
      unreferenced := {
        users := fun u hu => by
          rw [husers] at hu
          exact of_decide_eq_true (List.mem_filter.mp hu).2
        participants := fun p hp => by
          rw [hev.participants] at hp
          obtain ⟨q, _, rfl⟩ := List.mem_map.mp hp
          exact rename_unreferenced hne _
        fetchLogs := fun f hf => by
          rw [hev.fetchLogs] at hf
          obtain ⟨q, _, rfl⟩ := List.mem_map.mp hf
          exact rename_unreferenced hne _
        aliases := hev.aliases.none_left
        observations := fun o ho => by
          rw [hev.observations] at ho
          obtain ⟨q, _, rfl⟩ := List.mem_map.mp ho
          exact renamed_ne hne _
        snapshots := fun s hs heq => hev.snapshotsSettled s hs ((snapshot_affected hne s).mpr heq)
        acquisitions := hev.acquisitions.none_left
        resourceSnapshots := fun s hs heq => hev.resourcesSettled s hs ((resource_affected hne s).mpr heq)
        sourceRecords := sources_unreferenced hne hev.sources
        edges := hg.unreferenced }
      graph := hgraph ▸ hg.graph
      edges := hcoincide ▸ hev.edges ▸ hg.edges
      depth := hcoincide ▸ hg.depth
      gameCount := hcoincide ▸ hg.gameCount
      firstSeenAt := hcoincide ▸ hg.firstSeenAt
      sources := hev.sources
      observations := hev.observations
      resourceObservations := hev.resourceObservations
      snapshots := fun s hs => by
        obtain ⟨b, hb, hid, hkey, hrel⟩ := hev.snapshots.found hev.snapshotsSettled hs
        simp only [snapshotMoving, Prod.mk.injEq] at hkey
        exact ⟨b, hb, hid, hkey.1, hkey.2, hrel⟩
      ratings := hev.performances
      resourceSnapshots := fun s hs => by
        obtain ⟨b, hb, hid, hkey, _⟩ := hev.resourceSnapshots.found hev.resourcesSettled hs
        simp only [resourceMoving, Prod.mk.injEq] at hkey
        exact ⟨b, hb, hid, hkey⟩
      aliases := hev.aliases
      participants := hev.participants
      fetchLogs := hev.fetchLogs
      acquisitions := hev.acquisitions }
  · exact {
      users := fun u hs hr => by
        rw [husers, List.mem_filter, List.mem_map]
        constructor
        · rintro ⟨⟨v, hv, rfl⟩, _⟩
          rw [(hsame v).1] at hs
          rw [hother v hs]
          exact hv
        · exact fun hu => ⟨⟨u, hu, hother u hs⟩, decide_eq_true hr⟩
      snapshots := snapshots_untouched hne hev.snapshots
      profiles := hev.profiles
      ratings := hev.ratings
      resourceSnapshots := resources_untouched hne hev.resourceSnapshots
      resources := hev.resources
      points := hev.points
      sources := hev.spared
      edges := hev.edges ▸ hg.others
      runEdges := hev.runEdges ▸ hedgeOf ▸ hg.runEdges
      runs := ⟨affected, haffected, hrows⟩
      games := hev.games
      rawPayloads := hev.rawPayloads
      jobCounters := hev.jobCounters }
  · exact {
      aliases := hev.aliases.keys
      acquisitions := hev.acquisitions.keys
      snapshotIds := hev.snapshots.ids
      snapshots := hev.snapshots.keys
      resourceIds := hev.resourceSnapshots.ids
      resources := hev.resourceSnapshots.keys
      edgeIds := hg.ids
      edges := hg.keys
      runEdges := hg.references }

/-- Account 1 and the placeholder 2 have both played account 3 in run 7. -/
def crossed : Archive :=
  { emptyArchive with
    users := [⟨1, "lichess", some "x1", "bob", "bob", none, none, some 5, some 9⟩,
      ⟨2, "lichess", none, "annie", "annie", none, none, some 3, some 4⟩,
      ⟨3, "lichess", none, "cy", "cy", none, none, some 3, some 9⟩]
    userSeq := 3
    aliases := [⟨1, "bob", "bob", 5, 9, none⟩, ⟨2, "annie", "annie", 3, 4, none⟩]
    acquisitions := [⟨1, "lichess", "bob", "public", "user", "", "h", "k1", 5, 200, some 1⟩,
      ⟨2, "lichess", "annie", "public", "user", "", "h", "k2", 8, 404, none⟩]
    edges := [⟨10, some 7, "lichess", 1, 3, none, 1, 2, "opponent", 5⟩, ⟨11, some 7, "lichess", 2, 3, none, 4, 1, "opponent", 3⟩]
    runEdges := [⟨7, 10⟩, ⟨7, 11⟩]
    runs := [⟨7, "running", none, 50, none, 1⟩] }

theorem crossed_valid : Valid crossed := by
  refine ⟨?_, ?_, ?_, ?_, ?_, ?_, ?_, ?_, ?_⟩ <;> decide

theorem placeholder_merge_conserves_crossed :
    (crossed.mergeUserPlaceholder (fun s => s) 1 2 100).Unreferenced 2 ∧
      (crossed.mergeUserPlaceholder (fun s => s) 1 2 100).runGraph 7 = { ("lichess", 1, 3) } := by
  obtain ⟨_, _, hc, _⟩ := placeholder_merge_conserves (fun s => s) crossed_valid (show 1 ≠ 2 by decide) 100
  refine ⟨hc.unreferenced, (hc.graph 7).trans ?_⟩
  ext k
  simp [Archive.runGraph, crossed, emptyArchive, DiscoveryEdge.key, renameKey, renamed, eq_comm]

/-- A run that mentions neither account does not only get new counters. -/
theorem crossed_run_stamped :
    Valid crossed ∧ (∀ a ∈ crossed.aliases, a.usernameNormalized = a.displayUsername) ∧
      ∃ r ∈ crossed.runs, ∀ r' ∈ (crossed.mergeUserPlaceholder (fun s => s) 1 2 100).runs,
        { r' with counters := r.counters } ≠ r ∧ r'.updatedAt ≠ r.updatedAt ∧ r'.revision ≠ r.revision := by
  refine ⟨crossed_valid, ?_, ?_⟩ <;> decide +kernel

end ChessCrawl.Identity
