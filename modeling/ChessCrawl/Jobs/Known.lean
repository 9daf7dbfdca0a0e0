import ChessCrawl.Jobs.Steps
import Mathlib.Order.MinMax

/-! The depth at which a run knows a user, as the bounds that it satisfies. -/
namespace ChessCrawl.Jobs
open ChessCrawl.Lib
set_option autoImplicit false

/-- A job of the user, or an expansion of one, stands within the depth. -/
def Db.KnownWithin (T : Text) (db : Db) (runId : Nat) (provider username : String) (n : Nat) : Prop :=
  ∃ j ∈ db.jobs, j.crawls T runId provider username = true ∧
    (j.depth ≤ n ∨ ∃ c ∈ db.jobs, j.expands c = true ∧ c.depth ≤ n)

theorem foldr_min_le {xs : List Nat} {d n : Nat} : xs.foldr min d ≤ n ↔ d ≤ n ∨ ∃ x ∈ xs, x ≤ n := by
  induction xs with
  | nil => simp
  | cons x xs ih =>
    rw [List.foldr_cons, min_le_iff, ih]
    simp only [List.mem_cons, exists_eq_or_imp]
    tauto

section Known
variable {T : Text} {db db' : Db} {runId n : Nat} {provider username : String}

theorem effectiveDepth_le {j : Job} :
    db.effectiveDepth j ≤ n ↔ j.depth ≤ n ∨ ∃ c ∈ db.jobs, j.expands c = true ∧ c.depth ≤ n := by
  unfold Db.effectiveDepth
  rw [foldr_min_le]
  simp [and_assoc]

theorem knownCrawlDepth_none :
    db.knownCrawlDepth T runId provider username = none ↔
      ∀ j ∈ db.jobs, j.crawls T runId provider username = false := by
  unfold Db.knownCrawlDepth
  rw [List.min?_eq_none_iff, List.map_eq_nil_iff, List.filter_eq_nil_iff]
  simp

theorem knownWithin_iff : db.KnownWithin T runId provider username n ↔
    ∃ k, db.knownCrawlDepth T runId provider username = some k ∧ k ≤ n := by
  unfold Db.KnownWithin Db.knownCrawlDepth
  constructor
  · rintro ⟨j, hj, hcrawls, hdepth⟩
    have hmem : db.effectiveDepth j ∈ (db.jobs.filter (Job.crawls T runId provider username)).map db.effectiveDepth :=
      List.mem_map_of_mem (List.mem_filter.mpr ⟨hj, hcrawls⟩)
    obtain ⟨k, hk⟩ := Option.isSome_iff_exists.mp (List.isSome_min?_of_mem hmem)
    refine ⟨k, hk, Nat.le_trans ?_ (effectiveDepth_le.mpr hdepth)⟩
    exact (List.min?_eq_some_iff.mp hk).2 _ hmem
  · rintro ⟨k, hk, hkn⟩
    obtain ⟨j, hj, rfl⟩ := List.mem_map.mp (List.min?_mem hk)
    obtain ⟨hjob, hcrawls⟩ := List.mem_filter.mp hj
    exact ⟨j, hjob, hcrawls, effectiveDepth_le.mp hkn⟩

theorem KnownWithin.of_known {k : Nat} (h : db.knownCrawlDepth T runId provider username = some k) :
    db.KnownWithin T runId provider username k := knownWithin_iff.mpr ⟨k, h, Nat.le_refl _⟩

theorem Db.KnownWithin.mono {m : Nat} (h : db.KnownWithin T runId provider username n) (hle : n ≤ m) :
    db.KnownWithin T runId provider username m := by
  obtain ⟨k, hk, hkn⟩ := knownWithin_iff.mp h
  exact knownWithin_iff.mpr ⟨k, hk, Nat.le_trans hkn hle⟩

theorem Job.Same.crawls {j j' : Job} (h : j.Same j') :
    j'.crawls T runId provider username = j.crawls T runId provider username := by
  simp [Job.crawls, h.crawlRunId, h.provider, h.kind, h.target]

theorem Job.Same.expands {j j' c c' : Job} (h : j.Same j') (hc : c.Same c') : j'.expands c' = j.expands c := by
  simp [Job.expands, h.id, hc.parentJobId, hc.kind]

/-- Depths only fall. -/
theorem Writes.knownWithin {maxRetries : Nat} {P : Db → Enqueue → Prop} (h : Writes T maxRetries P db db')
    (hk : db.KnownWithin T runId provider username n) : db'.KnownWithin T runId provider username n := by
  obtain ⟨j, hj, hcrawls, hdepth⟩ := hk
  obtain ⟨j', hj', hsame, hle, _⟩ := h.row hj
  refine ⟨j', hj', by rw [hsame.crawls]; exact hcrawls, ?_⟩
  rcases hdepth with hdepth | ⟨c, hc, hexp, hdepth⟩
  · exact .inl (Nat.le_trans hle hdepth)
  · obtain ⟨c', hc', hsame', hle', _⟩ := h.row hc
    exact .inr ⟨c', hc', by rw [hsame.expands hsame']; exact hexp, Nat.le_trans hle' hdepth⟩

theorem expansionDepth_le (parent : Job) (depth : Nat) : db.expansionDepth T parent depth ≤ depth := by
  unfold Db.expansionDepth
  split
  · exact Nat.min_le_left _ _
  · exact Nat.le_refl _

end Known

/-! ## Promotion -/

/-- The key of an expansion of the run. -/
def expansionKey (runId : Nat) (provider : Option String) (parentId depth : Nat) : DedupKey :=
  ⟨provider, .expandOpponents, .ref parentId, [("discovery_depth", .int depth)], some runId⟩

/-- A request under the key of an expansion asks for that expansion. -/
def Enqueue.Keyed (T : Text) (runId : Nat) (e : Enqueue) : Prop :=
  ∀ provider parentId depth, e.key T = expansionKey runId provider parentId depth →
    e.kind = .expandOpponents ∧ e.parentJobId = some parentId ∧ e.depth ≤ depth

/-- A row under the key of an expansion is that expansion. -/
def Db.Keyed (runId : Nat) (db : Db) : Prop :=
  ∀ j ∈ db.jobs, ∀ provider parentId depth, j.dedupKey = expansionKey runId provider parentId depth →
    j.kind = .expandOpponents ∧ j.parentJobId = some parentId ∧ j.depth ≤ depth

section Promotion
variable {T : Text} {maxRetries runId : Nat} {P : Db → Enqueue → Prop} {db db' : Db}

theorem expansionRequest_key (parent : Job) (depth : Nat) (now : Int) (hrun : parent.crawlRunId = some runId) :
    (expansionRequest parent depth now).key T = expansionKey runId parent.provider parent.id depth := by
  simp [expansionRequest, Enqueue.key, makeDedupKey, normalizeTarget, Target.map, expansionKey, hrun]

theorem expansionRequest_keyed (parent : Job) (depth : Nat) (now : Int) :
    (expansionRequest parent depth now).Keyed T runId := by
  intro provider parentId depth' hkey
  simp only [expansionRequest, Enqueue.key, makeDedupKey, normalizeTarget, Target.map, expansionKey,
    Option.getD_none, DedupKey.mk.injEq, Target.ref.injEq, List.cons.injEq, Prod.mk.injEq, Value.int.injEq] at hkey
  obtain ⟨_, _, hid, ⟨⟨_, hdepth⟩, _⟩, _⟩ := hkey
  refine ⟨rfl, by simp [expansionRequest, hid], ?_⟩
  have : depth = depth' := by exact_mod_cast hdepth
  exact Nat.le_of_eq this

/-- Only expansions have such keys. -/
theorem keyed_of_kind {e : Enqueue} (h : (e.key T).kind ≠ .expandOpponents) : e.Keyed T runId := by
  intro provider parentId depth hkey
  rw [hkey] at h
  exact (h rfl).elim

theorem Writes.keyed (hP : ∀ db e, P db e → e.Keyed T runId) (h : Writes T maxRetries P db db')
    (hdb : db.Keyed runId) : db'.Keyed runId := by
  refine h.keeps (I := Db.Keyed runId) ?_ ?_ ?_ hdb
  · intro db db' h ht
    unfold Db.Keyed
    rw [ht.jobs]
    exact h
  · intro db sel set h hset j hj provider parentId depth hkey
    obtain ⟨j₀, hj₀, rfl⟩ := List.mem_map.mp hj
    have hsame := Rewritten.same hset hj₀
    have hle : (if sel j₀ then set j₀ else j₀).depth ≤ j₀.depth := by
      rcases Rewritten.row hset hj₀ with hrow | hrow
      · rw [hrow]
      · exact hrow.depth_le
    obtain ⟨hkind, hparent, hdepth⟩ := h j₀ hj₀ provider parentId depth (hsame.dedupKey ▸ hkey)
    exact ⟨hsame.kind.trans hkind, hsame.parentJobId.trans hparent, Nat.le_trans hle hdepth⟩
  · intro db e owner h hPe _ _ j hj
    rcases List.mem_append.mp hj with hj | hj
    · exact h j hj
    · rw [List.mem_singleton.mp hj]
      exact hP db e hPe

/-- After its request the expansion is there, within the depth. -/
theorem enqueueExpansionAt_expands {parent : Job} {depth : Nat} {now : Int} {r : EnqueueResult}
    (hkeyed : db.Keyed runId) (hrun : parent.crawlRunId = some runId)
    (h : db.enqueueExpansionAt T parent depth now = .ok (r, db')) :
    ∃ c ∈ db'.jobs, parent.expands c = true ∧ c.depth ≤ depth := by
  unfold Db.enqueueExpansionAt at h
  split at h
  · cases h
  replace h : db.enqueueJob T (expansionRequest parent depth now) = .ok (r, db') := h
  rcases enqueueJob_cases h with ⟨rfl, c, hc, hkey, _⟩ | ⟨_, owner, _, rfl⟩
  · rw [expansionRequest_key parent depth now hrun] at hkey
    obtain ⟨hkind, hparent, hdepth⟩ := hkeyed c hc _ _ _ hkey
    exact ⟨c, hc, by simp [Job.expands, hkind, hparent], hdepth⟩
  · refine ⟨_, List.mem_append_right _ (List.mem_singleton.mpr rfl), ?_, Nat.le_refl _⟩
    simp [Job.expands, Enqueue.row, expansionRequest]

theorem Job.crawls_iff {j : Job} {provider username : String} : j.crawls T runId provider username = true ↔
    j.crawlRunId = some runId ∧ j.provider = some provider ∧ j.kind = .crawlOpponents ∧
      j.target.map T.sqlLower = .name (T.sqlLower username) := by
  simp [Job.crawls, and_assoc]

section Users
variable {provider username : String} {depth : Nat} {r : Race} {now : Int}

/-- Transactions that ask for expansions under their own keys only. -/
abbrev KeyedWrites (T : Text) (runId : Nat) : Db → Db → Prop := Writes T 0 fun _ e => e.Keyed T runId

/-- A promotion reaches every job of the user: by an update, or by an expansion where another worker owns the
row. -/
theorem promoteCrawlDepth_known (hkeyed : db.Keyed runId) (hsound : r.sound = true) {j : Job} (hj : j ∈ db.jobs)
    (hcrawls : j.crawls T runId provider username = true)
    (h : db.promoteCrawlDepth T runId provider username depth r now = .ok db') :
    db'.KnownWithin T runId provider username depth := by
  unfold Db.promoteCrawlDepth at h
  dsimp only at h
  have hfirst : KeyedWrites T runId db (db.updateJobs
      (fun j => j.crawls T runId provider username && j.promotable r depth) fun j => j.merged depth) :=
    .update _ _ .refl fun j _ _ => .merged depth
  have hfold : ∀ (parent : Job) (db₁ db₂ : Db),
      (db₁.enqueueOpponentExpansion T parent depth now).map Prod.snd = .ok db₂ → KeyedWrites T runId db₁ db₂ := by
    intro parent db₁ db₂ h₁
    obtain ⟨_, h₂⟩ := map_snd_ok h₁
    exact enqueueExpansionAt_writes (fun _ _ => expansionRequest_keyed parent _ now) h₂
  by_cases hown : j.state = .inProgress ∨ j.id ∈ r.raced
  · -- the row is another worker's, and its expansion carries the depth
    have hexp : j.expandable r = true := by
      simp only [Job.expandable, Bool.or_eq_true, Bool.and_eq_true, decide_eq_true_eq, ne_eq]
      rcases hown with hs | hraced
      · exact .inl ⟨by rw [hs]; simp, by rw [hs]; simp⟩
      · exact .inr (by simpa using List.all_eq_true.mp hsound j.id hraced)
    have hmem : j ∈ (db.jobs.filter (Job.crawls T runId provider username)).filter (Job.expandable r) :=
      List.mem_filter.mpr ⟨List.mem_filter.mpr ⟨hj, hcrawls⟩, hexp⟩
    obtain ⟨db₁, db₂, hw₁, h₁, hw₂⟩ := foldlM_reaches (fun parent _ db₁ db₂ _ => hfold parent db₁ db₂) h hmem
    obtain ⟨_, h₂⟩ := map_snd_ok h₁
    have hw := hfirst.trans hw₁
    obtain ⟨c, hc, hexpands, hdepth⟩ := enqueueExpansionAt_expands (hw.keyed (fun _ _ hP => hP) hkeyed)
      (Job.crawls_iff.mp hcrawls).1 h₂
    have hstep : KeyedWrites T runId db₁ db₂ :=
      enqueueExpansionAt_writes (fun _ _ => expansionRequest_keyed j _ now) h₂
    obtain ⟨j', hj', hsame, _⟩ := (hw.trans hstep).row hj
    refine hw₂.knownWithin ⟨j', hj', by rw [hsame.crawls]; exact hcrawls, .inr ⟨c, hc, ?_, ?_⟩⟩
    · rw [hsame.expands (.refl c)]
      exact hexpands
    · exact Nat.le_trans hdepth (expansionDepth_le j depth)
  · rw [not_or] at hown
    refine (foldlM_writes (fun parent _ db₁ db₂ _ => hfold parent db₁ db₂) h).knownWithin ⟨_, List.mem_map_of_mem hj, ?_, .inl ?_⟩
    · split
      · exact hcrawls
      · exact hcrawls
    · by_cases hdeep : depth < j.depth
      · have hprom : j.promotable r depth = true := by simp [Job.promotable, hown.1, hown.2, hdeep]
        simp [hcrawls, hprom, Job.merged]
      · split
        · exact Nat.min_le_right _ _
        · exact Nat.le_of_not_lt hdeep

theorem expands_keyed {parent : Job} {params : Params} {b : CrawlBounds} {nextDepth : Nat} :
    Expands T maxRetries (fun _ e => e.Keyed T runId) db parent runId provider params b nextDepth now username :=
  ⟨fun _ _ _ _ _ => keyed_of_kind (by simp [opponentRequest, Enqueue.key, makeDedupKey]),
    fun _ _ p _ _ _ _ => expansionRequest_keyed p _ now⟩

/-- An edge to a known user leaves it known within the next depth, whatever the caps. -/
theorem discover_known {parent : Job} {params : Params} {b : CrawlBounds} {nextDepth : Nat} (hkeyed : db.Keyed runId)
    (hsound : r.sound = true) {j : Job} (hj : j ∈ db.jobs) (hcrawls : j.crawls T runId provider username = true)
    (h : db.discover T parent runId provider params b nextDepth r now username = .ok db') :
    db'.KnownWithin T runId provider username nextDepth := by
  unfold Db.discover at h
  split at h
  · next known hknown =>
    split at h
    · next hle =>
      cases h
      exact knownWithin_iff.mpr ⟨known, hknown, hle⟩
    · exact promoteCrawlDepth_known hkeyed hsound hj hcrawls h
  · next hnone =>
    rw [knownCrawlDepth_none.mp hnone j hj] at hcrawls
    cases hcrawls

/-- Below the horizon an expansion is the fold over its frontier. -/
theorem expandOpponentFrontier_fold {parent : Job} {b : CrawlBounds} {edges : List String}
    (hrun : parent.crawlRunId = some runId) (hprovider : parent.provider = some provider)
    (hb : parent.childParams.bounds = .ok b) (hdepth : depth + 1 ≤ b.maxDepth)
    (h : db.expandOpponentFrontier T parent depth edges r now = .ok db') :
    (edges.filter fun u => !db.knownAtOrBefore T runId provider u depth).foldlM (fun db u =>
      db.discover T parent runId provider parent.childParams b (depth + 1) r now u) db = .ok db' := by
  unfold Db.expandOpponentFrontier at h
  rw [hrun, hprovider] at h
  dsimp only at h
  obtain ⟨b', hb', h⟩ := bind_ok h
  cases Except.ok.inj (hb.symm.trans hb')
  rw [if_neg (Nat.not_lt.mpr hdepth)] at h
  unfold Db.enqueueOpponentChildren at h
  obtain ⟨b', hb'', h⟩ := bind_ok h
  cases Except.ok.inj (hb'.symm.trans hb'')
  rw [if_neg (Nat.not_lt.mpr hdepth)] at h
  exact h

/-- Every known user among the edges of an expansion is known within the next depth after it. -/
theorem expandOpponentFrontier_known {parent : Job} {b : CrawlBounds} {edges : List String} (hkeyed : db.Keyed runId)
    (hsound : r.sound = true) (hrun : parent.crawlRunId = some runId) (hprovider : parent.provider = some provider)
    (hb : parent.childParams.bounds = .ok b) (hdepth : depth + 1 ≤ b.maxDepth) (hu : username ∈ edges) {k : Nat}
    (hk : db.knownCrawlDepth T runId provider username = some k)
    (h : db.expandOpponentFrontier T parent depth edges r now = .ok db') :
    db'.KnownWithin T runId provider username (depth + 1) := by
  have hwrites : KeyedWrites T runId db db' :=
    expandOpponentFrontier_writes (fun runId' provider' b' hrun' hprovider' _ _ username _ => by
      cases Option.some.inj (hrun.symm.trans hrun')
      exact expands_keyed) h
  have hfold := expandOpponentFrontier_fold hrun hprovider hb hdepth h
  by_cases hkn : k ≤ depth
  · exact hwrites.knownWithin (knownWithin_iff.mpr ⟨k, hk, by omega⟩)
  have hmem : username ∈ edges.filter fun u => !db.knownAtOrBefore T runId provider u depth :=
    List.mem_filter.mpr ⟨hu, by simp [Db.knownAtOrBefore, hk, hkn]⟩
  have hreaches : ∃ db₁ db₂, KeyedWrites T runId db db₁ ∧
      db₁.discover T parent runId provider parent.childParams b (depth + 1) r now username = .ok db₂ ∧
      KeyedWrites T runId db₂ db' :=
    foldlM_reaches (fun u _ db₁ db₂ hw₁ h₁ => discover_writes expands_keyed hw₁ h₁) hfold hmem
  obtain ⟨db₁, db₂, hw₁, h₁, hw₂⟩ := hreaches
  obtain ⟨j, hj, hcrawls, _⟩ := KnownWithin.of_known hk
  obtain ⟨j', hj', hsame, _⟩ := hw₁.row hj
  exact hw₂.knownWithin (discover_known (hw₁.keyed (fun _ _ hP => hP) hkeyed) hsound hj'
    (by rw [hsame.crawls]; exact hcrawls) h₁)

end Users
end Promotion

/-! ## What discovery leaves alone -/

/-- New rows are pending, no state changes, nobody's job is written, and policies and runs are not touched. -/
structure Db.Grown (db db' : Db) : Prop where
  policies : db'.policies = db.policies
  runs : db'.runs = db.runs
  rows : ∀ j' ∈ db'.jobs, j'.state = .pending ∨ ∃ j ∈ db.jobs, j.Same j' ∧ j'.state = j.state
  busy : ∀ j ∈ db.jobs, j.state = .inProgress → j ∈ db'.jobs

theorem Db.Grown.refl (db : Db) : db.Grown db := ⟨rfl, rfl, fun j hj => .inr ⟨j, hj, .refl j, rfl⟩, fun _ hj _ => hj⟩

theorem Db.Grown.trans {db db' db'' : Db} (h : db.Grown db') (h' : db'.Grown db'') : db.Grown db'' := by
  refine ⟨h'.policies.trans h.policies, h'.runs.trans h.runs, fun j'' hj'' => ?_,
    fun j hj hs => h'.busy j (h.busy j hj hs) hs⟩
  rcases h'.rows j'' hj'' with hpending | ⟨j', hj', hsame', hstate'⟩
  · exact .inl hpending
  · rcases h.rows j' hj' with hpending | ⟨j, hj, hsame, hstate⟩
    · exact .inl (hstate'.trans hpending)
    · exact .inr ⟨j, hj, hsame.trans hsame', hstate'.trans hstate⟩

section Grown
variable {T : Text} {db db' : Db}

theorem enqueueJob_grown {e : Enqueue} {res : EnqueueResult} (h : db.enqueueJob T e = .ok (res, db')) :
    db.Grown db' := by
  rcases enqueueJob_cases h with ⟨rfl, _⟩ | ⟨_, owner, _, rfl⟩
  · exact .refl _
  · refine ⟨rfl, rfl, fun j hj => ?_, fun j hj _ => List.mem_append_left _ hj⟩
    rcases List.mem_append.mp hj with hj | hj
    · exact .inr ⟨j, hj, .refl j, rfl⟩
    · rw [List.mem_singleton.mp hj]
      exact .inl rfl

theorem enqueueExpansionAt_grown {parent : Job} {depth : Nat} {now : Int} {res : EnqueueResult}
    (h : db.enqueueExpansionAt T parent depth now = .ok (res, db')) : db.Grown db' := by
  unfold Db.enqueueExpansionAt at h
  split at h
  · cases h
  · exact enqueueJob_grown h

theorem promoteCrawlDepth_grown {runId depth : Nat} {provider username : String} {r : Race} {now : Int}
    (h : db.promoteCrawlDepth T runId provider username depth r now = .ok db') : db.Grown db' := by
  unfold Db.promoteCrawlDepth at h
  dsimp only at h
  have hfirst : db.Grown (db.updateJobs (fun j => j.crawls T runId provider username && j.promotable r depth)
      fun j => j.merged depth) := by
    constructor
    · rfl
    · rfl
    · intro j' hj'
      obtain ⟨j, hj, rfl⟩ := List.mem_map.mp hj'
      refine .inr ⟨j, hj, ?_, ?_⟩
      · have hrow : j.Rewritten 0 (j.merged depth) := .merged depth
        split
        · exact hrow.same
        · exact .refl j
      · split <;> rfl
    · intro j hj hs
      refine List.mem_map.mpr ⟨j, hj, ?_⟩
      simp [Job.promotable, hs]
  refine foldlM_keeps (I := db.Grown) (fun parent _ db₁ db₂ hI h₁ => ?_) h hfirst
  obtain ⟨_, h₂⟩ := map_snd_ok h₁
  exact hI.trans (enqueueExpansionAt_grown h₂)

theorem discover_grown {parent : Job} {runId nextDepth : Nat} {provider username : String} {params : Params}
    {b : CrawlBounds} {r : Race} {now : Int}
    (h : db.discover T parent runId provider params b nextDepth r now username = .ok db') : db.Grown db' := by
  unfold Db.discover at h
  split at h
  · split at h
    · cases h
      exact .refl _
    · exact promoteCrawlDepth_grown h
  · split at h
    · cases h
      exact .refl _
    split at h
    · cases h
      exact .refl _
    · obtain ⟨_, h₁⟩ := map_snd_ok h
      exact enqueueJob_grown h₁

theorem expandOpponentFrontier_grown {parent : Job} {depth : Nat} {edges : List String} {r : Race} {now : Int}
    (h : db.expandOpponentFrontier T parent depth edges r now = .ok db') : db.Grown db' := by
  unfold Db.expandOpponentFrontier at h
  split at h
  · obtain ⟨b, _, h⟩ := bind_ok h
    split at h
    · cases h
      exact .refl _
    unfold Db.enqueueOpponentChildren at h
    obtain ⟨b', _, h⟩ := bind_ok h
    split at h
    · cases h
      exact .refl _
    · exact foldlM_keeps (I := db.Grown) (fun _ _ db₁ db₂ hI h₁ => hI.trans (discover_grown h₁)) h (.refl db)
  · cases h

end Grown
end ChessCrawl.Jobs
