import ChessCrawl.Jobs.Turns

/-! Opponent depth is distance. No job of a crawl comes to a stage twice and its jobs are bounded, so every run
ends; and where no job is live the depths are closed under games. -/
namespace ChessCrawl.Jobs
open ChessCrawl.Lib
set_option autoImplicit false

/-! ## The start -/

section Parents
variable {T : Text} {w : WorkerSettings}

/-- Parents are rows that were there before. -/
theorem reach_parents {ok : World → Event → Prop} {s : World} (h : Reach (workers T w) ok s) :
    ∀ c ∈ s.db.jobs, ∀ p, c.parentJobId = some p → p ≤ s.db.jobSeq := by
  refine Reach.invariant (I := fun s => ∀ c ∈ s.db.jobs, ∀ p, c.parentJobId = some p → p ≤ s.db.jobSeq)
    (fun s hs => by rw [hs.1]; simp) (fun s ev t hr hI _ hstep => ?_) h
  have hsound := reach_sound hr
  refine ((step_writes hsound hstep).keeps (I := fun db => db.Ids ∧ ∀ c ∈ db.jobs, ∀ p, c.parentJobId = some p →
    p ≤ db.jobSeq) ?_ ?_ ?_ ⟨hsound.ids, hI⟩).2
  · rintro db db' ⟨hids, hI⟩ ht
    refine ⟨⟨by rw [ht.jobs]; exact hids.nodup, by rw [ht.jobs, ht.jobSeq]; exact hids.issued⟩, ?_⟩
    rw [ht.jobs, ht.jobSeq]
    exact hI
  · rintro db sel set ⟨hids, hI⟩ hset
    have hw : Writes T w.jobMaxRetries (fun _ _ => True) db (db.updateJobs sel set) := .update sel set .refl hset
    refine ⟨hw.ids hids, fun c hc p hcp => ?_⟩
    obtain ⟨c₀, hc₀, rfl⟩ := List.mem_map.mp hc
    rw [(Rewritten.same hset hc₀).parentJobId] at hcp
    exact hI c₀ hc₀ p hcp
  · rintro db e owner ⟨hids, hI⟩ _ _ haccepts
    refine ⟨hids.insert e owner, fun c hc p hcp => ?_⟩
    rcases List.mem_append.mp hc with hc | hc
    · exact Nat.le_succ_of_le (hI c hc p hcp)
    · rw [List.mem_singleton.mp hc] at hcp
      obtain ⟨q, hq, rfl⟩ := haccepts.parent p hcp
      exact Nat.le_succ_of_le (hids.issued q hq)

end Parents

/-- The crawl of a new run. -/
def crawlSetting (T : Text) (w : WorkerSettings) (games : Games) (runId : Nat) (provider username : String)
    (since stop : Int) (b : CrawlBounds) : Setting :=
  ⟨T, w, games, T.lower (T.strip username), provider, runId, crawlParams (T.lower (T.strip username)) since stop b, b⟩

namespace Setting

section Start
variable {T : Text} {w : WorkerSettings} {games : Games} {provider username workspaceId : String} {since stop now : Int}
  {b : CrawlBounds} {s t : World}

/-- The root is the only row of a new run. -/
theorem created_jobs (hr : Reach (workers T w) (fun _ ev => ev.Discovers T (s.db.runSeq + 1)) s)
    (h : s.step T w (.createOpponentCrawl provider username since stop b workspaceId now) = some t) :
    ∃ owner, t.db.jobSeq = s.db.jobSeq + 1 ∧ t.db.jobs = s.db.jobs ++
      [(rootRequest T provider username since stop b (s.db.runSeq + 1) workspaceId now).row T (s.db.jobSeq + 1) owner] := by
  have habsent := reach_absent hr (Nat.lt_succ_self _)
  obtain ⟨⟨_, db⟩, hr₁, rfl⟩ := Option.map_eq_some_iff.mp h
  obtain ⟨_, _, _, _, hjob⟩ := createOpponentCrawl_ok (toOption_some hr₁)
  rcases enqueueJob_cases hjob with ⟨_, j, hj, hkey, _⟩ | ⟨_, owner, _, rfl⟩
  · exact ((habsent j hj).2 (by rw [hkey]; rfl)).elim
  · exact ⟨owner, rfl, rfl⟩

theorem created_table (hr : Reach (workers T w) (fun _ ev => ev.Discovers T (s.db.runSeq + 1)) s)
    (h : s.step T w (.createOpponentCrawl provider username since stop b workspaceId now) = some t)
    (hR : (crawlSetting T w games (s.db.runSeq + 1) provider username since stop b).Roomy) :
    (crawlSetting T w games (s.db.runSeq + 1) provider username since stop b).TableOk t.db ∧
    ∀ j ∈ t.db.jobs, j.crawlRunId = some (s.db.runSeq + 1) → j.state = .pending ∧ j.kind = .crawlOpponents := by
  obtain ⟨owner, hseq, hjobs⟩ := created_jobs hr h
  have habsent := reach_absent hr (Nat.lt_succ_self _)
  have hparents := reach_parents hr
  generalize hroot : (rootRequest T provider username since stop b (s.db.runSeq + 1) workspaceId now).row T
    (s.db.jobSeq + 1) owner = root at hjobs
  have hseed : (crawlSetting T w games (s.db.runSeq + 1) provider username since stop b).Player
      (T.lower (T.strip username)) := .inl rfl
  have hstrip : T.strip (T.lower (T.strip username)) = T.lower (T.strip username) := hR.strip _ hseed
  have hlower : T.lower (T.lower (T.strip username)) = T.lower (T.strip username) := hR.lower _ hseed
  have hmem : ∀ j ∈ t.db.jobs, j ∈ s.db.jobs ∨ j = root := by
    intro j hj
    rw [hjobs] at hj
    rcases List.mem_append.mp hj with hj | hj
    · exact .inl hj
    · exact .inr (List.mem_singleton.mp hj)
  have hrow : root ∈ t.db.jobs := by
    rw [hjobs]
    exact List.mem_append_right _ (List.mem_singleton.mpr rfl)
  have hrun : ∀ j ∈ t.db.jobs, j.crawlRunId = some (s.db.runSeq + 1) → j = root := by
    intro j hj hrun
    rcases hmem j hj with hold | heq
    · exact ((habsent j hold).1 hrun).elim
    · exact heq
  have hid : root.id = s.db.jobSeq + 1 := by rw [← hroot]; rfl
  have horphan : ∀ c ∈ t.db.jobs, c.parentJobId ≠ some root.id := by
    intro c hc heq
    rcases hmem c hc with hold | rfl
    · have hle := hparents c hold _ heq
      omega
    · rw [← hroot] at heq
      cases heq
  have hacq : (crawlSetting T w games (s.db.runSeq + 1) provider username since stop b).Acquires root
      (T.lower (T.strip username)) := by
    rw [← hroot]
    refine ⟨rfl, rfl, ?_⟩
    simp [Enqueue.row, rootRequest, Target.map, hstrip]
  have hstate : root.state = .pending := by rw [← hroot]; rfl
  refine ⟨⟨(step_sound (reach_sound hr) h).ids, ?_, ?_, ?_, ?_, ?_, ?_, ?_, ?_, ?_⟩, ?_⟩
  · intro c hc p hcp
    rw [hseq]
    rcases hmem c hc with hold | rfl
    · exact Nat.le_succ_of_le (hparents c hold p hcp)
    · rw [← hroot] at hcp
      cases hcp
  · intro j hj hjrun
    rw [hrun j hj hjrun]
    exact .inl hacq.kind
  · intro j hj hjrun
    rw [hrun j hj hjrun]
    exact .inl hstate
  · intro j hj hkey
    rcases hmem j hj with hold | rfl
    · exact ((habsent j hold).2 hkey).elim
    · exact hacq.run
  · intro j hj hin
    rw [hrun j hj hin.1]
    refine ⟨_, hseed, hacq.target, ?_, ?_⟩
    · rw [← hroot]
      simp [Enqueue.row, Enqueue.key, rootRequest, makeDedupKey, normalizeTarget, Target.map, hstrip, hlower]
    · rw [← hroot]
      unfold Within
      show SimpleGraph.edist _ (T.lower (T.strip username)) (T.lower (T.strip username)) ≤ _
      simp
  · intro c hc hcrun hkind
    rw [hrun c hc hcrun, hacq.kind] at hkind
    cases hkind
  · intro p hp hprun c hc hcp
    rw [hrun p hp hprun] at hcp
    exact (horphan c hc hcp).elim
  · exact ⟨root, hrow, hacq, by rw [← hroot]; rfl⟩
  · intro p hp hin _ c hc hexp
    simp only [Job.expands, Bool.and_eq_true, decide_eq_true_eq] at hexp
    rw [hrun p hp hin.1] at hexp
    exact (horphan c hc hexp.1).elim
  · intro j hj hjrun
    rw [hrun j hj hjrun]
    exact ⟨hstate, hacq.kind⟩

/-- A crawl starts with its root on the way. -/
theorem created_ok (hr : Reach (workers T w) (fun _ ev => ev.Discovers T (s.db.runSeq + 1)) s)
    (h : s.step T w (.createOpponentCrawl provider username since stop b workspaceId now) = some t)
    (hR : (crawlSetting T w games (s.db.runSeq + 1) provider username since stop b).Roomy) :
    (crawlSetting T w games (s.db.runSeq + 1) provider username since stop b).CrawlOk ⟨t, fun _ => none, [], []⟩ := by
  obtain ⟨htable, hpending⟩ := created_table hr h hR
  refine ⟨create_capped hr h, htable, ?_, ?_, ?_, ?_, ?_, List.nodup_nil, List.nodup_nil, ?_⟩
  · intro j hj u hacq _ _ _ _
    refine .inl ?_
    rw [(hpending j hj hacq.run).1]
    rfl
  · intro _ _ hstage
    cases hstage
  · intro _ _ _ _ hm
    cases hm
  · intro u hu
    cases hu
  · intro j hj u hacq hdone
    cases hdone.symm.trans (hpending j hj hacq.run).1
  · intro _ _ hmem
    cases hmem

end Start

/-! ## The end -/

section Runs
variable {S : Setting} {c c' : Crawl}

/-- The tables of a crawl change by steps of the workers. -/
theorem step_world (hc : S.CrawlOk c) {ev : CrawlEvent} (h : c.step S.T S.w S.games S.runId ev = some c') :
    Writes S.T S.w.jobMaxRetries (fun _ e => (e.key S.T).kind ≠ .crawlOpponents → e.reuseTerminal = true)
      c.world.db c'.world.db ∧ c'.log.length = c.log.length + 1 := by
  have hwrites : ∀ (s t : World) (e : Event), s.Sound → (∀ e', e ≠ .enqueue e') → s.step S.T S.w e = some t →
      Writes S.T S.w.jobMaxRetries (fun _ e => (e.key S.T).kind ≠ .crawlOpponents → e.reuseTerminal = true) s.db t.db := by
    intro s t e hs hne hstep
    refine (step_writes hs hstep).mono fun db e' hasked hkind => ?_
    exact asked_reuses hasked (hne e') hkind
  have hlog : ∀ (s : World) (worker jobId : Nat) (stage : Stage),
      (c.advance s worker jobId stage).log.length = c.log.length + 1 := by
    intro s worker jobId stage
    simp [Crawl.advance]
  cases ev with
  | claim =>
    replace h : (if _ then _ else _) = some c' := h
    split at h
    · obtain ⟨t, hstep, rfl⟩ := Option.map_eq_some_iff.mp h
      exact ⟨hwrites _ t _ hc.capped.sound (by simp) hstep, hlog _ _ _ _⟩
    · cases h
  | acquire worker =>
    obtain ⟨a, _, h⟩ := Option.bind_eq_some_iff.mp h
    split at h
    · cases h
      exact ⟨.refl, hlog c.world worker a.job.id .acquired⟩
    · cases h
  | readDepth =>
    obtain ⟨a, _, h⟩ := Option.bind_eq_some_iff.mp h
    obtain ⟨t, hstep, rfl⟩ := Option.map_eq_some_iff.mp h
    exact ⟨hwrites _ t _ hc.capped.sound (by simp) hstep, hlog _ _ _ _⟩
  | expansion =>
    obtain ⟨a, _, h⟩ := Option.bind_eq_some_iff.mp h
    obtain ⟨t, hstep, rfl⟩ := Option.map_eq_some_iff.mp h
    exact ⟨hwrites _ t _ hc.capped.sound (by simp) hstep, hlog _ _ _ _⟩
  | expand =>
    obtain ⟨a, _, h⟩ := Option.bind_eq_some_iff.mp h
    obtain ⟨parent, _, h⟩ := Option.bind_eq_some_iff.mp h
    split at h
    · split at h
      · obtain ⟨t, hstep, rfl⟩ := Option.map_eq_some_iff.mp h
        exact ⟨hwrites _ t _ hc.capped.sound (by simp) hstep, hlog _ _ _ _⟩
      · cases h
    · cases h
  | finish =>
    obtain ⟨a, _, h⟩ := Option.bind_eq_some_iff.mp h
    obtain ⟨t, hstep, h⟩ := Option.bind_eq_some_iff.mp h
    obtain ⟨t', hrelease, rfl⟩ := Option.map_eq_some_iff.mp h
    have ht := hwrites _ t _ hc.capped.sound (by simp) hstep
    refine ⟨ht.trans (hwrites t t' _ (step_sound hc.capped.sound hstep) (by simp) hrelease), hlog _ _ _ _⟩

/-- Rows under keys of expansions of the run. -/
def expansionKeyed (S : Setting) (j : Job) : Bool :=
  j.dedupKey.crawlRunId = some S.runId && j.dedupKey.kind = .expandOpponents

theorem step_unique (hc : S.CrawlOk c) {ev : CrawlEvent} (h : c.step S.T S.w S.games S.runId ev = some c')
    (hu : c.world.db.UniqueKeys S.expansionKeyed) : c'.world.db.UniqueKeys S.expansionKeyed := by
  refine (step_world hc h).1.uniqueKeys (fun j j' hrow htest => ?_) ?_ hu
  · simpa [expansionKeyed, ← hrow.same.dedupKey] using htest
  · intro db e id owner hP htest j _ _ _
    rw [hP, Bool.true_or]
    intro hkind
    simp only [expansionKeyed, Bool.and_eq_true, decide_eq_true_eq] at htest
    cases hkind.symm.trans htest.2

/-! ### Counting -/

/-- The expansions of the run. -/
def expansions (S : Setting) (db : Db) : List Job := (db.jobsOf S.runId).filter fun j => j.kind = .expandOpponents

/-- The acquisition and the depth that the key of an expansion names. -/
def expansionCode (key : DedupKey) : Nat × Nat :=
  match key.target, key.params with
  | .ref id, [(_, .int depth)] => (id, depth.toNat)
  | _, _ => (0, 0)

theorem expansionCode_key (runId : Nat) (provider : Option String) (parentId depth : Nat) :
    expansionCode (expansionKey runId provider parentId depth) = (parentId, depth) := by
  simp [expansionCode, expansionKey]

theorem acquisitions_length (hR : S.Roomy) (hc : S.CrawlOk c) :
    (S.acquisitions c.world.db).length ≤ S.b.maxUsers := by
  have h := (hR.room _ (users_nodup hc.table hc.capped.db) (users_within hc.table hc.capped.db)).1
  rwa [List.length_map] at h

/-- Every acquisition has at most one expansion for each depth. -/
theorem expansions_length (hR : S.Roomy) (hc : S.CrawlOk c) (hu : c.world.db.UniqueKeys S.expansionKeyed) :
    (S.expansions c.world.db).length ≤ S.b.maxUsers * (S.b.maxDepth + 1) := by
  have hnodup : (S.expansions c.world.db).Nodup := ((List.Nodup.of_map _ hc.table.ids.nodup).filter _).filter _
  have hkey : ∀ j ∈ S.expansions c.world.db, j ∈ c.world.db.jobs ∧ ∃ p ∈ S.acquisitions c.world.db, ∃ depth,
      depth ≤ S.b.maxDepth ∧ j.dedupKey = expansionKey S.runId (some S.provider) p.id depth := by
    intro j hj
    simp only [expansions, Db.jobsOf, List.mem_filter, decide_eq_true_eq] at hj
    obtain ⟨p, hp, _, depth, hpu, _, _, hle, hkey, _⟩ := hc.table.expansion j hj.1.1 hj.1.2 hj.2
    exact ⟨hj.1.1, p, mem_acquisitions.mpr ⟨hp, hpu.crawlsIn⟩, depth, hle, hkey⟩
  have hmaps : ∀ j ∈ (S.expansions c.world.db).toFinset, expansionCode j.dedupKey ∈
      ((S.acquisitions c.world.db).map Job.id).toFinset ×ˢ Finset.range (S.b.maxDepth + 1) := by
    intro j hj
    obtain ⟨_, p, hp, depth, hle, hkey⟩ := hkey j (List.mem_toFinset.mp hj)
    rw [hkey, expansionCode_key, Finset.mem_product, List.mem_toFinset, Finset.mem_range]
    exact ⟨List.mem_map_of_mem hp, Nat.lt_succ_of_le hle⟩
  have hinj : Set.InjOn (fun j : Job => expansionCode j.dedupKey) (S.expansions c.world.db).toFinset := by
    intro j hj k hk heq
    obtain ⟨hjm, p, _, depth, _, hjkey⟩ := hkey j (List.mem_toFinset.mp hj)
    obtain ⟨hkm, q, _, depth', _, hkkey⟩ := hkey k (List.mem_toFinset.mp hk)
    dsimp only at heq
    rw [hjkey, hkkey, expansionCode_key, expansionCode_key, Prod.mk.injEq] at heq
    refine hu j hjm k hkm ?_ ?_ ?_
    · simp [expansionKeyed, hjkey, expansionKey]
    · simp [expansionKeyed, hkkey, expansionKey]
    · rw [hjkey, hkkey, heq.1, heq.2]
  have hcard := Finset.card_le_card_of_injOn _ hmaps hinj
  rw [List.toFinset_card_of_nodup hnodup, Finset.card_product, Finset.card_range] at hcard
  refine Nat.le_trans hcard (Nat.mul_le_mul_right _ ?_)
  refine Nat.le_trans (List.toFinset_card_le _) ?_
  rw [List.length_map]
  exact acquisitions_length hR hc

theorem Stage.rank_injective : Function.Injective Stage.rank := by
  intro a b h
  cases a <;> cases b <;> simp_all [Stage.rank]

theorem log_length (hR : S.Roomy) (hc : S.CrawlOk c) (hu : c.world.db.UniqueKeys S.expansionKeyed) :
    c.log.length ≤ 5 * (S.b.maxUsers * (S.b.maxDepth + 2)) := by
  have hmaps : ∀ x ∈ c.log.toFinset, (x.1, x.2.rank) ∈
      ((S.acquisitions c.world.db ++ S.expansions c.world.db).map Job.id).toFinset ×ˢ Finset.range 5 := by
    rintro ⟨id, stage⟩ hx
    obtain ⟨j, hj, rfl, hrun, _⟩ := hc.log id stage (List.mem_toFinset.mp hx)
    rw [Finset.mem_product, List.mem_toFinset, Finset.mem_range]
    refine ⟨List.mem_map_of_mem (List.mem_append.mpr ?_), by cases stage <;> simp [Stage.rank]⟩
    rcases hc.table.kinds j hj hrun with hkind | hkind
    · exact .inl (mem_acquisitions.mpr ⟨hj, hrun, hkind⟩)
    · refine .inr ?_
      simp only [expansions, Db.jobsOf, List.mem_filter, decide_eq_true_eq]
      exact ⟨⟨hj, hrun⟩, hkind⟩
  have hinj : Set.InjOn (fun x : Nat × Stage => (x.1, x.2.rank)) c.log.toFinset := by
    intro x _ y _ heq
    obtain ⟨hid, hrank⟩ := Prod.mk.injEq .. ▸ heq
    exact Prod.ext hid (Stage.rank_injective hrank)
  have hcard := Finset.card_le_card_of_injOn _ hmaps hinj
  rw [List.toFinset_card_of_nodup hc.logged, Finset.card_product, Finset.card_range] at hcard
  have hids := List.toFinset_card_le ((S.acquisitions c.world.db ++ S.expansions c.world.db).map Job.id)
  rw [List.length_map, List.length_append] at hids
  have hacq := acquisitions_length hR hc
  have hexp := expansions_length hR hc hu
  have hsum : S.b.maxUsers * (S.b.maxDepth + 2) = S.b.maxUsers + S.b.maxUsers * (S.b.maxDepth + 1) := by
    rw [Nat.mul_succ, Nat.add_comm]
  omega

/-! ### Distances -/

/-- Where no job is live, known depths are closed under games. -/
theorem CrawlOk.closed (hR : S.Roomy) (hc : S.CrawlOk c)
    (hdead : ∀ j ∈ c.world.db.jobs, j.crawlRunId = some S.runId → j.state.live = false) {u : String} {n : Nat}
    (hu : S.Player u) (hk : S.Known c.world.db u n) (hn : n + 1 ≤ S.b.maxDepth) {x : String} (hx : S.graph.Adj u x) :
    S.Known c.world.db x (n + 1) := by
  obtain ⟨j, hj, hcrawls, _⟩ := id hk
  have hju := crawls_acquires hR hc.table hj hu hcrawls
  rcases hc.complete j hj u hju n hk hn (fun h => h) with hlive | ⟨y, hy, hexp, hlive, _⟩ | hsettled
  · rw [hdead j hj hju.run] at hlive
    cases hlive
  · simp only [Job.expands, Bool.and_eq_true, decide_eq_true_eq] at hexp
    rw [hdead y hy (hc.table.children j hj hju.run y hy hexp.1)] at hlive
    cases hlive
  · exact hsettled x hx

theorem CrawlOk.known_of_within (hR : S.Roomy) (hc : S.CrawlOk c)
    (hdead : ∀ j ∈ c.world.db.jobs, j.crawlRunId = some S.runId → j.state.live = false) {u : String} {n : Nat}
    (hn : n ≤ S.b.maxDepth) (hw : S.Within n u) : S.Player u ∧ S.Known c.world.db u n := by
  obtain ⟨root, hroot, hacq, hdepth⟩ := hc.table.root
  refine known_of_edist_le (G := S.graph) (K := fun u n => S.Player u ∧ S.Known c.world.db u n) ?_ ?_ ?_ n hn u hw
  · rintro v n m ⟨hv, hk⟩ hle
    exact ⟨hv, hk.mono hle⟩
  · exact ⟨.inl rfl, root, hroot, hacq.crawls hc.capped.db hroot, .inl (Nat.le_of_eq hdepth)⟩
  · rintro v n ⟨hv, hk⟩ hle x hx
    exact ⟨player_adj hx, hc.closed hR hdead hv hk hle hx⟩

/-- The users of a crawl that is through, and their depths. -/
theorem CrawlOk.distances (hR : S.Roomy) (hc : S.CrawlOk c)
    (hdead : ∀ j ∈ c.world.db.jobs, j.crawlRunId = some S.runId → j.state.live = false) :
    (∀ u, (∃ j ∈ c.world.db.jobs, S.Acquires j u) ↔ S.Within S.b.maxDepth u) ∧
    (∀ u, S.Within S.b.maxDepth u → ∃ k : Nat, c.world.db.knownCrawlDepth S.T S.runId S.provider u = some k ∧
      (k : ℕ∞) = S.graph.edist S.seed u) ∧
    ∀ u, u ∈ c.acquired ↔ S.Within S.b.maxDepth u := by
  have husers : ∀ u, (∃ j ∈ c.world.db.jobs, S.Acquires j u) ↔ S.Within S.b.maxDepth u := by
    intro u
    constructor
    · rintro ⟨j, hj, hju⟩
      exact within_mono (hc.table.player hj hju).2 (hc.capped.db.crawl j hj hju.crawlsIn).2.2
    · intro hw
      obtain ⟨hu, j, hj, hcrawls, _⟩ := hc.known_of_within hR hdead (Nat.le_refl _) hw
      exact ⟨j, hj, crawls_acquires hR hc.table hj hu hcrawls⟩
  refine ⟨husers, ?_, ?_⟩
  · intro u hw
    have hne : S.graph.edist S.seed u ≠ ⊤ := fun htop => by
      unfold Within at hw
      rw [htop] at hw
      exact absurd hw (by simp)
    obtain ⟨d, hd⟩ := ENat.ne_top_iff_exists.mp hne
    have hdle : d ≤ S.b.maxDepth := by
      unfold Within at hw
      rw [← hd] at hw
      exact_mod_cast hw
    obtain ⟨hu, hk⟩ := hc.known_of_within hR hdead (u := u) hdle (by unfold Within; rw [hd])
    obtain ⟨k, hknown, hkd⟩ := knownWithin_iff.mp hk
    refine ⟨k, hknown, ?_⟩
    have hkw : S.Within k u := known_within hR hc.table hu (KnownWithin.of_known hknown)
    unfold Within at hkw
    rw [← hd] at hkw ⊢
    have hdk : d ≤ k := by exact_mod_cast hkw
    rw [Nat.le_antisymm hkd hdk]
  · intro u
    rw [← husers]
    constructor
    · intro hu
      obtain ⟨j, hj, hju, _⟩ := hc.users u hu
      exact ⟨j, hj, hju⟩
    · rintro ⟨j, hj, hju⟩
      refine hc.done j hj u hju ?_
      have hd := hdead j hj hju.run
      rcases hc.table.states j hj hju.run with hs | hs | hs
      · rw [hs] at hd
        cases hd
      · rw [hs] at hd
        cases hd
      · exact hs

end Runs
end Setting

/-! ## Crawls -/

section Crawls
variable {T : Text} {w : WorkerSettings} {games : Games} {provider username workspaceId : String} {since stop now : Int}
  {b : CrawlBounds} {s t : World}

/-- Names of players are normalized and the database tells them apart. -/
structure Games.Named (games : Games) (T : Text) (seed : String) : Prop where
  strip : ∀ u, u = seed ∨ (∃ x, (opponentGraph games).Adj u x) → T.strip u = u
  lower : ∀ u, u = seed ∨ (∃ x, (opponentGraph games).Adj u x) → T.lower u = u
  distinct : ∀ u v, u = seed ∨ (∃ x, (opponentGraph games).Adj u x) → v = seed ∨ (∃ x, (opponentGraph games).Adj v x) →
    T.sqlLower u = T.sqlLower v → u = v

/-- The caps have room for every user within the depth. -/
def Games.HasRoom (games : Games) (seed : String) (b : CrawlBounds) : Prop :=
  ∀ users : List String, users.Nodup → (∀ u ∈ users, (opponentGraph games).edist seed u ≤ b.maxDepth) →
    users.length ≤ b.maxUsers ∧ users.length ≤ b.maxJobs

theorem crawlSetting_roomy {runId : Nat} (hnamed : games.Named T (T.lower (T.strip username)))
    (hroom : games.HasRoom (T.lower (T.strip username)) b) :
    (crawlSetting T w games runId provider username since stop b).Roomy :=
  ⟨hnamed.strip, hnamed.lower, hnamed.distinct, crawlParams_bounds _ _ _ _, crawlParams_child _ _ _ _, hroom⟩

/-- The invariant of a crawl, in every state of every run. -/
theorem crawl_ok (hr : Reach (workers T w) (fun _ ev => ev.Discovers T (s.db.runSeq + 1)) s)
    (hcreate : s.step T w (.createOpponentCrawl provider username since stop b workspaceId now) = some t)
    (hR : (crawlSetting T w games (s.db.runSeq + 1) provider username since stop b).Roomy) {es : List CrawlEvent}
    {c : Crawl} (h : Trace (crawl T w games (s.db.runSeq + 1) t) (fun _ _ => True) ⟨t, fun _ => none, [], []⟩ es c) :
    (crawlSetting T w games (s.db.runSeq + 1) provider username since stop b).CrawlOk c ∧
    c.world.db.UniqueKeys (crawlSetting T w games (s.db.runSeq + 1) provider username since stop b).expansionKeyed := by
  refine h.keeps (I := fun c => (crawlSetting T w games (s.db.runSeq + 1) provider username since stop b).CrawlOk c ∧
    c.world.db.UniqueKeys (crawlSetting T w games (s.db.runSeq + 1) provider username since stop b).expansionKeyed)
    ?_ ⟨Setting.created_ok hr hcreate hR, ?_⟩
  · rintro c ev c' _ ⟨hc, hu⟩ _ hstep
    exact ⟨Setting.step_ok hR hc hstep, Setting.step_unique hc hstep hu⟩
  · -- the only row under a key of the run is the root
    obtain ⟨htable, hpending⟩ := Setting.created_table hr hcreate hR
    intro j hj k hk hjt _ _
    simp only [Setting.expansionKeyed, Bool.and_eq_true, decide_eq_true_eq] at hjt
    have hrun := htable.keys j hj hjt.1
    obtain ⟨owner, _, hjobs⟩ := Setting.created_jobs hr hcreate
    rw [hjobs] at hj
    rcases List.mem_append.mp hj with hold | hnew
    · exact ((reach_absent hr (Nat.lt_succ_self _) j hold).1 hrun).elim
    · rw [List.mem_singleton.mp hnew] at hjt
      cases hjt.2

theorem crawl_log {S : Setting} (hR : S.Roomy) {c c' : Crawl} {es : List CrawlEvent} (hc : S.CrawlOk c)
    (h : Trace (crawl S.T S.w S.games S.runId t) (fun _ _ => True) c es c') :
    c'.log.length = c.log.length + es.length := by
  induction h with
  | nil => rfl
  | cons _ hstep _ ih =>
    rw [ih (Setting.step_ok hR hc hstep), (Setting.step_world hc hstep).2, List.length_cons]
    omega

/-- In a crawl whose caps have room for every user within its depth, whatever the order of its steps: every run of
the workers ends; and where no job of the crawl is live any more, the users with an acquisition are those within
`max_depth` of the seed, each is known at its distance, and each was acquired, none twice. -/
theorem crawl_depth_is_distance (hr : Reach (workers T w) (fun _ ev => ev.Discovers T (s.db.runSeq + 1)) s)
    (hcreate : s.step T w (.createOpponentCrawl provider username since stop b workspaceId now) = some t)
    (hnamed : games.Named T (T.lower (T.strip username))) (hroom : games.HasRoom (T.lower (T.strip username)) b)
    {es : List CrawlEvent} {c : Crawl}
    (h : Trace (crawl T w games (s.db.runSeq + 1) t) (fun _ _ => True) ⟨t, fun _ => none, [], []⟩ es c) :
    es.length ≤ 5 * (b.maxUsers * (b.maxDepth + 2)) ∧ c.acquired.Nodup ∧
    ((∀ j ∈ c.world.db.jobs, j.crawlRunId = some (s.db.runSeq + 1) → j.state.live = false) →
      (∀ u, (∃ j ∈ c.world.db.jobs, j.crawlsIn (s.db.runSeq + 1) ∧ j.target = .name u) ↔
        (opponentGraph games).edist (T.lower (T.strip username)) u ≤ b.maxDepth) ∧
      (∀ u, (opponentGraph games).edist (T.lower (T.strip username)) u ≤ b.maxDepth →
        ∃ k : Nat, c.world.db.knownCrawlDepth T (s.db.runSeq + 1) provider u = some k ∧
          (k : ℕ∞) = (opponentGraph games).edist (T.lower (T.strip username)) u) ∧
      ∀ u, u ∈ c.acquired ↔ (opponentGraph games).edist (T.lower (T.strip username)) u ≤ b.maxDepth) := by
  have hR : (crawlSetting T w games (s.db.runSeq + 1) provider username since stop b).Roomy :=
    crawlSetting_roomy hnamed hroom
  obtain ⟨hok, hunique⟩ := crawl_ok hr hcreate hR h
  refine ⟨?_, hok.once, fun hdead => ?_⟩
  · have hlog := crawl_log hR (Setting.created_ok hr hcreate hR) h
    have hbound : c.log.length ≤ 5 * (b.maxUsers * (b.maxDepth + 2)) := Setting.log_length hR hok hunique
    rw [List.length_nil, Nat.zero_add] at hlog
    rw [← hlog]
    exact hbound
  · obtain ⟨husers, hknown, hacquired⟩ := hok.distances hR hdead
    refine ⟨fun u => ?_, hknown, hacquired⟩
    refine Iff.trans ?_ (husers u)
    constructor
    · rintro ⟨j, hj, hin, htarget⟩
      exact ⟨j, hj, hin.1, hin.2, htarget⟩
    · rintro ⟨j, hj, hju⟩
      exact ⟨j, hj, hju.crawlsIn, hju.target⟩

end Crawls

/-- Dan is two games away from ann by bob, and three by cat and eve. -/
def fiveGames : Games := [("ann", "bob"), ("ann", "cat"), ("cat", "eve"), ("eve", "dan"), ("bob", "dan")]

theorem fiveGames_room : fiveGames.HasRoom "ann" ⟨3, 5, 9, 5⟩ := by
  have hplayers : ∀ n : ℕ, n ≤ 3 → ∀ u, (opponentGraph fiveGames).edist "ann" u ≤ n →
      u ∈ ["ann", "bob", "cat", "dan", "eve"] := by
    refine known_of_edist_le (K := fun u _ => u ∈ ["ann", "bob", "cat", "dan", "eve"]) (fun _ _ _ h _ => h)
      List.mem_cons_self (fun v n _ _ x hx => ?_)
    rcases hx.2 with hgame | hgame <;> simp [fiveGames] at hgame <;> grind
  intro users hnodup hwithin
  have hsub : users ⊆ ["ann", "bob", "cat", "dan", "eve"] := fun u hu => hplayers 3 (by decide) u (hwithin u hu)
  have hle : users.length ≤ 5 := (List.subperm_of_subset hnodup hsub).length_le
  exact ⟨hle, hle⟩

def acquiring (worker jobId : Nat) : List CrawlEvent :=
  [.claim worker jobId 1 9 jobId, .acquire worker, .readDepth worker, .expansion worker 1, .finish worker "captured" 1]

def expanding (worker jobId : Nat) (edges : List String) : List CrawlEvent :=
  [.claim worker jobId 1 9 jobId, .readDepth worker, .expand worker edges ⟨[], []⟩ 1, .finish worker "expanded" 1]

/-- Dan is found by eve, and promoted by bob while another worker has his job and has read its depth. -/
def promotedInFlight : List CrawlEvent :=
  acquiring 0 1 ++ expanding 0 2 ["bob", "cat"] ++ acquiring 0 4 ++ expanding 0 5 ["ann", "eve"] ++ acquiring 0 6 ++
    expanding 0 7 ["cat", "dan"] ++ acquiring 0 3 ++ [.claim 1 8 1 9 8, .acquire 1, .readDepth 1] ++
    expanding 0 9 ["ann", "dan"] ++ [.expansion 1 1, .finish 1 "captured" 1] ++ expanding 0 10 ["eve", "bob"] ++
    expanding 1 11 ["bob", "eve"]

theorem crawl_depth_is_distance_promoted : ∃ t c, emptyWorld.step plainText ⟨2, 1, 60⟩
      (.createOpponentCrawl "lichess" "ann" 0 10 ⟨3, 5, 9, 5⟩ "w" 0) = some t ∧
    Trace (crawl plainText ⟨2, 1, 60⟩ fiveGames 1 t) (fun _ _ => True) ⟨t, fun _ => none, [], []⟩ promotedInFlight c ∧
    (∀ j ∈ c.world.db.jobs, j.crawlRunId = some 1 → j.state.live = false) ∧
    c.acquired = ["ann", "cat", "eve", "bob", "dan"] ∧
    c.world.db.knownCrawlDepth plainText 1 "lichess" "dan" = some 2 ∧
    (opponentGraph fiveGames).edist "ann" "dan" = 2 := by
  have hrun : ((emptyWorld.step plainText ⟨2, 1, 60⟩
      (.createOpponentCrawl "lichess" "ann" 0 10 ⟨3, 5, 9, 5⟩ "w" 0)).any fun t =>
      (exec (crawl plainText ⟨2, 1, 60⟩ fiveGames 1 t) (fun _ _ => True) ⟨t, fun _ => none, [], []⟩
        promotedInFlight).any fun c => c.world.db.jobs.all (fun j => !j.state.live) &&
          c.acquired = ["ann", "cat", "eve", "bob", "dan"] &&
          c.world.db.knownCrawlDepth plainText 1 "lichess" "dan" = some 2) = true := by decide +kernel
  simp only [Option.any_eq_true, Bool.and_eq_true, decide_eq_true_eq, List.all_eq_true, Bool.not_eq_true'] at hrun
  obtain ⟨t, ht, c, hc, ⟨hdead, hacquired⟩, hknown⟩ := hrun
  have htrace : Trace (crawl plainText ⟨2, 1, 60⟩ fiveGames 1 t) (fun _ _ => True) ⟨t, fun _ => none, [], []⟩
      promotedInFlight c := Trace.of_exec promotedInFlight hc
  have hnamed : fiveGames.Named plainText "ann" := ⟨fun _ _ => rfl, fun _ _ => rfl, fun _ _ _ _ h => h⟩
  have hall := crawl_depth_is_distance (.start ⟨rfl, rfl, rfl, fun _ => rfl⟩) ht hnamed fiveGames_room htrace
  obtain ⟨_, hdepth, hreached⟩ := hall.2.2 fun j hj _ => hdead j hj
  obtain ⟨k, hk, hdist⟩ := hdepth "dan" ((hreached "dan").mp (by rw [hacquired]; simp))
  have hk2 : k = 2 := Option.some.inj (hk.symm.trans hknown)
  subst hk2
  exact ⟨t, c, ht, htrace, fun j hj _ => hdead j hj, hacquired, hknown, hdist.symm⟩

end ChessCrawl.Jobs
