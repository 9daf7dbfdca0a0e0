import ChessCrawl.Jobs.Known
import Mathlib.Data.Finset.Card

/-! The caps of an opponent crawl. They are counted again in front of every insert, under the lock of the run;
what follows is what any interleaving of workers keeps of them. -/
namespace ChessCrawl.Jobs
open ChessCrawl.Lib
set_option autoImplicit false

/-! ## Tables -/

/-- The acquisitions of a run. -/
def Job.crawlsIn (runId : Nat) (j : Job) : Prop := j.crawlRunId = some runId ∧ j.kind = .crawlOpponents

/-- The tables keep the caps of a run that was created with the parameters. -/
structure Db.Capped (T : Text) (runId : Nat) (provider : String) (params : Params) (b : CrawlBounds) (db : Db) :
    Prop where
  crawl : ∀ j ∈ db.jobs, j.crawlsIn runId → j.provider = some provider ∧ j.childParams = params ∧ j.depth ≤ b.maxDepth
  expand : ∀ j ∈ db.jobs, j.crawlRunId = some runId → j.kind = .expandOpponents → j.depth ≤ b.maxDepth
  users : ∀ j ∈ db.jobs, ∀ k ∈ db.jobs, j.crawlsIn runId → k.crawlsIn runId →
    j.target.map T.sqlLower = k.target.map T.sqlLower → j = k
  userCount : db.crawlUserCount T runId ≤ b.maxUsers
  jobCount : db.acquisitionJobCount runId ≤ b.maxJobs
  keyed : db.Keyed runId

/-- A request that keeps them. -/
structure Enqueue.Admitted (T : Text) (runId : Nat) (provider : String) (params : Params) (b : CrawlBounds) (db : Db)
    (e : Enqueue) : Prop where
  crawl : e.crawlRunId = some runId → e.kind = .crawlOpponents → e.provider = some provider ∧ e.params = params ∧
    e.depth ≤ b.maxDepth ∧ db.crawlUserCount T runId < b.maxUsers ∧
    ∀ j ∈ db.jobs, j.crawlsIn runId → j.target.map T.sqlLower ≠ (e.target.map T.strip).map T.sqlLower
  acquisition : e.crawlRunId = some runId → e.kind.processing = false → db.acquisitionJobCount runId < b.maxJobs
  expand : e.crawlRunId = some runId → e.kind = .expandOpponents → e.depth ≤ b.maxDepth
  keyed : e.Keyed T runId

section Tables
variable {T : Text} {maxRetries runId : Nat} {provider : String} {params : Params} {b : CrawlBounds} {db db' : Db}

/-- The users of a run, by the text that `crawl_user_count` compares. -/
def Db.crawlTargets (T : Text) (db : Db) (runId : Nat) : List Target :=
  ((db.jobsOf runId).filter fun j => j.kind = .crawlOpponents).map fun j => j.target.map T.sqlLower

theorem crawlUserCount_eq : db.crawlUserCount T runId = (db.crawlTargets T runId).toFinset.card := by
  rw [List.card_toFinset]
  rfl

theorem update_counts {sel : Job → Bool} {set : Job → Job}
    (hset : ∀ j ∈ db.jobs, sel j = true → j.Rewritten maxRetries (set j)) :
    (db.updateJobs sel set).crawlTargets T runId = db.crawlTargets T runId ∧
    (db.updateJobs sel set).acquisitionJobCount runId = db.acquisitionJobCount runId := by
  have hsame : ∀ j ∈ db.jobs, j.Same (if sel j then set j else j) := fun j hj => Rewritten.same hset hj
  generalize hjobs : db.jobs = jobs at hsame
  unfold Db.crawlTargets Db.acquisitionJobCount Db.jobsOf
  rw [Db.updateJobs_jobs, hjobs]
  clear hjobs hset
  induction jobs with
  | nil => exact ⟨rfl, rfl⟩
  | cons j jobs ih =>
    have hj := hsame j List.mem_cons_self
    obtain ⟨ih₁, ih₂⟩ := ih fun k hk => hsame k (List.mem_cons_of_mem _ hk)
    simp only [List.map_cons, List.filter_cons, hj.crawlRunId]
    split
    · simp only [List.filter_cons, hj.kind]
      constructor
      · split
        · rw [List.map_cons, List.map_cons, ih₁, hj.target]
        · exact ih₁
      · split
        · rw [List.length_cons, List.length_cons, ih₂]
        · exact ih₂
    · exact ⟨ih₁, ih₂⟩

theorem insert_crawlTargets (e : Enqueue) (owner : String × Option Nat) :
    (db.inserted T e owner).crawlTargets T runId = db.crawlTargets T runId ++
      if e.crawlRunId = some runId ∧ e.kind = .crawlOpponents then [(e.target.map T.strip).map T.sqlLower] else [] := by
  unfold Db.crawlTargets Db.jobsOf Db.inserted
  simp only [List.filter_append, List.map_append]
  congr 1
  by_cases hrun : e.crawlRunId = some runId
  · by_cases hkind : e.kind = .crawlOpponents
    · simp [Enqueue.row, hrun, hkind]
    · simp [Enqueue.row, hrun, hkind]
  · simp [Enqueue.row, hrun]

theorem insert_acquisitionJobCount (e : Enqueue) (owner : String × Option Nat) :
    (db.inserted T e owner).acquisitionJobCount runId = db.acquisitionJobCount runId +
      if e.crawlRunId = some runId ∧ e.kind.processing = false then 1 else 0 := by
  unfold Db.acquisitionJobCount Db.jobsOf Db.inserted
  simp only [List.filter_append, List.length_append]
  congr 1
  by_cases hrun : e.crawlRunId = some runId
  · by_cases hkind : e.kind.processing = false
    · simp [Enqueue.row, hrun, hkind]
    · simp [Enqueue.row, hrun, hkind]
  · simp [Enqueue.row, hrun]

theorem Db.Capped.update {sel : Job → Bool} {set : Job → Job} (h : db.Capped T runId provider params b)
    (hset : ∀ j ∈ db.jobs, sel j = true → j.Rewritten maxRetries (set j)) :
    (db.updateJobs sel set).Capped T runId provider params b := by
  have hle : ∀ j ∈ db.jobs, (if sel j then set j else j).depth ≤ j.depth := by
    intro j hj
    rcases Rewritten.row hset hj with hrow | hrow
    · rw [hrow]
    · exact hrow.depth_le
  have hin : ∀ j ∈ db.jobs, (if sel j then set j else j).crawlsIn runId → j.crawlsIn runId := by
    intro j hj hin
    have hsame := Rewritten.same hset hj
    exact ⟨hsame.crawlRunId ▸ hin.1, hsame.kind ▸ hin.2⟩
  refine ⟨?_, ?_, ?_, ?_, ?_, ?_⟩
  · intro j hj hcrawl
    obtain ⟨j₀, hj₀, rfl⟩ := List.mem_map.mp hj
    have hsame := Rewritten.same hset hj₀
    obtain ⟨hp, hparams, hdepth⟩ := h.crawl j₀ hj₀ (hin j₀ hj₀ hcrawl)
    exact ⟨hsame.provider.trans hp, hsame.params.trans hparams, Nat.le_trans (hle j₀ hj₀) hdepth⟩
  · intro j hj hrun hkind
    obtain ⟨j₀, hj₀, rfl⟩ := List.mem_map.mp hj
    have hsame := Rewritten.same hset hj₀
    exact Nat.le_trans (hle j₀ hj₀) (h.expand j₀ hj₀ (hsame.crawlRunId ▸ hrun) (hsame.kind ▸ hkind))
  · intro j hj k hk hjin hkin htarget
    obtain ⟨j₀, hj₀, rfl⟩ := List.mem_map.mp hj
    obtain ⟨k₀, hk₀, rfl⟩ := List.mem_map.mp hk
    rw [(Rewritten.same hset hj₀).target, (Rewritten.same hset hk₀).target] at htarget
    rw [h.users j₀ hj₀ k₀ hk₀ (hin j₀ hj₀ hjin) (hin k₀ hk₀ hkin) htarget]
  · rw [crawlUserCount_eq, (update_counts hset).1, ← crawlUserCount_eq]
    exact h.userCount
  · rw [(update_counts (T := T) hset).2]
    exact h.jobCount
  · have hw : Writes T maxRetries (fun _ e => e.Keyed T runId) db (db.updateJobs sel set) := .update sel set .refl hset
    exact hw.keyed (fun _ _ hP => hP) h.keyed

theorem Db.Capped.insert {e : Enqueue} (h : db.Capped T runId provider params b)
    (hparams : (params.pop "cursor_index").pop "bounded_capture_complete" = params)
    (he : e.Admitted T runId provider params b db) (owner : String × Option Nat) :
    (db.inserted T e owner).Capped T runId provider params b := by
  have hrow : ∀ j ∈ (db.inserted T e owner).jobs, j ∈ db.jobs ∨ j = e.row T (db.jobSeq + 1) owner := by
    intro j hj
    rcases List.mem_append.mp hj with hj | hj
    · exact .inl hj
    · exact .inr (List.mem_singleton.mp hj)
  refine ⟨?_, ?_, ?_, ?_, ?_, ?_⟩
  · intro j hj hcrawl
    rcases hrow j hj with hj | rfl
    · exact h.crawl j hj hcrawl
    · obtain ⟨hp, hpar, hdepth, _⟩ := he.crawl hcrawl.1 hcrawl.2
      exact ⟨hp, by simpa [Job.childParams, Enqueue.row, hpar] using hparams, hdepth⟩
  · intro j hj hrun hkind
    rcases hrow j hj with hj | rfl
    · exact h.expand j hj hrun hkind
    · exact he.expand hrun hkind
  · intro j hj k hk hjin hkin htarget
    rcases hrow j hj with hj | rfl <;> rcases hrow k hk with hk | rfl
    · exact h.users j hj k hk hjin hkin htarget
    · exact ((he.crawl hkin.1 hkin.2).2.2.2.2 j hj hjin htarget).elim
    · exact ((he.crawl hjin.1 hjin.2).2.2.2.2 k hk hkin htarget.symm).elim
    · rfl
  · rw [crawlUserCount_eq, insert_crawlTargets]
    split
    · next hcrawl =>
      have hroom := (he.crawl hcrawl.1 hcrawl.2).2.2.2.1
      rw [crawlUserCount_eq] at hroom
      rw [List.toFinset_append]
      refine Nat.le_trans (Finset.card_union_le _ _) ?_
      simp only [List.toFinset_cons, List.toFinset_nil, insert_empty_eq, Finset.card_singleton]
      omega
    · rw [List.append_nil, ← crawlUserCount_eq]
      exact h.userCount
  · rw [insert_acquisitionJobCount]
    split
    · next hacq => exact he.acquisition hacq.1 hacq.2
    · exact h.jobCount
  · intro j hj
    rcases hrow j hj with hj | rfl
    · exact h.keyed j hj
    · exact he.keyed

theorem Writes.capped {P : Db → Enqueue → Prop}
    (hparams : (params.pop "cursor_index").pop "bounded_capture_complete" = params)
    (hP : ∀ db e, P db e → db.Capped T runId provider params b → e.Admitted T runId provider params b db)
    (h : Writes T maxRetries P db db') (hdb : db.Capped T runId provider params b) :
    db'.Capped T runId provider params b := by
  refine h.keeps (I := fun db => db.Capped T runId provider params b) ?_ ?_ ?_ hdb
  · intro db db' hc ht
    have hof : db'.jobsOf runId = db.jobsOf runId := by simp [Db.jobsOf, ht.jobs]
    refine ⟨?_, ?_, ?_, ?_, ?_, ?_⟩
    · rw [ht.jobs]
      exact hc.crawl
    · rw [ht.jobs]
      exact hc.expand
    · rw [ht.jobs]
      exact hc.users
    · rw [show db'.crawlUserCount T runId = db.crawlUserCount T runId by simp [Db.crawlUserCount, hof]]
      exact hc.userCount
    · rw [show db'.acquisitionJobCount runId = db.acquisitionJobCount runId by simp [Db.acquisitionJobCount, hof]]
      exact hc.jobCount
    · unfold Db.Keyed
      rw [ht.jobs]
      exact hc.keyed
  · intro db sel set hc hset
    exact hc.update hset
  · intro db e owner hc hPe _ _
    exact hc.insert hparams (hP db e hPe hc) owner

end Tables

/-! ## Runs -/

/-- What the callers of the run do: nobody else enqueues into it or under its keys, and opponents come with their
normalized names. -/
def Event.Discovers (T : Text) (runId : Nat) : Event → Prop
  | .enqueue e => e.crawlRunId ≠ some runId ∧ (e.key T).crawlRunId ≠ some runId
  | .expand _ edges _ _ => ∀ username ∈ edges, T.strip username = username
  | _ => True

section Runs
variable {T : Text} {w : WorkerSettings} {runId : Nat} {s t : World} {ev : Event}

theorem Writes.runSeq_le {maxRetries : Nat} {P : Db → Enqueue → Prop} {db db' : Db} (h : Writes T maxRetries P db db') :
    db.runSeq ≤ db'.runSeq :=
  h.keeps (I := fun d => db.runSeq ≤ d.runSeq) (fun _ _ h ht => Nat.le_trans h ht.runSeq) (fun _ _ _ h _ => h)
    (fun _ _ _ h _ _ _ => h) (Nat.le_refl _)

/-- The acquisition that an attempt expands is in the table and in its run. -/
theorem World.Sound.acquisition (h : s.Sound) {worker : Nat} {a : Attempt} (ha : s.attempts worker = some a)
    {parent : Job} (hp : s.db.acquisitionOf a.job = some parent) :
    parent.crawlRunId = a.job.crawlRunId ∧ parent.kind = .crawlOpponents ∧
      (a.job.kind = .crawlOpponents ∨ a.job.kind = .expandOpponents) ∧ ∃ row ∈ s.db.jobs, parent.Same row := by
  unfold Db.acquisitionOf at hp
  split at hp
  · next hkind =>
    cases hp
    obtain ⟨row, hrow, hsame⟩ := h.held worker a ha
    exact ⟨rfl, hkind, .inl hkind, row, hrow, hsame⟩
  · next id hkind _ =>
    obtain ⟨hjob, hcond⟩ := Option.filter_eq_some_iff.mp hp
    simp only [Bool.and_eq_true, decide_eq_true_eq] at hcond
    exact ⟨hcond.2, hcond.1, .inr hkind, parent, (Db.job_mem hjob).1, .refl _⟩
  · cases hp

/-- Nothing of a run is there before the run is. -/
theorem reach_absent (h : Reach (workers T w) (fun _ ev => ev.Discovers T runId) s) (hseq : s.db.runSeq < runId) :
    ∀ j ∈ s.db.jobs, j.crawlRunId ≠ some runId ∧ j.dedupKey.crawlRunId ≠ some runId := by
  refine Reach.invariant (I := fun s => s.db.runSeq < runId → ∀ j ∈ s.db.jobs, j.crawlRunId ≠ some runId ∧
    j.dedupKey.crawlRunId ≠ some runId) (fun s hs _ => by rw [hs.1]; simp) ?_ h hseq
  intro s ev t hr hI hok hstep hseq
  have hsound := reach_sound hr
  have hw := step_writes hsound hstep
  have hseq₀ : s.db.runSeq < runId := Nat.lt_of_le_of_lt hw.runSeq_le hseq
  have hrow := hI hseq₀
  have howned : ∀ worker a, s.attempts worker = some a → a.job.crawlRunId ≠ some runId := by
    intro worker a ha
    obtain ⟨row, hmem, hsame⟩ := hsound.held worker a ha
    rw [← hsame.crawlRunId]
    exact (hrow row hmem).1
  refine hw.keeps (I := fun db => ∀ j ∈ db.jobs, j.crawlRunId ≠ some runId ∧ j.dedupKey.crawlRunId ≠ some runId)
    ?_ ?_ ?_ hrow
  · intro db db' hI ht
    rw [ht.jobs]
    exact hI
  · intro db sel set hI hset j hj
    obtain ⟨j₀, hj₀, rfl⟩ := List.mem_map.mp hj
    have hsame := Rewritten.same hset hj₀
    rw [hsame.crawlRunId, hsame.dedupKey]
    exact hI j₀ hj₀
  · intro db e owner hI hasked _ _ j hj
    rcases List.mem_append.mp hj with hj | hj
    · exact hI j hj
    rw [List.mem_singleton.mp hj]
    have hkeyed : ∀ r : Option Nat, r ≠ some runId → e.crawlRunId = r → (e.key T).crawlRunId = r →
        (e.row T (db.jobSeq + 1) owner).crawlRunId ≠ some runId ∧
        (e.row T (db.jobSeq + 1) owner).dedupKey.crawlRunId ≠ some runId := by
      intro r hr hrun hkey
      exact ⟨by rw [← hrun] at hr; exact hr, by rw [← hkey] at hr; exact hr⟩
    cases ev with
    | createOpponentCrawl provider username since stop b workspaceId now =>
      cases hasked
      obtain ⟨⟨_, db₁⟩, hr₁, rfl⟩ := Option.map_eq_some_iff.mp hstep
      obtain ⟨_, _, _, _, hjob⟩ := createOpponentCrawl_ok (toOption_some hr₁)
      have hle : (s.db.runSeq + 1) ≤ db₁.runSeq :=
        (enqueueJob_writes (T := T) (P := fun _ _ => True) trivial hjob : Writes T 0 _ _ _).runSeq_le
      refine hkeyed (some (s.db.runSeq + 1)) ?_ rfl rfl
      intro heq
      have hlt : db₁.runSeq < runId := hseq
      have := Option.some.inj heq
      omega
    | enqueue e' =>
      cases hasked
      exact hok
    | capture worker =>
      obtain ⟨a, howns, rfl⟩ := hasked
      exact hkeyed _ (howned worker a howns.attempt) rfl rfl
    | expansion worker =>
      obtain ⟨a, _, howns, _, _, _, rfl⟩ := hasked
      exact hkeyed _ (howned worker a howns.attempt) rfl rfl
    | expand worker =>
      obtain ⟨a, parent, depth, runId', provider, b, hexp, username, _, hfor⟩ := hasked
      cases hfor with
      | opponent =>
        have hne := howned worker a hexp.owns.attempt
        rw [← (hsound.acquisition hexp.owns.attempt hexp.acquisition).1, hexp.run] at hne
        exact hkeyed _ hne rfl rfl
      | promoted _ hp' hsame =>
        have hne := (hI _ hp').1
        rw [hsame.crawlRunId] at hne
        exact hkeyed _ hne rfl rfl
    | _ => cases hasked

theorem crawlParams_child (seed : String) (since stop : Int) (b : CrawlBounds) :
    ((crawlParams seed since stop b).pop "cursor_index").pop "bounded_capture_complete" =
      crawlParams seed since stop b := by
  simp [crawlParams, Params.pop]

theorem crawlParams_bounds (seed : String) (since stop : Int) (b : CrawlBounds) :
    (crawlParams seed since stop b).bounds = .ok b := by
  simp [crawlParams, Params.bounds, Params.int, List.lookup_cons]

section Invariant
variable {provider : String} {params : Params} {b : CrawlBounds}

/-- The run keeps its caps, also in the copies that workers hold. -/
structure World.CappedIn (T : Text) (runId : Nat) (provider : String) (params : Params) (b : CrawlBounds)
    (s : World) : Prop where
  sound : s.Sound
  seq : runId ≤ s.db.runSeq
  db : s.db.Capped T runId provider params b
  attempts : ∀ worker a, s.attempts worker = some a → a.job.crawlRunId = some runId →
    a.job.kind = .crawlOpponents ∨ a.job.kind = .expandOpponents →
    a.job.depth ≤ b.maxDepth ∧ ∀ depth, a.depth = some depth → depth ≤ b.maxDepth

theorem World.CappedIn.expanding (h : s.CappedIn T runId provider params b) (hb : params.bounds = .ok b)
    {worker : Nat} {a : Attempt} {parent : Job} {depth : Nat} {provider' : String} {b' : CrawlBounds}
    (hexp : s.Expanding worker a parent depth runId provider' b') :
    provider' = provider ∧ parent.childParams = params ∧ b' = b := by
  obtain ⟨_, hkind, _, row, hrow, hsame⟩ := h.sound.acquisition hexp.owns.attempt hexp.acquisition
  obtain ⟨hp, hpar, _⟩ := h.db.crawl row hrow
    ⟨hsame.crawlRunId.trans hexp.run, hsame.kind.trans hkind⟩
  have hparams : parent.childParams = params := hsame.params.symm.trans hpar
  refine ⟨?_, hparams, ?_⟩
  · exact Option.some.inj ((hexp.source.symm.trans hsame.provider.symm).trans hp)
  · have hb' := hexp.bounds
    rw [hparams, hb] at hb'
    exact (Except.ok.inj hb').symm

theorem asked_admitted (h : s.CappedIn T runId provider params b) (hb : params.bounds = .ok b)
    (hok : ev.Discovers T runId) {db : Db} {e : Enqueue} (hasked : s.Asked T db e ev)
    (hc : db.Capped T runId provider params b) : e.Admitted T runId provider params b db := by
  have hnot : e.crawlRunId ≠ some runId → e.Keyed T runId → e.Admitted T runId provider params b db := by
    intro hne hkeyed
    exact ⟨fun hrun => (hne hrun).elim, fun hrun => (hne hrun).elim, fun hrun => (hne hrun).elim, hkeyed⟩
  cases ev with
  | createOpponentCrawl provider' username since stop b' workspaceId now =>
    cases hasked
    refine hnot ?_ (keyed_of_kind (by simp [rootRequest, Enqueue.key, makeDedupKey]))
    intro heq
    have hseq := h.seq
    have : s.db.runSeq + 1 = runId := Option.some.inj heq
    omega
  | enqueue e' =>
    cases hasked
    refine hnot hok.1 fun _ _ _ hkey => ?_
    exact absurd (by rw [hkey]; rfl) hok.2
  | capture worker =>
    obtain ⟨a, howns, rfl⟩ := hasked
    exact ⟨fun _ hkind => (by cases hkind), fun _ hkind => (by cases hkind), fun _ hkind => (by cases hkind),
      keyed_of_kind (by simp [normalizationRequest, normalizationKey, Enqueue.key, makeDedupKey])⟩
  | expansion worker =>
    obtain ⟨a, depth, howns, hdepth, hkind, _, rfl⟩ := hasked
    refine ⟨fun _ hkind => (by cases hkind), fun _ hkind => (by cases hkind), fun hrun _ => ?_,
      expansionRequest_keyed a.job depth _⟩
    exact (h.attempts worker a howns.attempt hrun (.inl hkind)).2 depth hdepth
  | expand worker edges r now =>
    obtain ⟨a, parent, depth, runId', provider', b', hexp, username, hu, hfor⟩ := hasked
    cases hfor with
    | opponent hnone husers hjobs =>
      by_cases hrun : runId' = runId
      · subst hrun
        obtain ⟨rfl, hpar, rfl⟩ := h.expanding hb hexp
        have hstrip := hok username hu
        refine ⟨fun _ _ => ⟨rfl, hpar, hexp.within, husers, fun j hj hin htarget => ?_⟩, fun _ _ => hjobs,
          fun _ hkind => (by cases hkind), keyed_of_kind (by simp [opponentRequest, Enqueue.key, makeDedupKey])⟩
        -- the lookup saw every job of the run
        have hmiss := knownCrawlDepth_none.mp hnone j hj
        have hcrawls : j.crawls T runId' provider' username = true := Job.crawls_iff.mpr
          ⟨hin.1, (hc.crawl j hj hin).1, hin.2, by simpa [opponentRequest, Target.map, hstrip] using htarget⟩
        rw [hmiss] at hcrawls
        cases hcrawls
      · refine hnot ?_ (keyed_of_kind (by simp [opponentRequest, Enqueue.key, makeDedupKey]))
        exact fun heq => hrun (Option.some.inj heq)
    | @promoted p p' hcrawls hp' hsame =>
      by_cases hrun : runId' = runId
      · subst hrun
        obtain ⟨_, _, rfl⟩ := h.expanding hb hexp
        refine ⟨fun _ hkind => (by cases hkind), fun _ hkind => (by cases hkind), fun _ _ => ?_,
          expansionRequest_keyed p _ now⟩
        exact Nat.le_trans (expansionDepth_le p _) hexp.within
      · refine hnot ?_ (expansionRequest_keyed p _ now)
        intro heq
        have hprun : p.crawlRunId = some runId := heq
        exact hrun (Option.some.inj ((Job.crawls_iff.mp hcrawls).1.symm.trans hprun))
  | _ => cases hasked

theorem step_capped (hparams : (params.pop "cursor_index").pop "bounded_capture_complete" = params)
    (hb : params.bounds = .ok b) (h : s.CappedIn T runId provider params b) (hok : ev.Discovers T runId)
    (hstep : s.step T w ev = some t) : t.CappedIn T runId provider params b := by
  have hw := step_writes h.sound hstep
  refine ⟨step_sound h.sound hstep, Nat.le_trans h.seq hw.runSeq_le,
    hw.capped hparams (fun _ _ hasked hc => asked_admitted h hb hok hasked hc) h.db, fun worker a ha hrun hkind => ?_⟩
  rcases step_attempts hstep ha with ⟨a₀, ha₀, hcont⟩ | ⟨jobId, now, maxActiveJobs, _, hclaim, hnone⟩
  · rw [hcont.job] at hrun hkind ⊢
    obtain ⟨hjob, hdepth⟩ := h.attempts worker a₀ ha₀ hrun hkind
    refine ⟨hjob, fun depth hd => ?_⟩
    rcases hcont.depth with heq | ⟨parent, _, heq⟩
    · exact hdepth depth (heq ▸ hd)
    · rw [heq] at hd
      cases hd
      exact Nat.le_trans (expansionDepth_le parent _) hjob
  · obtain ⟨row, hrow, _, _, hj, _⟩ := claim_row hclaim
    rw [hj] at hrun hkind ⊢
    refine ⟨?_, fun depth hd => by rw [hnone] at hd; cases hd⟩
    rcases hkind with hkind | hkind
    · exact (h.db.crawl row hrow ⟨hrun, hkind⟩).2.2
    · exact h.db.expand row hrow hrun hkind

/-- A new run starts within its caps. -/
theorem create_capped {username workspaceId : String} {since stop now : Int}
    (hr : Reach (workers T w) (fun _ ev => ev.Discovers T (s.db.runSeq + 1)) s)
    (h : s.step T w (.createOpponentCrawl provider username since stop b workspaceId now) = some t) :
    t.CappedIn T (s.db.runSeq + 1) provider (crawlParams (T.lower (T.strip username)) since stop b) b := by
  have hsound := reach_sound hr
  have habsent := reach_absent hr (Nat.lt_succ_self _)
  have hnew := step_sound hsound h
  obtain ⟨⟨_, db⟩, hr₁, rfl⟩ := Option.map_eq_some_iff.mp h
  obtain ⟨_, husers, hjobs, _, hjob⟩ := createOpponentCrawl_ok (toOption_some hr₁)
  have hnone : ∀ j ∈ (s.db.opened (some provider) (crawlParams (T.lower (T.strip username)) since stop b)
      workspaceId).jobs, j.crawlRunId ≠ some (s.db.runSeq + 1) := fun j hj => (habsent j hj).1
  have hof : (s.db.opened (some provider) (crawlParams (T.lower (T.strip username)) since stop b)
      workspaceId).jobsOf (s.db.runSeq + 1) = [] :=
    List.filter_eq_nil_iff.mpr fun j hj => by simpa using hnone j hj
  have hopened : (s.db.opened (some provider) (crawlParams (T.lower (T.strip username)) since stop b)
      workspaceId).Capped T (s.db.runSeq + 1) provider (crawlParams (T.lower (T.strip username)) since stop b) b := by
    refine ⟨?_, ?_, ?_, ?_, ?_, ?_⟩
    · exact fun j hj hin => (hnone j hj hin.1).elim
    · exact fun j hj hrun => (hnone j hj hrun).elim
    · exact fun j hj _ _ hin => (hnone j hj hin.1).elim
    · simp [Db.crawlUserCount, hof]
    · simp [Db.acquisitionJobCount, hof]
    · intro j hj _ _ _ hkey
      exact absurd (by rw [hkey]; rfl) (habsent j hj).2
  have hw : Writes T 0 (fun _ e => e = rootRequest T provider username since stop b (s.db.runSeq + 1) workspaceId now)
      (s.db.opened (some provider) (crawlParams (T.lower (T.strip username)) since stop b) workspaceId) db :=
    enqueueJob_writes rfl hjob
  refine ⟨hnew, hw.runSeq_le, ?_, fun worker a ha hrun => ?_⟩
  · rcases enqueueJob_cases hjob with ⟨rfl, _⟩ | ⟨_, owner, _, rfl⟩
    · exact hopened
    · refine hopened.insert (crawlParams_child _ _ _ _) ?_ owner
      refine ⟨fun _ _ => ⟨rfl, rfl, Nat.zero_le _, ?_, fun j hj hin => (hnone j hj hin.1).elim⟩, fun _ _ => ?_,
        fun _ hkind => (by cases hkind), keyed_of_kind (by simp [rootRequest, Enqueue.key, makeDedupKey])⟩
      · simpa [Db.crawlUserCount, hof] using husers
      · simpa [Db.acquisitionJobCount, hof] using hjobs
  · obtain ⟨row, hrow, hsame⟩ := hsound.held worker a ha
    exact ((habsent row hrow).1 (hsame.crawlRunId.trans hrun)).elim

end Invariant

/-- A run that is created with room for a user and a job keeps its caps in every state that any number of workers
reach: its users, its acquisitions and the depths of its jobs are bounded, no user has a second job, and every
expansion leaves the known users that it finds within its next depth, also where both caps are full. -/
theorem discovery_caps {provider username workspaceId : String} {since stop now : Int} {b : CrawlBounds}
    {es : List Event} {u : World} (hr : Reach (workers T w) (fun _ ev => ev.Discovers T (s.db.runSeq + 1)) s)
    (hcreate : s.step T w (.createOpponentCrawl provider username since stop b workspaceId now) = some t)
    (htrace : Trace (workers T w) (fun _ ev => ev.Discovers T (s.db.runSeq + 1)) t es u) :
    u.db.crawlUserCount T (s.db.runSeq + 1) ≤ b.maxUsers ∧
    u.db.acquisitionJobCount (s.db.runSeq + 1) ≤ b.maxJobs ∧
    (∀ j ∈ u.db.jobs, j.crawlRunId = some (s.db.runSeq + 1) →
      j.kind = .crawlOpponents ∨ j.kind = .expandOpponents → j.depth ≤ b.maxDepth) ∧
    (∀ j ∈ u.db.jobs, ∀ k ∈ u.db.jobs, j.crawlsIn (s.db.runSeq + 1) → k.crawlsIn (s.db.runSeq + 1) →
      j.target.map T.sqlLower = k.target.map T.sqlLower → j = k) ∧
    ∀ worker a parent depth edges r now v, u.Expanding worker a parent depth (s.db.runSeq + 1) provider b →
      u.step T w (.expand worker edges r now) = some v → ∀ name ∈ edges, ∀ known,
      u.db.knownCrawlDepth T (s.db.runSeq + 1) provider name = some known →
      ∃ known', v.db.knownCrawlDepth T (s.db.runSeq + 1) provider name = some known' ∧ known' ≤ depth + 1 := by
  have hcapped : u.CappedIn T (s.db.runSeq + 1) provider (crawlParams (T.lower (T.strip username)) since stop b) b :=
    htrace.keeps (I := fun v => v.CappedIn T (s.db.runSeq + 1) provider
        (crawlParams (T.lower (T.strip username)) since stop b) b)
      (fun _ _ _ _ hI hok hstep => step_capped (crawlParams_child _ _ _ _) (crawlParams_bounds _ _ _ _) hI hok hstep)
      (create_capped hr hcreate)
  refine ⟨hcapped.db.userCount, hcapped.db.jobCount, ?_, hcapped.db.users, ?_⟩
  · intro j hj hrun hkind
    rcases hkind with hkind | hkind
    · exact (hcapped.db.crawl j hj ⟨hrun, hkind⟩).2.2
    · exact hcapped.db.expand j hj hrun hkind
  · intro worker a parent depth edges r now v hexp hstep name hname known hknown
    obtain ⟨a', db, howns, hdb, rfl⟩ := World.fencedBy_some hstep
    cases Option.some.inj (hexp.owns.attempt.symm.trans howns.attempt)
    rw [hexp.reads, hexp.acquisition] at hdb
    dsimp only at hdb
    split at hdb
    · next hsound =>
      exact knownWithin_iff.mp (expandOpponentFrontier_known hcapped.db.keyed hsound hexp.run hexp.source hexp.bounds
        hexp.within hname hknown hdb)
    · cases hdb

end Runs

def Event.own : Event → Bool
  | .enqueue _ => false
  | _ => true

theorem Event.discovers_of_own {ev : Event} (h : ev.own = true) (runId : Nat) : ev.Discovers plainText runId := by
  cases ev with
  | enqueue => cases h
  | expand => exact fun _ _ => rfl
  | _ => trivial

/-- Three users fill both caps; the last one is found two games away from the seed. -/
def fillsCaps : List Event :=
  [.claim 0 1 1 5 7, .readDepth 0, .expand 0 ["bob"] ⟨[], []⟩ 1, .claim 1 2 1 5 8, .readDepth 1,
    .expand 1 ["cat", "dan"] ⟨[], []⟩ 1]

theorem discovery_caps_full : ∃ t u v, emptyWorld.step plainText ⟨2, 1, 60⟩
      (.createOpponentCrawl "lichess" "ann" 0 10 ⟨3, 3, 9, 3⟩ "w" 0) = some t ∧
    Trace (workers plainText ⟨2, 1, 60⟩) (fun _ ev => ev.Discovers plainText 1) t fillsCaps u ∧
    u.step plainText ⟨2, 1, 60⟩ (.expand 0 ["cat"] ⟨[], []⟩ 2) = some v ∧
    u.db.crawlUserCount plainText 1 = 3 ∧ u.db.knownCrawlDepth plainText 1 "lichess" "cat" = some 2 ∧
    ∃ known, v.db.knownCrawlDepth plainText 1 "lichess" "cat" = some known ∧ known ≤ 1 := by
  have hrun : ((emptyWorld.step plainText ⟨2, 1, 60⟩
      (.createOpponentCrawl "lichess" "ann" 0 10 ⟨3, 3, 9, 3⟩ "w" 0)).any fun t =>
      (exec (workers plainText ⟨2, 1, 60⟩) (fun _ ev => ev.own = true) t fillsCaps).any fun u =>
        (u.step plainText ⟨2, 1, 60⟩ (.expand 0 ["cat"] ⟨[], []⟩ 2)).isSome &&
        u.db.crawlUserCount plainText 1 = 3 && u.db.knownCrawlDepth plainText 1 "lichess" "cat" = some 2 &&
        (u.attempts 0).any fun a => u.db.fenced a.job.id a.token && a.depth = some 0 &&
          (u.db.acquisitionOf a.job).any fun p => p.crawlRunId = some 1 && p.provider = some "lichess" &&
            p.childParams = crawlParams "ann" 0 10 ⟨3, 3, 9, 3⟩) = true := by decide +kernel
  simp only [Option.any_eq_true, Bool.and_eq_true, decide_eq_true_eq, Option.isSome_iff_exists] at hrun
  obtain ⟨t, ht, u, hu, ⟨⟨⟨v, hv⟩, hcount⟩, hknown⟩, a, ha, ⟨hfence, hdepth⟩, p, hp, ⟨hprun, hprovider⟩, hparams⟩ := hrun
  have htrace : Trace (workers plainText ⟨2, 1, 60⟩) (fun _ ev => ev.Discovers plainText 1) t fillsCaps u :=
    (Trace.of_exec fillsCaps hu).mono fun _ _ h => Event.discovers_of_own h 1
  have hall := discovery_caps (.start ⟨rfl, rfl, rfl, fun _ => rfl⟩) ht htrace
  have hexp : u.Expanding 0 a p 0 1 "lichess" ⟨3, 3, 9, 3⟩ :=
    ⟨⟨ha, hfence⟩, hdepth, hp, hprun, hprovider, by rw [hparams]; exact crawlParams_bounds _ _ _ _, by decide⟩
  exact ⟨t, u, v, ht, htrace, hv, hcount, hknown,
    hall.2.2.2.2 0 a p 0 ["cat"] ⟨[], []⟩ 2 v hexp hv "cat" List.mem_cons_self 2 hknown⟩

end ChessCrawl.Jobs
