import ChessCrawl.Jobs.Lifecycle
import ChessCrawl.Jobs.Transactions

/-! What a statement of a transaction adds to the backlog of a workspace, and what single steps leave of it. -/
namespace ChessCrawl.Jobs
open ChessCrawl.Lib
set_option autoImplicit false

/-! ## Counting -/

/-- What the count of a backlog reads of a row, with its id. -/
abbrev Tag := Nat × String × JobState

def Job.tag (j : Job) : Tag := (j.id, j.workspaceId, j.state)

def Db.tags (db : Db) : List Tag := db.jobs.map Job.tag

def liveIn (workspaceId : String) (tags : List Tag) : Nat :=
  tags.countP fun t => t.2.1 = workspaceId && t.2.2.live

/-- `workspace_max_queued_jobs + workspace_max_active_jobs` -/
def WorkspacePolicy.room (p : WorkspacePolicy) : Nat := p.maxQueuedJobs + p.maxActiveJobs

theorem countIn_eq (db : Db) (workspaceId : String) :
    db.countIn workspaceId JobState.live = liveIn workspaceId db.tags := by
  unfold Db.countIn liveIn Db.tags
  rw [List.countP_map, List.countP_eq_length_filter]
  rfl

@[simp] theorem liveIn_append (workspaceId : String) (xs ys : List Tag) :
    liveIn workspaceId (xs ++ ys) = liveIn workspaceId xs + liveIn workspaceId ys := List.countP_append

theorem liveIn_eq_zero {workspaceId : String} {tags : List Tag} (h : ∀ t ∈ tags, t.2.1 ≠ workspaceId) :
    liveIn workspaceId tags = 0 := by
  rw [liveIn, List.countP_eq_zero]
  intro t ht
  simp [h t ht]

/-! ## Inserts -/

section Inserts
variable {T : Text} {db db' db'' : Db} {new new' : List Tag} {workspaceId : String}

/-- Rows are added behind the ones that were there, and these keep what is counted of them. -/
structure Db.Adds (db db' : Db) (new : List Tag) : Prop where
  tags : db'.tags = db.tags ++ new
  ids : (new.map Prod.fst).Nodup
  issued : ∀ t ∈ new, db.jobSeq < t.1 ∧ t.1 ≤ db'.jobSeq
  seq : db.jobSeq ≤ db'.jobSeq
  runs : db'.runs = db.runs
  budgets : db'.budgets = db.budgets
  policies : db'.policies = db.policies

theorem Db.Adds.refl (db : Db) : db.Adds db [] :=
  ⟨by simp, by simp, by simp, Nat.le_refl _, rfl, rfl, rfl⟩

theorem Db.Adds.trans (h : db.Adds db' new) (h' : db'.Adds db'' new') : db.Adds db'' (new ++ new') := by
  refine ⟨by rw [h'.tags, h.tags, List.append_assoc], ?_, ?_, Nat.le_trans h.seq h'.seq, h'.runs.trans h.runs,
    h'.budgets.trans h.budgets, h'.policies.trans h.policies⟩
  · rw [List.map_append, List.nodup_append]
    refine ⟨h.ids, h'.ids, fun a ha b hb => ?_⟩
    obtain ⟨t, ht, rfl⟩ := List.mem_map.mp ha
    obtain ⟨u, hu, rfl⟩ := List.mem_map.mp hb
    have h₁ := (h.issued t ht).2
    have h₂ := (h'.issued u hu).1
    omega
  · intro t ht
    have hseq := h.seq
    have hseq' := h'.seq
    rcases List.mem_append.mp ht with ht | ht
    · have := h.issued t ht
      omega
    · have := h'.issued t ht
      omega

theorem inserted_adds (db : Db) (e : Enqueue) (owner : String × Option Nat) :
    db.Adds (db.inserted T e owner) [(db.jobSeq + 1, owner.1, .pending)] := by
  refine ⟨?_, by simp, ?_, Nat.le_succ _, rfl, rfl, rfl⟩
  · simp [Db.tags, Db.inserted, Job.tag, Enqueue.row]
  · simp [Db.inserted]

theorem update_adds (db : Db) (sel : Job → Bool) (set : Job → Job) (h : ∀ j, (set j).tag = j.tag) :
    db.Adds (db.updateJobs sel set) [] := by
  refine ⟨?_, by simp, by simp, Nat.le_refl _, rfl, rfl, rfl⟩
  simp only [Db.tags, Db.updateJobs, List.map_map, List.append_nil]
  congr 1
  funext j
  simp only [Function.comp]
  split
  · exact h j
  · rfl

/-- A run's budget belongs to the run's workspace. -/
def Db.Funded (db : Db) : Prop :=
  ∀ run ∈ db.runs, ∀ id, run.workBudgetId = some id → ∀ b ∈ db.budgets, b.id = id → b.workspaceId = run.workspaceId

/-- What statements that count first add to a workspace. -/
def Db.AddsWithin (db : Db) (workspaceId : String) (db' : Db) : Prop :=
  ∃ new, db.Adds db' new ∧ (∀ t ∈ new, t.2.1 = workspaceId) ∧
    (new ≠ [] → ∀ policy, db.policies.lookup workspaceId = some policy → liveIn workspaceId db'.tags ≤ policy.room)

theorem Db.AddsWithin.refl (db : Db) (workspaceId : String) : db.AddsWithin workspaceId db :=
  ⟨[], .refl db, by simp, by simp⟩

theorem Db.AddsWithin.trans (h : db.AddsWithin workspaceId db') (h' : db'.AddsWithin workspaceId db'') :
    db.AddsWithin workspaceId db'' := by
  obtain ⟨new, hadds, hws, hroom⟩ := h
  obtain ⟨new', hadds', hws', hroom'⟩ := h'
  refine ⟨new ++ new', hadds.trans hadds', ?_, ?_⟩
  · intro t ht
    rcases List.mem_append.mp ht with ht | ht
    · exact hws t ht
    · exact hws' t ht
  · intro hne policy hpolicy
    by_cases hnew' : new' = []
    · rw [hadds'.tags, hnew', List.append_nil]
      rw [hnew', List.append_nil] at hne
      exact hroom hne policy hpolicy
    · exact hroom' hnew' policy (by rw [hadds.policies]; exact hpolicy)

theorem Db.AddsWithin.keeps (h : db.AddsWithin workspaceId db') : db'.runs = db.runs ∧ db'.budgets = db.budgets := by
  obtain ⟨_, hadds, _⟩ := h
  exact ⟨hadds.runs, hadds.budgets⟩

/-- An insert has counted. -/
theorem enqueueJob_counts {e : Enqueue} {r : EnqueueResult} (h : db.enqueueJob T e = .ok (r, db')) :
    db' = db ∨ ∃ owner, db.inherited e = .ok owner ∧
      (∀ id, owner.2 = some id → db.requireBacklogRoom id = .ok ()) ∧ db' = db.inserted T e owner := by
  unfold Db.enqueueJob at h
  obtain ⟨_, _, h⟩ := bind_ok h
  split at h
  · cases h
    exact .inl rfl
  obtain ⟨owner, howner, h⟩ := bind_ok h
  split at h
  · cases h
  split at h
  · next id hid =>
    obtain ⟨_, hroom, h⟩ := bind_ok h
    cases h
    refine .inr ⟨owner, howner, fun id' hid' => ?_, rfl⟩
    cases hid.symm.trans hid'
    exact hroom
  · next hnone =>
    cases h
    exact .inr ⟨owner, howner, fun id hid => (hnone id hid).elim, rfl⟩

theorem requireBacklogRoom_ok {id : Nat} (h : db.requireBacklogRoom id = .ok ()) :
    ∃ b ∈ db.budgets, b.id = id ∧ db.countIn b.workspaceId JobState.live < (db.policy b.workspaceId b.policy).room := by
  unfold Db.requireBacklogRoom at h
  split at h
  · cases h
  · next b hb =>
    refine ⟨b, List.mem_of_find?_eq_some hb, by simpa using List.find?_some hb, ?_⟩
    dsimp only at h
    split at h
    · cases h
    · next hroom => exact Nat.lt_of_not_le hroom

theorem budgeted_some {runId : Nat} (h : db.budgeted runId = some workspaceId) :
    ∃ run id, db.run runId = some run ∧ run.workBudgetId = some id ∧ run.workspaceId = workspaceId := by
  obtain ⟨run, hrun, h⟩ := Option.bind_eq_some_iff.mp h
  split at h
  · next hbudget =>
    obtain ⟨id, hid⟩ := Option.isSome_iff_exists.mp hbudget
    cases h
    exact ⟨run, id, hrun, hid, rfl⟩
  · cases h

/-- A request of a run with a budget. -/
theorem enqueueJob_within {e : Enqueue} {r : EnqueueResult} {runId : Nat} (hfunded : db.Funded)
    (hrun : e.crawlRunId = some runId) (hbudget : db.budgeted runId = some workspaceId)
    (h : db.enqueueJob T e = .ok (r, db')) : db.AddsWithin workspaceId db' := by
  obtain ⟨run, id, hfind, hid, hws⟩ := budgeted_some hbudget
  rcases enqueueJob_counts h with rfl | ⟨owner, howner, hroom, rfl⟩
  · exact .refl _ _
  have howner' : owner = (run.workspaceId, run.workBudgetId) := by
    unfold Db.inherited at howner
    rw [hrun] at howner
    simp only [hfind] at howner
    exact (Except.ok.inj howner).symm
  subst howner'
  subst hws
  refine ⟨_, inserted_adds db e _, by simp, fun _ policy hpolicy => ?_⟩
  obtain ⟨b, hb, hbid, hcount⟩ := requireBacklogRoom_ok (hroom id hid)
  have hbws := hfunded run (List.mem_of_find?_eq_some hfind) id hid b hb hbid
  rw [hbws, countIn_eq, Db.policy, hpolicy, Option.getD_some] at hcount
  rw [(inserted_adds db e _).tags, liveIn_append]
  have hone : liveIn run.workspaceId [(db.jobSeq + 1, run.workspaceId, JobState.pending)] = 1 := by
    simp [liveIn, JobState.live]
  rw [hone]
  omega

theorem Db.AddsWithin.funded (h : db.AddsWithin workspaceId db') (hfunded : db.Funded) : db'.Funded := by
  obtain ⟨hruns, hbudgets⟩ := h.keeps
  unfold Db.Funded
  rw [hruns, hbudgets]
  exact hfunded

theorem Db.AddsWithin.budgeted (h : db.AddsWithin workspaceId db') (runId : Nat) : db'.budgeted runId = db.budgeted runId := by
  unfold Db.budgeted Db.run
  rw [h.keeps.1]

theorem promoteCrawlDepth_within {runId depth : Nat} {provider username : String} {r : Race} {now : Int}
    (hfunded : db.Funded) (hbudget : db.budgeted runId = some workspaceId)
    (h : db.promoteCrawlDepth T runId provider username depth r now = .ok db') : db.AddsWithin workspaceId db' := by
  unfold Db.promoteCrawlDepth at h
  dsimp only at h
  have hupdate : db.AddsWithin workspaceId (db.updateJobs
      (fun j => j.crawls T runId provider username && j.promotable r depth) fun j => j.merged depth) :=
    ⟨[], update_adds db _ _ fun _ => rfl, by simp, by simp⟩
  -- the expansions of a promotion belong to the run of the rows that it selects
  refine foldlM_keeps (I := fun db₁ => db.AddsWithin workspaceId db₁) (fun parent hparent db₁ db₂ hI h₁ => ?_) h hupdate
  obtain ⟨_, h₂⟩ := map_snd_ok h₁
  unfold Db.enqueueOpponentExpansion Db.enqueueExpansionAt at h₂
  split at h₂
  · cases h₂
  have hcrawls := (List.mem_filter.mp (List.mem_filter.mp hparent).1).2
  have hrun : parent.crawlRunId = some runId := by
    simp only [Job.crawls, Bool.and_eq_true, decide_eq_true_eq] at hcrawls
    exact hcrawls.1.1.1
  exact hI.trans (enqueueJob_within (hI.funded hfunded) hrun (by rw [hI.budgeted, hbudget]) h₂)

/-- One edge of an expansion. -/
theorem discover_within {parent : Job} {runId nextDepth : Nat} {provider username : String} {params : Params}
    {b : CrawlBounds} {r : Race} {now : Int} (hfunded : db.Funded) (hbudget : db.budgeted runId = some workspaceId)
    (h : db.discover T parent runId provider params b nextDepth r now username = .ok db') :
    db.AddsWithin workspaceId db' := by
  unfold Db.discover at h
  split at h
  · split at h
    · cases h
      exact .refl _ _
    · exact promoteCrawlDepth_within hfunded hbudget h
  · split at h
    · cases h
      exact .refl _ _
    split at h
    · cases h
      exact .refl _ _
    obtain ⟨_, h₁⟩ := map_snd_ok h
    exact enqueueJob_within hfunded rfl hbudget h₁

end Inserts

/-! ## Single steps -/

section Settling
variable {T : Text} {w : WorkerSettings} {s t : World} {ev : Event}

/-- A row after single steps: no job becomes live again. -/
def Job.Calmed (j j' : Job) : Prop :=
  j'.id = j.id ∧ j'.workspaceId = j.workspaceId ∧ (j'.state.live = true → j.state.live = true)

theorem calmed_trans {xs ys zs : List Job} (h : List.Forall₂ Job.Calmed xs ys) (h' : List.Forall₂ Job.Calmed ys zs) :
    List.Forall₂ Job.Calmed xs zs := by
  induction h generalizing zs with
  | nil => exact h'
  | cons hxy _ ih =>
    cases h' with
    | cons hyz htail =>
      exact .cons ⟨hyz.1.trans hxy.1, hyz.2.1.trans hxy.2.1, fun hlive => hxy.2.2 (hyz.2.2 hlive)⟩ (ih htail)

theorem calmed_refl (xs : List Job) : List.Forall₂ Job.Calmed xs xs :=
  List.forall₂_same.mpr fun _ _ => ⟨rfl, rfl, fun h => h⟩

/-- Updates without inserts. -/
theorem Writes.calmed {maxRetries : Nat} {P : Db → Enqueue → Prop} {db db' : Db} (hP : ∀ db e, ¬ P db e)
    (h : Writes T maxRetries P db db') : List.Forall₂ Job.Calmed db.jobs db'.jobs ∧ db'.jobSeq = db.jobSeq := by
  refine h.keeps (I := fun db' => List.Forall₂ Job.Calmed db.jobs db'.jobs ∧ db'.jobSeq = db.jobSeq) ?_ ?_ ?_
    ⟨calmed_refl _, rfl⟩
  · intro db₁ db₂ hI ht
    rw [ht.jobs, ht.jobSeq]
    exact hI
  · intro db₁ sel set hI hset
    refine ⟨calmed_trans hI.1 ?_, hI.2⟩
    rw [Db.updateJobs_jobs, List.forall₂_map_right_iff]
    refine List.forall₂_same.mpr fun j hj => ?_
    split
    · next hsel =>
      have hrow := hset j hj hsel
      exact ⟨hrow.same.id, hrow.same.workspaceId, hrow.live⟩
    · exact ⟨rfl, rfl, fun h => h⟩
  · intro db₁ e _ _ hPe
    exact (hP _ _ hPe).elim

theorem asked_settles (hev : ev.settles = true) (db : Db) (e : Enqueue) : ¬ s.Asked T db e ev := by
  cases ev with
  | createRun => cases hev
  | createOpponentCrawl => cases hev
  | enqueue => cases hev
  | admitBudget => cases hev
  | capture => cases hev
  | expansion => cases hev
  | expand => cases hev
  | _ => exact fun h => h

theorem calmed_liveIn {xs ys : List Job} (h : List.Forall₂ Job.Calmed xs ys) (workspaceId : String) :
    liveIn workspaceId (ys.map Job.tag) ≤ liveIn workspaceId (xs.map Job.tag) := by
  induction h with
  | nil => exact Nat.le_refl _
  | @cons x y xs ys hxy _ ih =>
    have hhead : liveIn workspaceId [y.tag] ≤ liveIn workspaceId [x.tag] := by
      simp only [liveIn, List.countP_singleton, Job.tag, hxy.2.1]
      by_cases hws : x.workspaceId = workspaceId
      · by_cases hlive : y.state.live = true
        · simp [hws, hlive, hxy.2.2 hlive]
        · simp [hlive]
      · simp [hws]
    have hx : liveIn workspaceId ((x :: xs).map Job.tag) =
        liveIn workspaceId [x.tag] + liveIn workspaceId (xs.map Job.tag) := liveIn_append workspaceId [x.tag] _
    have hy : liveIn workspaceId ((y :: ys).map Job.tag) =
        liveIn workspaceId [y.tag] + liveIn workspaceId (ys.map Job.tag) := liveIn_append workspaceId [y.tag] _
    omega

theorem calmed_ids {xs ys : List Job} (h : List.Forall₂ Job.Calmed xs ys) : ys.map Job.id = xs.map Job.id := by
  induction h with
  | nil => rfl
  | cons hxy _ ih => rw [List.map_cons, List.map_cons, ih, hxy.1]

/-- What single steps leave of the other tables. -/
structure Db.Frames (db db' : Db) : Prop where
  runs : ∀ r' ∈ db'.runs, ∃ r ∈ db.runs, r'.workspaceId = r.workspaceId ∧ r'.workBudgetId = r.workBudgetId
  budgets : db'.budgets = db.budgets
  policies : db'.policies = db.policies

theorem Db.Frames.refl (db : Db) : db.Frames db := ⟨fun r hr => ⟨r, hr, rfl, rfl⟩, rfl, rfl⟩

theorem Db.Frames.trans {db db' db'' : Db} (h : db.Frames db') (h' : db'.Frames db'') : db.Frames db'' := by
  refine ⟨fun r'' hr'' => ?_, h'.budgets.trans h.budgets, h'.policies.trans h.policies⟩
  obtain ⟨r', hr', hws', hb'⟩ := h'.runs r'' hr''
  obtain ⟨r, hr, hws, hb⟩ := h.runs r' hr'
  exact ⟨r, hr, hws'.trans hws, hb'.trans hb⟩

theorem frames_of_eq {db db' : Db} (hruns : db'.runs = db.runs) (hbudgets : db'.budgets = db.budgets)
    (hpolicies : db'.policies = db.policies) : db.Frames db' :=
  ⟨fun r hr => ⟨r, by rw [← hruns]; exact hr, rfl, rfl⟩, hbudgets, hpolicies⟩

theorem runs_frames (db : Db) (runId : Nat) (g : Run → Run)
    (hg : ∀ r, (g r).workspaceId = r.workspaceId ∧ (g r).workBudgetId = r.workBudgetId) :
    db.Frames { db with runs := db.runs.map fun r => if r.id = runId then g r else r } := by
  refine ⟨fun r' hr' => ?_, rfl, rfl⟩
  obtain ⟨r, hr, rfl⟩ := List.mem_map.mp hr'
  refine ⟨r, hr, ?_⟩
  split
  · exact hg r
  · exact ⟨rfl, rfl⟩

theorem refreshRunStatus_frames (db : Db) (runId : Nat) (now : Int) : db.Frames (db.refreshRunStatus runId now) := by
  unfold Db.refreshRunStatus
  split
  · exact .refl db
  split
  · exact .refl db
  · exact runs_frames db runId _ fun _ => ⟨rfl, rfl⟩

theorem refreshCrawlRuns_frames (db : Db) (now : Int) (crawlRunId : Option Nat) :
    db.Frames (db.refreshCrawlRuns now crawlRunId) := by
  cases crawlRunId with
  | some runId => exact refreshRunStatus_frames db runId now
  | none =>
    show db.Frames ((db.runs.map Run.id).foldl _ db)
    generalize db.runs.map Run.id = ids
    induction ids generalizing db with
    | nil => exact .refl db
    | cons id ids ih => exact (refreshRunStatus_frames db id now).trans (ih _)

theorem finishAttempt_frames {db db' : Db} {jobId : Nat} {o : Outcome} {now : Int}
    (h : db.finishAttempt T w jobId o now = .ok db') : db.Frames db' := by
  unfold Db.finishAttempt at h
  split at h
  · cases h
  next j _ =>
  dsimp only at h
  have hdefer : db.Frames ((db.deferFor w j o now).updateJob jobId fun row => row.finished w o now) := by
    unfold Db.deferFor
    split
    · split
      · exact frames_of_eq rfl rfl rfl
      · exact frames_of_eq rfl rfl rfl
    · exact frames_of_eq rfl rfl rfl
  have hmerge : ∀ db₁ : Db, db₁.Frames (db₁.mergeDepth T j) := by
    intro db₁
    unfold Db.mergeDepth
    split
    · split
      · exact frames_of_eq rfl rfl rfl
      · exact .refl _
    · exact .refl _
  cases h
  split
  · exact (hdefer.trans (hmerge _)).trans (refreshRunStatus_frames _ _ _)
  · exact hdefer.trans (hmerge _)

theorem settles_frames (hev : ev.settles = true) (h : s.step T w ev = some t) : s.db.Frames t.db := by
  cases ev with
  | cancel runId =>
    cases h
    exact runs_frames s.db runId _ fun _ => ⟨rfl, rfl⟩
  | claim worker jobId now maxActiveJobs token =>
    replace h : (if _ then _ else _) = some t := h
    split at h
    · obtain ⟨⟨j, db⟩, hclaim, rfl⟩ := Option.map_eq_some_iff.mp h
      obtain ⟨_, _, _, _, _, rfl⟩ := claim_row hclaim
      exact frames_of_eq rfl rfl rfl
    · cases h
  | checkpoint =>
    obtain ⟨a, db, _, hr, rfl⟩ := World.fencedBy_some h
    split at hr
    · cases hr
      exact frames_of_eq rfl rfl rfl
    · cases hr
  | readDepth =>
    obtain ⟨a, _, h⟩ := Option.bind_eq_some_iff.mp h
    obtain ⟨parent, _, rfl⟩ := Option.map_eq_some_iff.mp h
    exact .refl _
  | finish =>
    obtain ⟨a, db, _, hr, rfl⟩ := World.fencedBy_some h
    exact finishAttempt_frames hr
  | mark =>
    obtain ⟨a, db, _, hr, rfl⟩ := World.fencedBy_some h
    cases hr
    exact frames_of_eq rfl rfl rfl
  | release =>
    cases h
    exact .refl _
  | resumeStale =>
    cases h
    exact frames_of_eq rfl rfl rfl
  | unblock =>
    cases h
    exact frames_of_eq rfl rfl rfl
  | resumeRunBudget =>
    obtain ⟨db, hr, rfl⟩ := Option.map_eq_some_iff.mp h
    replace hr := toOption_some hr
    unfold Db.resumeRunBudget at hr
    split at hr
    · cases hr
    split at hr
    · cases hr
      exact frames_of_eq rfl rfl rfl
    · cases hr
  | refresh =>
    cases h
    exact refreshCrawlRuns_frames s.db _ _
  | _ => cases hev

end Settling

/-! ## Drafts -/

section Drafts
variable {d : Draft} {db db' : Db} {new : List Tag}

def Draft.tags (d : Draft) : List Tag := d.jobs.map Job.tag

theorem patch_tag (d : Draft) (j : Job) : (d.patch j).tag = j.tag := by
  unfold Draft.patch
  split <;> rfl

theorem patch_same (d : Draft) (j : Job) : j.Same (d.patch j) := by
  unfold Draft.patch
  split
  · exact ⟨rfl, rfl, rfl, rfl, rfl, rfl, rfl, rfl, rfl⟩
  · exact .refl j

theorem view_tags (d : Draft) (db : Db) : (d.view db).tags = db.tags ++ d.tags := by
  simp only [Draft.view, Db.tags, Draft.tags, List.map_append, List.map_map]
  congr 2
  funext j
  exact patch_tag d j

/-- The rows of a statement join the draft. -/
theorem absorb_tags (h : db'.tags = (d.view db).tags ++ new) : (d.absorb db db').tags = d.tags ++ new := by
  have hlen : db.tags.length = db.jobs.length := List.length_map _
  have hdrop : (db'.jobs.drop db.jobs.length).map Job.tag = db'.tags.drop db.jobs.length := by
    rw [Db.tags, List.map_drop]
  show (db'.jobs.drop db.jobs.length).map Job.tag = d.tags ++ new
  rw [hdrop, h, view_tags, List.append_assoc, ← hlen, List.drop_left]

theorem absorb_runs (h : db'.runs = (d.view db).runs) : (d.absorb db db').runs = d.runs := by
  show db'.runs.drop db.runs.length = d.runs
  rw [h]
  exact List.drop_left

theorem absorb_budgets (h : db'.budgets = (d.view db).budgets) : (d.absorb db db').budgets = d.budgets := by
  show db'.budgets.drop db.budgets.length = d.budgets
  rw [h]
  exact List.drop_left

end Drafts

end ChessCrawl.Jobs
