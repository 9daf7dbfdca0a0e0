import ChessCrawl.Jobs.Scheduler

/-! The active ceiling of a workspace. Only a claim makes a job busy; it counts the busy jobs of the workspace in
its query, and until it updates the row their number can only fall. -/
namespace ChessCrawl.Jobs
open ChessCrawl.Lib
set_option autoImplicit false

/-! ## Transactions that start nothing -/

/-- Whoever is busy was busy. -/
structure Db.Settles (db db' : Db) : Prop where
  policies : db'.policies = db.policies
  busy : ∀ j' ∈ db'.jobs, j'.state = .inProgress → ∃ j ∈ db.jobs, j.id = j'.id ∧ j.workspaceId = j'.workspaceId ∧
    j.state = .inProgress

section Settles
variable {T : Text} {w : WorkerSettings} {db db' db'' : Db}

theorem Db.Settles.trans (h : db.Settles db') (h' : db'.Settles db'') : db.Settles db'' := by
  refine ⟨h'.policies.trans h.policies, fun j'' hj'' hs'' => ?_⟩
  obtain ⟨j', hj', hid', hws', hs'⟩ := h'.busy j'' hj'' hs''
  obtain ⟨j, hj, hid, hws, hs⟩ := h.busy j' hj' hs'
  exact ⟨j, hj, hid.trans hid', hws.trans hws', hs⟩

theorem settles_of_jobs (hjobs : db'.jobs = db.jobs) (hpolicies : db'.policies = db.policies) : db.Settles db' := by
  refine ⟨hpolicies, fun j hj hs => ?_⟩
  rw [hjobs] at hj
  exact ⟨j, hj, rfl, rfl, hs⟩

theorem Db.Grown.settles (h : db.Grown db') : db.Settles db' := by
  refine ⟨h.policies, fun j' hj' hs => ?_⟩
  rcases h.rows j' hj' with hpending | ⟨j, hj, hsame, hstate⟩
  · cases hs.symm.trans hpending
  · exact ⟨j, hj, hsame.id.symm, hsame.workspaceId.symm, hstate.symm.trans hs⟩

theorem update_settles {sel : Job → Bool} {set : Job → Job}
    (hset : ∀ j ∈ db.jobs, sel j = true → (set j).id = j.id ∧ (set j).workspaceId = j.workspaceId ∧
      ((set j).state = .inProgress → j.state = .inProgress)) : db.Settles (db.updateJobs sel set) := by
  refine ⟨rfl, fun j' hj' hs => ?_⟩
  obtain ⟨j, hj, rfl⟩ := List.mem_map.mp hj'
  split at hs
  · next hsel =>
    obtain ⟨hid, hws, hback⟩ := hset j hj hsel
    rw [if_pos hsel]
    exact ⟨j, hj, hid.symm, hws.symm, hback hs⟩
  · next hsel =>
    rw [if_neg hsel]
    exact ⟨j, hj, rfl, rfl, hs⟩

theorem refreshRunStatus_settles (db : Db) (runId : Nat) (now : Int) : db.Settles (db.refreshRunStatus runId now) := by
  refine settles_of_jobs (db.refreshRunStatus_tables runId now).jobs ?_
  unfold Db.refreshRunStatus
  split
  · rfl
  split
  · rfl
  · rfl

theorem refreshCrawlRuns_settles (db : Db) (now : Int) (crawlRunId : Option Nat) :
    db.Settles (db.refreshCrawlRuns now crawlRunId) := by
  cases crawlRunId with
  | some runId => exact refreshRunStatus_settles db runId now
  | none =>
    show db.Settles ((db.runs.map Run.id).foldl _ db)
    generalize db.runs.map Run.id = ids
    induction ids generalizing db with
    | nil => exact settles_of_jobs rfl rfl
    | cons runId ids ih => exact (refreshRunStatus_settles db runId now).trans (ih _)

theorem finishAttempt_settles {jobId : Nat} {o : Outcome} {now : Int}
    (hrow : ∀ j ∈ db.jobs, j.id = jobId → j.state = .inProgress) (h : db.finishAttempt T w jobId o now = .ok db') :
    db.Settles db' := by
  unfold Db.finishAttempt at h
  split at h
  · cases h
  next j _ =>
  cases h
  have hdefer : db.Settles (db.deferFor w j o now) := by
    refine settles_of_jobs (db.deferFor_tables w j o now).jobs ?_
    unfold Db.deferFor
    split
    · split
      · rfl
      · rfl
    · rfl
  have hfinished : (db.deferFor w j o now).Settles
      ((db.deferFor w j o now).updateJob jobId fun row => row.finished w o now) := by
    refine update_settles fun k hk hid => ?_
    rw [(db.deferFor_tables w j o now).jobs] at hk
    have hs := hrow k hk (by simpa using hid)
    have hsame := (finished_rewritten (w := w) o now hs).same
    exact ⟨hsame.id, hsame.workspaceId, fun _ => hs⟩
  have hmerged : ∀ db₁ : Db, db₁.Settles (db₁.mergeDepth T j) := by
    intro db₁
    unfold Db.mergeDepth
    split
    · split
      · exact update_settles fun _ _ _ => ⟨rfl, rfl, fun hs => hs⟩
      · exact settles_of_jobs rfl rfl
    · exact settles_of_jobs rfl rfl
  have hall := (hdefer.trans hfinished).trans (hmerged _)
  split
  · exact hall.trans (refreshRunStatus_settles _ _ _)
  · exact hall

/-- Every event of the workers but a claim. -/
theorem step_settles {s t : World} {ev : Event} (hids : s.db.Ids) (hev : ev.isClaim = false)
    (h : s.step T w ev = some t) : s.db.Settles t.db := by
  cases ev with
  | createRun =>
    obtain ⟨⟨_, db⟩, hr, rfl⟩ := Option.map_eq_some_iff.mp h
    obtain ⟨_, rfl⟩ := createCrawlRun_ok (toOption_some hr)
    exact settles_of_jobs rfl rfl
  | createOpponentCrawl =>
    obtain ⟨⟨_, db⟩, hr, rfl⟩ := Option.map_eq_some_iff.mp h
    obtain ⟨_, _, _, _, hjob⟩ := createOpponentCrawl_ok (toOption_some hr)
    refine Db.Settles.trans ?_ (enqueueJob_grown hjob).settles
    exact settles_of_jobs rfl rfl
  | enqueue e =>
    obtain ⟨⟨_, db⟩, hr, rfl⟩ := Option.map_eq_some_iff.mp h
    exact (enqueueJob_grown (toOption_some hr)).settles
  | admitBudget runId b =>
    obtain ⟨db, hr, rfl⟩ := Option.map_eq_some_iff.mp h
    unfold Db.admitRunBudget at hr
    split at hr
    · cases hr
      have htables : s.db.Settles { s.db with
          budgets := s.db.budgets ++ [b]
          runs := s.db.runs.map fun (r : Run) => if r.id = runId then { r with workBudgetId := some b.id } else r } :=
        settles_of_jobs rfl rfl
      exact htables.trans (update_settles fun _ _ _ => ⟨rfl, rfl, fun hs => hs⟩)
    · cases hr
  | cancel =>
    cases h
    exact settles_of_jobs rfl rfl
  | claim => cases hev
  | capture =>
    obtain ⟨a, db, _, hr, rfl⟩ := World.fencedBy_some h
    obtain ⟨_, hr⟩ := map_snd_ok hr
    exact (enqueueJob_grown hr).settles
  | checkpoint =>
    obtain ⟨a, db, _, hr, rfl⟩ := World.fencedBy_some h
    split at hr
    · cases hr
      exact update_settles fun _ _ _ => ⟨rfl, rfl, fun hs => hs⟩
    · cases hr
  | readDepth =>
    obtain ⟨a, _, h⟩ := Option.bind_eq_some_iff.mp h
    obtain ⟨parent, _, rfl⟩ := Option.map_eq_some_iff.mp h
    exact settles_of_jobs rfl rfl
  | expansion =>
    obtain ⟨a, db, _, hr, rfl⟩ := World.fencedBy_some h
    split at hr
    · obtain ⟨_, hr⟩ := map_snd_ok hr
      exact (enqueueExpansionAt_grown hr).settles
    · cases hr
  | expand =>
    obtain ⟨a, db, _, hr, rfl⟩ := World.fencedBy_some h
    split at hr
    · split at hr
      · exact (expandOpponentFrontier_grown hr).settles
      · cases hr
    · cases hr
  | finish =>
    obtain ⟨a, db, howns, hr, rfl⟩ := World.fencedBy_some h
    exact finishAttempt_settles (fun j hj hid => (howns.inProgress hids hj hid).1) hr
  | mark =>
    obtain ⟨a, db, howns, hr, rfl⟩ := World.fencedBy_some h
    cases hr
    exact update_settles fun j hj hid => ⟨rfl, rfl, fun _ => (howns.inProgress hids hj (by simpa using hid)).1⟩
  | release =>
    cases h
    exact settles_of_jobs rfl rfl
  | resumeStale =>
    cases h
    exact update_settles fun _ _ _ => ⟨rfl, rfl, fun hs => (by cases hs)⟩
  | unblock =>
    cases h
    exact update_settles fun _ _ _ => ⟨rfl, rfl, fun hs => (by cases hs)⟩
  | resumeRunBudget =>
    obtain ⟨db, hr, rfl⟩ := Option.map_eq_some_iff.mp h
    replace hr := toOption_some hr
    unfold Db.resumeRunBudget at hr
    split at hr
    · cases hr
    split at hr
    · cases hr
      exact update_settles fun _ _ _ => ⟨rfl, rfl, fun hs => (by cases hs)⟩
    · cases hr
  | refresh =>
    cases h
    exact refreshCrawlRuns_settles s.db _ _

/-- The busy jobs of a workspace. -/
abbrev Db.active (db : Db) (workspaceId : String) : Nat := db.countIn workspaceId fun s => s = .inProgress

theorem Db.Settles.active_le (h : db.Settles db') (hids : db'.Ids) (workspaceId : String) :
    db'.active workspaceId ≤ db.active workspaceId := by
  have hnodup : ((db'.jobs.filter fun j => j.workspaceId = workspaceId && j.state = .inProgress).map Job.id).Nodup :=
    hids.nodup.sublist (List.filter_sublist.map _)
  have hsub : (db'.jobs.filter fun j => j.workspaceId = workspaceId && j.state = .inProgress).map Job.id ⊆
      (db.jobs.filter fun j => j.workspaceId = workspaceId && j.state = .inProgress).map Job.id := by
    intro id hid
    obtain ⟨j', hj', rfl⟩ := List.mem_map.mp hid
    simp only [List.mem_filter, Bool.and_eq_true, decide_eq_true_eq] at hj'
    obtain ⟨j, hj, hjid, hws, hs⟩ := h.busy j' hj'.1 hj'.2.2
    rw [← hjid]
    refine List.mem_map_of_mem (List.mem_filter.mpr ⟨hj, ?_⟩)
    simp [hws, hj'.2.1, hs]
  have hle := (List.subperm_of_subset hnodup hsub).length_le
  rw [List.length_map, List.length_map] at hle
  exact hle

end Settles

/-! ## The ceiling -/

section Ceiling
variable {T : Text} {w : WorkerSettings} {s t : Scheduler} {ev : SchedulerEvent}

/-- Calls under one policy, and nobody changes the policies of workspaces. -/
def SchedulerEvent.Keeps (maxActiveJobs : Nat) : SchedulerEvent → Prop
  | .begin _ _ _ m => m = maxActiveJobs
  | .policy _ => False
  | _ => True

/-- `workspace_max_active_jobs` of a workspace. -/
def Db.ceiling (db : Db) (maxActiveJobs : Nat) (workspaceId : String) : Nat :=
  (db.policy workspaceId ⟨0, maxActiveJobs⟩).maxActiveJobs

/-- Every workspace is within its ceiling, and below it when the call may still claim one of its jobs. -/
structure Scheduler.Within (maxActiveJobs : Nat) (s : Scheduler) : Prop where
  sound : s.world.Sound
  active : ∀ workspaceId, s.world.db.active workspaceId ≤ s.world.db.ceiling maxActiveJobs workspaceId
  policy : ∀ c, s.call = some c → c.maxActiveJobs = maxActiveJobs
  window : ∀ c, s.call = some c → ∀ rows, c.window = some rows → ∀ x ∈ rows,
    (∃ j ∈ s.world.db.jobs, j.id = x.id ∧ j.workspaceId = x.workspaceId) ∧
    s.world.db.active x.workspaceId < s.world.db.ceiling maxActiveJobs x.workspaceId

theorem ceiling_congr {db db' : Db} (h : db'.policies = db.policies) (maxActiveJobs : Nat) (workspaceId : String) :
    db'.ceiling maxActiveJobs workspaceId = db.ceiling maxActiveJobs workspaceId := by
  unfold Db.ceiling Db.policy
  rw [h]

/-- A claim makes one job of its workspace busy. -/
theorem claimed_active {db : Db} (hids : db.Ids) (id : Nat) (now : Int) (token : Option Nat) (workspaceId : String) :
    (db.updateJob id fun j => j.claimed now token).active workspaceId ≤ db.active workspaceId +
      if db.jobs.any fun j => j.id = id && j.workspaceId = workspaceId then 1 else 0 := by
  have hnodup := hids.nodup
  unfold Db.active Db.countIn Db.updateJob
  rw [Db.updateJobs_jobs]
  generalize db.jobs = jobs at hnodup
  induction jobs with
  | nil => simp
  | cons j jobs ih =>
    rw [List.map_cons, List.nodup_cons] at hnodup
    have ih := ih hnodup.2
    dsimp only at ih ⊢
    by_cases hid : j.id = id
    · -- no other row has the id
      have hrest : ∀ k ∈ jobs, k.id ≠ id := by
        intro k hk hkid
        exact hnodup.1 (List.mem_map.mpr ⟨k, hk, hkid.trans hid.symm⟩)
      have hmap : jobs.map (fun k => if decide (k.id = id) = true then k.claimed now token else k) = jobs := by
        refine (List.map_congr_left fun k hk => ?_).trans (List.map_id jobs)
        rw [if_neg (by simpa using hrest k hk)]
        rfl
      rw [List.map_cons, hmap]
      simp only [List.filter_cons, hid, decide_true, if_true, Job.claimed, List.any_cons, Bool.true_and]
      by_cases hws : j.workspaceId = workspaceId
      · simp only [hws, decide_true, Bool.true_and, Bool.true_or, if_true, List.length_cons]
        split
        · simp
        · omega
      · simp [hws]
    · simp only [List.map_cons, hid, decide_false, List.filter_cons, List.any_cons, Bool.false_and, Bool.false_or]
      simp only [Bool.false_eq_true, if_false]
      split
      · simp only [List.length_cons]
        omega
      · exact ih

theorem take_sound {c : ClaimCall} {x : Candidate} {token : Nat} (hs : s.world.Sound) (h : s.take c x token = some t) :
    t.world.Sound ∧ t.world.db = s.world.db.updateJob x.id fun j =>
      j.claimed c.now (if c.worker.isSome then some token else none) := by
  obtain ⟨job, hjob, rfl⟩ := Option.map_eq_some_iff.mp h
  have hids : (s.world.db.updateJob x.id fun j =>
      j.claimed c.now (if c.worker.isSome then some token else none)).Ids := by
    have hmap : (s.world.db.updateJob x.id fun j => j.claimed c.now (if c.worker.isSome then some token else none)).jobs.map
        Job.id = s.world.db.jobs.map Job.id := by
      unfold Db.updateJob
      rw [Db.updateJobs_jobs, List.map_map]
      refine List.map_congr_left fun j _ => ?_
      simp only [Function.comp]
      split
      · rfl
      · rfl
    refine ⟨by rw [hmap]; exact hs.ids.nodup, fun j hj => ?_⟩
    have hid : j.id ∈ s.world.db.jobs.map Job.id := hmap ▸ List.mem_map_of_mem hj
    obtain ⟨k, hk, hkj⟩ := List.mem_map.mp hid
    rw [← hkj]
    exact hs.ids.issued k hk
  have hold : ∀ worker a, s.world.attempts worker = some a → ∃ j ∈ (s.world.db.updateJob x.id fun j =>
      j.claimed c.now (if c.worker.isSome then some token else none)).jobs, a.job.Same j := by
    intro worker a ha
    obtain ⟨j, hj, hsame⟩ := hs.held worker a ha
    refine ⟨_, List.mem_map_of_mem hj, hsame.trans ?_⟩
    split
    · exact ⟨rfl, rfl, rfl, rfl, rfl, rfl, rfl, rfl, rfl⟩
    · exact .refl j
  cases hworker : c.worker with
  | none =>
    simp only [hworker] at hids hold ⊢
    exact ⟨⟨hids, hold⟩, rfl⟩
  | some worker =>
    simp only [hworker] at hids hold hjob ⊢
    refine ⟨⟨hids, fun n a ha => ?_⟩, rfl⟩
    rcases World.setAttempt_some ha with ⟨_, hnew⟩ | hkept
    · cases hnew
      exact ⟨job, (Db.job_mem hjob).1, .refl job⟩
    · exact hold n a hkept

theorem candidates_below {c : ClaimCall} {j : Job} (h : j ∈ s.candidates c) :
    j ∈ s.world.db.jobs ∧ s.world.db.active j.workspaceId < s.world.db.ceiling c.maxActiveJobs j.workspaceId := by
  unfold Scheduler.candidates at h
  rw [List.mem_insertionSort, List.mem_filter] at h
  simp only [Bool.and_eq_true, Db.admissible] at h
  obtain ⟨hj, ⟨⟨⟨_, hbelow⟩, _⟩, _⟩, _⟩ := h
  exact ⟨hj, by simpa [Db.belowActiveCap, Db.ceiling] using hbelow⟩

theorem step_within {maxActiveJobs : Nat} (h : s.Within maxActiveJobs) (hok : ev.Keeps maxActiveJobs)
    (hstep : s.step T w ev = some t) : t.Within maxActiveJobs := by
  have hidle : ∀ {t : Scheduler}, t.world = s.world → t.call = none → t.Within maxActiveJobs := by
    intro t hworld hnone
    refine ⟨by rw [hworld]; exact h.sound, by rw [hworld]; exact h.active, fun c hc => ?_, fun c hc => ?_⟩
    · rw [hnone] at hc
      cases hc
    · rw [hnone] at hc
      cases hc
  cases ev with
  | begin worker stage now m =>
    replace hstep : (if _ then _ else _) = some t := hstep
    split at hstep
    · cases hstep
      refine ⟨h.sound, h.active, ?_, ?_⟩
      · intro c hc
        cases hc
        exact hok
      · intro c hc rows hrows
        cases hc
        cases hrows
    · cases hstep
  | query =>
    obtain ⟨c, hc, hstep⟩ := Option.bind_eq_some_iff.mp hstep
    split at hstep
    · cases hstep
    split at hstep
    · cases hstep
      exact hidle rfl rfl
    · cases hstep
      refine ⟨h.sound, h.active, ?_, ?_⟩
      · intro c' hc'
        cases hc'
        exact h.policy c hc
      · intro c' hc' rows hrows x hx
        cases hc'
        cases hrows
        obtain ⟨j, hj, rfl⟩ := List.mem_map.mp hx
        obtain ⟨hmem, hbelow⟩ := candidates_below (List.mem_of_mem_take hj)
        rw [h.policy c hc] at hbelow
        exact ⟨⟨j, hmem, rfl, rfl⟩, hbelow⟩
  | attempt token =>
    obtain ⟨c, hc, hstep⟩ := Option.bind_eq_some_iff.mp hstep
    split at hstep
    · next x rest hwindow =>
      have hpass : ∀ excluded, Scheduler.Within maxActiveJobs
          { s with call := some { c with window := some rest, excluded := excluded } } := by
        intro excluded
        refine ⟨h.sound, h.active, ?_, ?_⟩
        · intro c' hc'
          cases hc'
          exact h.policy c hc
        · intro c' hc' rows hrows y hy
          cases hc'
          cases hrows
          exact h.window c hc _ hwindow y (List.mem_cons_of_mem _ hy)
      split at hstep
      · cases hstep
        exact hpass c.excluded
      · cases hstep
        exact hpass _
      · split at hstep
        · obtain ⟨⟨j, hj, hjid, hjws⟩, hbelow⟩ := h.window c hc _ hwindow x List.mem_cons_self
          obtain ⟨hsound, hdb⟩ := take_sound h.sound hstep
          obtain ⟨job, _, ht⟩ := Option.map_eq_some_iff.mp hstep
          have hcall : t.call = none := by rw [← ht]
          refine ⟨hsound, fun workspaceId => ?_, fun c' hc' => ?_, fun c' hc' => ?_⟩
          · have hclaimed := claimed_active h.sound.ids x.id c.now (if c.worker.isSome then some token else none)
              workspaceId
            rw [hdb, ceiling_congr rfl]
            refine Nat.le_trans hclaimed ?_
            by_cases hws : workspaceId = x.workspaceId
            · subst hws
              split
              · exact hbelow
              · exact Nat.le_of_lt hbelow
            · -- the one row with the id is of the other workspace
              rw [if_neg]
              · exact h.active workspaceId
              · intro hany
                obtain ⟨k, hk, hkrow⟩ := List.any_eq_true.mp hany
                simp only [Bool.and_eq_true, decide_eq_true_eq] at hkrow
                have hkj : k = j := h.sound.ids.unique hk hj (hkrow.1.trans hjid.symm)
                subst hkj
                exact hws (hkrow.2.symm.trans hjws)
          · rw [hcall] at hc'
            cases hc'
          · rw [hcall] at hc'
            cases hc'
        · cases hstep
    · cases hstep
  | exhausted =>
    obtain ⟨c, hc, hstep⟩ := Option.bind_eq_some_iff.mp hstep
    split at hstep
    · split at hstep
      · cases hstep
        exact hidle rfl rfl
      · cases hstep
        refine ⟨h.sound, h.active, ?_, ?_⟩
        · intro c' hc'
          cases hc'
          exact h.policy c hc
        · intro c' hc' rows hrows
          cases hc'
          cases hrows
    · cases hstep
  | world e =>
    replace hstep : (if _ then _ else _) = some t := hstep
    split at hstep
    · cases hstep
    · next hclaim =>
      obtain ⟨u, hu, rfl⟩ := Option.map_eq_some_iff.mp hstep
      have hsettles := step_settles h.sound.ids (by simpa using hclaim) hu
      have hsound := step_sound h.sound hu
      have hle := hsettles.active_le hsound.ids
      refine ⟨hsound, fun workspaceId => ?_, h.policy, fun c hc rows hrows x hx => ?_⟩
      · rw [ceiling_congr hsettles.policies]
        exact Nat.le_trans (hle workspaceId) (h.active workspaceId)
      · obtain ⟨⟨j, hj, hjid, hjws⟩, hbelow⟩ := h.window c hc rows hrows x hx
        obtain ⟨j', hj', hsame, _⟩ := (step_writes h.sound hu).row hj
        refine ⟨⟨j', hj', hsame.id.trans hjid, hsame.workspaceId.trans hjws⟩, ?_⟩
        rw [ceiling_congr hsettles.policies]
        exact Nat.lt_of_le_of_lt (hle x.workspaceId) hbelow
  | locks =>
    cases hstep
    exact ⟨h.sound, h.active, h.policy, h.window⟩
  | policy => exact hok.elim

theorem reach_within {maxActiveJobs : Nat} (h : Reach (scheduler T w) (fun _ ev => ev.Keeps maxActiveJobs) s) :
    s.Within maxActiveJobs := by
  refine Reach.invariant (I := Scheduler.Within maxActiveJobs) (fun s hs => ?_)
    (fun _ _ _ _ hI hok hstep => step_within hI hok hstep) h
  obtain ⟨hinit, _, hcall⟩ := hs
  have hreach : Reachable (workers T w) s.world := .start hinit
  refine ⟨reach_sound hreach, fun workspaceId => ?_, fun c hc => ?_, fun c hc => ?_⟩
  · unfold Db.active Db.countIn
    rw [hinit.1]
    exact Nat.zero_le _
  · rw [hcall] at hc
    cases hc
  · rw [hcall] at hc
    cases hc

/-- In every run of unfiltered claims, with any transactions between their statements and any locks of others: no
workspace is claimed twice at a stage while another one, which is not claimed in between, has throughout a job that
a call could claim; and under a constant policy no workspace has more busy jobs than its ceiling. -/
theorem claims_rotate_within_ceiling :
    (∀ (s₀ s₁ s₂ : Scheduler) (first second : SchedulerEvent) (es : List SchedulerEvent) (stage : ClaimStage)
      (workspaceId : String) (x : Candidate), Reachable (scheduler T w) s₀ → s₀.step T w first = some s₁ →
      s₀.claimed first = some (workspaceId, stage) → x.workspaceId ≠ workspaceId →
      Trace (scheduler T w) (fun s ev => (∀ c, s.call = some c → s.obtainable stage c.now c.maxActiveJobs x = true) ∧
        s.claimed ev ≠ some (x.workspaceId, stage)) s₁ es s₂ →
      s₂.claimed second ≠ some (workspaceId, stage)) ∧
    ∀ (maxActiveJobs : Nat) (s : Scheduler), Reach (scheduler T w) (fun _ ev => ev.Keeps maxActiveJobs) s →
      ∀ workspaceId, s.world.db.countIn workspaceId (fun state => state = .inProgress) ≤
        s.world.db.ceiling maxActiveJobs workspaceId := by
  constructor
  · intro s₀ s₁ s₂ first second es stage workspaceId x hreach hfirst hclaimed hne htrace
    have hahead : s₁.Ahead stage x workspaceId := claimed_ahead hreach hfirst hclaimed hne
    have hlast : s₂.Ahead stage x workspaceId :=
      htrace.keeps (I := fun s => s.Ahead stage x workspaceId)
        (fun s ev t _ hI hok hstep => step_ahead hI hok.1 hok.2 hstep) hahead
    exact hlast.not_claimed
  · intro maxActiveJobs s hreach workspaceId
    exact (reach_within hreach).active workspaceId

end Ceiling

/-! ## Two workspaces -/

def emptyScheduler : Scheduler := ⟨emptyWorld, fun _ _ => 0, 0, ⟨[], [], []⟩, none⟩

def exporting (target workspaceId : String) : SchedulerEvent :=
  .world (.enqueue ⟨none, .prepareExport, .name target, [], none, none, 0, 20, none, false, workspaceId, none, 0⟩)

/-- Two jobs for each of two workspaces, and a call that has its window. -/
def twoWorkspaces : List SchedulerEvent :=
  [exporting "a" "u", exporting "b" "u", exporting "c" "v", exporting "d" "v", .begin (some 0) .processing 0 2, .query]

/-- The second job of the second workspace. -/
def secondOfV : Candidate := ⟨4, none, .prepareExport, "v"⟩

instance (maxActiveJobs : Nat) : (ev : SchedulerEvent) → Decidable (ev.Keeps maxActiveJobs)
  | .begin _ _ _ m => inferInstanceAs (Decidable (m = maxActiveJobs))
  | .policy _ => inferInstanceAs (Decidable False)
  | .query | .attempt _ | .exhausted | .world _ | .locks _ => inferInstanceAs (Decidable True)

theorem claims_rotate_within_ceiling_waiting : ∃ s₀ s₁ s₂, Reachable (scheduler plainText ⟨2, 1, 60⟩) s₀ ∧
    s₀.step plainText ⟨2, 1, 60⟩ (.attempt 10) = some s₁ ∧ s₀.claimed (.attempt 10) = some ("u", .processing) ∧
    Trace (scheduler plainText ⟨2, 1, 60⟩) (fun s ev => (∀ c, s.call = some c →
      s.obtainable .processing c.now c.maxActiveJobs secondOfV = true) ∧ s.claimed ev ≠ some ("v", .processing)) s₁
      [.begin (some 1) .processing 0 2, .query] s₂ ∧
    s₂.claimed (.attempt 11) = some ("v", .processing) ∧ s₂.claimed (.attempt 11) ≠ some ("u", .processing) ∧
    s₂.world.db.countIn "u" (fun state => state = .inProgress) = 1 ∧
    s₂.world.db.countIn "u" (fun state => state = .inProgress) ≤ s₂.world.db.ceiling 2 "u" := by
  have hrun : ((exec (scheduler plainText ⟨2, 1, 60⟩) (fun _ ev => ev.Keeps 2) emptyScheduler twoWorkspaces).any
      fun s₀ => s₀.claimed (.attempt 10) = some ("u", .processing) &&
        (s₀.step plainText ⟨2, 1, 60⟩ (.attempt 10)).any fun s₁ =>
          (exec (scheduler plainText ⟨2, 1, 60⟩) (fun s ev => ev.Keeps 2 ∧ (s.call.all fun c =>
            s.obtainable .processing c.now c.maxActiveJobs secondOfV) = true ∧
            s.claimed ev ≠ some ("v", .processing)) s₁ [.begin (some 1) .processing 0 2, .query]).any fun s₂ =>
              s₂.claimed (.attempt 11) = some ("v", .processing) &&
              s₂.world.db.countIn "u" (fun state => state = .inProgress) = 1) = true := by decide +kernel
  simp only [Option.any_eq_true, Bool.and_eq_true, decide_eq_true_eq] at hrun
  obtain ⟨s₀, h₀, hclaimed, s₁, h₁, s₂, h₂, hsecond, hcount⟩ := hrun
  have hreach : Reach (scheduler plainText ⟨2, 1, 60⟩) (fun _ ev => ev.Keeps 2) s₀ :=
    Reach.exec (.start ⟨⟨rfl, rfl, rfl, fun _ => rfl⟩, fun _ _ => rfl, rfl⟩) _ h₀
  have htrace := Trace.of_exec _ h₂
  have hwaits : Trace (scheduler plainText ⟨2, 1, 60⟩) (fun s ev => (∀ c, s.call = some c →
      s.obtainable .processing c.now c.maxActiveJobs secondOfV = true) ∧ s.claimed ev ≠ some ("v", .processing)) s₁
      [.begin (some 1) .processing 0 2, .query] s₂ := by
    refine htrace.mono fun s ev hok => ⟨fun c hc => ?_, hok.2.2⟩
    have hall := hok.2.1
    rw [hc] at hall
    exact hall
  have hreach₂ : Reach (scheduler plainText ⟨2, 1, 60⟩) (fun _ ev => ev.Keeps 2) s₂ :=
    (htrace.mono fun _ _ hok => hok.1).reach (.next hreach (e := .attempt 10) trivial h₁)
  have hall := claims_rotate_within_ceiling (T := plainText) (w := ⟨2, 1, 60⟩)
  exact ⟨s₀, s₁, s₂, hreach.reachable, h₁, hclaimed, hwaits, hsecond,
    hall.1 s₀ s₁ s₂ (.attempt 10) (.attempt 11) _ .processing "u" secondOfV hreach.reachable h₁ hclaimed (by decide) hwaits,
    hcount, hall.2 2 s₂ hreach₂ "u"⟩

/-- A workspace that is served in between has its turn, and may still have a job to be had throughout: `u`, `v` and
`u` are claimed in turn, and the second job of `v` waits for the next round. -/
theorem claimed_twice_beside_obtainable : ∃ s₀ s₁ s₂ s₃, Reachable (scheduler plainText ⟨2, 1, 60⟩) s₀ ∧
    s₀.step plainText ⟨2, 1, 60⟩ (.attempt 10) = some s₁ ∧ s₀.claimed (.attempt 10) = some ("u", .processing) ∧
    secondOfV.workspaceId ≠ "u" ∧
    Trace (scheduler plainText ⟨2, 1, 60⟩) (fun s _ => s.obtainable .processing 0 2 secondOfV = true) s₁
      [.begin (some 1) .processing 0 2, .query, .attempt 11, .begin (some 2) .processing 0 2, .query] s₂ ∧
    s₂.obtainable .processing 0 2 secondOfV = true ∧
    s₂.step plainText ⟨2, 1, 60⟩ (.attempt 12) = some s₃ ∧ s₂.claimed (.attempt 12) = some ("u", .processing) := by
  have hrun : ((exec (scheduler plainText ⟨2, 1, 60⟩) (fun _ _ => True) emptyScheduler twoWorkspaces).any
      fun s₀ => s₀.claimed (.attempt 10) = some ("u", .processing) &&
        (s₀.step plainText ⟨2, 1, 60⟩ (.attempt 10)).any fun s₁ =>
          (exec (scheduler plainText ⟨2, 1, 60⟩) (fun s _ => s.obtainable .processing 0 2 secondOfV = true) s₁
            [.begin (some 1) .processing 0 2, .query, .attempt 11, .begin (some 2) .processing 0 2, .query]).any
            fun s₂ => s₂.obtainable .processing 0 2 secondOfV && (s₂.step plainText ⟨2, 1, 60⟩ (.attempt 12)).isSome &&
              s₂.claimed (.attempt 12) = some ("u", .processing)) = true := by decide +kernel
  simp only [Option.any_eq_true, Bool.and_eq_true, decide_eq_true_eq, Option.isSome_iff_exists] at hrun
  obtain ⟨s₀, h₀, hclaimed, s₁, h₁, s₂, h₂, ⟨hobt, s₃, h₃⟩, hsecond⟩ := hrun
  exact ⟨s₀, s₁, s₂, s₃, Reach.exec (.start ⟨⟨rfl, rfl, rfl, fun _ => rfl⟩, fun _ _ => rfl, rfl⟩) _ h₀, h₁, hclaimed,
    by decide, Trace.of_exec _ h₂, hobt, h₃, hsecond⟩

end ChessCrawl.Jobs
