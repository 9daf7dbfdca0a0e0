import ChessCrawl.Jobs.Room

/-! The backlog of a workspace. Every transaction that commits jobs of a workspace holds its budget lock from its
count to its commit, so what it counted is what it commits on top of. -/
namespace ChessCrawl.Jobs
open ChessCrawl.Lib
set_option autoImplicit false

section Invariants
variable {T : Text} {w : WorkerSettings} {s t : Backlog} {n : Nat} {d d' : Draft} {new : List Tag}

/-! ## Steps -/

structure Backlog.Within (s : Backlog) : Prop where
  apart : s.Apart
  accounts : s.Accounts
  rooms : s.Rooms

theorem Backlog.Within.rollback (h : s.Within) (n : Nat) : (s.close n).Within :=
  ⟨h.apart.shrink rfl fun _ _ he => .inl (close_drafts he).2,
    h.accounts.shrink rfl rfl fun _ _ he => .inl (close_drafts he).2, h.rooms.rollback n⟩

/-- A session opens a transaction. -/
theorem Backlog.Within.opened (h : s.Within) (hnone : s.drafts n = none) (phase : Phase) :
    (s.put n (.start phase)).Within := by
  have hfree := h.rooms.idle n hnone
  have hdrafts : ∀ m e, (s.put n (.start phase)).drafts m = some e → s.drafts m = some e ∨ e = .start phase := by
    intro m e he
    simp only [Backlog.put] at he
    split at he
    · exact .inr (Option.some.inj he).symm
    · exact .inl he
  refine ⟨h.apart.shrink rfl fun m e he => ?_, h.accounts.shrink rfl rfl fun m e he => ?_,
    h.rooms.put rfl rfl (fun _ => rfl) (fun _ => .inl rfl) ?_ ?_ ?_⟩
  · rcases hdrafts m e he with he | rfl
    · exact .inl he
    · exact .inr rfl
  · rcases hdrafts m e he with he | rfl
    · exact .inl he
    · exact .inr ⟨rfl, rfl⟩
  · intro v policy hv
    exact (hfree v hv).elim
  · intro _ u hu
    cases hu
  · intro v _
    refine ⟨fun u hu => (by cases hu), hfree, fun r hr => (by cases hr)⟩

/-- A draft that differs only in its program: where it stands, what it has still to do, and its edges. -/
structure Draft.Resumes (d d' : Draft) : Prop where
  tags : d'.tags = d.tags
  runs : d'.runs = d.runs
  budgets : d'.budgets = d.budgets
  uncounted : d'.uncounted = d.uncounted

theorem Backlog.Within.resumed (h : s.Within) (hd : s.drafts n = some d) (hsame : d.Resumes d') : (s.put n d').Within := by
  have htags : d'.tags = d.tags ++ [] := by rw [hsame.tags, List.append_nil]
  refine ⟨h.apart.put hd htags (by simp) (by simp) (Nat.le_refl _) rfl rfl fun _ => rfl,
    h.accounts.put hd rfl rfl rfl (fun _ => rfl) (fun r hr => .inl (by rw [← hsame.runs]; exact hr)) hsame.budgets,
    h.rooms.put rfl rfl (fun _ => rfl) (fun _ => .inl rfl) ?_ ?_ ?_⟩
  · intro v policy hv hpolicy
    rw [hsame.tags]
    exact h.rooms.counted n d v policy hd hv hpolicy
  · intro hnone u hu
    rw [hsame.uncounted] at hnone
    rw [hsame.tags] at hu
    exact h.rooms.holds n d hd hnone u hu
  · intro v hv
    rw [hsame.uncounted] at hv
    rw [hsame.tags, hsame.runs]
    exact h.rooms.creating n d v hd hv

/-- A statement of a worker's transaction that counts before it inserts. -/
theorem Backlog.Within.guarded (h : s.Within) (hd : s.drafts n = some d) (hsame : d.Resumes d')
    (hcounted : d.uncounted = none) {workspaceId : String} {result : Except Failure Db}
    (hresult : ∀ db', result = .ok db' → (d'.view s.world.db).AddsWithin workspaceId db')
    (hstep : s.guarded n d' workspaceId result = some t) : t.Within := by
  unfold Backlog.guarded at hstep
  split at hstep
  · split at hstep
    · cases hstep
      exact h.rollback n
    · cases hstep
  next db' =>
  obtain ⟨new, hadds, hws, hroom⟩ := hresult db' rfl
  have htags : (d'.absorb s.world.db db').tags = d.tags ++ new := by rw [absorb_tags hadds.tags, hsame.tags]
  have hruns : (d'.absorb s.world.db db').runs = d.runs := by rw [absorb_runs hadds.runs, hsame.runs]
  have hbudgets : (d'.absorb s.world.db db').budgets = d.budgets := by rw [absorb_budgets hadds.budgets, hsame.budgets]
  have huncounted : (d'.absorb s.world.db db').uncounted = none := by
    rw [← hcounted, ← hsame.uncounted]
    rfl
  have happart : ∀ t : Backlog, t.world = (s.wrote n d' db').world → t.drafts = (s.wrote n d' db').drafts → t.Apart := by
    intro t hworld hdrafts
    refine h.apart.put hd htags hadds.ids ?_ ?_ ?_ ?_ fun m => ?_
    · rw [hworld]
      exact hadds.issued
    · rw [hworld]
      exact hadds.seq
    · rw [hworld]
      rfl
    · rw [hworld]
      rfl
    · rw [hdrafts]
      rfl
  have haccounts : ∀ t : Backlog, t.world = (s.wrote n d' db').world → t.drafts = (s.wrote n d' db').drafts →
      t.budgetSeq = s.budgetSeq → t.Accounts := by
    intro t hworld hdrafts hseq
    refine h.accounts.put hd hseq (by rw [hworld]; rfl) (by rw [hworld]; rfl) (fun m => by rw [hdrafts]; rfl) ?_ hbudgets
    intro r hr
    rw [hruns] at hr
    exact .inl hr
  have hcreating : ∀ v, (d'.absorb s.world.db db').uncounted ≠ some v := by
    intro v hv
    rw [huncounted] at hv
    cases hv
  split at hstep
  · next hlen =>
    cases hstep
    have hnil : new = [] := by
      have hlength := congrArg List.length hadds.tags
      simp only [Db.tags, List.length_append, List.length_map, hlen] at hlength
      exact List.eq_nil_of_length_eq_zero (by omega)
    rw [hnil, List.append_nil] at htags
    refine ⟨happart _ rfl rfl, haccounts _ rfl rfl rfl,
      h.rooms.put rfl rfl (fun _ => rfl) (fun _ => .inl rfl) ?_ ?_ fun v hv => (hcreating v hv).elim⟩
    · intro v policy hv hpolicy
      rw [htags]
      exact h.rooms.counted n d v policy hd hv hpolicy
    · intro _ u hu
      rw [htags] at hu
      exact h.rooms.holds n d hd hcounted u hu
  split at hstep
  · next hlen hgets =>
    cases hstep
    have hne : new ≠ [] := by
      intro hnil
      apply hlen
      have hlength := congrArg List.length hadds.tags
      simpa [hnil, Db.tags] using hlength
    have hgate : ∀ v, ((s.wrote n d' db').lock n workspaceId).gate v = if v = workspaceId then some n else s.gate v :=
      fun _ => rfl
    refine ⟨happart _ rfl rfl, haccounts _ rfl rfl rfl,
      h.rooms.put rfl rfl (fun _ => rfl) (fun v => ?_) ?_ ?_ fun v hv => (hcreating v hv).elim⟩
    · rw [hgate]
      split
      · next hv => exact .inr ⟨by rw [hv]; exact hgets, rfl⟩
      · exact .inl rfl
    · intro v policy hv hpolicy
      rw [htags, ← List.append_assoc]
      by_cases hvw : v = workspaceId
      · subst hvw
        have htotal : s.world.db.tags ++ d.tags ++ new = db'.tags := by rw [hadds.tags, view_tags, hsame.tags]
        rw [htotal]
        exact hroom hne policy hpolicy
      · rw [hgate, if_neg hvw] at hv
        have hzero : liveIn v new = 0 := liveIn_eq_zero fun u hu huv => hvw (huv.symm.trans (hws u hu))
        rw [liveIn_append, hzero]
        exact h.rooms.counted n d v policy hd hv hpolicy
    · intro _ u hu
      rw [htags] at hu
      rw [hgate]
      split
      · rfl
      · next hu' =>
        rcases List.mem_append.mp hu with hu | hu
        · exact h.rooms.holds n d hd hcounted u hu
        · exact (hu' (hws u hu)).elim
  · cases hstep

/-- A statement of a submission in front of its count. -/
theorem Backlog.Within.drafted (h : s.Within) (hd : s.drafts n = some d) {workspaceId : String}
    (hun : d.uncounted = some workspaceId) {db' : Db} (hun' : d'.uncounted = some workspaceId)
    (htags : d'.tags = d.tags ++ new) (hids : (new.map Prod.fst).Nodup)
    (hissued : ∀ u ∈ new, s.world.db.jobSeq < u.1 ∧ u.1 ≤ db'.jobSeq) (hseq : s.world.db.jobSeq ≤ db'.jobSeq)
    (hws : ∀ u ∈ new, u.2.1 = workspaceId)
    (hruns : ∀ r ∈ d'.runs, r ∈ d.runs ∨ r.workBudgetId = none ∧ r.workspaceId = workspaceId)
    (hbudgets : d'.budgets = d.budgets) : ((s.issue db').put n d').Within := by
  obtain ⟨htagsWs, hfree, hrunsWs⟩ := h.rooms.creating n d workspaceId hd hun
  refine ⟨h.apart.put hd htags hids hissued hseq rfl rfl fun _ => rfl,
    h.accounts.put hd rfl rfl rfl (fun _ => rfl) ?_ hbudgets,
    h.rooms.put rfl rfl (fun _ => rfl) (fun _ => .inl rfl) ?_ ?_ ?_⟩
  · intro r hr
    rcases hruns r hr with hr | hr
    · exact .inl hr
    · exact .inr hr.1
  · intro v policy hv
    exact (hfree v hv).elim
  · intro hnone
    rw [hun'] at hnone
    cases hnone
  · intro v hv
    cases hun'.symm.trans hv
    refine ⟨fun u hu => ?_, hfree, fun r hr => ?_⟩
    · rw [htags] at hu
      rcases List.mem_append.mp hu with hu | hu
      · exact htagsWs u hu
      · exact hws u hu
    · rcases hruns r hr with hr | hr
      · exact hrunsWs r hr
      · exact hr

theorem uncounted_creating {workspaceId : String} {runId : Option Nat} (h : d.phase = .creating workspaceId runId) :
    d.uncounted = some workspaceId := by
  simp [Draft.uncounted, h]

/-- `create_crawl_run` of a submission. -/
theorem Backlog.Within.created (h : s.Within) (hd : s.drafts n = some d) {workspaceId : String} {provider : Option String}
    {params : Params} {db' : Db} {runId : Nat} (hphase : d.phase = .creating workspaceId none)
    (hrun : (d.view s.world.db).createCrawlRun provider params workspaceId = .ok (runId, db')) :
    (s.wrote n { d with phase := .creating workspaceId (some db'.runSeq) } db').Within := by
  obtain ⟨_, rfl⟩ := createCrawlRun_ok hrun
  refine h.drafted hd (uncounted_creating hphase) rfl (absorb_tags (List.append_nil _).symm) (by simp) (by simp)
    (Nat.le_refl _) (by simp) ?_ ?_
  · intro r hr
    have hdrop : r ∈ ((s.world.db.runs ++ d.runs) ++
        ([⟨(d.view s.world.db).runSeq + 1, provider, params, .running, none, workspaceId, none⟩] : List Run)).drop
          s.world.db.runs.length := hr
    rw [List.append_assoc, List.drop_left] at hdrop
    rcases List.mem_append.mp hdrop with hr | hr
    · exact .inl hr
    · rw [List.mem_singleton.mp hr]
      exact .inr ⟨rfl, rfl⟩
  · exact absorb_budgets (d := d) rfl

/-- `enqueue_job` of a submission: its run has no budget yet, so nothing is counted. -/
theorem Backlog.Within.rooted (h : s.Within) (hd : s.drafts n = some d) {workspaceId : String} {runId : Nat} {e : Enqueue}
    {r : EnqueueResult} {db' : Db} (hphase : d.phase = .creating workspaceId (some runId)) (he : e.crawlRunId = some runId)
    {run : Run} (hrun : (d.view s.world.db).run runId = some run) (hown : run ∈ d.runs)
    (hjob : (d.view s.world.db).enqueueJob T e = .ok (r, db')) : (s.wrote n d db').Within := by
  have hun := uncounted_creating hphase
  have hownws := (h.rooms.creating n d workspaceId hd hun).2.2 run hown
  have hadds : ∃ new, (d.view s.world.db).Adds db' new ∧ ∀ u ∈ new, u.2.1 = workspaceId := by
    rcases enqueueJob_counts hjob with rfl | ⟨owner, howner, _, rfl⟩
    · exact ⟨[], .refl _, by simp⟩
    · refine ⟨_, inserted_adds _ e owner, ?_⟩
      unfold Db.inherited at howner
      rw [he] at howner
      simp only [hrun] at howner
      cases howner
      simp [hownws.2]
  obtain ⟨new, hadds, hws⟩ := hadds
  refine h.drafted hd hun hun (absorb_tags hadds.tags) hadds.ids hadds.issued hadds.seq hws ?_ (absorb_budgets hadds.budgets)
  intro r hr
  rw [absorb_runs hadds.runs] at hr
  exact .inl hr

/-- `admit_run_budget` has counted, and gives its budget to the run and its jobs. -/
theorem admitRun_ok {db db' : Db} {runId : Nat} {exhausted : Option String} {b : WorkBudget} {run : Run}
    (hrun : db.run runId = some run) (hnone : run.workBudgetId = none) (h : db.admitRun runId exhausted b = .ok db') :
    liveIn b.workspaceId db.tags ≤ (db.policy b.workspaceId b.policy).room ∧ db'.tags = db.tags ∧
      db'.jobSeq = db.jobSeq ∧ db'.budgets = db.budgets ++ [b] ∧
      db'.runs = db.runs.map fun (r : Run) => if r.id = runId then { r with workBudgetId := some b.id } else r := by
  unfold Db.admitRun at h
  rw [hrun] at h
  dsimp only at h
  split at h
  · cases h
  split at h
  · next hsome =>
    rw [hnone] at hsome
    cases hsome
  split at h
  · cases h
  split at h
  · cases h
  next hroom =>
  split at h
  · next db'' hentered =>
    cases h
    unfold Db.admitRunBudget at hentered
    split at hentered
    · cases hentered
      refine ⟨?_, ?_, rfl, rfl, rfl⟩
      · rw [← countIn_eq]
        exact Nat.le_of_not_lt hroom
      · simp only [Db.tags, Db.updateJobs, List.map_map]
        congr 1
        funext j
        simp only [Function.comp]
        split <;> rfl
    · cases hentered
  · cases h

theorem Backlog.Within.admitted (h : s.Within) (hd : s.drafts n = some d) {workspaceId : String} {runId : Nat}
    {exhausted : Option String} {policy : WorkspacePolicy} {db' : Db} {run : Run}
    (hphase : d.phase = .creating workspaceId (some runId)) (hrun : (d.view s.world.db).run runId = some run)
    (hown : run ∈ d.runs) (hgets : s.gets n workspaceId = true)
    (hentered : (d.view s.world.db).admitRun runId exhausted ⟨s.budgetSeq + 1, workspaceId, policy⟩ = .ok db') :
    ({ (s.wrote n { d with phase := .admitted } db').lock n workspaceId with budgetSeq := s.budgetSeq + 1 } :
      Backlog).Within := by
  obtain ⟨htagsWs, hfree, hrunsWs⟩ := h.rooms.creating n d workspaceId hd (uncounted_creating hphase)
  obtain ⟨hroom, htags', hseq, hbudgets', hruns'⟩ := admitRun_ok hrun (hrunsWs run hown).1 hentered
  have htags : (({ d with phase := .admitted } : Draft).absorb s.world.db db').tags = d.tags ++ [] :=
    absorb_tags (d := { d with phase := .admitted }) (htags'.trans (List.append_nil _).symm)
  have hbudgets : (({ d with phase := .admitted } : Draft).absorb s.world.db db').budgets =
      d.budgets ++ [⟨s.budgetSeq + 1, workspaceId, policy⟩] := by
    show db'.budgets.drop s.world.db.budgets.length = _
    rw [hbudgets']
    show ((s.world.db.budgets ++ d.budgets) ++ _).drop s.world.db.budgets.length = _
    rw [List.append_assoc, List.drop_left]
  have hruns : ∀ r ∈ (({ d with phase := .admitted } : Draft).absorb s.world.db db').runs, r.workspaceId = workspaceId ∧
      (r.workBudgetId = none ∨ r.workBudgetId = some (s.budgetSeq + 1)) := by
    intro r hr
    have hr' : r ∈ db'.runs.drop s.world.db.runs.length := hr
    have hdrop : (d.view s.world.db).runs.drop s.world.db.runs.length = d.runs := List.drop_left
    rw [hruns', ← List.map_drop, hdrop] at hr'
    obtain ⟨r₀, hr₀, rfl⟩ := List.mem_map.mp hr'
    have h₀ := hrunsWs r₀ hr₀
    split
    · exact ⟨h₀.2, .inr rfl⟩
    · exact ⟨h₀.2, .inl h₀.1⟩
  refine ⟨h.apart.put hd htags (by simp) (by simp) (Nat.le_of_eq hseq.symm) rfl rfl fun _ => rfl,
    h.accounts.admit hd rfl rfl rfl (fun _ => rfl) hruns hbudgets,
    h.rooms.put rfl rfl (fun _ => rfl) (fun v => ?_) ?_ ?_ ?_⟩
  · by_cases hv : v = workspaceId
    · exact .inr ⟨by rw [hv]; exact hgets, if_pos hv⟩
    · exact .inl (if_neg hv)
  · intro v stored hv hstored
    rw [htags, List.append_nil]
    by_cases hvw : v = workspaceId
    · subst hvw
      have hpolicy : (d.view s.world.db).policy v policy = stored := by
        show (s.world.db.policies.lookup v).getD policy = stored
        rw [hstored]
        rfl
      rw [← view_tags, ← hpolicy]
      exact hroom
    · have hv' : s.gate v = some n := (if_neg hvw).symm.trans hv
      exact (hfree v hv').elim
  · intro _ u hu
    rw [htags, List.append_nil] at hu
    exact if_pos (htagsWs u hu)
  · intro v hv
    cases hv

theorem Backlog.Within.step (h : s.Within) {ev : BacklogEvent} (hstep : s.step T w ev = some t) : t.Within := by
  cases ev with
  | world e =>
    simp only [Backlog.step] at hstep
    split at hstep
    · next hev =>
      obtain ⟨v, hv, rfl⟩ := Option.map_eq_some_iff.mp hstep
      exact ⟨h.apart.settled hev hv, h.accounts.settled hev hv, h.rooms.settled h.apart.sound hev hv⟩
    · cases hstep
  | submit n workspaceId =>
    simp only [Backlog.step] at hstep
    split at hstep
    · next hnone =>
      cases hstep
      exact h.opened (by simpa using hnone) _
    · cases hstep
  | create n provider params =>
    simp only [Backlog.step, Backlog.statement] at hstep
    obtain ⟨x, hx, hstep⟩ := Option.bind_eq_some_iff.mp hstep
    obtain ⟨d, hd, hx⟩ := Option.bind_eq_some_iff.mp hx
    split at hx
    · next workspaceId hphase =>
      cases hx
      cases hrun : (d.view s.world.db).createCrawlRun provider params workspaceId with
      | error e =>
        rw [hrun] at hstep
        cases hstep
        exact h.rollback n
      | ok r =>
        rw [hrun] at hstep
        cases hstep
        exact h.created hd hphase hrun
    · cases hx
  | root n e =>
    simp only [Backlog.step, Backlog.statement] at hstep
    obtain ⟨x, hx, rfl⟩ := Option.map_eq_some_iff.mp hstep
    obtain ⟨d, hd, hx⟩ := Option.bind_eq_some_iff.mp hx
    split at hx
    · next workspaceId runId hphase =>
      split at hx
      · next hcond =>
        cases hx
        obtain ⟨run, hrun, hown⟩ := Option.any_eq_true .. |>.mp hcond.2
        cases hjob : (d.view s.world.db).enqueueJob T e with
        | error e' => exact h.rollback n
        | ok r => exact h.rooted hd hphase hcond.1 hrun (by simpa using hown) hjob
      · cases hx
    · cases hx
  | admitRun n policy exhausted =>
    simp only [Backlog.step, Backlog.statement] at hstep
    obtain ⟨x, hx, hstep⟩ := Option.bind_eq_some_iff.mp hstep
    obtain ⟨d, hd, hx⟩ := Option.bind_eq_some_iff.mp hx
    split at hx
    · next workspaceId runId hphase =>
      split at hx
      · next hcond =>
        cases hx
        obtain ⟨run, hrun, hown⟩ := Option.any_eq_true .. |>.mp hcond
        split at hstep
        · next hgets =>
          cases hentered : (d.view s.world.db).admitRun runId exhausted ⟨s.budgetSeq + 1, workspaceId, policy⟩ with
          | error e =>
            rw [hentered] at hstep
            cases hstep
            exact h.rollback n
          | ok db' =>
            rw [hentered] at hstep
            cases hstep
            exact h.admitted hd hphase hrun (by simpa using hown) hgets hentered
        · cases hstep
      · cases hx
    · cases hx
  | work n =>
    simp only [Backlog.step] at hstep
    split at hstep
    · next hcond =>
      cases hstep
      exact h.opened (by simpa using hcond.1) _
    · cases hstep
  | child n e =>
    simp only [Backlog.step, Backlog.statement] at hstep
    obtain ⟨x, hx, hstep⟩ := Option.bind_eq_some_iff.mp hstep
    obtain ⟨d, hd, hx⟩ := Option.bind_eq_some_iff.mp hx
    split at hx
    · next hphase =>
      obtain ⟨workspaceId, hbudget, rfl⟩ := Option.map_eq_some_iff.mp hx
      obtain ⟨runId, hrun, hbudget⟩ := Option.bind_eq_some_iff.mp hbudget
      refine h.guarded hd ⟨rfl, rfl, rfl, rfl⟩ (by simp [Draft.uncounted, hphase]) (fun db' hdb' => ?_) hstep
      obtain ⟨_, hjob⟩ := map_snd_ok hdb'
      exact enqueueJob_within (h.accounts.funded hd) hrun hbudget hjob
    · cases hx
  | expand n edges =>
    simp only [Backlog.step] at hstep
    obtain ⟨d, hd, hstep⟩ := Option.bind_eq_some_iff.mp hstep
    obtain ⟨a, _, hstep⟩ := Option.bind_eq_some_iff.mp hstep
    split at hstep
    · split at hstep
      · split at hstep
        · cases hstep
        · cases hstep
          exact h.resumed hd ⟨rfl, rfl, rfl, rfl⟩
      · cases hstep
    · cases hstep
  | discover n r now =>
    simp only [Backlog.step, Backlog.statement] at hstep
    obtain ⟨x, hx, hstep⟩ := Option.bind_eq_some_iff.mp hstep
    obtain ⟨d, hd, hx⟩ := Option.bind_eq_some_iff.mp hx
    split at hx
    · next hphase _ _ =>
      split at hx
      · obtain ⟨workspaceId, hbudget, rfl⟩ := Option.map_eq_some_iff.mp hx
        have hsame : d.Resumes { d with frontier := d.frontier.tail } := ⟨rfl, rfl, rfl, rfl⟩
        have hfunded := h.accounts.funded hd
        refine h.guarded hd hsame (by simp [Draft.uncounted, hphase]) (fun db' hdb' => ?_) hstep
        show (d.view s.world.db).AddsWithin workspaceId db'
        split at hdb'
        · cases hdb'
          exact .refl _ _
        · exact discover_within hfunded hbudget hdb'
      · cases hx
    · cases hx
  | commit n =>
    simp only [Backlog.step] at hstep
    obtain ⟨d, hd, hstep⟩ := Option.bind_eq_some_iff.mp hstep
    split at hstep
    · next hphase =>
      cases hstep
      have hcounted : d.uncounted = none := by
        rcases hphase with hphase | hphase
        · simp [Draft.uncounted, hphase]
        · simp [Draft.uncounted, hphase.1]
      exact ⟨h.apart.commit hd _, h.accounts.commit hd _, h.rooms.commit hd hcounted _⟩
    · cases hstep
  | rollback n =>
    cases hstep
    exact h.rollback n

theorem backlog_within (h : Reachable (backlog T w) s) : s.Within := by
  refine Reachable.invariant (I := Backlog.Within) ?_ (fun _ _ _ hI hstep => hI.step hstep) h
  rintro s ⟨hinit, _, hgate, hdrafts⟩
  have hnone : ∀ {n d}, s.drafts n ≠ some d := by
    intro n d hd
    rw [hdrafts] at hd
    cases hd
  have htags : s.world.db.tags = [] := by rw [Db.tags, hinit.1, List.map_nil]
  have hworld : Reachable (workers T w) s.world := .start hinit
  refine ⟨⟨reach_sound hworld, fun _ _ hd => (hnone hd).elim,
    fun _ _ hd => (hnone hd).elim, fun _ _ _ _ _ hd => (hnone hd).elim⟩, ⟨?_, ?_⟩, ⟨?_, fun _ _ _ _ hd => (hnone hd).elim,
    fun _ _ hd => (hnone hd).elim, fun _ _ _ hd => (hnone hd).elim, ?_⟩⟩
  · rintro r (hr | ⟨n, d, hd, _⟩)
    · rw [hinit.2.1] at hr
      cases hr
    · exact (hnone hd).elim
  · rintro b (hb | ⟨n, d, hd, _⟩)
    · rw [hinit.2.2.1] at hb
      cases hb
    · exact (hnone hd).elim
  · intro v policy _
    rw [htags]
    exact Nat.zero_le _
  · intro n _ v hv
    rw [hgate] at hv
    cases hv

/-! ## Refusals -/

/-- A statement of the session finds no room. -/
def Backlog.Refuses (T : Text) (s : Backlog) (ev : BacklogEvent) (n : Nat) : Prop :=
  ∃ d workspaceId, s.statement T ev = some (n, d, workspaceId, .error (.quotaExceeded "queued_jobs"))

theorem refuses_close {ev : BacklogEvent} (h : s.Refuses T ev n) (hstep : s.step T w ev = some t) : t = s.close n := by
  obtain ⟨d, workspaceId, hstatement⟩ := h
  have hguarded : ∀ d', s.guarded n d' workspaceId (.error (.quotaExceeded "queued_jobs")) = some t → t = s.close n := by
    intro d' hguarded
    unfold Backlog.guarded at hguarded
    dsimp only at hguarded
    split at hguarded
    · exact (Option.some.inj hguarded).symm
    · cases hguarded
  cases ev with
  | create =>
    simp only [Backlog.step, hstatement] at hstep
    exact (Option.some.inj hstep).symm
  | root =>
    simp only [Backlog.step, hstatement] at hstep
    exact (Option.some.inj hstep).symm
  | admitRun =>
    simp only [Backlog.step, hstatement, Option.bind_some] at hstep
    split at hstep
    · exact (Option.some.inj hstep).symm
    · cases hstep
  | child =>
    simp only [Backlog.step, hstatement, Option.bind_some] at hstep
    exact hguarded _ hstep
  | discover =>
    simp only [Backlog.step, hstatement, Option.bind_some] at hstep
    exact hguarded _ hstep
  | _ => cases hstatement

/-- The tables that others see. -/
def Backlog.committed (s : Backlog) : List Job × List Run × List Edge := (s.world.db.jobs, s.world.db.runs, s.edges)

theorem guarded_committed {workspaceId : String} {result : Except Failure Db}
    (h : s.guarded n d workspaceId result = some t) : t.committed = s.committed := by
  unfold Backlog.guarded at h
  split at h
  · split at h
    · cases h
      rfl
    · cases h
  · split at h
    · cases h
      rfl
    split at h
    · cases h
      rfl
    · cases h

/-- Until a transaction commits, nothing of it is seen. -/
theorem step_committed {ev : BacklogEvent} (hstep : s.step T w ev = some t) (hworld : ∀ e, ev ≠ .world e)
    (hcommit : ∀ n, ev ≠ .commit n) : t.committed = s.committed := by
  cases ev with
  | world e => exact (hworld e rfl).elim
  | commit n => exact (hcommit n rfl).elim
  | submit n workspaceId =>
    simp only [Backlog.step] at hstep
    split at hstep
    · cases hstep
      rfl
    · cases hstep
  | create n provider params =>
    obtain ⟨x, _, hstep⟩ := Option.bind_eq_some_iff.mp hstep
    split at hstep
    · cases hstep
      rfl
    · cases hstep
      rfl
  | root n e =>
    obtain ⟨x, _, rfl⟩ := Option.map_eq_some_iff.mp hstep
    split
    · rfl
    · rfl
  | admitRun n policy exhausted =>
    obtain ⟨x, _, hstep⟩ := Option.bind_eq_some_iff.mp hstep
    split at hstep
    · cases hstep
      split
      · rfl
      · rfl
    · cases hstep
  | work n =>
    simp only [Backlog.step] at hstep
    split at hstep
    · cases hstep
      rfl
    · cases hstep
  | child n e =>
    obtain ⟨x, _, hstep⟩ := Option.bind_eq_some_iff.mp hstep
    exact guarded_committed hstep
  | expand n edges =>
    obtain ⟨d, _, hstep⟩ := Option.bind_eq_some_iff.mp hstep
    obtain ⟨a, _, hstep⟩ := Option.bind_eq_some_iff.mp hstep
    split at hstep
    · split at hstep
      · split at hstep
        · cases hstep
        · cases hstep
          rfl
      · cases hstep
    · cases hstep
  | discover n r now =>
    obtain ⟨x, _, hstep⟩ := Option.bind_eq_some_iff.mp hstep
    exact guarded_committed hstep
  | rollback n =>
    cases hstep
    rfl

/-- The backlog of a workspace stays within its policy in every committed state. A transaction that is refused for
lack of room is gone, and neither it nor any other one shows in the tables before it commits. -/
theorem workspace_backlog_bounded (h : Reachable (backlog T w) s) :
    (∀ workspaceId policy, s.world.db.policies.lookup workspaceId = some policy →
      s.world.db.countIn workspaceId JobState.live ≤ policy.maxQueuedJobs + policy.maxActiveJobs) ∧
    (∀ ev n t, s.Refuses T ev n → s.step T w ev = some t →
      t.drafts n = none ∧ t.world.db.jobs = s.world.db.jobs ∧ t.edges = s.edges ∧ t.world.db.runs = s.world.db.runs) ∧
    (∀ ev t, s.step T w ev = some t → (∀ e, ev ≠ .world e) → (∀ n, ev ≠ .commit n) →
      t.world.db.jobs = s.world.db.jobs ∧ t.edges = s.edges ∧ t.world.db.runs = s.world.db.runs) := by
  have hwithin := backlog_within h
  refine ⟨fun v policy hpolicy => ?_, fun ev n t hrefuses hstep => ?_, fun ev t hstep hworld hcommit => ?_⟩
  · rw [countIn_eq]
    exact hwithin.rooms.bound v policy hpolicy
  · rw [refuses_close hrefuses hstep]
    exact ⟨by simp [Backlog.close], rfl, rfl, rfl⟩
  · have hsame := step_committed hstep hworld hcommit
    simp only [Backlog.committed, Prod.mk.injEq] at hsame
    exact ⟨hsame.1, hsame.2.2, hsame.2.1⟩

end Invariants

/-! ## A full workspace -/

def roomForTwo : Backlog :=
  ⟨⟨⟨[], 0, [], 0, [], [("w", ⟨1, 1⟩)], []⟩, fun _ => none⟩, [], 0, fun _ => none, fun _ => none⟩

/-- A request of a submitted crawl. -/
def crawlRequest (runId : Nat) (username : String) : Enqueue :=
  rootRequest plainText "lichess" username 0 10 ⟨2, 5, 5, 5⟩ runId "w" 0

/-- Two submissions insert before either counts. The first one's job is claimed and expands to two opponents, of
whom the second finds no room; the other submission then fills the workspace, and a third one is to be refused. -/
def crowding : List BacklogEvent :=
  [.submit 0 "w", .create 0 (some "lichess") [], .root 0 (crawlRequest 1 "ann"),
    .submit 1 "w", .create 1 (some "lichess") [], .root 1 (crawlRequest 2 "bob"),
    .admitRun 0 ⟨1, 1⟩ none, .commit 0, .world (.claim 7 1 5 1 70), .world (.readDepth 7), .work 7,
    .expand 7 ["carl", "dora"], .discover 7 ⟨[], []⟩ 6, .discover 7 ⟨[], []⟩ 6,
    .admitRun 1 ⟨1, 1⟩ none, .commit 1,
    .submit 2 "w", .create 2 (some "lichess") [], .root 2 (crawlRequest 3 "eve")]

def queueFull : Except Failure Db → Bool
  | .error (.quotaExceeded dimension) => dimension = "queued_jobs"
  | _ => false

theorem workspace_backlog_full : ∃ s, Reachable (backlog plainText ⟨2, 1, 60⟩) s ∧
    s.world.db.jobs.map Job.id = [1, 2] ∧ s.edges = [] ∧ s.world.db.countIn "w" JobState.live ≤ 2 ∧
    ∀ t, s.step plainText ⟨2, 1, 60⟩ (.admitRun 2 ⟨1, 1⟩ none) = some t →
      t.drafts 2 = none ∧ t.world.db.jobs = s.world.db.jobs := by
  obtain ⟨s, hs, htest⟩ := Reach.of_exec (backlog plainText ⟨2, 1, 60⟩) (fun _ _ => True) (s := roomForTwo)
    ⟨⟨rfl, rfl, rfl, fun _ => rfl⟩, rfl, fun _ => rfl, fun _ => rfl⟩ crowding
    (fun s => s.world.db.jobs.map Job.id = [1, 2] && s.edges = [] &&
      s.world.db.policies.lookup "w" = some ⟨1, 1⟩ &&
      (s.statement plainText (.admitRun 2 ⟨1, 1⟩ none)).any fun x =>
        x.1 = 2 && queueFull x.2.2.2) (by decide +kernel)
  simp only [Bool.and_eq_true, decide_eq_true_eq] at htest
  obtain ⟨⟨⟨hids, hedges⟩, hpolicy⟩, hstatement⟩ := htest
  obtain ⟨hbound, hrefused, _⟩ := workspace_backlog_bounded hs
  refine ⟨s, hs, hids, hedges, hbound "w" ⟨1, 1⟩ hpolicy, fun t hstep => ?_⟩
  obtain ⟨⟨n, d, v, result⟩, hx, hn⟩ := Option.any_eq_true .. |>.mp hstatement
  simp only [Bool.and_eq_true, decide_eq_true_eq] at hn
  obtain ⟨rfl, hresult⟩ := hn
  unfold queueFull at hresult
  split at hresult
  · next _ dimension =>
    have hdimension : dimension = "queued_jobs" := by simpa using hresult
    subst hdimension
    have hrefuses : s.Refuses plainText (.admitRun 2 ⟨1, 1⟩ none) 2 := ⟨d, v, hx⟩
    obtain ⟨hdraft, hjobs, _⟩ := hrefused _ 2 t hrefuses hstep
    exact ⟨hdraft, hjobs⟩
  · cases hresult

end ChessCrawl.Jobs
