import ChessCrawl.Jobs.Drafts

/-! Invariants of the table and the drafts over it: ids are not shared, a run's budget is of its workspace, and a
draft that has counted holds the lock of its workspace and has room in it. -/
namespace ChessCrawl.Jobs
open ChessCrawl.Lib
set_option autoImplicit false

/-! ## Ids -/

section Invariants
variable {T : Text} {w : WorkerSettings} {s t : Backlog} {n : Nat} {d d' : Draft} {new : List Tag}

/-- Rows of the table and of all drafts have ids of their own. -/
structure Backlog.Apart (s : Backlog) : Prop where
  sound : s.world.Sound
  issued : ∀ n d, s.drafts n = some d → ∀ t ∈ d.tags, t.1 ≤ s.world.db.jobSeq
  ids : ∀ n d, s.drafts n = some d → ((s.world.db.tags ++ d.tags).map Prod.fst).Nodup
  drafts : ∀ n m d d', n ≠ m → s.drafts n = some d → s.drafts m = some d' → ∀ t ∈ d.tags, ∀ u ∈ d'.tags, t.1 ≠ u.1

theorem tags_ids (db : Db) : db.tags.map Prod.fst = db.jobs.map Job.id := by
  simp [Db.tags, Job.tag]

theorem Backlog.Apart.tag_le (h : s.Apart) {u : Tag} (hu : u ∈ s.world.db.tags) : u.1 ≤ s.world.db.jobSeq := by
  obtain ⟨j, hj, rfl⟩ := List.mem_map.mp hu
  exact h.sound.ids.issued j hj

/-- A draft gets rows with new ids; the committed rows stay. -/
theorem Backlog.Apart.put (h : s.Apart) (hd : s.drafts n = some d) (htags : d'.tags = d.tags ++ new)
    (hids : (new.map Prod.fst).Nodup) (hnew : ∀ u ∈ new, s.world.db.jobSeq < u.1 ∧ u.1 ≤ t.world.db.jobSeq)
    (hseq : s.world.db.jobSeq ≤ t.world.db.jobSeq) (hjobs : t.world.db.jobs = s.world.db.jobs)
    (hattempts : t.world.attempts = s.world.attempts)
    (hdrafts : ∀ m, t.drafts m = if m = n then some d' else s.drafts m) : t.Apart := by
  have htable : t.world.db.tags = s.world.db.tags := by rw [Db.tags, hjobs, Db.tags]
  have hother : ∀ m e, m ≠ n → t.drafts m = some e → s.drafts m = some e := by
    intro m e hm he
    rwa [hdrafts, if_neg hm] at he
  have hself : ∀ e, t.drafts n = some e → e = d' := by
    intro e he
    rw [hdrafts, if_pos rfl] at he
    exact (Option.some.inj he).symm
  -- an old row against a new one
  have hcross : ∀ m e, m ≠ n → s.drafts m = some e → ∀ u ∈ e.tags, ∀ v ∈ d'.tags, u.1 ≠ v.1 := by
    intro m e hm he u hu v hv
    rw [htags] at hv
    rcases List.mem_append.mp hv with hv | hv
    · exact h.drafts m n e d hm he hd u hu v hv
    · have h₁ := h.issued m e he u hu
      have h₂ := (hnew v hv).1
      omega
  refine ⟨⟨⟨?_, ?_⟩, ?_⟩, ?_, ?_, ?_⟩
  · rw [hjobs]
    exact h.sound.ids.nodup
  · intro j hj
    rw [hjobs] at hj
    exact Nat.le_trans (h.sound.ids.issued j hj) hseq
  · intro worker a ha
    rw [hattempts] at ha
    rw [hjobs]
    exact h.sound.held worker a ha
  · intro m e he u hu
    by_cases hm : m = n
    · subst hm
      rw [hself e he, htags] at hu
      rcases List.mem_append.mp hu with hu | hu
      · exact Nat.le_trans (h.issued m d hd u hu) hseq
      · exact (hnew u hu).2
    · exact Nat.le_trans (h.issued m e (hother m e hm he) u hu) hseq
  · intro m e he
    by_cases hm : m = n
    · subst hm
      rw [hself e he, htags, htable, ← List.append_assoc, List.map_append, List.nodup_append]
      refine ⟨h.ids m d hd, hids, fun a ha b hb => ?_⟩
      obtain ⟨u, hu, rfl⟩ := List.mem_map.mp ha
      obtain ⟨v, hv, rfl⟩ := List.mem_map.mp hb
      have h₂ := (hnew v hv).1
      rcases List.mem_append.mp hu with hu | hu
      · have h₁ := h.tag_le hu
        omega
      · have h₁ := h.issued m d hd u hu
        omega
    · rw [htable]
      exact h.ids m e (hother m e hm he)
  · intro m k e e' hmk he he' u hu v hv
    by_cases hm : m = n
    · subst hm
      rw [hself e he] at hu
      exact (hcross k e' (Ne.symm hmk) (hother k e' (Ne.symm hmk) he') v hv u hu).symm
    · by_cases hk : k = n
      · subst hk
        rw [hself e' he'] at hv
        exact hcross m e hm (hother m e hm he) u hu v hv
      · exact h.drafts m k e e' hmk (hother m e hm he) (hother k e' hk he') u hu v hv

/-- Fewer drafts over the same table. -/
theorem Backlog.Apart.shrink (h : s.Apart) (hworld : t.world = s.world)
    (hdrafts : ∀ m e, t.drafts m = some e → s.drafts m = some e ∨ e.tags = []) : t.Apart := by
  refine ⟨by rw [hworld]; exact h.sound, ?_, ?_, ?_⟩
  · intro m e he u hu
    rw [hworld]
    rcases hdrafts m e he with he | hnil
    · exact h.issued m e he u hu
    · rw [hnil] at hu
      cases hu
  · intro m e he
    rw [hworld]
    rcases hdrafts m e he with he | hnil
    · exact h.ids m e he
    · rw [hnil, List.append_nil, tags_ids]
      exact h.sound.ids.nodup
  · intro m k e e' hmk he he' u hu v hv
    rcases hdrafts m e he with he | hnil
    · rcases hdrafts k e' he' with he' | hnil'
      · exact h.drafts m k e e' hmk he he' u hu v hv
      · rw [hnil'] at hv
        cases hv
    · rw [hnil] at hu
      cases hu

theorem close_drafts {m : Nat} {e : Draft} (h : (s.close n).drafts m = some e) : m ≠ n ∧ s.drafts m = some e := by
  by_cases hm : m = n
  · simp [Backlog.close, hm] at h
  · simp only [Backlog.close, hm, if_false] at h
    exact ⟨hm, h⟩

/-- The rows of a draft join the table. -/
theorem Backlog.Apart.commit (h : s.Apart) (hd : s.drafts n = some d) (edges : List Edge) :
    (Backlog.close { s with world := s.world.withDb (d.view s.world.db), edges := edges } n).Apart := by
  refine ⟨⟨⟨?_, ?_⟩, ?_⟩, ?_, ?_, ?_⟩
  · show ((d.view s.world.db).jobs.map Job.id).Nodup
    rw [← tags_ids, view_tags]
    exact h.ids n d hd
  · intro j hj
    have htag : j.tag ∈ s.world.db.tags ++ d.tags := by
      rw [← view_tags]
      exact List.mem_map_of_mem hj
    show j.id ≤ s.world.db.jobSeq
    rcases List.mem_append.mp htag with htag | htag
    · exact h.tag_le htag
    · exact h.issued n d hd _ htag
  · intro worker a ha
    obtain ⟨j, hj, hsame⟩ := h.sound.held worker a ha
    exact ⟨d.patch j, List.mem_append_left _ (List.mem_map_of_mem hj), hsame.trans (patch_same d j)⟩
  · intro m e he u hu
    exact h.issued m e (close_drafts he).2 u hu
  · intro m e he
    obtain ⟨hm, he⟩ := close_drafts he
    show (((d.view s.world.db).tags ++ e.tags).map Prod.fst).Nodup
    have hids := h.ids m e he
    rw [List.map_append, List.nodup_append] at hids
    rw [view_tags, List.map_append, List.nodup_append]
    refine ⟨h.ids n d hd, hids.2.1, fun a ha b hb => ?_⟩
    obtain ⟨u, hu, rfl⟩ := List.mem_map.mp ha
    rcases List.mem_append.mp hu with hu | hu
    · exact hids.2.2 _ (List.mem_map_of_mem hu) b hb
    · obtain ⟨v, hv, rfl⟩ := List.mem_map.mp hb
      exact (h.drafts m n e d hm he hd v hv u hu).symm
  · intro m k e e' hmk he he' u hu v hv
    exact h.drafts m k e e' hmk (close_drafts he).2 (close_drafts he').2 u hu v hv

theorem Backlog.Apart.settled (h : s.Apart) {ev : Event} (hev : ev.settles = true) {v : World}
    (hstep : s.world.step T w ev = some v) : ({ s with world := v } : Backlog).Apart := by
  obtain ⟨hcalm, hseq⟩ := (step_writes h.sound hstep).calmed (asked_settles hev)
  have hids : v.db.tags.map Prod.fst = s.world.db.tags.map Prod.fst := by
    rw [tags_ids, tags_ids, calmed_ids hcalm]
  refine ⟨step_sound h.sound hstep, ?_, ?_, h.drafts⟩
  · intro m e he u hu
    show u.1 ≤ v.db.jobSeq
    rw [hseq]
    exact h.issued m e he u hu
  · intro m e he
    show ((v.db.tags ++ e.tags).map Prod.fst).Nodup
    rw [List.map_append, hids, ← List.map_append]
    exact h.ids m e he

/-! ## Budgets -/

def Backlog.HasRun (s : Backlog) (r : Run) : Prop :=
  r ∈ s.world.db.runs ∨ ∃ n d, s.drafts n = some d ∧ r ∈ d.runs

def Backlog.HasBudget (s : Backlog) (b : WorkBudget) : Prop :=
  b ∈ s.world.db.budgets ∨ ∃ n d, s.drafts n = some d ∧ b ∈ d.budgets

structure Backlog.Accounts (s : Backlog) : Prop where
  runs : ∀ r, s.HasRun r → ∀ id, r.workBudgetId = some id → id ≤ s.budgetSeq ∧
    ∀ b, s.HasBudget b → b.id = id → b.workspaceId = r.workspaceId
  budgets : ∀ b, s.HasBudget b → b.id ≤ s.budgetSeq

/-- A step that gives no run a budget. -/
theorem Backlog.Accounts.keep (h : s.Accounts) (hseq : t.budgetSeq = s.budgetSeq)
    (hruns : ∀ r, t.HasRun r → r.workBudgetId = none ∨
      ∃ r', s.HasRun r' ∧ r.workspaceId = r'.workspaceId ∧ r.workBudgetId = r'.workBudgetId)
    (hbudgets : ∀ b, t.HasBudget b → s.HasBudget b) : t.Accounts := by
  refine ⟨fun r hr id hid => ?_, fun b hb => ?_⟩
  · rcases hruns r hr with hnone | ⟨r', hr', hws, hbudget⟩
    · rw [hnone] at hid
      cases hid
    · obtain ⟨hle, hsame⟩ := h.runs r' hr' id (by rw [← hbudget, hid])
      rw [hseq, hws]
      exact ⟨hle, fun b hb => hsame b (hbudgets b hb)⟩
  · rw [hseq]
    exact h.budgets b (hbudgets b hb)

theorem Backlog.Accounts.funded (h : s.Accounts) (hd : s.drafts n = some d) : (d.view s.world.db).Funded := by
  intro run hrun id hid b hb
  have hhasRun : s.HasRun run := by
    rcases List.mem_append.mp hrun with hrun | hrun
    · exact .inl hrun
    · exact .inr ⟨n, d, hd, hrun⟩
  have hhasBudget : s.HasBudget b := by
    rcases List.mem_append.mp hb with hb | hb
    · exact .inl hb
    · exact .inr ⟨n, d, hd, hb⟩
  exact (h.runs run hhasRun id hid).2 b hhasBudget

/-- A draft with new runs that have no budget. -/
theorem Backlog.Accounts.put (h : s.Accounts) (hd : s.drafts n = some d) (hseq : t.budgetSeq = s.budgetSeq)
    (hruns : t.world.db.runs = s.world.db.runs) (hbudgets : t.world.db.budgets = s.world.db.budgets)
    (hdrafts : ∀ m, t.drafts m = if m = n then some d' else s.drafts m)
    (hdruns : ∀ r ∈ d'.runs, r ∈ d.runs ∨ r.workBudgetId = none) (hdbudgets : d'.budgets = d.budgets) : t.Accounts := by
  refine h.keep hseq (fun r hr => ?_) (fun b hb => ?_)
  · rcases hr with hr | ⟨m, e, he, hr⟩
    · rw [hruns] at hr
      exact .inr ⟨r, .inl hr, rfl, rfl⟩
    · rw [hdrafts] at he
      split at he
      · cases he
        rcases hdruns r hr with hr | hnone
        · exact .inr ⟨r, .inr ⟨n, d, hd, hr⟩, rfl, rfl⟩
        · exact .inl hnone
      · exact .inr ⟨r, .inr ⟨m, e, he, hr⟩, rfl, rfl⟩
  · rcases hb with hb | ⟨m, e, he, hb⟩
    · rw [hbudgets] at hb
      exact .inl hb
    · rw [hdrafts] at he
      split at he
      · cases he
        rw [hdbudgets] at hb
        exact .inr ⟨n, d, hd, hb⟩
      · exact .inr ⟨m, e, he, hb⟩

/-- Fewer drafts over the same tables. -/
theorem Backlog.Accounts.shrink (h : s.Accounts) (hseq : t.budgetSeq = s.budgetSeq) (hworld : t.world = s.world)
    (hdrafts : ∀ m e, t.drafts m = some e → s.drafts m = some e ∨ e.runs = [] ∧ e.budgets = []) : t.Accounts := by
  refine h.keep hseq (fun r hr => ?_) (fun b hb => ?_)
  · rcases hr with hr | ⟨m, e, he, hr⟩
    · rw [hworld] at hr
      exact .inr ⟨r, .inl hr, rfl, rfl⟩
    · rcases hdrafts m e he with he | ⟨hnil, _⟩
      · exact .inr ⟨r, .inr ⟨m, e, he, hr⟩, rfl, rfl⟩
      · rw [hnil] at hr
        cases hr
  · rcases hb with hb | ⟨m, e, he, hb⟩
    · rw [hworld] at hb
      exact .inl hb
    · rcases hdrafts m e he with he | ⟨_, hnil⟩
      · exact .inr ⟨m, e, he, hb⟩
      · rw [hnil] at hb
        cases hb

theorem Backlog.Accounts.commit (h : s.Accounts) (hd : s.drafts n = some d) (edges : List Edge) :
    (Backlog.close { s with world := s.world.withDb (d.view s.world.db), edges := edges } n).Accounts := by
  refine h.keep rfl (fun r hr => ?_) (fun b hb => ?_)
  · refine .inr ⟨r, ?_, rfl, rfl⟩
    rcases hr with hr | ⟨m, e, he, hr⟩
    · rcases List.mem_append.mp hr with hr | hr
      · exact .inl hr
      · exact .inr ⟨n, d, hd, hr⟩
    · exact .inr ⟨m, e, (close_drafts he).2, hr⟩
  · rcases hb with hb | ⟨m, e, he, hb⟩
    · rcases List.mem_append.mp hb with hb | hb
      · exact .inl hb
      · exact .inr ⟨n, d, hd, hb⟩
    · exact .inr ⟨m, e, (close_drafts he).2, hb⟩

theorem Backlog.Accounts.settled (h : s.Accounts) {ev : Event} (hev : ev.settles = true) {v : World}
    (hstep : s.world.step T w ev = some v) : ({ s with world := v } : Backlog).Accounts := by
  have hframes := settles_frames hev hstep
  refine h.keep rfl (fun r hr => ?_) (fun b hb => ?_)
  · rcases hr with hr | hr
    · obtain ⟨r', hr', hws, hbudget⟩ := hframes.runs r hr
      exact .inr ⟨r', .inl hr', hws, hbudget⟩
    · exact .inr ⟨r, .inr hr, rfl, rfl⟩
  · rcases hb with hb | hb
    · exact .inl (by rw [← hframes.budgets]; exact hb)
    · exact .inr hb

/-- A run gets a budget with a new id, in its own workspace. -/
theorem Backlog.Accounts.admit (h : s.Accounts) (hd : s.drafts n = some d) {workspaceId : String} {policy : WorkspacePolicy}
    (hseq : t.budgetSeq = s.budgetSeq + 1) (hruns : t.world.db.runs = s.world.db.runs)
    (hbudgets : t.world.db.budgets = s.world.db.budgets)
    (hdrafts : ∀ m, t.drafts m = if m = n then some d' else s.drafts m)
    (hdruns : ∀ r ∈ d'.runs, r.workspaceId = workspaceId ∧
      (r.workBudgetId = none ∨ r.workBudgetId = some (s.budgetSeq + 1)))
    (hdbudgets : d'.budgets = d.budgets ++ [⟨s.budgetSeq + 1, workspaceId, policy⟩]) : t.Accounts := by
  have hnew : ∀ b, t.HasBudget b → s.HasBudget b ∨ b = ⟨s.budgetSeq + 1, workspaceId, policy⟩ := by
    intro b hb
    rcases hb with hb | ⟨m, e, he, hb⟩
    · rw [hbudgets] at hb
      exact .inl (.inl hb)
    · rw [hdrafts] at he
      split at he
      · cases he
        rw [hdbudgets] at hb
        rcases List.mem_append.mp hb with hb | hb
        · exact .inl (.inr ⟨n, d, hd, hb⟩)
        · exact .inr (List.mem_singleton.mp hb)
      · exact .inl (.inr ⟨m, e, he, hb⟩)
  have hold : ∀ r, s.HasRun r → ∀ id, r.workBudgetId = some id → id ≤ t.budgetSeq ∧
      ∀ b, t.HasBudget b → b.id = id → b.workspaceId = r.workspaceId := by
    intro r hr id hid
    obtain ⟨hle, hsame⟩ := h.runs r hr id hid
    refine ⟨by omega, fun b hb hbid => ?_⟩
    rcases hnew b hb with hb | rfl
    · exact hsame b hb hbid
    · have hbid' : s.budgetSeq + 1 = id := hbid
      omega
  refine ⟨fun r hr id hid => ?_, fun b hb => ?_⟩
  · rcases hr with hr | ⟨m, e, he, hr⟩
    · rw [hruns] at hr
      exact hold r (.inl hr) id hid
    · rw [hdrafts] at he
      split at he
      · cases he
        obtain ⟨hws, hnone | hsome⟩ := hdruns r hr
        · rw [hnone] at hid
          cases hid
        · rw [hsome] at hid
          cases hid
          refine ⟨by omega, fun b hb hbid => ?_⟩
          rcases hnew b hb with hb | rfl
          · have := h.budgets b hb
            omega
          · exact hws.symm
      · exact hold r (.inr ⟨m, e, he, hr⟩) id hid
  · rcases hnew b hb with hb | rfl
    · have := h.budgets b hb
      omega
    · exact Nat.le_of_eq hseq.symm

/-! ## Room -/

/-- The workspace of a submission that has not counted yet. -/
def Draft.uncounted (d : Draft) : Option String :=
  match d.phase with
  | .creating workspaceId _ => some workspaceId
  | _ => none

/-- A draft that has counted holds the lock of every workspace that it adds to, and its workspace has room for it;
a submission in front of its count holds none. -/
structure Backlog.Rooms (s : Backlog) : Prop where
  bound : ∀ workspaceId policy, s.world.db.policies.lookup workspaceId = some policy →
    liveIn workspaceId s.world.db.tags ≤ policy.room
  counted : ∀ n d workspaceId policy, s.drafts n = some d → s.gate workspaceId = some n →
    s.world.db.policies.lookup workspaceId = some policy → liveIn workspaceId (s.world.db.tags ++ d.tags) ≤ policy.room
  holds : ∀ n d, s.drafts n = some d → d.uncounted = none → ∀ u ∈ d.tags, s.gate u.2.1 = some n
  creating : ∀ n d workspaceId, s.drafts n = some d → d.uncounted = some workspaceId →
    (∀ u ∈ d.tags, u.2.1 = workspaceId) ∧ (∀ v, s.gate v ≠ some n) ∧
      ∀ r ∈ d.runs, r.workBudgetId = none ∧ r.workspaceId = workspaceId
  idle : ∀ n, s.drafts n = none → ∀ v, s.gate v ≠ some n

/-- A new draft of a session, with locks that it could get. -/
theorem Backlog.Rooms.put (h : s.Rooms) (hjobs : t.world.db.jobs = s.world.db.jobs)
    (hpolicies : t.world.db.policies = s.world.db.policies)
    (hdrafts : ∀ m, t.drafts m = if m = n then some d' else s.drafts m)
    (hgate : ∀ v, t.gate v = s.gate v ∨ s.gets n v = true ∧ t.gate v = some n)
    (hcounted : ∀ v policy, t.gate v = some n → s.world.db.policies.lookup v = some policy →
      liveIn v (s.world.db.tags ++ d'.tags) ≤ policy.room)
    (hholds : d'.uncounted = none → ∀ u ∈ d'.tags, t.gate u.2.1 = some n)
    (hcreating : ∀ v, d'.uncounted = some v → (∀ u ∈ d'.tags, u.2.1 = v) ∧ (∀ v, t.gate v ≠ some n) ∧
      ∀ r ∈ d'.runs, r.workBudgetId = none ∧ r.workspaceId = v) : t.Rooms := by
  have htable : t.world.db.tags = s.world.db.tags := by rw [Db.tags, hjobs, Db.tags]
  have hother : ∀ m e, m ≠ n → t.drafts m = some e → s.drafts m = some e := by
    intro m e hm he
    rwa [hdrafts, if_neg hm] at he
  have hself : ∀ e, t.drafts n = some e → e = d' := by
    intro e he
    rw [hdrafts, if_pos rfl] at he
    exact (Option.some.inj he).symm
  -- nobody loses a lock, and nobody else gets one
  have hback : ∀ m v, m ≠ n → t.gate v = some m → s.gate v = some m := by
    intro m v hm hv
    rcases hgate v with heq | ⟨_, heq⟩
    · rw [← heq, hv]
    · rw [hv] at heq
      exact (hm (Option.some.inj heq)).elim
  have hkeep : ∀ m v, m ≠ n → s.gate v = some m → t.gate v = some m := by
    intro m v hm hv
    rcases hgate v with heq | ⟨hgets, _⟩
    · rw [heq, hv]
    · rw [Backlog.gets, hv] at hgets
      simp [hm] at hgets
  refine ⟨?_, ?_, ?_, ?_, ?_⟩
  · rw [hpolicies, htable]
    exact h.bound
  · intro m e v policy he hv hpolicy
    rw [hpolicies] at hpolicy
    rw [htable]
    by_cases hm : m = n
    · subst hm
      rw [hself e he]
      exact hcounted v policy hv hpolicy
    · exact h.counted m e v policy (hother m e hm he) (hback m v hm hv) hpolicy
  · intro m e he hnone u hu
    by_cases hm : m = n
    · subst hm
      rw [hself e he] at hnone hu
      exact hholds hnone u hu
    · exact hkeep m _ hm (h.holds m e (hother m e hm he) hnone u hu)
  · intro m e v he hv
    by_cases hm : m = n
    · subst hm
      rw [hself e he] at hv ⊢
      exact hcreating v hv
    · obtain ⟨hws, hfree, hruns⟩ := h.creating m e v (hother m e hm he) hv
      exact ⟨hws, fun v' hv' => hfree v' (hback m v' hm hv'), hruns⟩
  · intro m hnone v hv
    by_cases hm : m = n
    · subst hm
      rw [hdrafts, if_pos rfl] at hnone
      cases hnone
    · rw [hdrafts, if_neg hm] at hnone
      exact h.idle m hnone v (hback m v hm hv)

theorem close_gate {m : Nat} {v : String} (h : (s.close n).gate v = some m) : m ≠ n ∧ s.gate v = some m := by
  by_cases hv : s.gate v = some n
  · simp [Backlog.close, hv] at h
  · simp only [Backlog.close, hv, if_false] at h
    exact ⟨fun hm => hv (by rw [h, hm]), h⟩

theorem close_keeps {m : Nat} {v : String} (hm : m ≠ n) (h : s.gate v = some m) : (s.close n).gate v = some m := by
  simp [Backlog.close, h, hm]

/-- The end of a transaction over tables that have room for every draft that is left. -/
theorem Backlog.Rooms.close (h : s.Rooms) (hgate : t.gate = s.gate) (hdrafts : t.drafts = s.drafts)
    (hpolicies : t.world.db.policies = s.world.db.policies)
    (hbound : ∀ v policy, s.world.db.policies.lookup v = some policy → liveIn v t.world.db.tags ≤ policy.room)
    (hcounted : ∀ m e v policy, m ≠ n → s.drafts m = some e → s.gate v = some m →
      s.world.db.policies.lookup v = some policy → liveIn v (t.world.db.tags ++ e.tags) ≤ policy.room) :
    (t.close n).Rooms := by
  have hd : ∀ {m : Nat} {e : Draft}, (t.close n).drafts m = some e → m ≠ n ∧ s.drafts m = some e := by
    intro m e he
    obtain ⟨hm, he⟩ := close_drafts he
    exact ⟨hm, by rw [← hdrafts]; exact he⟩
  have hg : ∀ {m : Nat} {v : String}, (t.close n).gate v = some m → m ≠ n ∧ s.gate v = some m := by
    intro m v hv
    obtain ⟨hm, hv⟩ := close_gate hv
    exact ⟨hm, by rw [← hgate]; exact hv⟩
  refine ⟨?_, ?_, ?_, ?_, ?_⟩
  · intro v policy hpolicy
    exact hbound v policy (by rw [← hpolicies]; exact hpolicy)
  · intro m e v policy he hv hpolicy
    exact hcounted m e v policy (hd he).1 (hd he).2 (hg hv).2 (by rw [← hpolicies]; exact hpolicy)
  · intro m e he hnone u hu
    exact close_keeps (hd he).1 (by rw [hgate]; exact h.holds m e (hd he).2 hnone u hu)
  · intro m e v he hv
    obtain ⟨hws, hfree, hruns⟩ := h.creating m e v (hd he).2 hv
    exact ⟨hws, fun v' hv' => hfree v' (hg hv').2, hruns⟩
  · intro m hnone v hv
    obtain ⟨hm, hv⟩ := hg hv
    have hnone' : s.drafts m = none := by
      rw [← hdrafts]
      simpa [Backlog.close, hm] using hnone
    exact h.idle m hnone' v hv

theorem Backlog.Rooms.rollback (h : s.Rooms) (n : Nat) : (s.close n).Rooms :=
  h.close rfl rfl rfl h.bound fun m e v policy _ he hv hpolicy => h.counted m e v policy he hv hpolicy

/-- A draft that has counted becomes part of the table. -/
theorem Backlog.Rooms.commit (h : s.Rooms) (hd : s.drafts n = some d) (hcounted : d.uncounted = none)
    (edges : List Edge) :
    (Backlog.close { s with world := s.world.withDb (d.view s.world.db), edges := edges } n).Rooms := by
  have htags : ({ s with world := s.world.withDb (d.view s.world.db), edges := edges } : Backlog).world.db.tags =
      s.world.db.tags ++ d.tags := view_tags d s.world.db
  -- where the session holds no lock it adds nothing
  have hnothing : ∀ v, s.gate v ≠ some n → liveIn v d.tags = 0 := by
    intro v hv
    refine liveIn_eq_zero fun u hu huv => hv ?_
    rw [← huv]
    exact h.holds n d hd hcounted u hu
  refine h.close rfl rfl rfl ?_ ?_
  · intro v policy hpolicy
    rw [htags]
    by_cases hv : s.gate v = some n
    · exact h.counted n d v policy hd hv hpolicy
    · rw [liveIn_append, hnothing v hv]
      exact h.bound v policy hpolicy
  · intro m e v policy hm he hv hpolicy
    have hne : s.gate v ≠ some n := by
      rw [hv]
      exact fun heq => hm (Option.some.inj heq)
    have hroom := h.counted m e v policy he hv hpolicy
    rw [liveIn_append] at hroom
    rw [htags, liveIn_append, liveIn_append, hnothing v hne]
    exact hroom

theorem Backlog.Rooms.settled (h : s.Rooms) (hsound : s.world.Sound) {ev : Event} (hev : ev.settles = true) {v : World}
    (hstep : s.world.step T w ev = some v) : ({ s with world := v } : Backlog).Rooms := by
  obtain ⟨hcalm, _⟩ := (step_writes hsound hstep).calmed (asked_settles hev)
  have hframes := settles_frames hev hstep
  have hle : ∀ ws, liveIn ws v.db.tags ≤ liveIn ws s.world.db.tags := fun ws => calmed_liveIn hcalm ws
  refine ⟨?_, ?_, h.holds, h.creating, h.idle⟩
  · intro ws policy hpolicy
    have hroom := h.bound ws policy (by rw [← hframes.policies]; exact hpolicy)
    exact Nat.le_trans (hle ws) hroom
  · intro m e ws policy he hv hpolicy
    have hroom := h.counted m e ws policy he hv (by rw [← hframes.policies]; exact hpolicy)
    rw [liveIn_append] at hroom ⊢
    exact Nat.le_trans (Nat.add_le_add_right (hle ws) _) hroom

end Invariants
end ChessCrawl.Jobs
