import ChessCrawl.Application.ExactlyOnce

/-! The calls of one key from their beginning to their end: what a creation commits is one run with its jobs, and a
call that ends in a conflict or a refusal has left the rows alone in all its steps. -/
namespace ChessCrawl.Application
open ChessCrawl.Lib ChessCrawl.Jobs
set_option autoImplicit false

variable {β : Type}

/-! ## The rows of a creation -/

/-- One run, and jobs of that run that the call names. -/
structure Rows.Single (rows : Rows) : Prop where
  runs : rows.runs.map Run.id = [rows.runId]
  jobs : (rows.jobs.map Job.id).Sublist rows.jobIds
  owned : ∀ j ∈ rows.jobs, j.crawlRunId = some rows.runId

/-- Jobs of a run come behind the tables. -/
structure AddsJobs (db db' : Db) (runId : Nat) (ids : List Nat) : Prop where
  runs : db'.runs = db.runs
  jobs : ∃ jobs, db'.jobs = db.jobs ++ jobs ∧ (jobs.map Job.id).Sublist ids ∧ ∀ j ∈ jobs, j.crawlRunId = some runId

theorem AddsJobs.refl (db : Db) (runId : Nat) (ids : List Nat) : AddsJobs db db runId ids :=
  ⟨rfl, [], by simp, by simp, by simp⟩

theorem AddsJobs.trans {db db' db'' : Db} {runId : Nat} {ids ids' : List Nat} (h : AddsJobs db db' runId ids)
    (h' : AddsJobs db' db'' runId ids') : AddsJobs db db'' runId (ids ++ ids') := by
  obtain ⟨hruns, jobs, hjobs, hids, howned⟩ := h
  obtain ⟨hruns', jobs', hjobs', hids', howned'⟩ := h'
  refine ⟨hruns'.trans hruns, jobs ++ jobs', by rw [hjobs', hjobs, List.append_assoc], ?_, fun j hj => ?_⟩
  · rw [List.map_append]
    exact hids.append hids'
  · exact (List.mem_append.mp hj).elim (howned j) (howned' j)

theorem enqueueJob_adds {T : Text} {db db' : Db} {e : Enqueue} {r : EnqueueResult} {runId : Nat}
    (h : db.enqueueJob T e = .ok (r, db')) (hrun : e.crawlRunId = some runId) :
    AddsJobs db db' runId [r.jobId] ∧ (db' = db ∨ r.jobId = db'.jobSeq) := by
  have hrow : ∀ owner, AddsJobs db (db.inserted T e owner) runId [db.jobSeq + 1] := fun owner =>
    ⟨rfl, [e.row T (db.jobSeq + 1) owner], rfl, List.Sublist.refl _, fun j hj => by
      obtain rfl := List.mem_singleton.mp hj
      exact hrun⟩
  unfold Db.enqueueJob at h
  obtain ⟨_, _, h⟩ := bind_ok h
  split at h
  · cases h
    exact ⟨.refl .., .inl rfl⟩
  · obtain ⟨owner, _, h⟩ := bind_ok h
    split at h
    · cases h
    · split at h
      · obtain ⟨_, _, h⟩ := bind_ok h
        cases h
        exact ⟨hrow owner, .inr rfl⟩
      · cases h
        exact ⟨hrow owner, .inr rfl⟩

theorem raising_ok {α : Type} {db : Db} {x : Except Failure α} {a : α} (h : raising db x = .ok a) : x = .ok a := by
  cases x with
  | error e => cases h
  | ok b =>
    cases h
    rfl

/-- A run is opened, and jobs of it come behind. -/
theorem read_single {db db' : Db} {provider : Option String} {params : Params} {workspaceId : String} {ids jobIds : List Nat}
    (h : AddsJobs (db.opened provider params workspaceId) db' (db.runSeq + 1) ids) (hids : ids.Sublist jobIds) :
    (Rows.read (db.runSeq + 1) jobIds db db').Single := by
  obtain ⟨hruns, jobs, hjobs, hsub, howned⟩ := h
  have hdrop : db'.runs.drop db.runs.length = [⟨db.runSeq + 1, provider, params, .running, none, workspaceId, none⟩] := by
    rw [hruns]
    exact List.drop_left
  have hrest : db'.jobs.drop db.jobs.length = jobs := by
    rw [hjobs]
    exact List.drop_left
  refine ⟨?_, ?_, ?_⟩
  · change (db'.runs.drop db.runs.length).map Run.id = _
    rw [hdrop]
    rfl
  · change ((db'.jobs.drop db.jobs.length).map Job.id).Sublist jobIds
    rw [hrest]
    exact hsub.trans hids
  · change ∀ j ∈ db'.jobs.drop db.jobs.length, _
    rw [hrest]
    exact howned

theorem createArchiveJob_single {T : Text} {db view : Db} {strategy : String} {kind : JobKind} {workspaceId : String}
    {now : Int} {runId : Nat} {jobIds : List Nat}
    (h : createArchiveJob T db strategy kind workspaceId now = .ok ((runId, jobIds), view)) :
    (Rows.read runId jobIds db view).Single := by
  obtain ⟨⟨run, db₁⟩, hrun, h⟩ := bind_ok h
  obtain ⟨⟨job, db₂⟩, hjob, h⟩ := bind_ok h
  cases h
  obtain ⟨rfl, rfl⟩ := createCrawlRun_ok (raising_ok hrun)
  exact read_single (enqueueJob_adds (raising_ok hjob) rfl).1 (List.Sublist.refl _)

theorem create_single {T : Text} {db view : Db} {workspaceId : String} {now : Int} {refusal : Option Failure}
    {q : Request β} {runId : Nat} {jobIds : List Nat}
    (h : q.create T db workspaceId now refusal = .ok ((runId, jobIds), view)) : (Rows.read runId jobIds db view).Single := by
  cases q with
  | importGames r =>
    obtain ⟨⟨run, db₁⟩, hrun, h⟩ := bind_ok h
    obtain ⟨⟨profile, db₂⟩, hprofile, h⟩ := bind_ok h
    obtain ⟨⟨games, db₃⟩, hgames, h⟩ := bind_ok h
    cases h
    obtain ⟨rfl, rfl⟩ := createCrawlRun_ok (raising_ok hrun)
    have hboth := (enqueueJob_adds (raising_ok hprofile) rfl).1.trans (enqueueJob_adds (raising_ok hgames) rfl).1
    exact read_single hboth (List.Sublist.refl _)
  | crawl r =>
    obtain ⟨⟨run, db₁⟩, hrun, h⟩ := bind_ok h
    cases h
    obtain ⟨rfl, _, _, job, hjob⟩ := createOpponentCrawl_ok (raising_ok hrun)
    obtain ⟨hadds, hsame | hlast⟩ := enqueueJob_adds hjob rfl
    · -- the root was there: nothing is inserted
      subst hsame
      exact read_single (.refl _ _ []) (List.nil_sublist _)
    · rw [hlast] at hadds
      exact read_single hadds (List.Sublist.refl _)
  | root operation body provider params kind target =>
    obtain ⟨⟨run, db₁⟩, hrun, h⟩ := bind_ok h
    obtain ⟨⟨job, db₂⟩, hjob, h⟩ := bind_ok h
    cases h
    obtain ⟨rfl, rfl⟩ := createCrawlRun_ok (raising_ok hrun)
    exact read_single (enqueueJob_adds (raising_ok hjob) rfl).1 (List.Sublist.refl _)
  | buildWorkingSet body => exact createArchiveJob_single h
  | prepareExport body =>
    obtain ⟨⟨ids, db₁⟩, hcreate, h⟩ := bind_ok h
    cases refusal with
    | some e => cases h
    | none =>
      cases h
      exact createArchiveJob_single hcreate

theorem drop_map_append {α γ : Type} (f : α → γ) (l l' : List α) : ((l ++ l').map f).drop l.length = l'.map f := by
  rw [List.map_append, List.drop_left' (List.length_map f)]

/-- The admission gives the run and its jobs a budget. -/
theorem admit_single {number : String → Nat} {t : Tables β} {c : Call β} {rows rows' : Rows} {now : Int} {budgetSeq : Nat}
    (h : t.admit number c rows now = some (rows', budgetSeq)) (hrows : rows.Single) : rows'.Single := by
  unfold Tables.admit at h
  dsimp only at h
  split at h
  · cases h
  · obtain ⟨view, hview, h⟩ := Option.map_eq_some_iff.mp h
    cases h
    unfold Db.admitRunBudget at hview
    split at hview
    · cases hview
      refine ⟨?_, ?_, fun j hj => ?_⟩
      · change (List.map Run.id (List.drop t.db.runs.length (List.map _ (t.db.runs ++ rows.runs)))) = [rows.runId]
        rw [drop_map_append, List.map_map, ← hrows.runs]
        refine List.map_congr_left fun r _ => ?_
        dsimp only [Function.comp]
        split
        all_goals rfl
      · change (List.map Job.id (List.drop t.db.jobs.length (List.map _ (t.db.jobs ++ rows.jobs)))).Sublist rows.jobIds
        rw [drop_map_append, List.map_map]
        refine Eq.mpr (congrArg (fun ids => ids.Sublist rows.jobIds) (List.map_congr_left fun j _ => ?_)) hrows.jobs
        dsimp only [Function.comp]
        split
        all_goals rfl
      · change j ∈ List.drop t.db.jobs.length (List.map _ (t.db.jobs ++ rows.jobs)) at hj
        rw [drop_map_append] at hj
        obtain ⟨k, hk, rfl⟩ := List.mem_map.mp hj
        have howned := hrows.owned k hk
        dsimp only
        split
        all_goals exact howned
    · cases hview

/-! ## Calls -/

/-- Behind its creation a session holds the rows of one run. -/
def Stage.Single : Stage β → Prop
  | .created rows | .admitted rows | .recorded rows _ => rows.Single
  | _ => True

def Desk.Single (s : Desk β) : Prop := ∀ n c x, s.sessions n = some ⟨c, x⟩ → x.Single

theorem Desk.Single.stand {s u : Desk β} (h : s.Single) (hu : u.sessions = s.sessions) {n : Nat} {c : Call β}
    {x : Stage β} (hx : x.Single) : (u.stand n (some ⟨c, x⟩)).Single := by
  intro m d y hm
  simp only [stand_sessions, hu] at hm
  split at hm
  · cases hm
    exact hx
  · exact h m d y hm

theorem Desk.Single.leave {s u : Desk β} (h : s.Single) (hu : u.sessions = s.sessions) (n : Nat) : (u.stand n none).Single := by
  intro m d y hm
  simp only [stand_sessions, hu] at hm
  split at hm
  · cases hm
  · exact h m d y hm

section Calls
variable [DecidableEq β] {T : Text} {number : String → Nat} {s t : Desk β}

theorem act_single (h : s.Single) {n : Nat} {c : Call β} {x : Stage β} {e : Event β} (hn : s.sessions n = some ⟨c, x⟩)
    (hstep : s.act T number n c x e = some t) : t.Single := by
  have hx := h n c x hn
  unfold Desk.act at hstep
  split at hstep
  · cases hstep
    exact h.stand rfl trivial
  · split at hstep
    · cases hstep
      exact h.stand rfl trivial
    · cases hstep
  · split at hstep
    · cases hstep
      exact h.leave rfl n
    · cases hstep
      exact h.stand rfl trivial
  · split at hstep
    · cases hstep
      exact h.leave rfl n
    · next hcreate =>
      cases hstep
      exact h.stand rfl (create_single hcreate)
  · split at hstep
    · cases hstep
      exact h.leave rfl n
    · next hadmit =>
      cases hstep
      exact h.stand rfl (admit_single hadmit hx)
  · cases hstep
    exact h.stand rfl hx
  · split at hstep
    · cases hstep
      exact h.stand rfl trivial
    · cases hstep
      exact h.leave rfl n
  · cases hstep
    exact h.leave rfl n
  · cases hstep

theorem single_of_reachable (h : Reachable (submissions T number) s) : s.Single := by
  apply Reachable.invariant (I := Desk.Single) _ _ h
  · intro s hinit n c x hn
    rw [hinit.2.1 n] at hn
    cases hn
  · intro s e t hI hstep
    change s.step T number e = some t at hstep
    unfold Desk.step at hstep
    split at hstep
    · split at hstep
      · cases hstep
        exact hI.stand rfl trivial
      · cases hstep
    · cases hstep
      exact hI
    · cases hstep
      exact hI.leave rfl _
    · obtain ⟨n, _, hbind⟩ := Option.bind_eq_some_iff.mp hstep
      obtain ⟨x, hx, hact⟩ := Option.bind_eq_some_iff.mp hbind
      exact act_single hI hx hact

/-! ## From the beginning to the end of a call -/

/-- A session begins a call. -/
def Event.opens (n : Nat) : Event β → Bool
  | .begin m _ => m = n
  | _ => false

theorem moved_sessions {n : Nat} {e : Event β} (h : Moved number s e t) (he : e.session ≠ some n) (hopens : e.opens n = false) :
    t.sessions n = s.sessions n := by
  cases h with
  | @begun m c _ =>
    have hne : n ≠ m := by
      rintro rfl
      simp [Event.opens] at hopens
    exact if_neg hne
  | @wrote m c x y u e' he' _ _ _ _ _ _ =>
    have hne : n ≠ m := fun heq => he (heq ▸ he')
    exact if_neg hne
  | @refused m c x u e' he' _ _ _ _ =>
    have hne : n ≠ m := fun heq => he (heq ▸ he')
    exact if_neg hne
  | elsewhere => rfl
  | @tightened m | @locked m | @found m | @absent m | @committed m | @replied m | @crashed m =>
    have hne : n ≠ m := fun heq => he (congrArg some heq.symm)
    exact if_neg hne

/-- A call that has committed returns, or crashes. -/
theorem committed_leaves {n : Nat} {c : Call β} {runId : Nat} {jobIds : List Nat} {e : Event β} (h : Moved number s e t)
    (he : e.session = some n) (hn : s.sessions n = some ⟨c, .committed runId jobIds⟩) : t.sessions n = none := by
  have hstage : ∀ {d : Call β} {x : Stage β}, s.sessions n = some ⟨d, x⟩ → x = .committed runId jobIds := fun hd => by
    rw [hn] at hd
    cases hd
    rfl
  cases h with
  | begun _ => cases he
  | elsewhere => cases he
  | @wrote m d x y u e' he' hm hx _ _ _ _ =>
    cases he.symm.trans he'
    rw [hstage hm] at hx
    cases hx
  | @refused m d x u e' he' hm hx _ _ =>
    cases he.symm.trans he'
    rw [hstage hm] at hx
    cases hx
  | replied _ =>
    cases he
    exact if_pos rfl
  | crashed =>
    cases he
    exact if_pos rfl
  | tightened hm | locked hm _ | found hm _ | absent hm _ | committed hm _ =>
    cases he
    cases hstage hm

/-- Until its session begins another call. -/
theorem committed_stays {n : Nat} {c : Call β} {runId : Nat} {jobIds : List Nat} {es : List (Event β)}
    (h : Trace (submissions T number) (fun _ e => e.opens n = false) s es t)
    (hn : s.sessions n = some ⟨c, .committed runId jobIds⟩) :
    t.sessions n = some ⟨c, .committed runId jobIds⟩ ∨ t.sessions n = none := by
  refine Trace.keeps (I := fun t => t.sessions n = some ⟨c, .committed runId jobIds⟩ ∨ t.sessions n = none)
    (fun t e u _ ht hopens hstep => ?_) h (.inl hn)
  have hmoved := step_moved hstep
  by_cases he : e.session = some n
  · obtain ht | ht := ht
    · exact .inr (committed_leaves hmoved he ht)
    · have hnone : u.sessions n = none := by
        cases hmoved with
        | crashed =>
          cases he
          exact if_pos rfl
        | begun _ => cases he
        | elsewhere => cases he
        | wrote he' hm _ _ _ _ _ =>
          cases he.symm.trans he'
          cases ht.symm.trans hm
        | refused he' hm _ _ _ =>
          cases he.symm.trans he'
          cases ht.symm.trans hm
        | tightened hm | locked hm _ | found hm _ | absent hm _ | committed hm _ | replied hm =>
          cases he
          cases ht.symm.trans hm
      exact .inr hnone
  · rw [moved_sessions hmoved he hopens]
    exact ht

/-- A step of a call that goes on to a conflict or a refusal is none that commits. -/
theorem ended_sameRows (h : Reachable (submissions T number) s) {n : Nat} {c : Call β} {e e' : Event β} {v w : Desk β}
    {es : List (Event β)} {a : Answer} (he : e.session = some n) (hstep : s.step T number e = some t)
    (hrun : Trace (submissions T number) (fun _ e => e.opens n = false) t es v) (he' : e'.session = some n)
    (hend : v.step T number e' = some w) (hanswers : w.answers = v.answers ++ [(c, a)])
    (ha : a = .conflict ∨ a = .refused) : s.tables.SameRows t.tables := by
  obtain ⟨d, rows, _, _, _, hcommitted, _⟩ | ⟨hsame, _⟩ := step_effect (submitOk_of_reachable h) (step_moved hstep) he
  · -- after a commit there is no other end than the answer of the creation
    obtain hv | hv := committed_stays hrun hcommitted
    · obtain ⟨row, hm, _⟩ | ⟨x, u, hm, hx, _⟩ | ⟨runId, jobIds, hm, rfl⟩ :=
        step_ends (step_moved hend) he' hanswers
      · cases hv.symm.trans hm
      · cases hv.symm.trans hm
        cases hx
      · obtain ha | ha := ha <;> cases ha
    · obtain ⟨row, hm, _⟩ | ⟨x, u, hm, _⟩ | ⟨runId, jobIds, hm, _⟩ := step_ends (step_moved hend) he' hanswers
      all_goals cases hv.symm.trans hm
  · exact hsame

theorem end_sameRows {n : Nat} {c : Call β} {e : Event β} {a : Answer} (h : Moved number s e t) (he : e.session = some n)
    (hanswers : t.answers = s.answers ++ [(c, a)]) (ha : a = .conflict ∨ a = .refused) : s.tables.SameRows t.tables := by
  obtain ⟨row, _, _, _, rfl⟩ | ⟨x, u, _, _, hsame, _, rfl⟩ | ⟨runId, jobIds, _, rfl⟩ := step_ends h he hanswers
  · exact Tables.SameRows.refl _
  · exact hsame
  · obtain ha | ha := ha <;> cases ha

theorem created_filled {s₀ : Desk β} {es : List (Event β)} (hinit : (submissions T number).init s₀)
    (h : Trace (submissions T number) (fun _ _ => True) s₀ es s) :
    ∀ row ∈ s.created, row.request.filled row.operation = row.request := by
  have hboth : Reachable (submissions T number) s ∧
      ∀ row ∈ s.created, row.request.filled row.operation = row.request := by
    refine Trace.keeps (I := fun s => Reachable (submissions T number) s ∧
      ∀ row ∈ s.created, row.request.filled row.operation = row.request) (fun t e u _ ht _ hstep => ?_) h ⟨.start hinit, ?_⟩
    · refine ⟨.next ht.1 trivial hstep, fun row hrow => ?_⟩
      cases step_moved hstep with
      | @committed n c rows row' hn _ =>
        obtain hrow | hrow := List.mem_append.mp hrow
        · exact ht.2 row hrow
        · obtain rfl := List.mem_singleton.mp hrow
          obtain rfl := (submitOk_of_reachable ht.1).recorded n c rows row hn
          exact filled_canonical c.request
      | _ => exact ht.2 row hrow
    · obtain ⟨_, _, _, hcreated, _⟩ := hinit
      simp [hcreated]
  exact hboth.2

end Calls

end ChessCrawl.Application
