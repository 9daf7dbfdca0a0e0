import ChessCrawl.Jobs.Writes

/-! What each event asks of the tables. `step_writes` is the one lemma about the step function: a
step is a sequence of writes whose inserts are the requests of its event. -/
namespace ChessCrawl.Jobs
open ChessCrawl.Lib
set_option autoImplicit false

/-! ## Requests -/

/-- The identity of a normalization: an occurrence, a parser and a parent. -/
def normalizationKey (T : Text) (parent : Job) (rawPayloadId : Nat) (fetchLogId : Option Nat)
    (parserVersion : String) : DedupKey :=
  makeDedupKey T parent.provider .normalizePayload (.ref rawPayloadId)
    [("fetch_log_id", fetchLogId.elim Value.null fun n => .int n), ("parent_job_id", .int parent.id),
      ("parser_version", .text parserVersion)]
    parent.crawlRunId

/-- The insert of a normalization. -/
def normalizationRequest (T : Text) (parent : Job) (rawPayloadId : Nat) (fetchLogId : Option Nat)
    (maxGames : Option Int) (parserVersion : String) (now : Int) : Enqueue :=
  ⟨parent.provider, .normalizePayload, .ref rawPayloadId,
    [("fetch_log_id", fetchLogId.elim Value.null fun n => .int n), ("max_games", maxGames.elim .null .int),
      ("parser_version", .text parserVersion), ("raw_payload_id", .int rawPayloadId)],
    parent.crawlRunId, some parent.id, 0, 20,
    some (normalizationKey T parent rawPayloadId fetchLogId parserVersion), true, parent.workspaceId,
    parent.workBudgetId, now⟩

/-- The insert of the root of an opponent crawl. -/
def rootRequest (T : Text) (provider username : String) (since stop : Int) (b : CrawlBounds) (runId : Nat)
    (workspaceId : String) (now : Int) : Enqueue :=
  let seed := T.lower (T.strip username)
  ⟨some provider, .crawlOpponents, .name seed, crawlParams seed since stop b, some runId, none, 0, 10, none, false,
    workspaceId, none, now⟩

/-- An owner with its fence intact. -/
structure World.Owns (s : World) (worker : Nat) (a : Attempt) : Prop where
  attempt : s.attempts worker = some a
  fenced : s.db.fenced a.job.id a.token = true

/-- An expansion in the hands of a worker. -/
structure World.Expanding (s : World) (worker : Nat) (a : Attempt) (parent : Job) (depth runId : Nat)
    (provider : String) (b : CrawlBounds) : Prop where
  owns : s.Owns worker a
  reads : a.depth = some depth
  acquisition : s.db.acquisitionOf a.job = some parent
  run : parent.crawlRunId = some runId
  source : parent.provider = some provider
  bounds : parent.childParams.bounds = .ok b
  within : depth + 1 ≤ b.maxDepth

/-- What an expansion asks for a user: a job when the user is unknown and the caps have room, or the expansion
of a job that the user has. -/
inductive Db.AskedFor (T : Text) (db : Db) (parent : Job) (runId : Nat) (provider : String) (b : CrawlBounds)
    (nextDepth : Nat) (now : Int) (username : String) : Enqueue → Prop
  | opponent : db.knownCrawlDepth T runId provider username = none → db.crawlUserCount T runId < b.maxUsers →
      db.acquisitionJobCount runId < b.maxJobs →
      AskedFor T db parent runId provider b nextDepth now username
        (opponentRequest parent runId provider parent.childParams nextDepth now username)
  | promoted {p p' : Job} : p.crawls T runId provider username = true → p' ∈ db.jobs → p.Same p' →
      AskedFor T db parent runId provider b nextDepth now username
        (expansionRequest p (db.expansionDepth T p nextDepth) now)

section Requests
variable (T : Text) (s : World)

/-- The requests of an event, at the tables in front of them. -/
def World.Asked (db : Db) (e : Enqueue) : Event → Prop
  | .createOpponentCrawl provider username since stop b workspaceId now =>
    e = rootRequest T provider username since stop b (s.db.runSeq + 1) workspaceId now
  | .enqueue e' => e = e'
  | .capture worker rawPayloadId fetchLogId maxGames parserVersion now => ∃ a, s.Owns worker a ∧
    e = normalizationRequest T a.job rawPayloadId fetchLogId maxGames parserVersion now
  | .expansion worker now => ∃ a depth, s.Owns worker a ∧ a.depth = some depth ∧ a.job.kind = .crawlOpponents ∧
    a.job.crawlRunId.isSome ∧ e = expansionRequest a.job depth now
  | .expand worker edges _ now => ∃ a parent depth runId provider b, s.Expanding worker a parent depth runId provider b ∧
    ∃ username ∈ edges, db.AskedFor T parent runId provider b (depth + 1) now username e
  | _ => False

end Requests

/-! ## Identities -/

/-- Ids come from a sequence. -/
structure Db.Ids (db : Db) : Prop where
  nodup : (db.jobs.map Job.id).Nodup
  issued : ∀ j ∈ db.jobs, j.id ≤ db.jobSeq

theorem Db.Ids.unique {db : Db} (h : db.Ids) {j k : Job} (hj : j ∈ db.jobs) (hk : k ∈ db.jobs)
    (hid : j.id = k.id) : j = k := List.inj_on_of_nodup_map h.nodup hj hk hid

theorem Db.job_mem {db : Db} {id : Nat} {j : Job} (h : db.job id = some j) : j ∈ db.jobs ∧ j.id = id :=
  ⟨List.mem_of_find?_eq_some h, by simpa using List.find?_some h⟩

theorem Db.Ids.job {db : Db} (h : db.Ids) {j : Job} (hj : j ∈ db.jobs) : db.job j.id = some j := by
  unfold Db.job
  cases hfind : db.jobs.find? (fun k => k.id = j.id) with
  | none => simpa using List.find?_eq_none.mp hfind j hj
  | some k =>
    have hk : k ∈ db.jobs ∧ k.id = j.id := Db.job_mem hfind
    rw [h.unique hk.1 hj hk.2]

@[simp] theorem Db.updateJobs_jobs (db : Db) (sel : Job → Bool) (set : Job → Job) :
    (db.updateJobs sel set).jobs = db.jobs.map fun j => if sel j then set j else j := rfl

theorem updateJob_job {db : Db} {jobId : Nat} {j : Job} {g : Job → Job} (hg : ∀ k, (g k).id = k.id)
    (h : db.job jobId = some j) : (db.updateJob jobId g).job jobId = some (g j) := by
  have hcomp : ((fun k : Job => decide (k.id = jobId)) ∘ fun k => if decide (k.id = jobId) = true then g k else k) =
      fun k : Job => decide (k.id = jobId) := by
    funext k
    by_cases hk : k.id = jobId
    · simp [hk, hg]
    · simp [hk]
  unfold Db.job Db.updateJob Db.updateJobs
  dsimp only
  rw [List.find?_map, hcomp]
  unfold Db.job at h
  rw [h]
  simp [(Db.job_mem h).2]

section Persist
variable {T : Text} {maxRetries : Nat} {P : Db → Enqueue → Prop} {db db' : Db}

/-- What an update leaves of a row. -/
theorem Rewritten.row {sel : Job → Bool} {set : Job → Job}
    (h : ∀ j ∈ db.jobs, sel j = true → j.Rewritten maxRetries (set j)) {j : Job} (hj : j ∈ db.jobs) :
    (if sel j then set j else j) = j ∨ j.Rewritten maxRetries (if sel j then set j else j) := by
  by_cases hsel : sel j = true
  · rw [if_pos hsel]
    exact .inr (h j hj hsel)
  · rw [if_neg hsel]
    exact .inl rfl

theorem Rewritten.same {sel : Job → Bool} {set : Job → Job}
    (h : ∀ j ∈ db.jobs, sel j = true → j.Rewritten maxRetries (set j)) {j : Job} (hj : j ∈ db.jobs) :
    j.Same (if sel j then set j else j) := by
  rcases Rewritten.row h hj with hrow | hrow
  · rw [hrow]
    exact .refl j
  · exact hrow.same

theorem Db.Ids.insert (h : db.Ids) (e : Enqueue) (owner : String × Option Nat) : (db.inserted T e owner).Ids := by
  constructor
  · show ((db.jobs ++ [e.row T (db.jobSeq + 1) owner]).map Job.id).Nodup
    rw [List.map_append, List.nodup_append]
    refine ⟨h.nodup, by simp, fun a ha b hb => ?_⟩
    obtain ⟨j, hj, rfl⟩ := List.mem_map.mp ha
    have hle := h.issued j hj
    simp [Enqueue.row] at hb
    omega
  · intro j hj
    rcases List.mem_append.mp hj with hj | hj
    · exact Nat.le_succ_of_le (h.issued j hj)
    · rw [List.mem_singleton.mp hj]
      exact Nat.le_refl _

theorem Writes.ids (h : Writes T maxRetries P db db') (hids : db.Ids) : db'.Ids := by
  refine h.keeps (I := Db.Ids) ?_ ?_ ?_ hids
  · intro db db' h ht
    exact ⟨by rw [ht.jobs]; exact h.nodup, by rw [ht.jobs, ht.jobSeq]; exact h.issued⟩
  · intro db sel set h hset
    have hmap : (db.updateJobs sel set).jobs.map Job.id = db.jobs.map Job.id := by
      rw [Db.updateJobs_jobs, List.map_map]
      refine List.map_congr_left fun j hj => ?_
      exact (Rewritten.same hset hj).id
    refine ⟨by rw [hmap]; exact h.nodup, fun j hj => ?_⟩
    have hid : j.id ∈ db.jobs.map Job.id := hmap ▸ List.mem_map_of_mem hj
    obtain ⟨k, hk, hkj⟩ := List.mem_map.mp hid
    rw [← hkj]
    exact h.issued k hk
  · intro db e owner h _ _ _
    exact h.insert e owner

/-- A row stays, and its state when it is through; its depth only falls. -/
theorem Writes.row (h : Writes T maxRetries P db db') {j : Job} (hj : j ∈ db.jobs) :
    ∃ j' ∈ db'.jobs, j.Same j' ∧ j'.depth ≤ j.depth ∧ (j.state.terminal = true → j'.state = j.state) := by
  refine h.keeps (I := fun db => ∃ j' ∈ db.jobs, j.Same j' ∧ j'.depth ≤ j.depth ∧
    (j.state.terminal = true → j'.state = j.state)) ?_ ?_ ?_ ⟨j, hj, .refl j, Nat.le_refl _, fun _ => rfl⟩
  · intro db db' ⟨j', hj', hsame⟩ ht
    exact ⟨j', by rw [ht.jobs]; exact hj', hsame⟩
  · intro db sel set ⟨j', hj', hsame, hdepth, hstate⟩ hset
    refine ⟨_, List.mem_map_of_mem hj', ?_⟩
    rcases Rewritten.row hset hj' with hrow | hrow
    · rw [hrow]
      exact ⟨hsame, hdepth, hstate⟩
    · refine ⟨hsame.trans hrow.same, Nat.le_trans hrow.depth_le hdepth, fun hterm => ?_⟩
      have hj'term : j'.state.terminal = true := by rw [hstate hterm]; exact hterm
      rw [hrow.terminal hj'term, hstate hterm]
  · intro db e owner ⟨j', hj', hrest⟩ _ _ _
    exact ⟨j', List.mem_append_left _ hj', hrest⟩

/-- The inserts of a transaction happen at tables that it has written so far. -/
theorem Writes.located (h : Writes T maxRetries P db db') :
    Writes T maxRetries (fun db₁ e => P db₁ e ∧ Writes T maxRetries P db db₁) db db' := by
  induction h with
  | refl => exact .refl
  | tables _ ht ih => exact .tables ih ht
  | update sel set _ hset ih => exact .update sel set ih hset
  | insert owner hw hp hnone howner ih => exact .insert owner ih ⟨hp, hw⟩ hnone howner

end Persist

/-! ## Steps -/

theorem World.fencedBy_some {s t : World} {worker : Nat} {f : Attempt → Except Failure Db}
    (h : s.fencedBy worker f = some t) : ∃ a db, s.Owns worker a ∧ f a = .ok db ∧ t = s.withDb db := by
  obtain ⟨a, ha, h⟩ := Option.bind_eq_some_iff.mp h
  split at h
  · next hfence =>
    obtain ⟨db, hdb, rfl⟩ := Option.map_eq_some_iff.mp h
    exact ⟨a, db, ⟨ha, hfence⟩, toOption_some hdb, rfl⟩
  · cases h

/-- The row of an owner is in progress. -/
theorem World.Owns.inProgress {s : World} {worker : Nat} {a : Attempt} (h : s.Owns worker a) (hids : s.db.Ids)
    {j : Job} (hj : j ∈ s.db.jobs) (hid : j.id = a.job.id) :
    j.state = .inProgress ∧ j.ownershipToken = some a.token := by
  obtain ⟨k, hk, hrow⟩ := List.any_eq_true.mp h.fenced
  simp only [Bool.and_eq_true, decide_eq_true_eq] at hrow
  rw [hids.unique hj hk (hid.trans hrow.1.1.symm)]
  exact ⟨hrow.1.2, hrow.2⟩

section StepWrites
variable {T : Text} {w : WorkerSettings} {P : Db → Enqueue → Prop} {db db' : Db}

theorem claim_row {jobId maxActiveJobs : Nat} {now : Int} {token : Option Nat} {j : Job}
    (h : db.claim jobId now maxActiveJobs token = some (j, db')) :
    ∃ row ∈ db.jobs, row.id = jobId ∧ db.admissible now maxActiveJobs row = true ∧ j = row.claimed now token ∧
      db' = db.updateJob jobId fun row => row.claimed now token := by
  obtain ⟨row, hrow, h⟩ := Option.bind_eq_some_iff.mp h
  split at h
  · next hadm =>
    cases h
    exact ⟨row, (Db.job_mem hrow).1, (Db.job_mem hrow).2, hadm, rfl, rfl⟩
  · cases h

theorem claim_writes {jobId maxActiveJobs : Nat} {now : Int} {token : Option Nat} {j : Job} (hids : db.Ids)
    (h : db.claim jobId now maxActiveJobs token = some (j, db')) : Writes T w.jobMaxRetries P db db' := by
  obtain ⟨row, hrow, hid, hadm, _, rfl⟩ := claim_row h
  refine .update _ _ .refl fun k hk hsel => .claimed now token ?_
  have hkrow : k = row := hids.unique hk hrow (by simpa [hid] using hsel)
  unfold Db.admissible at hadm
  simp only [Bool.and_eq_true] at hadm
  rw [hkrow]
  exact hadm.1.1.1.1.2

theorem Db.Tables.refl (db : Db) : db.Tables db := ⟨rfl, rfl, Nat.le_refl _⟩

theorem Db.Tables.trans {db db' db'' : Db} (h : db.Tables db') (h' : db'.Tables db'') : db.Tables db'' :=
  ⟨h'.jobs.trans h.jobs, h'.jobSeq.trans h.jobSeq, Nat.le_trans h.runSeq h'.runSeq⟩

theorem Db.refreshRunStatus_tables (db : Db) (runId : Nat) (now : Int) : db.Tables (db.refreshRunStatus runId now) := by
  unfold Db.refreshRunStatus
  split
  · exact .refl db
  split
  · exact .refl db
  · exact ⟨rfl, rfl, Nat.le_refl _⟩

theorem Db.refreshCrawlRuns_tables (db : Db) (now : Int) (crawlRunId : Option Nat) :
    db.Tables (db.refreshCrawlRuns now crawlRunId) := by
  cases crawlRunId with
  | some runId => exact db.refreshRunStatus_tables runId now
  | none =>
    show db.Tables ((db.runs.map Run.id).foldl _ db)
    generalize db.runs.map Run.id = ids
    induction ids generalizing db with
    | nil => exact .refl db
    | cons runId ids ih => exact (db.refreshRunStatus_tables runId now).trans (ih _)

/-- What the outcome of an attempt leaves of its row. -/
theorem finished_rewritten {j : Job} (o : Outcome) (now : Int) (hs : j.state = .inProgress) :
    j.Rewritten w.jobMaxRetries (j.finished w o now) := by
  unfold Job.finished
  split
  · split
    · next hretry => exact .retried _ _ hs hretry
    · exact .marked _ _ _ hs
  · exact .marked _ _ _ hs

theorem Db.deferFor_tables (db : Db) (w : WorkerSettings) (j : Job) (o : Outcome) (now : Int) :
    db.Tables (db.deferFor w j o now) := by
  unfold Db.deferFor
  split
  · split
    · exact ⟨rfl, rfl, Nat.le_refl _⟩
    · exact .refl db
  · exact .refl db

theorem mergeDepth_writes (db : Db) (j : Job) : Writes T w.jobMaxRetries P db (db.mergeDepth T j) := by
  unfold Db.mergeDepth
  split
  · split
    · exact .update _ _ .refl fun _ _ _ => .merged _
    · exact .refl
  · exact .refl

theorem finishAttempt_writes {jobId : Nat} {o : Outcome} {now : Int}
    (hrow : ∀ j ∈ db.jobs, j.id = jobId → j.state = .inProgress)
    (h : db.finishAttempt T w jobId o now = .ok db') : Writes T w.jobMaxRetries P db db' := by
  unfold Db.finishAttempt at h
  split at h
  · cases h
  next j _ =>
  cases h
  have hdefer : Writes T w.jobMaxRetries P db (db.deferFor w j o now) :=
    .tables .refl (db.deferFor_tables w j o now)
  have hfinished : Writes T w.jobMaxRetries P db
      ((db.deferFor w j o now).updateJob jobId fun row => row.finished w o now) := by
    refine .update _ _ hdefer fun k hk hid => finished_rewritten o now (hrow k ?_ (by simpa using hid))
    rwa [(db.deferFor_tables w j o now).jobs] at hk
  have hmerged := hfinished.trans (mergeDepth_writes _ j)
  split
  · exact .tables hmerged (Db.refreshRunStatus_tables _ _ _)
  · exact hmerged

/-- The tables with a new run. -/
def Db.opened (db : Db) (provider : Option String) (params : Params) (workspaceId : String) : Db :=
  { db with
    runs := db.runs ++ [⟨db.runSeq + 1, provider, params, .running, none, workspaceId, none⟩]
    runSeq := db.runSeq + 1 }

theorem Db.opened_tables (db : Db) (provider : Option String) (params : Params) (workspaceId : String) :
    db.Tables (db.opened provider params workspaceId) := ⟨rfl, rfl, Nat.le_succ _⟩

theorem createCrawlRun_ok {provider : Option String} {params : Params} {workspaceId : String} {runId : Nat}
    (h : db.createCrawlRun provider params workspaceId = .ok (runId, db')) :
    runId = db.runSeq + 1 ∧ db' = db.opened provider params workspaceId := by
  unfold Db.createCrawlRun at h
  split at h
  · cases h
  · cases h
    exact ⟨rfl, rfl⟩

theorem createOpponentCrawl_ok {provider username workspaceId : String} {since stop now : Int} {b : CrawlBounds}
    {runId : Nat} (h : db.createOpponentCrawl T provider username since stop b workspaceId now = .ok (runId, db')) :
    runId = db.runSeq + 1 ∧ 0 < b.maxUsers ∧ 0 < b.maxJobs ∧ ∃ r,
      (db.opened (some provider) (crawlParams (T.lower (T.strip username)) since stop b) workspaceId).enqueueJob T
        (rootRequest T provider username since stop b (db.runSeq + 1) workspaceId now) = .ok (r, db') := by
  unfold Db.createOpponentCrawl at h
  split at h
  · cases h
  next hpos =>
  split at h
  · cases h
  obtain ⟨⟨run, db₁⟩, hrun, h⟩ := bind_ok h
  obtain ⟨⟨r, db₂⟩, hjob, h⟩ := bind_ok h
  cases h
  obtain ⟨rfl, rfl⟩ := createCrawlRun_ok hrun
  exact ⟨rfl, by omega, by omega, r, hjob⟩

theorem createOpponentCrawl_writes {provider username workspaceId : String} {since stop now : Int} {b : CrawlBounds}
    {runId : Nat}
    (hP : ∀ db₁, P db₁ (rootRequest T provider username since stop b (db.runSeq + 1) workspaceId now))
    (h : db.createOpponentCrawl T provider username since stop b workspaceId now = .ok (runId, db')) :
    Writes T w.jobMaxRetries P db db' := by
  obtain ⟨_, _, _, r, hjob⟩ := createOpponentCrawl_ok h
  have htables : Writes T w.jobMaxRetries P db
      (db.opened (some provider) (crawlParams (T.lower (T.strip username)) since stop b) workspaceId) :=
    .tables .refl (db.opened_tables _ _ _)
  exact htables.trans (enqueueJob_writes (hP _) hjob)

theorem resumeRunBudget_writes {runId : Nat} {workspaceId : String}
    (h : db.resumeRunBudget runId workspaceId = .ok db') : Writes T w.jobMaxRetries P db db' := by
  unfold Db.resumeRunBudget at h
  split at h
  · cases h
  split at h
  · cases h
    refine .update _ _ .refl fun j _ hsel => .released ?_
    simp only [Bool.and_eq_true, decide_eq_true_eq] at hsel
    exact hsel.1.2
  · cases h

theorem admitRunBudget_writes {runId : Nat} {b : WorkBudget} (h : db.admitRunBudget runId b = some db') :
    Writes T w.jobMaxRetries P db db' := by
  unfold Db.admitRunBudget at h
  split at h
  · cases h
    exact .update _ _ (.tables .refl ⟨rfl, rfl, Nat.le_refl _⟩) fun _ _ _ => .budgeted b.id
  · cases h

theorem World.Expanding.expands {s : World} {worker : Nat} {a : Attempt} {parent : Job} {depth runId : Nat}
    {provider : String} {b : CrawlBounds} (h : s.Expanding worker a parent depth runId provider b) {edges : List String}
    {r : Race} {now : Int} {username : String} (hu : username ∈ edges) :
    Expands T w.jobMaxRetries (fun db e => s.Asked T db e (.expand worker edges r now)) s.db parent runId provider
      parent.childParams b (depth + 1) now username := by
  constructor
  · intro db₁ _ hnone husers hjobs
    exact ⟨a, parent, depth, runId, provider, b, h, username, hu, .opponent hnone husers hjobs⟩
  · intro db₁ _ p hp hcrawls db₂ hw
    obtain ⟨p', hp', hsame, _⟩ := hw.row hp
    exact ⟨a, parent, depth, runId, provider, b, h, username, hu, .promoted hcrawls hp' hsame⟩

theorem expand_writes {s : World} {worker depth : Nat} {edges : List String} {r : Race} {now : Int} {a : Attempt}
    {parent : Job} (howns : s.Owns worker a) (hdepth : a.depth = some depth)
    (hparent : s.db.acquisitionOf a.job = some parent)
    (h : s.db.expandOpponentFrontier T parent depth edges r now = .ok db') :
    Writes T w.jobMaxRetries (fun db e => s.Asked T db e (.expand worker edges r now)) s.db db' := by
  refine expandOpponentFrontier_writes (fun runId provider b hrun hprovider hb hd username hu => ?_) h
  have hexp : s.Expanding worker a parent depth runId provider b := ⟨howns, hdepth, hparent, hrun, hprovider, hb, hd⟩
  exact hexp.expands hu

/-- Ids identify rows, and whatever a worker holds is in the table. -/
structure World.Sound (s : World) : Prop where
  ids : s.db.Ids
  held : ∀ worker a, s.attempts worker = some a → ∃ j ∈ s.db.jobs, a.job.Same j

/-- Every step writes only its own requests. -/
theorem step_writes {s t : World} {ev : Event} (hs : s.Sound) (h : s.step T w ev = some t) :
    Writes T w.jobMaxRetries (fun db e => s.Asked T db e ev) s.db t.db := by
  have hids := hs.ids
  cases ev with
  | createRun provider params workspaceId =>
    obtain ⟨⟨_, db⟩, hr, rfl⟩ := Option.map_eq_some_iff.mp h
    obtain ⟨_, rfl⟩ := createCrawlRun_ok (toOption_some hr)
    exact .tables .refl (s.db.opened_tables _ _ _)
  | createOpponentCrawl provider username since stop b workspaceId now =>
    obtain ⟨⟨_, db⟩, hr, rfl⟩ := Option.map_eq_some_iff.mp h
    exact createOpponentCrawl_writes (fun _ => rfl) (toOption_some hr)
  | enqueue e =>
    obtain ⟨⟨_, db⟩, hr, rfl⟩ := Option.map_eq_some_iff.mp h
    exact enqueueJob_writes rfl (toOption_some hr)
  | admitBudget runId b =>
    obtain ⟨db, hr, rfl⟩ := Option.map_eq_some_iff.mp h
    exact admitRunBudget_writes hr
  | cancel runId =>
    cases h
    exact .tables .refl ⟨rfl, rfl, Nat.le_refl _⟩
  | claim worker jobId now maxActiveJobs token =>
    replace h : (if _ then _ else _) = some t := h
    split at h
    · obtain ⟨⟨_, db⟩, hr, rfl⟩ := Option.map_eq_some_iff.mp h
      exact claim_writes hids hr
    · cases h
  | capture worker rawPayloadId fetchLogId maxGames parserVersion now =>
    obtain ⟨a, db, howns, hr, rfl⟩ := World.fencedBy_some h
    obtain ⟨_, hr⟩ := map_snd_ok hr
    exact enqueueJob_writes ⟨a, howns, rfl⟩ hr
  | checkpoint worker key value =>
    obtain ⟨a, db, howns, hr, rfl⟩ := World.fencedBy_some h
    split at hr
    · next hkey =>
      cases hr
      obtain ⟨row, hrow, hsame⟩ := hs.held worker a howns.attempt
      refine .update _ _ .refl fun j hj hid => .checkpointed _ (childParams_set hkey value a.job j ?_)
      rw [hids.unique hj hrow (by simpa [hsame.id] using hid)]
      exact hsame.params.symm
    · cases hr
  | readDepth worker =>
    obtain ⟨a, _, h⟩ := Option.bind_eq_some_iff.mp h
    obtain ⟨parent, _, rfl⟩ := Option.map_eq_some_iff.mp h
    exact .refl
  | expansion worker now =>
    obtain ⟨a, db, howns, hr, rfl⟩ := World.fencedBy_some h
    split at hr
    · next depth hdepth hkind =>
      obtain ⟨_, hr⟩ := map_snd_ok hr
      exact enqueueExpansionAt_writes (fun hrun _ => ⟨a, depth, howns, hdepth, hkind, hrun, rfl⟩) hr
    · cases hr
  | expand worker edges r now =>
    obtain ⟨a, db, howns, hr, rfl⟩ := World.fencedBy_some h
    split at hr
    · next depth parent hdepth hparent =>
      split at hr
      · exact expand_writes howns hdepth hparent hr
      · cases hr
    · cases hr
  | finish worker o now =>
    obtain ⟨a, db, howns, hr, rfl⟩ := World.fencedBy_some h
    exact finishAttempt_writes (fun j hj hid => (howns.inProgress hids hj hid).1) hr
  | mark worker state reason now =>
    obtain ⟨a, db, howns, hr, rfl⟩ := World.fencedBy_some h
    cases hr
    exact .update _ _ .refl fun j hj hid =>
      .marked state reason now (howns.inProgress hids hj (by simpa using hid)).1
  | release worker =>
    cases h
    exact .refl
  | resumeStale crawlRunId staleSeconds now free =>
    cases h
    refine .update _ _ .refl fun j _ hsel => .recovered _ ?_
    simp only [Bool.and_eq_true, decide_eq_true_eq] at hsel
    exact hsel.1.1.1.1
  | unblock crawlRunId now =>
    cases h
    refine .update _ _ .refl fun j _ hsel => .unblocked _ ?_
    simp only [Bool.and_eq_true, decide_eq_true_eq] at hsel
    exact hsel.1.1.1
  | resumeRunBudget runId workspaceId =>
    obtain ⟨db, hr, rfl⟩ := Option.map_eq_some_iff.mp h
    exact resumeRunBudget_writes (toOption_some hr)
  | refresh crawlRunId now =>
    cases h
    exact .tables .refl (s.db.refreshCrawlRuns_tables now crawlRunId)

/-! ## Attempts -/

/-- Where the attempt of a worker comes from: it was there, perhaps with another depth, or it is the claim. -/
structure Attempt.Continues (T : Text) (db : Db) (a a' : Attempt) : Prop where
  job : a'.job = a.job
  token : a'.token = a.token
  depth : a'.depth = a.depth ∨ ∃ parent, db.acquisitionOf a.job = some parent ∧
    a'.depth = some (db.expansionDepth T parent a.job.depth)

theorem Attempt.Continues.refl (T : Text) (db : Db) (a : Attempt) : a.Continues T db a := ⟨rfl, rfl, .inl rfl⟩

theorem World.setAttempt_some {s : World} {worker worker' : Nat} {b : Option Attempt} {a : Attempt}
    (h : (s.setAttempt worker b).attempts worker' = some a) :
    worker' = worker ∧ b = some a ∨ s.attempts worker' = some a := by
  unfold World.setAttempt at h
  dsimp only at h
  split at h
  · next heq => exact .inl ⟨heq, h⟩
  · exact .inr h

theorem step_attempts {s t : World} {ev : Event} (h : s.step T w ev = some t) {worker : Nat} {a : Attempt}
    (ha : t.attempts worker = some a) :
    (∃ a₀, s.attempts worker = some a₀ ∧ a₀.Continues T s.db a) ∨
    ∃ jobId now maxActiveJobs, ev = .claim worker jobId now maxActiveJobs a.token ∧
      s.db.claim jobId now maxActiveJobs (some a.token) = some (a.job, t.db) ∧ a.depth = none := by
  have hkeep : t.attempts = s.attempts → (∃ a₀, s.attempts worker = some a₀ ∧ a₀.Continues T s.db a) ∨
      ∃ jobId now maxActiveJobs, ev = .claim worker jobId now maxActiveJobs a.token ∧
      s.db.claim jobId now maxActiveJobs (some a.token) = some (a.job, t.db) ∧ a.depth = none := by
    intro heq
    rw [heq] at ha
    exact .inl ⟨a, ha, .refl T s.db a⟩
  cases ev with
  | claim worker' jobId now maxActiveJobs token =>
    replace h : (if _ then _ else _) = some t := h
    split at h
    · obtain ⟨⟨j, db⟩, hr, rfl⟩ := Option.map_eq_some_iff.mp h
      rcases World.setAttempt_some ha with ⟨rfl, hnew⟩ | hold
      · cases hnew
        exact .inr ⟨jobId, now, maxActiveJobs, rfl, hr, rfl⟩
      · exact .inl ⟨a, hold, .refl T s.db a⟩
    · cases h
  | readDepth worker' =>
    obtain ⟨a₀, ha₀, h⟩ := Option.bind_eq_some_iff.mp h
    obtain ⟨parent, hparent, rfl⟩ := Option.map_eq_some_iff.mp h
    rcases World.setAttempt_some ha with ⟨rfl, hnew⟩ | hold
    · cases hnew
      exact .inl ⟨a₀, ha₀, rfl, rfl, .inr ⟨parent, hparent, rfl⟩⟩
    · exact .inl ⟨a, hold, .refl T s.db a⟩
  | release worker' =>
    cases h
    rcases World.setAttempt_some ha with ⟨_, hnew⟩ | hold
    · cases hnew
    · exact .inl ⟨a, hold, .refl T s.db a⟩
  | createRun =>
    obtain ⟨_, _, rfl⟩ := Option.map_eq_some_iff.mp h
    exact hkeep rfl
  | createOpponentCrawl =>
    obtain ⟨_, _, rfl⟩ := Option.map_eq_some_iff.mp h
    exact hkeep rfl
  | enqueue =>
    obtain ⟨_, _, rfl⟩ := Option.map_eq_some_iff.mp h
    exact hkeep rfl
  | admitBudget =>
    obtain ⟨_, _, rfl⟩ := Option.map_eq_some_iff.mp h
    exact hkeep rfl
  | resumeRunBudget =>
    obtain ⟨_, _, rfl⟩ := Option.map_eq_some_iff.mp h
    exact hkeep rfl
  | capture =>
    obtain ⟨_, _, _, _, rfl⟩ := World.fencedBy_some h
    exact hkeep rfl
  | checkpoint =>
    obtain ⟨_, _, _, _, rfl⟩ := World.fencedBy_some h
    exact hkeep rfl
  | expansion =>
    obtain ⟨_, _, _, _, rfl⟩ := World.fencedBy_some h
    exact hkeep rfl
  | expand =>
    obtain ⟨_, _, _, _, rfl⟩ := World.fencedBy_some h
    exact hkeep rfl
  | finish =>
    obtain ⟨_, _, _, _, rfl⟩ := World.fencedBy_some h
    exact hkeep rfl
  | mark =>
    obtain ⟨_, _, _, _, rfl⟩ := World.fencedBy_some h
    exact hkeep rfl
  | cancel =>
    cases h
    exact hkeep rfl
  | resumeStale =>
    cases h
    exact hkeep rfl
  | unblock =>
    cases h
    exact hkeep rfl
  | refresh =>
    cases h
    exact hkeep rfl

theorem step_sound {s t : World} {ev : Event} (hs : s.Sound) (h : s.step T w ev = some t) : t.Sound := by
  have hw := step_writes hs h
  refine ⟨hw.ids hs.ids, fun worker a ha => ?_⟩
  rcases step_attempts h ha with ⟨a₀, ha₀, hcont⟩ | ⟨jobId, now, maxActiveJobs, _, hclaim, _⟩
  · obtain ⟨j, hj, hsame⟩ := hs.held worker a₀ ha₀
    obtain ⟨j', hj', hsame', _⟩ := hw.row hj
    rw [hcont.job]
    exact ⟨j', hj', hsame.trans hsame'⟩
  · obtain ⟨row, hrow, hid, _, hj, hdb⟩ := claim_row hclaim
    refine ⟨a.job, ?_, .refl _⟩
    rw [hdb, hj]
    refine List.mem_map.mpr ⟨row, hrow, ?_⟩
    simp [hid]

theorem reach_sound {ok : World → Event → Prop} {s : World} (h : Reach (workers T w) ok s) : s.Sound := by
  refine Reach.invariant (I := World.Sound) (fun s hs => ?_) (fun _ _ _ _ hI _ hstep => step_sound hI hstep) h
  refine ⟨⟨by rw [hs.1]; exact List.nodup_nil, by rw [hs.1]; simp⟩, fun worker a ha => ?_⟩
  rw [hs.2.2.2 worker] at ha
  cases ha

end StepWrites

/-- Names that are stripped and in lower case. -/
def plainText : Text := ⟨id, id, id⟩

def emptyWorld : World := ⟨⟨[], 0, [], 0, [], [], []⟩, fun _ => none⟩

end ChessCrawl.Jobs
