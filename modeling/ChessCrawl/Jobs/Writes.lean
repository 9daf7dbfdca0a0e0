import ChessCrawl.Jobs.Discovery

/-! What a step can write. Every transaction is a sequence of updates of rows, each of one of a few shapes,
and of inserts that passed the lookup of their dedup key; the rest of the development reasons about these. -/
namespace ChessCrawl.Jobs
open ChessCrawl.Lib
set_option autoImplicit false

/-! ## Rows -/

/-- The parameters that a child inherits. -/
def Job.childParams (parent : Job) : Params := (parent.params.pop "cursor_index").pop "bounded_capture_complete"

theorem Params.pop_set (key : String) (value : Value) (p : Params) : (Params.set key value p).pop key = p.pop key := by
  induction p with
  | nil => simp [Params.set, Params.pop]
  | cons entry rest ih =>
    obtain ⟨k, v⟩ := entry
    unfold Params.set
    split
    · next heq => simp [Params.pop, heq]
    split
    · simp [Params.pop]
    · next hne _ =>
      simp only [Params.pop, List.filter_cons] at ih ⊢
      rw [ih]

theorem Params.pop_comm (p : Params) (key key' : String) : (p.pop key).pop key' = (p.pop key').pop key := by
  simp only [Params.pop, List.filter_filter]
  congr 1
  funext entry
  exact Bool.and_comm _ _

/-- A checkpoint is not inherited. -/
theorem childParams_set {key : String} (hkey : key = "cursor_index" ∨ key = "bounded_capture_complete")
    (value : Value) (j k : Job) (h : j.childParams = k.childParams) :
    Job.childParams { k with params := Params.set key value j.params } = k.childParams := by
  rw [← h]
  unfold Job.childParams
  dsimp only
  rcases hkey with rfl | rfl
  · rw [Params.pop_set]
  · rw [Params.pop_comm, Params.pop_set, Params.pop_comm]

/-- The columns that identify a job are written once, and of its parameters only the checkpoints change. -/
structure Job.Same (j j' : Job) : Prop where
  id : j'.id = j.id
  crawlRunId : j'.crawlRunId = j.crawlRunId
  parentJobId : j'.parentJobId = j.parentJobId
  provider : j'.provider = j.provider
  kind : j'.kind = j.kind
  target : j'.target = j.target
  dedupKey : j'.dedupKey = j.dedupKey
  workspaceId : j'.workspaceId = j.workspaceId
  params : j'.childParams = j.childParams

theorem Job.Same.refl (j : Job) : j.Same j := ⟨rfl, rfl, rfl, rfl, rfl, rfl, rfl, rfl, rfl⟩

theorem Job.Same.symm {j k : Job} (h : j.Same k) : k.Same j :=
  ⟨h.id.symm, h.crawlRunId.symm, h.parentJobId.symm, h.provider.symm, h.kind.symm, h.target.symm, h.dedupKey.symm,
    h.workspaceId.symm, h.params.symm⟩

theorem Job.Same.trans {j k l : Job} (h : j.Same k) (h' : k.Same l) : j.Same l :=
  ⟨h'.id.trans h.id, h'.crawlRunId.trans h.crawlRunId, h'.parentJobId.trans h.parentJobId,
    h'.provider.trans h.provider, h'.kind.trans h.kind, h'.target.trans h.target, h'.dedupKey.trans h.dedupKey,
    h'.workspaceId.trans h.workspaceId, h'.params.trans h.params⟩

/-- The updates of a row. -/
inductive Job.Rewritten (maxRetries : Nat) (j : Job) : Job → Prop
  | claimed (now : Int) (token : Option Nat) : j.schedulable = true → Rewritten maxRetries j (j.claimed now token)
  | marked (state : JobState) (reason : Option String) (now : Int) : j.state = .inProgress →
      Rewritten maxRetries j (j.mark state reason now)
  | retried (reason : String) (due : Int) : j.state = .inProgress → j.retryCount < maxRetries →
      Rewritten maxRetries j (j.retry reason due)
  | recovered (reason : Option String) : j.state = .inProgress → Rewritten maxRetries j
      { j with state := .pending, startedAt := none, doneAt := none, ownershipToken := none, reason := reason }
  | unblocked (reason : Option String) : j.state = .blocked → Rewritten maxRetries j
      { j with state := .pending, startedAt := none, doneAt := none, reason := reason }
  | released : j.state = .blocked → Rewritten maxRetries j
      { j with state := .pending, reason := none, nextAttemptAt := none }
  | merged (depth : Nat) : Rewritten maxRetries j (j.merged depth)
  | checkpointed (params : Params) : Job.childParams { j with params := params } = j.childParams →
      Rewritten maxRetries j { j with params := params }
  | budgeted (budgetId : Nat) : Rewritten maxRetries j { j with workBudgetId := some budgetId }

theorem Job.Rewritten.same {maxRetries : Nat} {j j' : Job} (h : j.Rewritten maxRetries j') : j.Same j' := by
  cases h with
  | checkpointed _ hparams => exact ⟨rfl, rfl, rfl, rfl, rfl, rfl, rfl, rfl, hparams⟩
  | _ => exact ⟨rfl, rfl, rfl, rfl, rfl, rfl, rfl, rfl, rfl⟩

theorem Job.Rewritten.depth_le {maxRetries : Nat} {j j' : Job} (h : j.Rewritten maxRetries j') : j'.depth ≤ j.depth := by
  cases h with
  | merged => exact Nat.min_le_left _ _
  | _ => exact Nat.le_refl _

/-- No update touches the state of a job that is through. -/
theorem Job.Rewritten.terminal {maxRetries : Nat} {j j' : Job} (h : j.Rewritten maxRetries j')
    (ht : j.state.terminal = true) : j'.state = j.state := by
  have hlive : j.state.live = false := by simpa [JobState.terminal] using ht
  cases h with
  | claimed _ _ hsched =>
    unfold Job.schedulable at hsched
    rcases hs : j.state <;> simp [hs, JobState.live] at hlive hsched
  | marked _ _ _ hs =>
    rw [hs] at hlive
    cases hlive
  | retried _ _ hs _ =>
    rw [hs] at hlive
    cases hlive
  | recovered _ hs =>
    rw [hs] at hlive
    cases hlive
  | unblocked _ hs =>
    rw [hs] at hlive
    cases hlive
  | released hs =>
    rw [hs] at hlive
    cases hlive
  | merged => rfl
  | checkpointed => rfl
  | budgeted => rfl

/-! ## Transactions -/

/-- A change of the other tables. -/
structure Db.Tables (db db' : Db) : Prop where
  jobs : db'.jobs = db.jobs
  jobSeq : db'.jobSeq = db.jobSeq
  runSeq : db.runSeq ≤ db'.runSeq

/-- The tables with the row of a request. -/
def Db.inserted (db : Db) (T : Text) (e : Enqueue) (owner : String × Option Nat) : Db :=
  { db with jobs := db.jobs ++ [e.row T (db.jobSeq + 1) owner], jobSeq := db.jobSeq + 1 }

/-- The foreign keys of a request hold, and its row belongs to the owner. -/
structure Db.Accepts (db : Db) (e : Enqueue) (owner : String × Option Nat) : Prop where
  inherits : db.inherited e = .ok owner
  parent : ∀ id, e.parentJobId = some id → ∃ p ∈ db.jobs, p.id = id

/-- Updates and inserts, one after another; `P` says which inserts. -/
inductive Writes (T : Text) (maxRetries : Nat) (P : Db → Enqueue → Prop) (db₀ : Db) : Db → Prop
  | refl : Writes T maxRetries P db₀ db₀
  | tables {db db' : Db} : Writes T maxRetries P db₀ db → db.Tables db' → Writes T maxRetries P db₀ db'
  | update {db : Db} (sel : Job → Bool) (set : Job → Job) : Writes T maxRetries P db₀ db →
      (∀ j ∈ db.jobs, sel j = true → j.Rewritten maxRetries (set j)) →
      Writes T maxRetries P db₀ (db.updateJobs sel set)
  | insert {db : Db} {e : Enqueue} (owner : String × Option Nat) : Writes T maxRetries P db₀ db → P db e →
      db.existing (e.key T) e.reuseTerminal = none → db.Accepts e owner →
      Writes T maxRetries P db₀ (db.inserted T e owner)

variable {T : Text} {maxRetries : Nat} {P : Db → Enqueue → Prop} {db db' db'' : Db}

theorem Writes.trans (h : Writes T maxRetries P db db') (h' : Writes T maxRetries P db' db'') :
    Writes T maxRetries P db db'' := by
  induction h' with
  | refl => exact h
  | tables _ ht ih => exact .tables ih ht
  | update sel set _ hset ih => exact .update sel set ih hset
  | insert owner _ hp hnone howner ih => exact .insert owner ih hp hnone howner

theorem Writes.mono {Q : Db → Enqueue → Prop} (h : Writes T maxRetries P db db') (hPQ : ∀ db e, P db e → Q db e) :
    Writes T maxRetries Q db db' := by
  induction h with
  | refl => exact .refl
  | tables _ ht ih => exact .tables ih ht
  | update sel set _ hset ih => exact .update sel set ih hset
  | insert owner _ hp hnone howner ih => exact .insert owner ih (hPQ _ _ hp) hnone howner

/-- An invariant of the tables that every update and every insert keeps. -/
theorem Writes.keeps {I : Db → Prop} (htables : ∀ db db', I db → db.Tables db' → I db')
    (hupdate : ∀ db sel set, I db → (∀ j ∈ db.jobs, sel j = true → j.Rewritten maxRetries (set j)) →
      I (db.updateJobs sel set))
    (hinsert : ∀ (db : Db) e owner, I db → P db e → db.existing (e.key T) e.reuseTerminal = none →
      db.Accepts e owner → I (db.inserted T e owner))
    (h : Writes T maxRetries P db db') (hI : I db) : I db' := by
  induction h with
  | refl => exact hI
  | tables _ ht ih => exact htables _ _ ih ht
  | update sel set _ hset ih => exact hupdate _ sel set ih hset
  | insert owner _ hp hnone howner ih => exact hinsert _ _ owner ih hp hnone howner

/-- A request finds the job of its key, or inserts one. -/
theorem enqueueJob_cases {e : Enqueue} {r : EnqueueResult} (h : db.enqueueJob T e = .ok (r, db')) :
    (db' = db ∧ ∃ j ∈ db.jobs, j.dedupKey = e.key T ∧ (e.reuseTerminal || j.state.live) = true) ∨
    (db.existing (e.key T) e.reuseTerminal = none ∧ ∃ owner, db.Accepts e owner ∧
      db' = db.inserted T e owner) := by
  unfold Db.enqueueJob at h
  obtain ⟨_, _, h⟩ := bind_ok h
  split at h
  · next j hj =>
    cases h
    have hfound := List.find?_some hj
    simp only [Bool.and_eq_true, decide_eq_true_eq] at hfound
    exact .inl ⟨rfl, j, List.mem_of_find?_eq_some hj, hfound.1, hfound.2⟩
  next hnone =>
  obtain ⟨owner, howner, h⟩ := bind_ok h
  split at h
  · cases h
  next hparent =>
  have haccepts : db.Accepts e owner := by
    refine ⟨howner, fun id hid => ?_⟩
    rw [hid] at hparent
    obtain ⟨p, hp⟩ := Option.ne_none_iff_exists'.mp (by simpa using hparent)
    exact ⟨p, List.mem_of_find?_eq_some hp, by simpa using List.find?_some hp⟩
  split at h
  · obtain ⟨_, _, h⟩ := bind_ok h
    cases h
    exact .inr ⟨hnone, owner, haccepts, rfl⟩
  · cases h
    exact .inr ⟨hnone, owner, haccepts, rfl⟩

theorem enqueueJob_writes {e : Enqueue} {r : EnqueueResult} (hP : P db e)
    (h : db.enqueueJob T e = .ok (r, db')) : Writes T maxRetries P db db' := by
  rcases enqueueJob_cases h with ⟨rfl, _⟩ | ⟨hnone, owner, howner, rfl⟩
  · exact .refl
  · exact .insert owner .refl hP hnone howner

theorem map_snd_ok {α β κ : Type} {x : Except κ (α × β)} {b : β} (h : x.map Prod.snd = .ok b) :
    ∃ a, x = .ok (a, b) := by
  cases x with
  | error e => cases h
  | ok r =>
    cases h
    exact ⟨r.1, rfl⟩

/-- The insert of an expansion. -/
def expansionRequest (parent : Job) (depth : Nat) (now : Int) : Enqueue :=
  ⟨parent.provider, .expandOpponents, .ref parent.id, [("discovery_depth", .int depth)], parent.crawlRunId,
    some parent.id, depth, 20, none, true, parent.workspaceId, parent.workBudgetId, now⟩

theorem enqueueExpansionAt_writes {parent : Job} {depth : Nat} {now : Int} {r : EnqueueResult}
    (hP : parent.crawlRunId.isSome → parent.kind = .crawlOpponents → P db (expansionRequest parent depth now))
    (h : db.enqueueExpansionAt T parent depth now = .ok (r, db')) : Writes T maxRetries P db db' := by
  unfold Db.enqueueExpansionAt at h
  split at h
  · cases h
  next hcond =>
  rw [not_or] at hcond
  exact enqueueJob_writes (hP (by simpa [Option.isSome_iff_ne_none] using hcond.1) (by simpa using hcond.2)) h

/-- A fold of fallible transactions. -/
theorem foldlM_writes {α : Type} {f : Db → α → Except Failure Db} {xs : List α}
    (hf : ∀ x ∈ xs, ∀ db₁ db₂, Writes T maxRetries P db db₁ → f db₁ x = .ok db₂ → Writes T maxRetries P db₁ db₂)
    (h : xs.foldlM f db = .ok db') : Writes T maxRetries P db db' := by
  have hgen : ∀ (ys : List α) (db₁ : Db), (∀ y ∈ ys, y ∈ xs) → Writes T maxRetries P db db₁ →
      ys.foldlM f db₁ = .ok db' → Writes T maxRetries P db db' := by
    intro ys
    induction ys with
    | nil =>
      intro db₁ _ hw h₁
      cases h₁
      exact hw
    | cons y ys ih =>
      intro db₁ hmem hw h₁
      rw [List.foldlM_cons] at h₁
      obtain ⟨db₂, h₂, h₃⟩ := bind_ok h₁
      exact ih db₂ (fun z hz => hmem z (List.mem_cons_of_mem _ hz))
        (hw.trans (hf y (hmem y List.mem_cons_self) db₁ db₂ hw h₂)) h₃
  exact hgen xs db (fun y hy => hy) .refl h

/-- What every element of a fold keeps. -/
theorem foldlM_keeps {α : Type} {f : Db → α → Except Failure Db} {I : Db → Prop} {xs : List α}
    (hf : ∀ x ∈ xs, ∀ db₁ db₂, I db₁ → f db₁ x = .ok db₂ → I db₂) (h : xs.foldlM f db = .ok db') (hI : I db) :
    I db' := by
  induction xs generalizing db with
  | nil =>
    cases h
    exact hI
  | cons x xs ih =>
    rw [List.foldlM_cons] at h
    obtain ⟨db₁, h₁, h₂⟩ := bind_ok h
    exact ih (fun y hy => hf y (List.mem_cons_of_mem _ hy)) h₂ (hf x List.mem_cons_self db db₁ hI h₁)

/-- The tables before and after one element of a fold. -/
theorem foldlM_splits {α : Type} {f : Db → α → Except Failure Db} {xs : List α} (h : xs.foldlM f db = .ok db') {x : α}
    (hx : x ∈ xs) : ∃ ys zs db₁ db₂, xs = ys ++ x :: zs ∧ ys.foldlM f db = .ok db₁ ∧ f db₁ x = .ok db₂ ∧
      zs.foldlM f db₂ = .ok db' := by
  obtain ⟨ys, zs, rfl⟩ := List.append_of_mem hx
  rw [List.foldlM_append] at h
  obtain ⟨db₁, h₁, h⟩ := bind_ok h
  rw [List.foldlM_cons] at h
  obtain ⟨db₂, h₂, h₃⟩ := bind_ok h
  exact ⟨ys, zs, db₁, db₂, rfl, h₁, h₂, h₃⟩

/-- Each element of a fold is met at tables between the first and the last. -/
theorem foldlM_reaches {α : Type} {f : Db → α → Except Failure Db} {xs : List α}
    (hf : ∀ x ∈ xs, ∀ db₁ db₂, Writes T maxRetries P db db₁ → f db₁ x = .ok db₂ → Writes T maxRetries P db₁ db₂)
    (h : xs.foldlM f db = .ok db') {x : α} (hx : x ∈ xs) :
    ∃ db₁ db₂, Writes T maxRetries P db db₁ ∧ f db₁ x = .ok db₂ ∧ Writes T maxRetries P db₂ db' := by
  obtain ⟨ys, zs, db₁, db₂, rfl, h₁, h₂, h₃⟩ := foldlM_splits h hx
  have hw₁ : Writes T maxRetries P db db₁ := foldlM_writes (fun y hy => hf y (List.mem_append_left _ hy)) h₁
  have hw₂ : Writes T maxRetries P db₁ db₂ := hf x hx db₁ db₂ hw₁ h₂
  refine ⟨db₁, db₂, hw₁, h₂, foldlM_writes (fun z hz db₃ db₄ hw₃ => ?_) h₃⟩
  exact hf z (List.mem_append_right _ (List.mem_cons_of_mem _ hz)) db₃ db₄ (hw₁.trans (hw₂.trans hw₃))

theorem promoteCrawlDepth_writes {runId depth : Nat} {provider username : String} {r : Race} {now : Int}
    (hP : ∀ parent ∈ db.jobs, parent.crawls T runId provider username = true → ∀ db₁, Writes T maxRetries P db db₁ →
      P db₁ (expansionRequest parent (db₁.expansionDepth T parent depth) now))
    (h : db.promoteCrawlDepth T runId provider username depth r now = .ok db') : Writes T maxRetries P db db' := by
  unfold Db.promoteCrawlDepth at h
  dsimp only at h
  have hfirst : Writes T maxRetries P db (db.updateJobs
      (fun j => j.crawls T runId provider username && j.promotable r depth) fun j => j.merged depth) :=
    .update _ _ .refl fun j _ _ => .merged depth
  refine hfirst.trans (foldlM_writes (fun parent hparent db₁ db₂ hw h₁ => ?_) h)
  obtain ⟨hmem, _⟩ := List.mem_filter.mp hparent
  obtain ⟨hjob, hcrawls⟩ := List.mem_filter.mp hmem
  obtain ⟨_, h₂⟩ := map_snd_ok h₁
  exact enqueueExpansionAt_writes (fun _ _ => hP parent hjob hcrawls db₁ (hfirst.trans hw)) h₂

/-- The insert of an opponent. -/
def opponentRequest (parent : Job) (runId : Nat) (provider : String) (params : Params) (nextDepth : Nat) (now : Int)
    (username : String) : Enqueue :=
  ⟨some provider, .crawlOpponents, .name username, params, some runId, some parent.id, nextDepth, 10 + nextDepth, none,
    false, parent.workspaceId, parent.workBudgetId, now⟩

/-- What an expansion may insert: jobs for users that it finds unknown under the caps, and expansions of
known ones. -/
structure Expands (T : Text) (maxRetries : Nat) (P : Db → Enqueue → Prop) (db : Db) (parent : Job) (runId : Nat)
    (provider : String) (params : Params) (b : CrawlBounds) (nextDepth : Nat) (now : Int) (username : String) :
    Prop where
  opponent : ∀ db₁, Writes T maxRetries P db db₁ → db₁.knownCrawlDepth T runId provider username = none →
    db₁.crawlUserCount T runId < b.maxUsers → db₁.acquisitionJobCount runId < b.maxJobs →
    P db₁ (opponentRequest parent runId provider params nextDepth now username)
  expansion : ∀ db₁, Writes T maxRetries P db db₁ → ∀ p ∈ db₁.jobs, p.crawls T runId provider username = true →
    ∀ db₂, Writes T maxRetries P db₁ db₂ → P db₂ (expansionRequest p (db₂.expansionDepth T p nextDepth) now)

section Expand
variable {parent : Job} {runId nextDepth : Nat} {provider : String} {params : Params} {b : CrawlBounds} {r : Race}
  {now : Int}

theorem discover_writes {username : String} {db₁ db₂ : Db}
    (hP : Expands T maxRetries P db parent runId provider params b nextDepth now username)
    (hw : Writes T maxRetries P db db₁)
    (h : db₁.discover T parent runId provider params b nextDepth r now username = .ok db₂) :
    Writes T maxRetries P db₁ db₂ := by
  unfold Db.discover at h
  split at h
  · split at h
    · cases h
      exact .refl
    · exact promoteCrawlDepth_writes (fun p hp hc db₃ hw₃ => hP.expansion db₁ hw p hp hc db₃ hw₃) h
  · next hnone =>
    split at h
    · cases h
      exact .refl
    next husers =>
    split at h
    · cases h
      exact .refl
    next hjobs =>
    obtain ⟨_, h₁⟩ := map_snd_ok h
    exact enqueueJob_writes (hP.opponent db₁ hw hnone (Nat.lt_of_not_le husers) (Nat.lt_of_not_le hjobs)) h₁

theorem expandOpponentFrontier_writes {depth : Nat} {edges : List String}
    (hP : ∀ runId provider b, parent.crawlRunId = some runId → parent.provider = some provider →
      ((parent.params.pop "cursor_index").pop "bounded_capture_complete").bounds = .ok b → depth + 1 ≤ b.maxDepth →
      ∀ username ∈ edges, Expands T maxRetries P db parent runId provider
        ((parent.params.pop "cursor_index").pop "bounded_capture_complete") b (depth + 1) now username)
    (h : db.expandOpponentFrontier T parent depth edges r now = .ok db') : Writes T maxRetries P db db' := by
  unfold Db.expandOpponentFrontier at h
  split at h
  · next runId provider hrun hprovider =>
    obtain ⟨b, hb, h⟩ := bind_ok h
    split at h
    · cases h
      exact .refl
    next hdepth =>
    unfold Db.enqueueOpponentChildren at h
    obtain ⟨b', hb', h⟩ := bind_ok h
    cases hb.symm.trans hb'
    rw [if_neg hdepth] at h
    refine foldlM_writes (fun username hu db₁ db₂ hw h₁ => discover_writes ?_ hw h₁) h
    exact hP runId provider b hrun hprovider hb (Nat.le_of_not_lt hdepth) username (List.mem_filter.mp hu).1
  · cases h

end Expand
end ChessCrawl.Jobs
