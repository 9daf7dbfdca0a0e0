import ChessCrawl.Jobs.Frontier
import ChessCrawl.Jobs.Lifecycle

/-! What a worker of a crawl does in its turn. Every worker's job is as far as its stage says, no job comes to a
stage twice, and the table stays as the frontier wants it. -/
namespace ChessCrawl.Jobs
open ChessCrawl.Lib
set_option autoImplicit false

def Stage.rank : Stage → Nat
  | .claimed => 0
  | .acquired => 1
  | .read => 2
  | .queued => 3
  | .finished => 4

namespace Setting

/-! ## Stages -/

/-- The job works on a user: it is its acquisition, or an expansion of it. -/
inductive Serves (S : Setting) (db : Db) (j : Job) (u : String) : Prop
  | own : S.Acquires j u → Serves S db j u
  | expansion {p : Job} : p ∈ db.jobs → S.Acquires p u → p.expands j = true → Serves S db j u

/-- A worker has the job in hand. -/
structure Held (S : Setting) (s : World) (worker : Nat) (a : Attempt) (j : Job) : Prop where
  attempt : s.attempts worker = some a
  row : j ∈ s.db.jobs
  same : a.job.Same j
  run : j.crawlRunId = some S.runId
  state : j.state = .inProgress
  token : j.ownershipToken = some a.token
  depth : j.depth = a.job.depth

/-- What a stage says of the job. -/
def StageOk (S : Setting) (db : Db) (acquired : List String) (a : Attempt) (j : Job) (u : String) : Stage → Prop
  | .claimed => j.kind = .crawlOpponents → u ∉ acquired
  | .acquired => j.kind = .crawlOpponents ∧ u ∈ acquired
  | .read => (j.kind = .crawlOpponents → u ∈ acquired) ∧ ∃ d, a.depth = some d ∧ d ≤ j.depth ∧ S.Within d u
  | .queued => (j.kind = .crawlOpponents → u ∈ acquired ∧ ∃ c ∈ db.jobs, j.expands c = true ∧ c.depth ≤ j.depth) ∧
    (j.kind = .expandOpponents → ∃ d ≤ j.depth, d + 1 ≤ S.b.maxDepth → ∀ x, S.graph.Adj u x → S.Known db x (d + 1))
  | .finished => False

/-- How far a job has come, at least. -/
def Reached (S : Setting) (c : Crawl) (id : Nat) (stage : Stage) : Prop :=
  ∃ j ∈ c.world.db.jobs, j.id = id ∧ j.crawlRunId = some S.runId ∧ (j.state = .done ∨ j.state = .inProgress ∧
    ∃ worker stage' a, c.stage worker = some stage' ∧ c.world.attempts worker = some a ∧ a.job.id = id ∧
      stage.rank ≤ stage'.rank)

structure CrawlOk (S : Setting) (c : Crawl) : Prop where
  capped : c.world.CappedIn S.T S.runId S.provider S.params S.b
  table : S.TableOk c.world.db
  complete : S.Complete c.world.db
  staged : ∀ worker stage, c.stage worker = some stage → ∃ a j u, S.Held c.world worker a j ∧
    S.Serves c.world.db j u ∧ S.StageOk c.world.db c.acquired a j u stage
  apart : ∀ m n a b, (c.stage m).isSome → (c.stage n).isSome → c.world.attempts m = some a →
    c.world.attempts n = some b → a.job.id = b.job.id → m = n
  users : ∀ u ∈ c.acquired, ∃ j ∈ c.world.db.jobs, S.Acquires j u ∧ j.state ≠ .pending
  done : ∀ j ∈ c.world.db.jobs, ∀ u, S.Acquires j u → j.state = .done → u ∈ c.acquired
  once : c.acquired.Nodup
  logged : c.log.Nodup
  log : ∀ id stage, (id, stage) ∈ c.log → S.Reached c id stage

variable {S : Setting}

theorem CrawlOk.good {c : Crawl} (h : S.CrawlOk c) : S.Good c.world.db := ⟨h.table, h.capped.db, h.complete⟩

section Later
variable {db db' : Db}

/-- What a later table still says of a row. -/
structure Later (S : Setting) (db db' : Db) : Prop where
  row : ∀ j ∈ db.jobs, ∃ j' ∈ db'.jobs, j.Same j' ∧ j'.depth ≤ j.depth ∧ (j.state.terminal = true → j'.state = j.state)
  known : ∀ u n, S.Known db u n → S.Known db' u n

theorem later_of_writes {maxRetries : Nat} {P : Db → Enqueue → Prop} (h : Writes S.T maxRetries P db db') :
    S.Later db db' := ⟨fun _ hj => h.row hj, fun _ _ hk => h.knownWithin hk⟩

theorem Serves.later (hl : S.Later db db') {j : Job} {u : String} (h : S.Serves db j u) : S.Serves db' j u := by
  cases h with
  | own hacq => exact .own hacq
  | expansion hp hacq hexp =>
    obtain ⟨p', hp', hsame, _⟩ := hl.row _ hp
    refine .expansion hp' (hacq.same hsame) ?_
    rw [hsame.expands (.refl j)]
    exact hexp

theorem StageOk.later (hl : S.Later db db') {acquired acquired' : List String} {a : Attempt} {j : Job} {u : String}
    {stage : Stage} (h : S.StageOk db acquired a j u stage) (hsub : ∀ v ∈ acquired, v ∈ acquired')
    (hnew : stage = .claimed → j.kind = .crawlOpponents → u ∉ acquired') : S.StageOk db' acquired' a j u stage := by
  cases stage with
  | claimed => exact hnew rfl
  | acquired => exact ⟨h.1, hsub u h.2⟩
  | read => exact ⟨fun hkind => hsub u (h.1 hkind), h.2⟩
  | queued =>
    refine ⟨fun hkind => ?_, fun hkind => ?_⟩
    · obtain ⟨hacq, c, hc, hexp, hle⟩ := h.1 hkind
      obtain ⟨c', hc', hsame, hle', _⟩ := hl.row c hc
      refine ⟨hsub u hacq, c', hc', ?_, Nat.le_trans hle' hle⟩
      rw [Job.Same.expands (.refl j) hsame]
      exact hexp
    · obtain ⟨d, hd, hset⟩ := h.2 hkind
      exact ⟨d, hd, fun hmax x hx => hl.known x _ (hset hmax x hx)⟩
  | finished => exact h

end Later

/-! ## Turns -/

/-- What a worker that brings its job to a stage leaves of the tables and of the others. -/
structure Turn (S : Setting) (c : Crawl) (s : World) (worker jobId : Nat) (stage : Stage) (acquired : List String) :
    Prop where
  capped : s.CappedIn S.T S.runId S.provider S.params S.b
  table : S.TableOk s.db
  complete : S.Complete s.db
  later : S.Later c.world.db s.db
  rows : ∀ j' ∈ s.db.jobs, j'.id ≠ jobId → j'.state = .pending ∨
    ∃ j ∈ c.world.db.jobs, j.Same j' ∧ j'.state = j.state
  busy : ∀ j ∈ c.world.db.jobs, j.id ≠ jobId → j.state = .inProgress → j ∈ s.db.jobs
  others : ∀ n, n ≠ worker → s.attempts n = c.world.attempts n
  alone : ∀ n a, n ≠ worker → (c.stage n).isSome → c.world.attempts n = some a → a.job.id ≠ jobId
  mine : ∀ a, (c.stage worker).isSome → c.world.attempts worker = some a → a.job.id = jobId
  ahead : ∀ stage', (jobId, stage') ∈ c.log → stage'.rank < stage.rank
  own : ∃ j ∈ s.db.jobs, ∃ u, j.id = jobId ∧ j.crawlRunId = some S.runId ∧ S.Serves s.db j u ∧
    (stage = .finished → j.state = .done ∧ (j.kind = .crawlOpponents → u ∈ acquired)) ∧
    (stage ≠ .finished → ∃ a, S.Held s worker a j ∧ S.StageOk s.db acquired a j u stage)
  sub : ∀ v ∈ c.acquired, v ∈ acquired
  new : ∀ v ∈ acquired, v ∈ c.acquired ∨ ∃ j ∈ s.db.jobs, j.id = jobId ∧ S.Acquires j v
  once : acquired.Nodup

section Turns
variable {c : Crawl} {s : World} {worker jobId : Nat} {stage : Stage} {acquired : List String}

/-- The user that an acquisition serves is its own. -/
theorem Serves.acquires {db : Db} {j : Job} {u : String} (h : S.Serves db j u) (hkind : j.kind = .crawlOpponents) :
    S.Acquires j u := by
  cases h with
  | own hacq => exact hacq
  | expansion _ _ hexp => simp [Job.expands, hkind] at hexp

theorem Acquires.user {j : Job} {u v : String} (h : S.Acquires j u) (h' : S.Acquires j v) : u = v := by
  simpa using h.target.symm.trans h'.target

/-- The row that the worker works on is busy or through. -/
theorem Turn.own_state (h : S.Turn c s worker jobId stage acquired) {j : Job} (hj : j ∈ s.db.jobs)
    (hid : j.id = jobId) : j.crawlRunId = some S.runId ∧ (stage = .finished ∧ j.state = .done ∨
      stage ≠ .finished ∧ j.state = .inProgress ∧ ∃ a, s.attempts worker = some a ∧ a.job.id = jobId) := by
  obtain ⟨k, hk, u, hkid, hrun, _, hfinished, hheld⟩ := h.own
  have hjk : j = k := h.table.ids.unique hj hk (hid.trans hkid.symm)
  subst hjk
  refine ⟨hrun, ?_⟩
  by_cases hstage : stage = .finished
  · exact .inl ⟨hstage, (hfinished hstage).1⟩
  · obtain ⟨a, ha, _⟩ := hheld hstage
    exact .inr ⟨hstage, ha.state, a, ha.attempt, by rw [← ha.same.id]; exact hid⟩

theorem Turn.own_row (h : S.Turn c s worker jobId stage acquired) : ∃ j ∈ s.db.jobs, j.id = jobId := by
  obtain ⟨j, hj, _, hid, _⟩ := h.own
  exact ⟨j, hj, hid⟩

/-- The rows of the others and of finished jobs are where they were. -/
theorem Turn.keeps (h : S.Turn c s worker jobId stage acquired) (hc : S.CrawlOk c) {j : Job}
    (hj : j ∈ c.world.db.jobs) (hrun : j.crawlRunId = some S.runId) (hid : j.id ≠ jobId) (hs : j.state ≠ .pending) :
    ∃ j' ∈ s.db.jobs, j.Same j' ∧ j'.state = j.state := by
  rcases hc.table.states j hj hrun with hpending | hbusy | hdone
  · exact (hs hpending).elim
  · exact ⟨j, h.busy j hj hid hbusy, .refl j, rfl⟩
  · obtain ⟨j', hj', hsame, _, hstate⟩ := h.later.row j hj
    exact ⟨j', hj', hsame, hstate (by rw [hdone]; rfl)⟩

/-- The stages of the others still say what they did. -/
theorem Turn.staged (h : S.Turn c s worker jobId stage acquired) (hc : S.CrawlOk c) {n : Nat} (hn : n ≠ worker)
    {stage' : Stage} (hstage : c.stage n = some stage') : ∃ a j u, S.Held s n a j ∧ S.Serves s.db j u ∧
      S.StageOk s.db acquired a j u stage' := by
  obtain ⟨a, j, u, hheld, hserves, hok⟩ := hc.staged n stage' hstage
  have hid : j.id ≠ jobId := by
    rw [hheld.same.id]
    exact h.alone n a hn (by rw [hstage]; rfl) hheld.attempt
  have hrow : j ∈ s.db.jobs := h.busy j hheld.row hid hheld.state
  refine ⟨a, j, u, ⟨by rw [h.others n hn]; exact hheld.attempt, hrow, hheld.same, hheld.run, hheld.state, hheld.token,
    hheld.depth⟩, hserves.later h.later, hok.later h.later h.sub ?_⟩
  rintro rfl hkind hmem
  -- a newly acquired user has its own job
  rcases h.new u hmem with hold | ⟨k, hk, hkid, hacq⟩
  · exact hok hkind hold
  · rw [acquires_unique h.capped.db hrow hk (hserves.acquires hkind) hacq] at hid
    exact hid hkid

theorem Turn.reached (h : S.Turn c s worker jobId stage acquired) (hc : S.CrawlOk c) {id : Nat} {stage' : Stage}
    (hmem : (id, stage') ∈ c.log ++ [(jobId, stage)]) :
    S.Reached { c.advance s worker jobId stage with acquired := acquired } id stage' := by
  by_cases hid : id = jobId
  · subst hid
    have hrank : stage'.rank ≤ stage.rank := by
      rcases List.mem_append.mp hmem with hold | hnew
      · exact Nat.le_of_lt (h.ahead stage' hold)
      · cases List.mem_singleton.mp hnew
        exact Nat.le_refl _
    obtain ⟨j, hj, hjid⟩ := h.own_row
    obtain ⟨hrun, ⟨_, hdone⟩ | ⟨hne, hbusy, a, ha, haid⟩⟩ := h.own_state hj hjid
    · exact ⟨j, hj, hjid, hrun, .inl hdone⟩
    · exact ⟨j, hj, hjid, hrun, .inr ⟨hbusy, worker, stage, a, by simp [Crawl.advance, hne], ha, haid, hrank⟩⟩
  · have hold : (id, stage') ∈ c.log := by
      rcases List.mem_append.mp hmem with hold | hnew
      · exact hold
      · cases List.mem_singleton.mp hnew
        exact (hid rfl).elim
    obtain ⟨j, hj, rfl, hrun, hstate⟩ := hc.log id stage' hold
    have hs : j.state ≠ .pending := by
      rcases hstate with hdone | ⟨hbusy, _⟩
      · rw [hdone]
        simp
      · rw [hbusy]
        simp
    obtain ⟨j', hj', hsame, hstate'⟩ := h.keeps hc hj hrun hid hs
    refine ⟨j', hj', hsame.id, hsame.crawlRunId.trans hrun, ?_⟩
    rcases hstate with hdone | ⟨hbusy, n, stage₁, a, hstage, ha, haid, hrank⟩
    · exact .inl (hstate'.trans hdone)
    · have hn : n ≠ worker := by
        rintro rfl
        exact hid (haid.symm.trans (h.mine a (by rw [hstage]; rfl) ha))
      exact .inr ⟨hstate'.trans hbusy, n, stage₁, a, by simp [Crawl.advance, hn, hstage], by
        rw [← ha]
        exact h.others n hn, haid, hrank⟩

theorem Turn.ok (h : S.Turn c s worker jobId stage acquired) (hc : S.CrawlOk c) :
    S.CrawlOk { c.advance s worker jobId stage with acquired := acquired } := by
  refine ⟨h.capped, h.table, h.complete, ?_, ?_, ?_, ?_, h.once, ?_, ?_⟩
  · intro n stage' hstage
    by_cases hn : n = worker
    · subst hn
      by_cases hfin : stage = .finished
      · simp [Crawl.advance, hfin] at hstage
      · have heq : stage = stage' := by simpa [Crawl.advance, hfin] using hstage
        subst heq
        obtain ⟨j, _, u, _, _, hserves, _, hheld⟩ := h.own
        obtain ⟨a, ha, hok⟩ := hheld hfin
        exact ⟨a, j, u, ha, hserves, hok⟩
    · exact h.staged hc hn (by simpa [Crawl.advance, hn] using hstage)
  · -- two holders of one job: one of them is the worker
    have hapart : ∀ n a b, n ≠ worker → (c.stage n).isSome → s.attempts n = some a → stage ≠ .finished →
        s.attempts worker = some b → a.job.id ≠ b.job.id := by
      intro n a b hn hstage ha hfin hb heq
      rw [h.others n hn] at ha
      obtain ⟨j, hj, hjid⟩ := h.own_row
      obtain ⟨_, ⟨hfin', _⟩ | ⟨_, _, b', hb', hbid⟩⟩ := h.own_state hj hjid
      · exact hfin hfin'
      · cases Option.some.inj (hb.symm.trans hb')
        exact h.alone n a hn hstage ha (heq.trans hbid)
    intro m n a b hm hn ha hb heq
    by_cases hmw : m = worker <;> by_cases hnw : n = worker
    · exact hmw.trans hnw.symm
    · subst hmw
      have hfin : stage ≠ .finished := by
        rintro rfl
        simp [Crawl.advance] at hm
      refine (hapart n b a hnw ?_ hb hfin ha heq.symm).elim
      simpa [Crawl.advance, hnw] using hn
    · subst hnw
      have hfin : stage ≠ .finished := by
        rintro rfl
        simp [Crawl.advance] at hn
      refine (hapart m a b hmw ?_ ha hfin hb heq).elim
      simpa [Crawl.advance, hmw] using hm
    · refine hc.apart m n a b ?_ ?_ ((h.others m hmw).symm.trans ha) ((h.others n hnw).symm.trans hb) heq
      · simpa [Crawl.advance, hmw] using hm
      · simpa [Crawl.advance, hnw] using hn
  · have hown : ∀ j ∈ s.db.jobs, j.id = jobId → j.state ≠ .pending := by
      intro j hj hid
      obtain ⟨_, ⟨_, hs⟩ | ⟨_, hs, _⟩⟩ := h.own_state hj hid
      · rw [hs]
        simp
      · rw [hs]
        simp
    intro u hu
    rcases h.new u hu with hold | ⟨j, hj, hid, hacq⟩
    · obtain ⟨j, hj, hacq, hs⟩ := hc.users u hold
      by_cases hid : j.id = jobId
      · obtain ⟨j', hj', hsame, _⟩ := h.later.row j hj
        exact ⟨j', hj', hacq.same hsame, hown j' hj' (hsame.id.trans hid)⟩
      · obtain ⟨j', hj', hsame, hstate⟩ := h.keeps hc hj hacq.run hid hs
        exact ⟨j', hj', hacq.same hsame, by rw [hstate]; exact hs⟩
    · exact ⟨j, hj, hacq, hown j hj hid⟩
  · intro j' hj' u hacq hdone
    by_cases hid : j'.id = jobId
    · obtain ⟨k, hk, v, hkid, _, hserves, hfinished, hheld⟩ := h.own
      have hjk : j' = k := h.table.ids.unique hj' hk (hid.trans hkid.symm)
      subst hjk
      by_cases hfin : stage = .finished
      · rw [hacq.user (hserves.acquires hacq.kind)]
        exact (hfinished hfin).2 hacq.kind
      · obtain ⟨a, ha, _⟩ := hheld hfin
        cases hdone.symm.trans ha.state
    · rcases h.rows j' hj' hid with hpending | ⟨j, hj, hsame, hstate⟩
      · cases hdone.symm.trans hpending
      · exact h.sub u (hc.done j hj u (hacq.same hsame.symm) (hstate.symm.trans hdone))
  · show (c.log ++ [(jobId, stage)]).Nodup
    rw [List.nodup_append]
    refine ⟨hc.logged, by simp, fun x hx y hy => ?_⟩
    rw [List.mem_singleton.mp hy]
    rintro rfl
    exact Nat.lt_irrefl _ (h.ahead stage hx)
  · intro id stage' hmem
    exact h.reached hc hmem

/-! ## Steps -/

theorem CrawlOk.held (hc : S.CrawlOk c) {n : Nat} {stage₀ : Stage} (hstage : c.stage n = some stage₀) {a : Attempt}
    (ha : c.world.attempts n = some a) : ∃ j u, S.Held c.world n a j ∧ S.Serves c.world.db j u ∧
      S.StageOk c.world.db c.acquired a j u stage₀ := by
  obtain ⟨a', j, u, hheld, hserves, hok⟩ := hc.staged n stage₀ hstage
  cases Option.some.inj (ha.symm.trans hheld.attempt)
  exact ⟨j, u, hheld, hserves, hok⟩

/-- The log of a job is at most at the stage of its holder. -/
theorem CrawlOk.rank_le (hc : S.CrawlOk c) {n : Nat} {stage₀ stage' : Stage} (hstage : c.stage n = some stage₀)
    {a : Attempt} (ha : c.world.attempts n = some a) (hmem : (a.job.id, stage') ∈ c.log) : stage'.rank ≤ stage₀.rank := by
  obtain ⟨j, u, hheld, _⟩ := hc.held hstage ha
  obtain ⟨k, hk, hkid, _, hstate⟩ := hc.log _ _ hmem
  have hkj : k = j := hc.table.ids.unique hk hheld.row (hkid.trans hheld.same.id.symm)
  subst hkj
  rcases hstate with hdone | ⟨_, m, stage₁, b, hm, hb, hbid, hrank⟩
  · cases hdone.symm.trans hheld.state
  · have hmn : m = n := hc.apart m n b a (by rw [hm]; rfl) (by rw [hstage]; rfl) hb ha hbid
    subst hmn
    cases Option.some.inj (hm.symm.trans hstage)
    exact hrank

/-- A turn that leaves the job in the hands of the worker and only adds to the tables. -/
theorem CrawlOk.turn (hc : S.CrawlOk c) {stage₀ : Stage} (hstage : c.stage worker = some stage₀) {a a' : Attempt}
    {j : Job} {u : String} (hheld : S.Held c.world worker a j) (hserves : S.Serves c.world.db j u)
    (hcap : s.CappedIn S.T S.runId S.provider S.params S.b) (htable : S.TableOk s.db) (hcomplete : S.Complete s.db)
    (hlater : S.Later c.world.db s.db) (hgrown : c.world.db.Grown s.db)
    (hothers : ∀ n, n ≠ worker → s.attempts n = c.world.attempts n) (ha' : s.attempts worker = some a')
    (hjob : a'.job = a.job) (htoken : a'.token = a.token) (hfin : stage ≠ .finished)
    (hrank : stage₀.rank < stage.rank) (hsub : ∀ v ∈ c.acquired, v ∈ acquired)
    (hnew : ∀ v ∈ acquired, v ∈ c.acquired ∨ S.Acquires j v) (honce : acquired.Nodup)
    (hok : S.StageOk s.db acquired a' j u stage) : S.Turn c s worker a.job.id stage acquired := by
  have hrow : j ∈ s.db.jobs := hgrown.busy j hheld.row hheld.state
  refine ⟨hcap, htable, hcomplete, hlater, fun j' hj' _ => hgrown.rows j' hj',
    fun k hk _ hs => hgrown.busy k hk hs, hothers, ?_, ?_, ?_, ?_, hsub, ?_, honce⟩
  · intro n b hn hsome hb heq
    exact hn (hc.apart n worker b a hsome (by rw [hstage]; rfl) hb hheld.attempt heq)
  · intro b _ hb
    cases Option.some.inj (hheld.attempt.symm.trans hb)
    rfl
  · intro stage' hmem
    exact Nat.lt_of_le_of_lt (hc.rank_le hstage hheld.attempt hmem) hrank
  · refine ⟨j, hrow, u, hheld.same.id, hheld.run, hserves.later hlater, fun h => (hfin h).elim, fun _ =>
      ⟨a', ⟨ha', hrow, by rw [hjob]; exact hheld.same, hheld.run, hheld.state, by rw [htoken]; exact hheld.token,
        by rw [hjob]; exact hheld.depth⟩, hok⟩⟩
  · intro v hv
    rcases hnew v hv with hold | hacq
    · exact .inl hold
    · exact .inr ⟨j, hrow, hheld.same.id, hacq⟩

theorem later_refl (db : Db) : S.Later db db :=
  ⟨fun j hj => ⟨j, hj, .refl j, Nat.le_refl _, fun _ => rfl⟩, fun _ _ hk => hk⟩

theorem attemptAt_some {stage₀ : Stage} {kind : JobKind} {a : Attempt} (h : c.attemptAt worker stage₀ kind = some a) :
    c.stage worker = some stage₀ ∧ c.world.attempts worker = some a ∧ a.job.kind = kind := by
  unfold Crawl.attemptAt at h
  split at h
  · next hstage =>
    obtain ⟨ha, hkind⟩ := Option.filter_eq_some_iff.mp h
    exact ⟨hstage, ha, by simpa using hkind⟩
  · cases h

theorem acquire_ok (hc : S.CrawlOk c) {c' : Crawl}
    (h : c.step S.T S.w S.games S.runId (.acquire worker) = some c') : S.CrawlOk c' := by
  obtain ⟨a, hat, h⟩ := Option.bind_eq_some_iff.mp h
  obtain ⟨hstage, ha, hkind⟩ := attemptAt_some hat
  obtain ⟨j, u, hheld, hserves, hok⟩ := hc.held hstage ha
  have hjkind : j.kind = .crawlOpponents := hheld.same.kind.trans hkind
  have hacq := hserves.acquires hjkind
  have htarget : a.job.target = .name u := hheld.same.target.symm.trans hacq.target
  rw [htarget] at h
  cases h
  have hfresh : u ∉ c.acquired := hok hjkind
  refine Turn.ok (hc.turn hstage hheld hserves hc.capped hc.table hc.complete (later_refl _) (.refl _)
    (fun _ _ => rfl) ha rfl rfl (by simp) (by simp [Stage.rank]) ?_ ?_ ?_ ?_) hc
  · intro v hv
    exact List.mem_append_left _ hv
  · intro v hv
    rcases List.mem_append.mp hv with hold | hnew
    · exact .inl hold
    · rw [List.mem_singleton.mp hnew]
      exact .inr hacq
  · rw [List.nodup_append]
    refine ⟨hc.once, by simp, fun x hx y hy => ?_⟩
    rw [List.mem_singleton.mp hy]
    rintro rfl
    exact hfresh hx
  · exact ⟨hjkind, List.mem_append_right _ (List.mem_singleton.mpr rfl)⟩

/-- The parent of an expansion is the job that it names. -/
theorem TableOk.parent {db : Db} (ht : S.TableOk db) {p j : Job} (hp : p ∈ db.jobs) {u : String} (hpu : S.Acquires p u)
    (hj : j ∈ db.jobs) (hexp : p.expands j = true) : j.target = .ref p.id ∧ S.Within j.depth u ∧
      ∃ depth, depth ≤ S.b.maxDepth ∧ j.dedupKey = expansionKey S.runId (some S.provider) p.id depth := by
  obtain ⟨hparent, hkind⟩ : j.parentJobId = some p.id ∧ j.kind = .expandOpponents := by
    simpa [Job.expands] using hexp
  obtain ⟨q, hq, v, depth, hqv, hjq, htarget, hle, hkey, hw⟩ := ht.expansion j hj
    (ht.children p hp hpu.run j hj hparent) hkind
  have hqp : q = p := ht.ids.unique hq hp (Option.some.inj (hjq.symm.trans hparent))
  subst hqp
  rw [hpu.user hqv]
  exact ⟨htarget, hw, depth, hle, hkey⟩

theorem TableOk.player {db : Db} (ht : S.TableOk db) {j : Job} (hj : j ∈ db.jobs) {u : String} (hju : S.Acquires j u) :
    S.Player u ∧ S.Within j.depth u := by
  obtain ⟨v, hv, hjv, _, hw⟩ := ht.acquires hj hju.crawlsIn
  rw [hju.user hjv]
  exact ⟨hv, hw⟩

theorem Serves.within {db : Db} (ht : S.TableOk db) {j : Job} (hj : j ∈ db.jobs) {u : String} (h : S.Serves db j u) :
    S.Player u ∧ S.Within j.depth u := by
  cases h with
  | own hacq => exact ht.player hj hacq
  | expansion hp hpu hexp => exact ⟨(ht.player hp hpu).1, (ht.parent hp hpu hj hexp).2.1⟩

/-- The acquisition that an attempt reads its depth by. -/
theorem Held.acquisition (hcap : s.CappedIn S.T S.runId S.provider S.params S.b) (ht : S.TableOk s.db) {a : Attempt}
    {j parent : Job} {u : String} (h : S.Held s worker a j) (hserves : S.Serves s.db j u)
    (hparent : s.db.acquisitionOf a.job = some parent) :
    S.Acquires parent u ∧ S.Within parent.depth u ∧ parent.provider = some S.provider ∧
      (j.kind = .expandOpponents → parent ∈ s.db.jobs ∧ parent.expands j = true) := by
  cases hserves with
  | own hju =>
    have hkind : a.job.kind = .crawlOpponents := h.same.kind.symm.trans hju.kind
    unfold Db.acquisitionOf at hparent
    rw [hkind] at hparent
    cases hparent
    refine ⟨hju.same h.same.symm, by rw [← h.depth]; exact (ht.player h.row hju).2, ?_, fun hexp => ?_⟩
    · rw [← h.same.provider]
      exact (hcap.db.crawl j h.row hju.crawlsIn).1
    · cases hju.kind.symm.trans hexp
  | @expansion p hp hpu hexp =>
    have hkind : a.job.kind = .expandOpponents := by
      rw [← h.same.kind]
      simp only [Job.expands, Bool.and_eq_true, decide_eq_true_eq] at hexp
      exact hexp.2
    have htarget : a.job.target = .ref p.id := h.same.target.symm.trans (ht.parent hp hpu h.row hexp).1
    unfold Db.acquisitionOf at hparent
    rw [hkind, htarget] at hparent
    dsimp only at hparent
    rw [ht.ids.job hp] at hparent
    obtain ⟨hpp, _⟩ := Option.filter_eq_some_iff.mp hparent
    cases Option.some.inj hpp
    exact ⟨hpu, (ht.player hp hpu).2, (hcap.db.crawl _ hp hpu.crawlsIn).1, fun _ => ⟨hp, hexp⟩⟩

theorem expansionDepth_within {db : Db} (hR : S.Roomy) (ht : S.TableOk db) {parent : Job} {u : String} (hu : S.Player u)
    (hacq : S.Acquires parent u) (hparent : S.Within parent.depth u) (hprovider : parent.provider = some S.provider)
    {depth : Nat} (hw : S.Within depth u) : S.Within (db.expansionDepth S.T parent depth) u := by
  unfold Db.expansionDepth
  rw [hacq.run, hprovider, hacq.target]
  refine within_min hw ?_
  cases hk : db.knownCrawlDepth S.T S.runId S.provider u with
  | none => exact hparent
  | some k => exact known_within hR ht hu (KnownWithin.of_known hk)

theorem readDepth_ok (hR : S.Roomy) (hc : S.CrawlOk c) {c' : Crawl}
    (h : c.step S.T S.w S.games S.runId (.readDepth worker) = some c') : S.CrawlOk c' := by
  obtain ⟨a, hat, h⟩ := Option.bind_eq_some_iff.mp h
  obtain ⟨t, hstep, rfl⟩ := Option.map_eq_some_iff.mp h
  have hstage : ∃ stage₀, c.stage worker = some stage₀ ∧ c.world.attempts worker = some a ∧
      stage₀.rank < Stage.rank .read ∧ (stage₀ = .acquired ∨ a.job.kind = .expandOpponents) := by
    rcases Option.or_eq_some_iff.mp hat with hat | ⟨_, hat⟩
    · obtain ⟨hstage, ha, _⟩ := attemptAt_some hat
      exact ⟨_, hstage, ha, by decide, .inl rfl⟩
    · obtain ⟨hstage, ha, hkind⟩ := attemptAt_some hat
      exact ⟨_, hstage, ha, by decide, .inr hkind⟩
  obtain ⟨stage₀, hstage, ha, hrank, hkind⟩ := hstage
  obtain ⟨j, u, hheld, hserves, hok⟩ := hc.held hstage ha
  have hdisc : (Event.readDepth worker).Discovers S.T S.runId := trivial
  have hcap' := step_capped hR.child hR.bounds hc.capped hdisc hstep
  obtain ⟨a₁, ha₁, hread⟩ := Option.bind_eq_some_iff.mp hstep
  cases Option.some.inj (ha.symm.trans ha₁)
  obtain ⟨parent, hparent, rfl⟩ := Option.map_eq_some_iff.mp hread
  obtain ⟨hacq, hw, hprovider, _⟩ := hheld.acquisition hc.capped hc.table hserves hparent
  obtain ⟨hu, hjw⟩ := hserves.within hc.table hheld.row
  have hset : (c.world.setAttempt worker (some { a with depth := some (c.world.db.expansionDepth S.T parent
      a.job.depth) })).attempts worker = some { a with depth := some (c.world.db.expansionDepth S.T parent a.job.depth) } :=
    if_pos rfl
  refine Turn.ok (hc.turn hstage hheld hserves hcap' hc.table hc.complete (later_refl _) (.refl _)
    (fun n hn => if_neg hn) hset rfl rfl (by simp) hrank
    (fun _ hv => hv) (fun _ hv => .inl hv) hc.once ⟨fun hjkind => ?_, _, rfl, ?_, ?_⟩) hc
  · rcases hkind with rfl | hkind
    · exact hok.2
    · cases (hheld.same.kind.trans hkind).symm.trans hjkind
  · rw [hheld.depth]
    exact expansionDepth_le parent _
  · refine expansionDepth_within hR hc.table hu hacq hw hprovider ?_
    rw [← hheld.depth]
    exact hjw

/-- The expansion that an acquisition queues. -/
theorem queue_good {db db' : Db} (hR : S.Roomy) (h : S.Good db) {p q : Job} (hp : p ∈ db.jobs) (hsame : q.Same p) {u : String}
    (hpu : S.Acquires p u) {depth : Nat} (hle : depth ≤ S.b.maxDepth) (hw : S.Within depth u) {now : Int}
    {res : EnqueueResult} (hc' : S.Capped db') (hq : db.enqueueExpansionAt S.T q depth now = .ok (res, db')) :
    S.Good db' := by
  unfold Db.enqueueExpansionAt at hq
  split at hq
  · cases hq
  replace hq : db.enqueueJob S.T (expansionRequest q depth now) = .ok (res, db') := hq
  rcases enqueueJob_cases hq with ⟨rfl, _⟩ | ⟨_, owner, _, rfl⟩
  · exact h
  · refine ⟨h.table.insert (fits_expansion hp hsame hpu (h.capped.crawl p hp hpu.crawlsIn).1 hle hw now) owner, hc', ?_⟩
    exact (CompleteBut.insert_expansion hR h.table h.capped h.complete hsame depth now owner).mono fun _ _ he => he.1

theorem expansion_ok (hR : S.Roomy) (hc : S.CrawlOk c) {now : Int} {c' : Crawl}
    (h : c.step S.T S.w S.games S.runId (.expansion worker now) = some c') : S.CrawlOk c' := by
  obtain ⟨a, hat, h⟩ := Option.bind_eq_some_iff.mp h
  obtain ⟨t, hstep, rfl⟩ := Option.map_eq_some_iff.mp h
  obtain ⟨hstage, ha, hkind⟩ := attemptAt_some hat
  obtain ⟨j, u, hheld, hserves, hacquired, d, hd, hdle, hdw⟩ := hc.held hstage ha
  have hjkind : j.kind = .crawlOpponents := hheld.same.kind.trans hkind
  have hju := hserves.acquires hjkind
  have hdisc : (Event.expansion worker now).Discovers S.T S.runId := trivial
  have hcap' := step_capped hR.child hR.bounds hc.capped hdisc hstep
  have hlater : S.Later c.world.db t.db := later_of_writes (step_writes hc.capped.sound hstep)
  obtain ⟨a₁, db, howns, hr, rfl⟩ := World.fencedBy_some hstep
  cases Option.some.inj (ha.symm.trans howns.attempt)
  rw [hd, hkind] at hr
  obtain ⟨res, hr⟩ := map_snd_ok hr
  have hmax : d ≤ S.b.maxDepth := Nat.le_trans hdle (hc.capped.db.crawl j hheld.row hju.crawlsIn).2.2
  have hgood : S.Good db := queue_good hR hc.good hheld.row hheld.same hju hmax hdw hcap'.db hr
  obtain ⟨x, hx, hexp, hxle⟩ := enqueueExpansionAt_expands hc.capped.db.keyed
    (hheld.same.crawlRunId.symm.trans hheld.run) hr
  refine Turn.ok (hc.turn hstage hheld hserves hcap' hgood.table hgood.complete hlater (enqueueExpansionAt_grown hr)
    (fun _ _ => rfl) ha rfl rfl (by simp) (by simp [Stage.rank]) (fun _ hv => hv) (fun _ hv => .inl hv) hc.once
    ⟨fun _ => ⟨hacquired hjkind, x, hx, ?_, Nat.le_trans hxle hdle⟩, fun hexp => ?_⟩) hc
  · rw [hheld.same.expands (.refl x)]
    exact hexp
  · cases hjkind.symm.trans hexp

/-- An expansion is only claimed after its parent is through. -/
theorem CrawlOk.acquired_parent (hc : S.CrawlOk c) {p j : Job} (hp : p ∈ c.world.db.jobs) {u : String}
    (hpu : S.Acquires p u) (hj : j ∈ c.world.db.jobs) (hexp : p.expands j = true) (hs : j.state ≠ .pending) :
    u ∈ c.acquired := by
  have hdead : p.state.live ≠ true := fun hlive => hs (hc.table.waiting p hp hpu.crawlsIn hlive j hj hexp)
  refine hc.done p hp u hpu ?_
  rcases hc.table.states p hp hpu.run with hstate | hstate | hstate
  · exact (hdead (by rw [hstate]; rfl)).elim
  · exact (hdead (by rw [hstate]; rfl)).elim
  · exact hstate

theorem expandOpponentFrontier_horizon {T : Text} {db db' : Db} {parent : Job} {runId depth : Nat} {provider : String}
    {b : CrawlBounds} {edges : List String} {r : Race} {now : Int} (hrun : parent.crawlRunId = some runId)
    (hprovider : parent.provider = some provider) (hb : parent.childParams.bounds = .ok b)
    (hdepth : b.maxDepth < depth + 1) (h : db.expandOpponentFrontier T parent depth edges r now = .ok db') :
    db' = db := by
  unfold Db.expandOpponentFrontier at h
  rw [hrun, hprovider] at h
  dsimp only at h
  obtain ⟨b', hb', h⟩ := bind_ok h
  cases Except.ok.inj (hb.symm.trans hb')
  rw [if_pos hdepth] at h
  cases h
  rfl

theorem expand_ok (hR : S.Roomy) (hc : S.CrawlOk c) {edges : List String} {r : Race} {now : Int} {c' : Crawl}
    (h : c.step S.T S.w S.games S.runId (.expand worker edges r now) = some c') : S.CrawlOk c' := by
  obtain ⟨a, hat, h⟩ := Option.bind_eq_some_iff.mp h
  obtain ⟨parent, hparent, h⟩ := Option.bind_eq_some_iff.mp h
  obtain ⟨hstage, ha, hkind⟩ := attemptAt_some hat
  obtain ⟨j, u, hheld, hserves, _, d, hd, hdle, hdw⟩ := hc.held hstage ha
  have hjkind : j.kind = .expandOpponents := hheld.same.kind.trans hkind
  obtain ⟨hpu, _, hprovider, hexp⟩ := hheld.acquisition hc.capped hc.table hserves hparent
  obtain ⟨hp, hexp⟩ := hexp hjkind
  rw [hpu.target] at h
  dsimp only at h
  split at h
  swap
  · cases h
  next hedges =>
  obtain ⟨t, hstep, rfl⟩ := Option.map_eq_some_iff.mp h
  -- the games of the user are associated
  have hu : u ∈ c.acquired := hc.acquired_parent hp hpu hheld.row hexp (by rw [hheld.state]; simp)
  have hadj : ∀ x, x ∈ edges ↔ S.graph.Adj u x := by
    intro x
    unfold graph
    rw [← mem_opponentsOfUser hu]
    exact ⟨fun hx => hedges.1 hx, fun hx => hedges.2 hx⟩
  have hdisc : (Event.expand worker edges r now).Discovers S.T S.runId :=
    fun x hx => hR.strip x (player_adj ((hadj x).mp hx))
  have hcap' := step_capped hR.child hR.bounds hc.capped hdisc hstep
  have hlater : S.Later c.world.db t.db := later_of_writes (step_writes hc.capped.sound hstep)
  obtain ⟨a₁, db, howns, hr, rfl⟩ := World.fencedBy_some hstep
  cases Option.some.inj (ha.symm.trans howns.attempt)
  rw [hd, hparent] at hr
  dsimp only at hr
  split at hr
  swap
  · cases hr
  next hsound =>
  have hbounds : parent.childParams.bounds = .ok S.b := by
    rw [(hc.capped.db.crawl parent hp hpu.crawlsIn).2.1]
    exact hR.bounds
  have hgood : S.Good db ∧ (d + 1 ≤ S.b.maxDepth → ∀ x, S.graph.Adj u x → S.Known db x (d + 1)) := by
    by_cases hmax : d + 1 ≤ S.b.maxDepth
    · obtain ⟨hgood, hknown⟩ := expand_good hR hc.capped hc.good ⟨howns, hd, hparent, hpu.run, hprovider, hbounds, hmax⟩
        hdw (fun x hx => (hadj x).mp hx) hsound hr
      exact ⟨hgood, fun _ x hx => hknown x ((hadj x).mpr hx)⟩
    · rw [expandOpponentFrontier_horizon hpu.run hprovider hbounds (by omega) hr]
      exact ⟨hc.good, fun hle => (hmax hle).elim⟩
  refine Turn.ok (hc.turn hstage hheld hserves hcap' hgood.1.table hgood.1.complete hlater
    (expandOpponentFrontier_grown hr) (fun _ _ => rfl) ha rfl rfl (by simp) (by simp [Stage.rank]) (fun _ hv => hv)
    (fun _ hv => .inl hv) hc.once ⟨fun hcrawl => ?_, fun _ => ⟨d, hdle, hgood.2⟩⟩) hc
  cases hjkind.symm.trans hcrawl

theorem Serves.same {db : Db} {j k : Job} {u : String} (h : S.Serves db j u) (hs : j.Same k) : S.Serves db k u := by
  cases h with
  | own hju => exact .own (hju.same hs)
  | expansion hp hpu hexp =>
    refine .expansion hp hpu ?_
    rw [Job.Same.expands (.refl _) hs]
    exact hexp

theorem TableOk.serves {db : Db} (ht : S.TableOk db) {j : Job} (hj : j ∈ db.jobs) (hrun : j.crawlRunId = some S.runId) :
    ∃ u, S.Serves db j u := by
  rcases ht.kinds j hj hrun with hkind | hkind
  · obtain ⟨u, _, hju, _⟩ := ht.acquires hj ⟨hrun, hkind⟩
    exact ⟨u, .own hju⟩
  · obtain ⟨p, hp, u, _, hpu, hparent, _⟩ := ht.expansion j hj hrun hkind
    exact ⟨u, .expansion hp hpu (by simp [Job.expands, hparent, hkind])⟩

theorem claimed_same (j : Job) (now : Int) (token : Option Nat) : j.Same (j.claimed now token) :=
  ⟨rfl, rfl, rfl, rfl, rfl, rfl, rfl, rfl, rfl⟩

/-- A claim makes a pending row busy; that of an expansion finds the parent through. -/
theorem claim_moves {db : Db} (ht : S.TableOk db) {row : Job} (hrow : row ∈ db.jobs)
    (hs : row.state = .pending) (hready : db.processingReady row = true) (now : Int) (token : Option Nat) :
    S.Moves db fun k => if decide (k.id = row.id) = true then k.claimed now token else k := by
  have hcase : ∀ k ∈ db.jobs, k = row ∨ k ≠ row ∧
      (if decide (k.id = row.id) = true then k.claimed now token else k) = k := by
    intro k hk
    by_cases hid : k.id = row.id
    · exact .inl (ht.ids.unique hk hrow hid)
    · exact .inr ⟨fun heq => hid (by rw [heq]), if_neg (by simpa using hid)⟩
  have hown : (if decide (row.id = row.id) = true then row.claimed now token else row) = row.claimed now token :=
    if_pos (by simp)
  refine ⟨?_, ?_, ?_, ?_, ?_, ?_⟩
  · intro k _
    split
    · exact claimed_same k now token
    · exact .refl k
  · intro k _
    split
    · exact Nat.le_refl _
    · exact Nat.le_refl _
  · intro k hk hrun
    split
    · exact .inr (.inl rfl)
    · exact ht.states k hk hrun
  · intro k _ u _ hw
    split
    · exact hw
    · exact hw
  · intro k _ _
    split
    · rfl
    · rfl
  · intro p hp hin hlive
    have hlive₀ : p.state.live = true := by
      rcases hcase p hp with rfl | ⟨_, heq⟩
      · rw [hs]
        rfl
      · rwa [heq] at hlive
    refine ⟨hlive₀, fun k hk hexp hpending => ?_⟩
    rcases hcase k hk with rfl | ⟨_, heq⟩
    · -- the parent of a claimed expansion is terminal
      obtain ⟨hparent, hkind⟩ : k.parentJobId = some p.id ∧ k.kind = .expandOpponents := by
        simpa [Job.expands] using hexp
      simp only [Db.processingReady, hkind, ne_eq, not_true, decide_false, Bool.false_or, Bool.and_eq_true] at hready
      obtain ⟨q, hq, hterm⟩ := List.any_eq_true.mp hready.2
      simp only [Bool.and_eq_true, decide_eq_true_eq, hparent, Option.some.injEq] at hterm
      rw [ht.ids.unique hq hp hterm.1, JobState.terminal, hlive₀] at hterm
      exact absurd hterm.2 (by simp)
    · rw [heq]
      exact hpending

theorem claim_ok (hR : S.Roomy) (hc : S.CrawlOk c) {now : Int} {maxActiveJobs token : Nat} {c' : Crawl}
    (h : c.step S.T S.w S.games S.runId (.claim worker jobId now maxActiveJobs token) = some c') : S.CrawlOk c' := by
  replace h : (if _ then _ else _) = some c' := h
  split at h
  swap
  · cases h
  next hany =>
  obtain ⟨t, hstep, rfl⟩ := Option.map_eq_some_iff.mp h
  have hdisc : (Event.claim worker jobId now maxActiveJobs token).Discovers S.T S.runId := trivial
  have hcap' := step_capped hR.child hR.bounds hc.capped hdisc hstep
  have hlater : S.Later c.world.db t.db := later_of_writes (step_writes hc.capped.sound hstep)
  replace hstep : (if _ then _ else _) = some t := hstep
  split at hstep
  swap
  · cases hstep
  next hfree =>
  obtain ⟨⟨j, db⟩, hclaim, rfl⟩ := Option.map_eq_some_iff.mp hstep
  obtain ⟨row, hrow, rfl, hadm, rfl, rfl⟩ := claim_row hclaim
  have hrun : row.crawlRunId = some S.runId := by
    rw [hc.table.ids.job hrow] at hany
    simpa using hany
  simp only [Db.admissible, Bool.and_eq_true] at hadm
  obtain ⟨⟨⟨⟨⟨_, hsched⟩, _⟩, hready⟩, _⟩, _⟩ := hadm
  have hs : row.state = .pending := by
    unfold Job.schedulable at hsched
    rcases hc.table.states row hrow hrun with hs | hs | hs
    · exact hs
    · simp [hs] at hsched
    · simp [hs] at hsched
  have hm := claim_moves hc.table hrow hs hready now (some token)
  have hother : ∀ k ∈ c.world.db.jobs, k.id ≠ row.id →
      k ∈ (c.world.db.updateJob row.id fun row => row.claimed now (some token)).jobs := by
    intro k hk hid
    refine List.mem_map.mpr ⟨k, hk, if_neg (by simpa using hid)⟩
  have hmem : row.claimed now (some token) ∈
      (c.world.db.updateJob row.id fun row => row.claimed now (some token)).jobs :=
    List.mem_map.mpr ⟨row, hrow, if_pos (by simp)⟩
  have hcomplete : S.Complete (c.world.db.updateJob row.id fun row => row.claimed now (some token)) := by
    refine hc.complete.move hm (fun k _ hlive => ?_) (fun k _ => ?_)
    · split
      · rfl
      · exact hlive
    · split
      · rfl
      · rfl
  obtain ⟨u, hserves⟩ := hc.table.serves hrow hrun
  refine Turn.ok ⟨hcap', hc.table.move hm, hcomplete, hlater, ?_, fun k hk hid _ => hother k hk hid,
    fun n hn => if_neg hn, ?_, ?_, ?_, ?_, fun _ hv => hv, fun _ hv => .inl hv, hc.once⟩ hc
  · intro j' hj' hid
    obtain ⟨k, hk, rfl⟩ := List.mem_map.mp hj'
    split at hid
    · next hsel => exact (hid (show k.id = row.id by simpa using hsel)).elim
    · next hsel =>
      rw [if_neg hsel]
      exact .inr ⟨k, hk, .refl k, rfl⟩
  · intro n b _ hsome hb heq
    obtain ⟨stage₀, hstage₀⟩ := Option.isSome_iff_exists.mp hsome
    obtain ⟨k, _, hheld, _⟩ := hc.held hstage₀ hb
    have hk := hheld.state
    rw [hc.table.ids.unique hheld.row hrow (hheld.same.id.trans heq), hs] at hk
    cases hk
  · intro b _ hb
    rw [hb] at hfree
    exact absurd hfree.1 (by simp)
  · intro stage' hlog
    obtain ⟨k, hk, hkid, _, hstate⟩ := hc.log _ _ hlog
    rw [hc.table.ids.unique hk hrow hkid, hs] at hstate
    rcases hstate with hdone | ⟨hbusy, _⟩
    · cases hdone
    · cases hbusy
  · have hsame := claimed_same row now (some token)
    refine ⟨_, hmem, u, rfl, hrun, (hserves.later hlater).same hsame, fun hfin => (by cases hfin), fun _ =>
      ⟨⟨_, token, none⟩, ⟨if_pos rfl, hmem, .refl _, hrun, rfl, rfl, rfl⟩, fun hkind hu => ?_⟩⟩
    obtain ⟨k, hk, hku, hkstate⟩ := hc.users u hu
    refine hkstate ?_
    rw [acquires_unique hc.capped.db hk hrow hku (hserves.acquires hkind)]
    exact hs

/-- The row of a finished job: through, and for an acquisition at the depth that the run knows. -/
def Ends (S : Setting) (db : Db) (j : Job) (reason : String) (now : Int) (g : Job → Job) : Prop :=
  (∀ k : Job, k.Same (g k)) ∧ (∀ k : Job, (g k).state = .done) ∧
    ((∀ k : Job, (g k).depth = k.depth) ∨ ∃ runId provider u n, j.kind = .crawlOpponents ∧ j.crawlRunId = some runId ∧
      j.provider = some provider ∧ j.target = .name u ∧ (∀ k : Job, (g k).depth = min k.depth n) ∧
      (db.updateJob j.id fun k => k.mark .done (some reason) now).knownCrawlDepth S.T runId provider u = some n)

theorem mergeDepth_ends (db : Db) (j : Job) (reason : String) (now : Int) :
    ∃ g, (db.updateJob j.id fun k => k.mark .done (some reason) now).mergeDepth S.T j = db.updateJob j.id g ∧
      S.Ends db j reason now g := by
  have hsame : ∀ k : Job, k.Same (k.mark .done (some reason) now) :=
    fun _ => ⟨rfl, rfl, rfl, rfl, rfl, rfl, rfl, rfl, rfl⟩
  unfold Db.mergeDepth
  split
  · next runId provider u hkind hrun hprovider htarget =>
    split
    · next n hn =>
      refine ⟨fun k => (k.mark .done (some reason) now).merged n, ?_,
        fun _ => ⟨rfl, rfl, rfl, rfl, rfl, rfl, rfl, rfl, rfl⟩, fun _ => rfl, .inr ⟨runId, provider, u, n, hkind, hrun, hprovider, htarget, fun _ => rfl, hn⟩⟩
      unfold Db.updateJob Db.updateJobs
      simp only [List.map_map]
      congr 1
      refine List.map_congr_left fun k _ => ?_
      by_cases hid : k.id = j.id
      · simp [hid, Job.mark]
      · simp [hid]
    · exact ⟨_, rfl, hsame, fun _ => rfl, .inl fun _ => rfl⟩
  · exact ⟨_, rfl, hsame, fun _ => rfl, .inl fun _ => rfl⟩

theorem finishAttempt_ends {db db' : Db} (hids : db.Ids) {j : Job} (hj : j ∈ db.jobs) {reason : String} {now : Int}
    (h : db.finishAttempt S.T S.w j.id ⟨.done, reason, false, none, 0⟩ now = .ok db') :
    ∃ g, (db.updateJob j.id g).Tables db' ∧ S.Ends db j reason now g := by
  have hdefer : db.deferFor S.w j ⟨.done, reason, false, none, 0⟩ now = db := by
    unfold Db.deferFor
    split
    · simp
    · rfl
  have hfinished : (fun row : Job => row.finished S.w ⟨.done, reason, false, none, 0⟩ now) =
      fun row => row.mark .done (some reason) now := by
    funext row
    simp [Job.finished]
  obtain ⟨g, hmerge, hends⟩ := mergeDepth_ends (S := S) db j reason now
  refine ⟨g, ?_, hends⟩
  unfold Db.finishAttempt at h
  rw [hids.job hj] at h
  dsimp only at h
  rw [hdefer, hfinished, hmerge] at h
  cases h
  split
  · exact Db.refreshRunStatus_tables _ _ _
  · exact .refl _

theorem known_congr {db db' : Db} (h : db'.jobs = db.jobs) {u : String} {n : Nat} :
    S.Known db' u n ↔ S.Known db u n := by
  unfold Known Db.KnownWithin
  rw [h]

theorem TableOk.tables {db db' : Db} (h : S.TableOk db) (ht : db.Tables db') : S.TableOk db' := by
  obtain ⟨hids, hparents, hkinds, hstates, hkeys, huser, hexpansion, hchildren, hroot, hwaiting⟩ := h
  refine ⟨⟨?_, ?_⟩, ?_, ?_, ?_, ?_, ?_, ?_, ?_, ?_, ?_⟩ <;> rw [ht.jobs]
  · exact hids.nodup
  · rw [ht.jobSeq]
    exact hids.issued
  · rw [ht.jobSeq]
    exact hparents
  all_goals assumption

theorem Complete.tables {db db' : Db} (h : S.Complete db) (ht : db.Tables db') : S.Complete db' := by
  intro j hj u hju n hknown hn hE
  rw [known_congr ht.jobs] at hknown
  rw [ht.jobs] at hj ⊢
  simp only [known_congr ht.jobs]
  exact h j hj u hju n hknown hn hE

/-- The merged depth was known before the end of the job. -/
theorem Ends.depth {db : Db} (hcap : S.Capped db) {j : Job} (hj : j ∈ db.jobs)
    (hrun : j.crawlRunId = some S.runId) {reason : String} {now : Int} {g : Job → Job} (h : S.Ends db j reason now g) :
    (∀ k : Job, (g k).depth = k.depth) ∨ ∃ u n, S.Acquires j u ∧ S.Known db u n ∧ ∀ k : Job, (g k).depth = min k.depth n := by
  rcases h.2.2 with hsame | ⟨runId, provider, u, n, hkind, hrun', hprovider, htarget, hdepth, hknown⟩
  · exact .inl hsame
  · cases Option.some.inj (hrun.symm.trans hrun')
    have hju : S.Acquires j u := ⟨hrun, hkind, htarget⟩
    cases Option.some.inj ((hcap.crawl j hj hju.crawlsIn).1.symm.trans hprovider)
    refine .inr ⟨u, n, hju, ?_, hdepth⟩
    -- the mark alone leaves every depth
    obtain ⟨i, hi, hcrawls, hle⟩ := KnownWithin.of_known hknown
    have hback : ∀ k ∈ (db.updateJob j.id fun k => k.mark .done (some reason) now).jobs, ∃ k₀ ∈ db.jobs,
        k₀.Same k ∧ k.depth = k₀.depth := by
      intro k hk
      obtain ⟨k₀, hk₀, rfl⟩ := List.mem_map.mp hk
      refine ⟨k₀, hk₀, ?_, ?_⟩
      · split
        · exact ⟨rfl, rfl, rfl, rfl, rfl, rfl, rfl, rfl, rfl⟩
        · exact .refl k₀
      · split
        · rfl
        · rfl
    obtain ⟨i₀, hi₀, hsame, hdepth₀⟩ := hback i hi
    refine ⟨i₀, hi₀, by rw [← hsame.crawls]; exact hcrawls, ?_⟩
    rcases hle with hle | ⟨x, hx, hexp, hle⟩
    · exact .inl (by rw [← hdepth₀]; exact hle)
    · obtain ⟨x₀, hx₀, hsame', hdepth'⟩ := hback x hx
      refine .inr ⟨x₀, hx₀, ?_, by rw [← hdepth']; exact hle⟩
      rw [← hsame.expands hsame']
      exact hexp

theorem ends_moves {db : Db} (hR : S.Roomy) (ht : S.TableOk db) (hcap : S.Capped db) {j : Job} (hj : j ∈ db.jobs)
    (hrun : j.crawlRunId = some S.runId) (hs : j.state = .inProgress) {reason : String} {now : Int} {g : Job → Job}
    (h : S.Ends db j reason now g) : S.Moves db fun k => if k.id = j.id then g k else k := by
  have hcase : ∀ k ∈ db.jobs, k = j ∨ k ≠ j ∧ (if k.id = j.id then g k else k) = k := by
    intro k hk
    by_cases hid : k.id = j.id
    · exact .inl (ht.ids.unique hk hj hid)
    · exact .inr ⟨fun heq => hid (by rw [heq]), if_neg hid⟩
  have hown : (if j.id = j.id then g j else j) = g j := if_pos rfl
  have hdepth := h.depth hcap hj hrun
  refine ⟨?_, ?_, ?_, ?_, ?_, ?_⟩
  · intro k _
    split
    · exact h.1 k
    · exact .refl k
  · intro k hk
    rcases hcase k hk with rfl | ⟨_, heq⟩
    · rw [hown]
      rcases hdepth with heq | ⟨_, n, _, _, heq⟩
      · rw [heq]
      · rw [heq]
        exact Nat.min_le_left _ _
    · rw [heq]
  · intro k hk hkrun
    split
    · exact .inr (.inr (h.2.1 k))
    · exact ht.states k hk hkrun
  · intro k hk u hku hw
    rcases hcase k hk with rfl | ⟨_, heq⟩
    · rw [hown]
      rcases hdepth with heq | ⟨v, n, hkv, hknown, heq⟩
      · rw [heq]
        exact hw
      · rw [heq]
        cases hku.user hkv
        exact within_min hw (known_within hR ht (ht.player hk hku).1 hknown)
    · rw [heq]
      exact hw
  · intro k hk hkind
    rcases hcase k hk with rfl | ⟨_, heq⟩
    · rw [hown]
      rcases hdepth with heq | ⟨_, _, hkv, _⟩
      · exact heq k
      · cases hkind.symm.trans hkv.kind
    · rw [heq]
  · intro p hp _ hlive
    rcases hcase p hp with rfl | ⟨_, heq⟩
    · rw [hown, h.2.1] at hlive
      cases hlive
    · rw [heq] at hlive
      refine ⟨hlive, fun k hk _ hpending => ?_⟩
      rcases hcase k hk with rfl | ⟨_, heq'⟩
      · cases hs.symm.trans hpending
      · rw [heq']
        exact hpending

/-- The depth merge adds nothing to what is known. -/
theorem ends_known {db : Db} (hR : S.Roomy) (ht : S.TableOk db) (hcap : S.Capped db) {j : Job} (hj : j ∈ db.jobs)
    (hrun : j.crawlRunId = some S.runId) (hs : j.state = .inProgress) {reason : String} {now : Int} {g : Job → Job}
    (h : S.Ends db j reason now g) {u : String} (hu : S.Player u) {n : Nat}
    (hk : S.Known (db.updateJob j.id g) u n) : S.Known db u n := by
  have hm : S.Moves db fun k => if decide (k.id = j.id) = true then g k else k := by
    simpa using ends_moves hR ht hcap hj hrun hs h
  rcases known_of_move hm hk with hold | ⟨k, hkm, hcrawls, hle, hlt⟩
  · exact hold
  · by_cases hid : k.id = j.id
    · have hkj : k = j := ht.ids.unique hkm hj hid
      subst hkj
      rw [if_pos (by simp)] at hle
      rcases h.depth hcap hj hrun with heq | ⟨v, m, hkv, hknown, heq⟩
      · rw [heq] at hle
        omega
      · rw [heq] at hle
        cases (crawls_acquires hR ht hkm hu hcrawls).user hkv
        exact hknown.mono (by omega)
    · rw [if_neg (by simpa using hid)] at hle
      omega

theorem finish_ok (hR : S.Roomy) (hc : S.CrawlOk c) {reason : String} {now : Int} {c' : Crawl}
    (h : c.step S.T S.w S.games S.runId (.finish worker reason now) = some c') : S.CrawlOk c' := by
  obtain ⟨a, hat, h⟩ := Option.bind_eq_some_iff.mp h
  obtain ⟨t, hstep, h⟩ := Option.bind_eq_some_iff.mp h
  obtain ⟨t', hrelease, rfl⟩ := Option.map_eq_some_iff.mp h
  have hstage : c.stage worker = some .queued ∧ c.world.attempts worker = some a := by
    rcases Option.or_eq_some_iff.mp hat with hat | ⟨_, hat⟩
    · exact ⟨(attemptAt_some hat).1, (attemptAt_some hat).2.1⟩
    · exact ⟨(attemptAt_some hat).1, (attemptAt_some hat).2.1⟩
  obtain ⟨hstage, ha⟩ := hstage
  obtain ⟨j, u, hheld, hserves, hcrawl, hexpand⟩ := hc.held hstage ha
  have hfinishes : (Event.finish worker ⟨.done, reason, false, none, 0⟩ now).Discovers S.T S.runId := trivial
  have hreleases : (Event.release worker).Discovers S.T S.runId := trivial
  have hcap₁ := step_capped hR.child hR.bounds hc.capped hfinishes hstep
  have hcap' := step_capped hR.child hR.bounds hcap₁ hreleases hrelease
  have hlater : S.Later c.world.db t.db := later_of_writes (step_writes hc.capped.sound hstep)
  obtain ⟨a₁, db, howns, hr, rfl⟩ := World.fencedBy_some hstep
  cases Option.some.inj (ha.symm.trans howns.attempt)
  cases hrelease
  rw [← hheld.same.id] at hr
  obtain ⟨g, htables, hends⟩ := finishAttempt_ends hc.table.ids hheld.row hr
  have hm := ends_moves hR hc.table hc.capped.db hheld.row hheld.run hheld.state hends
  have hm' : S.Moves c.world.db fun k => if decide (k.id = j.id) = true then g k else k := by simpa using hm
  have hcomplete : S.Complete (c.world.db.updateJob j.id g) := by
    refine Complete.finish hR hc.table hc.capped.db hc.complete hheld.row (by rw [hheld.state]; rfl) hm
      (fun v hv n hk => ends_known hR hc.table hc.capped.db hheld.row hheld.run hheld.state hends hv hk)
      (fun hkind => (hcrawl hkind).2) ?_
    intro p hp v hpv hexp
    have hkind : j.kind = .expandOpponents := by
      simp only [Job.expands, Bool.and_eq_true, decide_eq_true_eq] at hexp
      exact hexp.2
    have huv : u = v := by
      cases hserves with
      | own hju => cases hkind.symm.trans hju.kind
      | @expansion q hq hqu hexp' =>
        simp only [Job.expands, Bool.and_eq_true, decide_eq_true_eq] at hexp hexp'
        have hqp : q = p := hc.table.ids.unique hq hp (Option.some.inj (hexp'.1.symm.trans hexp.1))
        subst hqp
        exact hqu.user hpv
    rw [← huv]
    exact hexpand hkind
  have hjobs : db.jobs = (c.world.db.updateJob j.id g).jobs := htables.jobs
  have hmem : ∀ k ∈ c.world.db.jobs, k.id ≠ j.id → k ∈ db.jobs := by
    intro k hk hid
    rw [hjobs]
    exact List.mem_map.mpr ⟨k, hk, if_neg (by simpa using hid)⟩
  have hrow : g j ∈ db.jobs := by
    rw [hjobs]
    exact List.mem_map.mpr ⟨j, hheld.row, if_pos (by simp)⟩
  have hserves' : S.Serves db (g j) u := (hserves.later hlater).same (hends.1 j)
  rw [← hheld.same.id]
  refine Turn.ok ⟨hcap', (hc.table.move hm').tables htables, hcomplete.tables htables, hlater, ?_,
    fun k hk hid _ => hmem k hk hid, fun n hn => if_neg hn, ?_, ?_, ?_, ?_, fun _ hv => hv, fun _ hv => .inl hv,
    hc.once⟩ hc
  · intro j' hj' hid
    have hj'' : j' ∈ (c.world.db.updateJob j.id g).jobs := hjobs ▸ hj'
    obtain ⟨k, hk, rfl⟩ := List.mem_map.mp hj''
    by_cases hkid : k.id = j.id
    · rw [if_pos (by simpa using hkid), (hends.1 k).id] at hid
      exact (hid hkid).elim
    · rw [if_neg (by simpa using hkid)]
      exact .inr ⟨k, hk, .refl k, rfl⟩
  · intro n b hn hsome hb heq
    exact hn (hc.apart n worker b a hsome (by rw [hstage]; rfl) hb ha (heq.trans hheld.same.id))
  · intro b _ hb
    cases Option.some.inj (ha.symm.trans hb)
    exact hheld.same.id.symm
  · intro stage' hlog
    rw [hheld.same.id] at hlog
    exact Nat.lt_of_le_of_lt (hc.rank_le hstage ha hlog) (by decide)
  · refine ⟨g j, hrow, u, (hends.1 j).id, (hends.1 j).crawlRunId.trans hheld.run, hserves', fun _ =>
      ⟨hends.2.1 j, fun hkind => ?_⟩, fun hne => (hne rfl).elim⟩
    exact (hcrawl ((hends.1 j).kind.symm.trans hkind)).1

/-- Every step of the crawl. -/
theorem step_ok (hR : S.Roomy) (hc : S.CrawlOk c) {ev : CrawlEvent} {c' : Crawl}
    (h : c.step S.T S.w S.games S.runId ev = some c') : S.CrawlOk c' := by
  cases ev with
  | claim => exact claim_ok hR hc h
  | acquire => exact acquire_ok hc h
  | readDepth => exact readDepth_ok hR hc h
  | expansion => exact expansion_ok hR hc h
  | expand => exact expand_ok hR hc h
  | finish => exact finish_ok hR hc h

end Turns
end Setting
end ChessCrawl.Jobs
