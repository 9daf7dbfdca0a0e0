import ChessCrawl.Jobs.Crawl

/-! The table of an opponent crawl whose caps are not reached. Depths are never below the distance; and of a user
that is known within a depth, either its job is live, or an expansion within the depth is, or its opponents are
known within the next depth. -/
namespace ChessCrawl.Jobs
open ChessCrawl.Lib
set_option autoImplicit false

/-! ## The crawl -/

structure Setting where
  T : Text
  w : WorkerSettings
  games : Games
  seed : String
  provider : String
  runId : Nat
  params : Params
  b : CrawlBounds

namespace Setting

def graph (S : Setting) : SimpleGraph String := opponentGraph S.games

/-- The user is within the distance of the seed. -/
def Within (S : Setting) (n : Nat) (u : String) : Prop := S.graph.edist S.seed u ≤ n

def Player (S : Setting) (u : String) : Prop := u = S.seed ∨ ∃ x, S.graph.Adj u x

/-- Names are normalized and told apart by the database, and the caps have room for every user within the depth. -/
structure Roomy (S : Setting) : Prop where
  strip : ∀ u, S.Player u → S.T.strip u = u
  lower : ∀ u, S.Player u → S.T.lower u = u
  distinct : ∀ u v, S.Player u → S.Player v → S.T.sqlLower u = S.T.sqlLower v → u = v
  bounds : S.params.bounds = .ok S.b
  child : (S.params.pop "cursor_index").pop "bounded_capture_complete" = S.params
  room : ∀ users : List String, users.Nodup → (∀ u ∈ users, S.Within S.b.maxDepth u) →
    users.length ≤ S.b.maxUsers ∧ users.length ≤ S.b.maxJobs

def Known (S : Setting) (db : Db) (u : String) (n : Nat) : Prop := db.KnownWithin S.T S.runId S.provider u n

def Capped (S : Setting) (db : Db) : Prop := db.Capped S.T S.runId S.provider S.params S.b

/-- The acquisition of a user. -/
structure Acquires (S : Setting) (j : Job) (u : String) : Prop where
  run : j.crawlRunId = some S.runId
  kind : j.kind = .crawlOpponents
  target : j.target = .name u

/-- What the rows of the run are. -/
structure TableOk (S : Setting) (db : Db) : Prop where
  ids : db.Ids
  parents : ∀ c ∈ db.jobs, ∀ p, c.parentJobId = some p → p ≤ db.jobSeq
  kinds : ∀ j ∈ db.jobs, j.crawlRunId = some S.runId → j.kind = .crawlOpponents ∨ j.kind = .expandOpponents
  states : ∀ j ∈ db.jobs, j.crawlRunId = some S.runId →
    j.state = .pending ∨ j.state = .inProgress ∨ j.state = .done
  keys : ∀ j ∈ db.jobs, j.dedupKey.crawlRunId = some S.runId → j.crawlRunId = some S.runId
  user : ∀ j ∈ db.jobs, j.crawlsIn S.runId →
    ∃ u, S.Player u ∧ j.target = .name u ∧ j.dedupKey.target = .name u ∧ S.Within j.depth u
  expansion : ∀ c ∈ db.jobs, c.crawlRunId = some S.runId → c.kind = .expandOpponents →
    ∃ p ∈ db.jobs, ∃ u depth, S.Acquires p u ∧ c.parentJobId = some p.id ∧ c.target = .ref p.id ∧
      depth ≤ S.b.maxDepth ∧ c.dedupKey = expansionKey S.runId (some S.provider) p.id depth ∧ S.Within c.depth u
  children : ∀ p ∈ db.jobs, p.crawlRunId = some S.runId → ∀ c ∈ db.jobs, c.parentJobId = some p.id →
    c.crawlRunId = some S.runId
  root : ∃ j ∈ db.jobs, S.Acquires j S.seed ∧ j.depth = 0
  waiting : ∀ p ∈ db.jobs, p.crawlsIn S.runId → p.state.live = true → ∀ c ∈ db.jobs, p.expands c = true →
    c.state = .pending

/-- Known users are on their way to be expanded, or are; `E` are the jobs and depths that are excepted. -/
def CompleteBut (S : Setting) (E : Nat → Nat → Prop) (db : Db) : Prop :=
  ∀ j ∈ db.jobs, ∀ u, S.Acquires j u → ∀ n, S.Known db u n → n + 1 ≤ S.b.maxDepth → ¬ E j.id n →
    j.state.live = true ∨ (∃ c ∈ db.jobs, j.expands c = true ∧ c.state.live = true ∧ c.depth ≤ n) ∨
      ∀ x, S.graph.Adj u x → S.Known db x (n + 1)

def Complete (S : Setting) (db : Db) : Prop := S.CompleteBut (fun _ _ => False) db

variable {S : Setting} {db : Db}

theorem within_mono {n m : Nat} {u : String} (h : S.Within n u) (hle : n ≤ m) : S.Within m u := by
  unfold Within at h ⊢
  exact le_trans h (by exact_mod_cast hle)

theorem within_adj {n : Nat} {u x : String} (h : S.Within n u) (hadj : S.graph.Adj u x) : S.Within (n + 1) x :=
  edist_adj_le h hadj

theorem within_min {n m : Nat} {u : String} (hn : S.Within n u) (hm : S.Within m u) : S.Within (min n m) u := by
  rcases Nat.le_total n m with hle | hle
  · rwa [Nat.min_eq_left hle]
  · rwa [Nat.min_eq_right hle]

theorem player_adj {u x : String} (h : S.graph.Adj u x) : S.Player x := .inr ⟨u, h.symm⟩

theorem Acquires.crawlsIn {j : Job} {u : String} (h : S.Acquires j u) : j.crawlsIn S.runId := ⟨h.run, h.kind⟩

theorem Acquires.same {j k : Job} {u : String} (h : S.Acquires j u) (hs : j.Same k) : S.Acquires k u :=
  ⟨hs.crawlRunId.trans h.run, hs.kind.trans h.kind, hs.target.trans h.target⟩

theorem Acquires.crawls {j : Job} {u : String} (h : S.Acquires j u) (hc : S.Capped db) (hj : j ∈ db.jobs) :
    j.crawls S.T S.runId S.provider u = true :=
  Job.crawls_iff.mpr ⟨h.run, (hc.crawl j hj h.crawlsIn).1, h.kind, by simp [h.target, Target.map]⟩

theorem TableOk.acquires (h : S.TableOk db) {j : Job} (hj : j ∈ db.jobs) (hin : j.crawlsIn S.runId) :
    ∃ u, S.Player u ∧ S.Acquires j u ∧ j.dedupKey.target = .name u ∧ S.Within j.depth u := by
  obtain ⟨u, hu, htarget, hkey, hwithin⟩ := h.user j hj hin
  exact ⟨u, hu, ⟨hin.1, hin.2, htarget⟩, hkey, hwithin⟩

/-- A user has one acquisition. -/
theorem acquires_unique (hc : S.Capped db) {j k : Job} (hj : j ∈ db.jobs) (hk : k ∈ db.jobs) {u : String}
    (hju : S.Acquires j u) (hku : S.Acquires k u) : j = k :=
  hc.users j hj k hk hju.crawlsIn hku.crawlsIn (by rw [hju.target, hku.target])

/-- The rows that a lookup of a player selects. -/
theorem crawls_acquires (hR : S.Roomy) (h : S.TableOk db) {j : Job} (hj : j ∈ db.jobs) {u : String} (hu : S.Player u)
    (hcrawls : j.crawls S.T S.runId S.provider u = true) : S.Acquires j u := by
  obtain ⟨hrun, _, hkind, htarget⟩ := Job.crawls_iff.mp hcrawls
  obtain ⟨v, hv, hacq, _⟩ := h.acquires hj ⟨hrun, hkind⟩
  rw [hacq.target] at htarget
  have hsql : S.T.sqlLower v = S.T.sqlLower u := by simpa [Target.map] using htarget
  rw [← hR.distinct v u hv hu hsql]
  exact hacq

/-- A known user is known by its one acquisition. -/
theorem known_iff (hR : S.Roomy) (h : S.TableOk db) (hc : S.Capped db) {j : Job} (hj : j ∈ db.jobs) {u : String}
    (hu : S.Player u) (hacq : S.Acquires j u) {n : Nat} :
    S.Known db u n ↔ j.depth ≤ n ∨ ∃ c ∈ db.jobs, j.expands c = true ∧ c.depth ≤ n := by
  constructor
  · rintro ⟨k, hk, hcrawls, hdepth⟩
    rw [acquires_unique hc hj hk hacq (crawls_acquires hR h hk hu hcrawls)]
    exact hdepth
  · intro hdepth
    exact ⟨j, hj, hacq.crawls hc hj, hdepth⟩

/-- No depth is below the distance. -/
theorem known_within (hR : S.Roomy) (h : S.TableOk db) {u : String} (hu : S.Player u) {n : Nat}
    (hk : S.Known db u n) : S.Within n u := by
  obtain ⟨j, hj, hcrawls, hdepth⟩ := hk
  have hacq := crawls_acquires hR h hj hu hcrawls
  obtain ⟨v, _, hacq', _, hwithin⟩ := h.acquires hj hacq.crawlsIn
  have huv : u = v := by simpa using hacq.target.symm.trans hacq'.target
  subst huv
  rcases hdepth with hdepth | ⟨c, hcmem, hexp, hdepth⟩
  · exact within_mono hwithin hdepth
  · obtain ⟨hparent, hkind⟩ : c.parentJobId = some j.id ∧ c.kind = .expandOpponents := by
      simpa [Job.expands] using hexp
    obtain ⟨p, hp, v, _, hpacq, hcp, _, _, _, hcw⟩ := h.expansion c hcmem
      (h.children j hj hacq.run c hcmem hparent) hkind
    have hpj : p = j := h.ids.unique hp hj (Option.some.inj (hcp.symm.trans hparent))
    subst hpj
    have huv : u = v := by simpa using hacq.target.symm.trans hpacq.target
    subst huv
    exact within_mono hcw hdepth

/-! ## Inserts -/

/-- A row of the run that a request of the crawl asks for. -/
structure Fits (S : Setting) (db : Db) (e : Enqueue) : Prop where
  run : e.crawlRunId = some S.runId
  kind : e.kind = .crawlOpponents ∨ e.kind = .expandOpponents
  parent : ∀ id, e.parentJobId = some id → ∃ p ∈ db.jobs, p.id = id
  user : e.kind = .crawlOpponents → ∃ u, S.Player u ∧ e.target.map S.T.strip = .name u ∧
    (e.key S.T).target = .name u ∧ S.Within e.depth u
  expansion : e.kind = .expandOpponents → ∃ p ∈ db.jobs, ∃ u depth, S.Acquires p u ∧ e.parentJobId = some p.id ∧
    e.target.map S.T.strip = .ref p.id ∧ depth ≤ S.b.maxDepth ∧
    e.key S.T = expansionKey S.runId (some S.provider) p.id depth ∧ S.Within e.depth u

theorem mem_inserted {T : Text} {e : Enqueue} {owner : String × Option Nat} {j : Job} :
    j ∈ (db.inserted T e owner).jobs ↔ j ∈ db.jobs ∨ j = e.row T (db.jobSeq + 1) owner := by
  simp [Db.inserted]

theorem TableOk.insert {e : Enqueue} (h : S.TableOk db) (he : S.Fits db e) (owner : String × Option Nat) :
    S.TableOk (db.inserted S.T e owner) := by
  have hparent : ∀ id, e.parentJobId = some id → id ≤ db.jobSeq := by
    intro id hid
    obtain ⟨p, hp, rfl⟩ := he.parent id hid
    exact h.ids.issued p hp
  -- no row names the new one as its parent
  have horphan : ∀ c ∈ (db.inserted S.T e owner).jobs, c.parentJobId ≠ some (db.jobSeq + 1) := by
    intro c hc heq
    rcases mem_inserted.mp hc with hc | rfl
    · have := h.parents c hc _ heq
      omega
    · have := hparent _ heq
      omega
  refine ⟨h.ids.insert e owner, ?_, ?_, ?_, ?_, ?_, ?_, ?_, ?_, ?_⟩
  · intro c hc p hcp
    rcases mem_inserted.mp hc with hc | rfl
    · exact Nat.le_succ_of_le (h.parents c hc p hcp)
    · exact Nat.le_succ_of_le (hparent p hcp)
  · intro j hj hrun
    rcases mem_inserted.mp hj with hj | rfl
    · exact h.kinds j hj hrun
    · exact he.kind
  · intro j hj hrun
    rcases mem_inserted.mp hj with hj | rfl
    · exact h.states j hj hrun
    · exact .inl rfl
  · intro j hj hkey
    rcases mem_inserted.mp hj with hj | rfl
    · exact h.keys j hj hkey
    · exact he.run
  · intro j hj hin
    rcases mem_inserted.mp hj with hj | rfl
    · exact h.user j hj hin
    · exact he.user hin.2
  · intro c hc hrun hkind
    rcases mem_inserted.mp hc with hc | rfl
    · obtain ⟨p, hp, hrest⟩ := h.expansion c hc hrun hkind
      exact ⟨p, mem_inserted.mpr (.inl hp), hrest⟩
    · obtain ⟨p, hp, hrest⟩ := he.expansion hkind
      exact ⟨p, mem_inserted.mpr (.inl hp), hrest⟩
  · intro p hp hrun c hc hcp
    rcases mem_inserted.mp hc with hc' | rfl
    · rcases mem_inserted.mp hp with hp | rfl
      · exact h.children p hp hrun c hc' hcp
      · exact (horphan c hc hcp).elim
    · exact he.run
  · obtain ⟨j, hj, hroot⟩ := h.root
    exact ⟨j, mem_inserted.mpr (.inl hj), hroot⟩
  · intro p hp hin hlive c hc hexp
    rcases mem_inserted.mp hc with hc' | rfl
    · rcases mem_inserted.mp hp with hp | rfl
      · exact h.waiting p hp hin hlive c hc' hexp
      · simp only [Job.expands, Bool.and_eq_true, decide_eq_true_eq] at hexp
        exact (horphan c hc hexp.1).elim
    · rfl

theorem known_insert {u : String} {n : Nat} (hk : S.Known db u n) (e : Enqueue) (owner : String × Option Nat) :
    S.Known (db.inserted S.T e owner) u n := by
  obtain ⟨j, hj, hcrawls, hdepth⟩ := hk
  refine ⟨j, mem_inserted.mpr (.inl hj), hcrawls, ?_⟩
  rcases hdepth with hdepth | ⟨c, hc, hrest⟩
  · exact .inl hdepth
  · exact .inr ⟨c, mem_inserted.mpr (.inl hc), hrest⟩

/-- Evidence about a user that an insert leaves. -/
theorem evidence_insert {j : Job} {u : String} {n : Nat}
    (h : j.state.live = true ∨ (∃ c ∈ db.jobs, j.expands c = true ∧ c.state.live = true ∧ c.depth ≤ n) ∨
      ∀ x, S.graph.Adj u x → S.Known db x (n + 1)) (e : Enqueue) (owner : String × Option Nat) :
    j.state.live = true ∨ (∃ c ∈ (db.inserted S.T e owner).jobs, j.expands c = true ∧ c.state.live = true ∧
      c.depth ≤ n) ∨ ∀ x, S.graph.Adj u x → S.Known (db.inserted S.T e owner) x (n + 1) := by
  rcases h with hlive | ⟨c, hc, hrest⟩ | hsettled
  · exact .inl hlive
  · exact .inr (.inl ⟨c, mem_inserted.mpr (.inl hc), hrest⟩)
  · exact .inr (.inr fun x hx => known_insert (hsettled x hx) e owner)

/-- A new expansion answers for its parent from its own depth on. -/
theorem CompleteBut.insert_expansion (hR : S.Roomy) (ht : S.TableOk db) (hc : S.Capped db) {E : Nat → Nat → Prop}
    (h : S.CompleteBut E db) {p q : Job} (hsame : q.Same p) (depth : Nat) (now : Int)
    (owner : String × Option Nat) :
    S.CompleteBut (fun id n => E id n ∧ ¬ (id = p.id ∧ depth ≤ n))
      (db.inserted S.T (expansionRequest q depth now) owner) := by
  intro j hj u hacq n hknown hn hE
  rcases mem_inserted.mp hj with hj | rfl
  swap
  · cases hacq.kind
  by_cases hown : j.id = p.id ∧ depth ≤ n
  · refine .inr (.inl ⟨_, mem_inserted.mpr (.inr rfl), ?_, rfl, hown.2⟩)
    simp [Job.expands, Enqueue.row, expansionRequest, hown.1, hsame.id]
  · obtain ⟨u', hu', hacq', _⟩ := ht.acquires hj hacq.crawlsIn
    have huu : u = u' := by simpa using hacq.target.symm.trans hacq'.target
    subst huu
    have hold : S.Known db u n := by
      obtain ⟨k, hk, hcrawls, hdepth⟩ := hknown
      rcases mem_inserted.mp hk with hk | rfl
      swap
      · simp [Job.crawls, Enqueue.row, expansionRequest] at hcrawls
      have hkj : k = j := acquires_unique hc hk hj (crawls_acquires hR ht hk hu' hcrawls) hacq
      subst hkj
      refine ⟨k, hk, hcrawls, ?_⟩
      rcases hdepth with hdepth | ⟨c, hcm, hexp, hdepth⟩
      · exact .inl hdepth
      · rcases mem_inserted.mp hcm with hcm | rfl
        · exact .inr ⟨c, hcm, hexp, hdepth⟩
        · have hid : q.id = k.id := by simpa [Job.expands, Enqueue.row, expansionRequest] using hexp
          exact (hown ⟨by rw [← hid, hsame.id], hdepth⟩).elim
    exact evidence_insert (h j hj u hacq n hold hn fun hE' => hE ⟨hE', hown⟩) _ owner

/-- A new user is on its way. -/
theorem CompleteBut.insert_user (hR : S.Roomy) (ht : S.TableOk db) {E : Nat → Nat → Prop} (h : S.CompleteBut E db)
    {e : Enqueue} {x : String} (hx : S.Player x) (hkind : e.kind = .crawlOpponents)
    (htarget : e.target.map S.T.strip = .name x)
    (hnone : ∀ j ∈ db.jobs, j.crawls S.T S.runId S.provider x = false) (hc : S.Capped db)
    (owner : String × Option Nat) : S.CompleteBut E (db.inserted S.T e owner) := by
  intro j hj u hacq n hknown hn hE
  rcases mem_inserted.mp hj with hj | rfl
  swap
  · exact .inl rfl
  obtain ⟨u', hu', hacq', _⟩ := ht.acquires hj hacq.crawlsIn
  have huu : u = u' := by simpa using hacq.target.symm.trans hacq'.target
  subst huu
  have hold : S.Known db u n := by
    obtain ⟨k, hk, hcrawls, hdepth⟩ := hknown
    rcases mem_inserted.mp hk with hk | rfl
    · refine ⟨k, hk, hcrawls, ?_⟩
      rcases hdepth with hdepth | ⟨c, hcm, hexp, hdepth⟩
      · exact .inl hdepth
      · rcases mem_inserted.mp hcm with hcm | rfl
        · exact .inr ⟨c, hcm, hexp, hdepth⟩
        · simp [Job.expands, Enqueue.row, hkind] at hexp
    · -- the new job would be a second one of this user
      obtain ⟨_, _, _, hsql⟩ := Job.crawls_iff.mp hcrawls
      have hrow : (e.row S.T (db.jobSeq + 1) owner).target = .name x := htarget
      rw [hrow] at hsql
      have hsql' : S.T.sqlLower x = S.T.sqlLower u := by simpa [Target.map] using hsql
      have hxu : x = u := hR.distinct x u hx hu' hsql'
      subst hxu
      have hmiss := hnone j hj
      rw [hacq.crawls hc hj] at hmiss
      cases hmiss
  exact evidence_insert (h j hj u hacq n hold hn hE) _ owner

/-! ## Updates -/

/-- An update of states and depths that keeps the rows what they are. -/
structure Moves (S : Setting) (db : Db) (f : Job → Job) : Prop where
  same : ∀ j ∈ db.jobs, j.Same (f j)
  le : ∀ j ∈ db.jobs, (f j).depth ≤ j.depth
  state : ∀ j ∈ db.jobs, j.crawlRunId = some S.runId →
    (f j).state = .pending ∨ (f j).state = .inProgress ∨ (f j).state = .done
  within : ∀ j ∈ db.jobs, ∀ u, S.Acquires j u → S.Within j.depth u → S.Within (f j).depth u
  expansion : ∀ j ∈ db.jobs, j.kind = .expandOpponents → (f j).depth = j.depth
  waiting : ∀ p ∈ db.jobs, p.crawlsIn S.runId → (f p).state.live = true → p.state.live = true ∧
    ∀ c ∈ db.jobs, p.expands c = true → c.state = .pending → (f c).state = .pending

theorem TableOk.move {sel : Job → Bool} {set : Job → Job} (h : S.TableOk db)
    (hm : S.Moves db fun j => if sel j then set j else j) : S.TableOk (db.updateJobs sel set) := by
  have hmem : ∀ j ∈ (db.updateJobs sel set).jobs, ∃ j₀ ∈ db.jobs, j = if sel j₀ then set j₀ else j₀ := by
    intro j hj
    obtain ⟨j₀, hj₀, rfl⟩ := List.mem_map.mp hj
    exact ⟨j₀, hj₀, rfl⟩
  have hin : ∀ j ∈ db.jobs, (if sel j then set j else j).crawlsIn S.runId → j.crawlsIn S.runId := by
    intro j hj hin
    exact ⟨(hm.same j hj).crawlRunId ▸ hin.1, (hm.same j hj).kind ▸ hin.2⟩
  have hids : (db.updateJobs sel set).jobs.map Job.id = db.jobs.map Job.id := by
    rw [Db.updateJobs_jobs, List.map_map]
    exact List.map_congr_left fun j hj => (hm.same j hj).id
  refine ⟨⟨by rw [hids]; exact h.ids.nodup, ?_⟩, ?_, ?_, ?_, ?_, ?_, ?_, ?_, ?_, ?_⟩
  · intro j hj
    obtain ⟨j₀, hj₀, rfl⟩ := hmem j hj
    rw [(hm.same j₀ hj₀).id]
    exact h.ids.issued j₀ hj₀
  · intro c hc p hcp
    obtain ⟨c₀, hc₀, rfl⟩ := hmem c hc
    rw [(hm.same c₀ hc₀).parentJobId] at hcp
    exact h.parents c₀ hc₀ p hcp
  · intro j hj hrun
    obtain ⟨j₀, hj₀, rfl⟩ := hmem j hj
    rw [(hm.same j₀ hj₀).crawlRunId] at hrun
    rw [(hm.same j₀ hj₀).kind]
    exact h.kinds j₀ hj₀ hrun
  · intro j hj hrun
    obtain ⟨j₀, hj₀, rfl⟩ := hmem j hj
    rw [(hm.same j₀ hj₀).crawlRunId] at hrun
    exact hm.state j₀ hj₀ hrun
  · intro j hj hkey
    obtain ⟨j₀, hj₀, rfl⟩ := hmem j hj
    rw [(hm.same j₀ hj₀).dedupKey] at hkey
    rw [(hm.same j₀ hj₀).crawlRunId]
    exact h.keys j₀ hj₀ hkey
  · intro j hj hcrawl
    obtain ⟨j₀, hj₀, rfl⟩ := hmem j hj
    have hs := hm.same j₀ hj₀
    obtain ⟨u, hu, hacq, hkey, hw⟩ := h.acquires hj₀ (hin j₀ hj₀ hcrawl)
    exact ⟨u, hu, hs.target.trans hacq.target, by rw [hs.dedupKey]; exact hkey, hm.within j₀ hj₀ u hacq hw⟩
  · intro c hc hrun hkind
    obtain ⟨c₀, hc₀, rfl⟩ := hmem c hc
    have hs := hm.same c₀ hc₀
    rw [hs.crawlRunId] at hrun
    rw [hs.kind] at hkind
    obtain ⟨p, hp, u, depth, hacq, hcp, htarget, hle, hkey, hw⟩ := h.expansion c₀ hc₀ hrun hkind
    have hps := hm.same p hp
    refine ⟨_, List.mem_map_of_mem hp, u, depth, hacq.same hps, ?_, ?_, hle, ?_, ?_⟩
    · rw [hs.parentJobId, hps.id, hcp]
    · rw [hs.target, hps.id, htarget]
    · rw [hs.dedupKey, hps.id, hkey]
    · rw [hm.expansion c₀ hc₀ hkind]
      exact hw
  · intro p hp hrun c hc hcp
    obtain ⟨p₀, hp₀, rfl⟩ := hmem p hp
    obtain ⟨c₀, hc₀, rfl⟩ := hmem c hc
    rw [(hm.same p₀ hp₀).crawlRunId] at hrun
    rw [(hm.same c₀ hc₀).parentJobId, (hm.same p₀ hp₀).id] at hcp
    rw [(hm.same c₀ hc₀).crawlRunId]
    exact h.children p₀ hp₀ hrun c₀ hc₀ hcp
  · obtain ⟨j, hj, hacq, hdepth⟩ := h.root
    refine ⟨_, List.mem_map_of_mem hj, hacq.same (hm.same j hj), ?_⟩
    have hle := hm.le j hj
    omega
  · intro p hp hcrawl hlive c hc hexp
    obtain ⟨p₀, hp₀, rfl⟩ := hmem p hp
    obtain ⟨c₀, hc₀, rfl⟩ := hmem c hc
    obtain ⟨hlive₀, hwait⟩ := hm.waiting p₀ hp₀ (hin p₀ hp₀ hcrawl) hlive
    have hexp₀ : p₀.expands c₀ = true := by
      rw [← (hm.same p₀ hp₀).expands (hm.same c₀ hc₀)]
      exact hexp
    exact hwait c₀ hc₀ hexp₀ (h.waiting p₀ hp₀ (hin p₀ hp₀ hcrawl) hlive₀ c₀ hc₀ hexp₀)

theorem known_move {sel : Job → Bool} {set : Job → Job} (hm : S.Moves db fun j => if sel j then set j else j)
    {u : String} {n : Nat} (hk : S.Known db u n) : S.Known (db.updateJobs sel set) u n := by
  obtain ⟨j, hj, hcrawls, hdepth⟩ := hk
  refine ⟨_, List.mem_map_of_mem hj, by rw [(hm.same j hj).crawls]; exact hcrawls, ?_⟩
  rcases hdepth with hdepth | ⟨c, hc, hexp, hdepth⟩
  · exact .inl (Nat.le_trans (hm.le j hj) hdepth)
  · refine .inr ⟨_, List.mem_map_of_mem hc, ?_, Nat.le_trans (hm.le c hc) hdepth⟩
    rw [(hm.same j hj).expands (hm.same c hc)]
    exact hexp

/-- What is known after an update was known before it, or comes from the new depth of the user's job. -/
theorem known_of_move {sel : Job → Bool} {set : Job → Job} (hm : S.Moves db fun j => if sel j then set j else j)
    {u : String} {n : Nat} (hk : S.Known (db.updateJobs sel set) u n) :
    S.Known db u n ∨ ∃ j ∈ db.jobs, j.crawls S.T S.runId S.provider u = true ∧
      (if sel j then set j else j).depth ≤ n ∧ n < j.depth := by
  obtain ⟨j, hj, hcrawls, hdepth⟩ := hk
  obtain ⟨j₀, hj₀, rfl⟩ := List.mem_map.mp hj
  rw [(hm.same j₀ hj₀).crawls] at hcrawls
  by_cases hold : j₀.depth ≤ n
  · exact .inl ⟨j₀, hj₀, hcrawls, .inl hold⟩
  rcases hdepth with hdepth | ⟨c, hc, hexp, hdepth⟩
  · exact .inr ⟨j₀, hj₀, hcrawls, hdepth, by omega⟩
  · obtain ⟨c₀, hc₀, rfl⟩ := List.mem_map.mp hc
    rw [(hm.same j₀ hj₀).expands (hm.same c₀ hc₀)] at hexp
    have hkind : c₀.kind = .expandOpponents := by
      simp only [Job.expands, Bool.and_eq_true, decide_eq_true_eq] at hexp
      exact hexp.2
    rw [hm.expansion c₀ hc₀ hkind] at hdepth
    exact .inl ⟨j₀, hj₀, hcrawls, .inr ⟨c₀, hc₀, hexp, hdepth⟩⟩

theorem CompleteBut.mono {E E' : Nat → Nat → Prop} (h : S.CompleteBut E db) (hE : ∀ id n, E id n → E' id n) :
    S.CompleteBut E' db :=
  fun j hj u hacq n hk hn hnot => h j hj u hacq n hk hn fun he => hnot (hE _ _ he)

/-- An update of states that ends no job. -/
theorem Complete.move {sel : Job → Bool} {set : Job → Job} (h : S.Complete db)
    (hm : S.Moves db fun j => if sel j then set j else j)
    (hlive : ∀ j ∈ db.jobs, j.state.live = true → (if sel j then set j else j).state.live = true)
    (hdepth : ∀ j ∈ db.jobs, (if sel j then set j else j).depth = j.depth) : S.Complete (db.updateJobs sel set) := by
  intro j hj u hacq n hknown hn hE
  obtain ⟨j₀, hj₀, rfl⟩ := List.mem_map.mp hj
  have hs := hm.same j₀ hj₀
  have hold : S.Known db u n := by
    rcases known_of_move hm hknown with hold | ⟨k, hk, _, hle, hlt⟩
    · exact hold
    · rw [hdepth k hk] at hle
      omega
  rcases h j₀ hj₀ u (hacq.same hs.symm) n hold hn hE with hl | ⟨c, hcm, hexp, hl, hd⟩ | hsettled
  · exact .inl (hlive j₀ hj₀ hl)
  · refine .inr (.inl ⟨_, List.mem_map_of_mem hcm, ?_, hlive c hcm hl, by rw [hdepth c hcm]; exact hd⟩)
    rw [hs.expands (hm.same c hcm)]
    exact hexp
  · exact .inr (.inr fun x hx => known_move hm (hsettled x hx))

/-- The end of a job that has done its part: an acquisition has its expansion, and an expansion has made the
opponents known. -/
theorem Complete.finish (hR : S.Roomy) (ht : S.TableOk db) (hc : S.Capped db) (h : S.Complete db) {j : Job}
    (hj : j ∈ db.jobs) (hlive : j.state.live = true) {g : Job → Job}
    (hm : S.Moves db fun k => if k.id = j.id then g k else k)
    (hknown : ∀ u, S.Player u → ∀ n, S.Known (db.updateJob j.id g) u n → S.Known db u n)
    (hcrawl : j.kind = .crawlOpponents → ∃ c ∈ db.jobs, j.expands c = true ∧ c.depth ≤ j.depth)
    (hexpand : ∀ p ∈ db.jobs, ∀ u, S.Acquires p u → p.expands j = true →
      ∃ d ≤ j.depth, d + 1 ≤ S.b.maxDepth → ∀ x, S.graph.Adj u x → S.Known db x (d + 1)) :
    S.Complete (db.updateJob j.id g) := by
  have hother : ∀ k ∈ db.jobs, k ≠ j → (if k.id = j.id then g k else k) = k := by
    intro k hk hne
    exact if_neg fun hid => hne (ht.ids.unique hk hj hid)
  have hm' : S.Moves db fun k => if decide (k.id = j.id) = true then g k else k := by simpa using hm
  intro i hi u hacq n hk hn _
  obtain ⟨k, hkm, hki⟩ := List.mem_map.mp hi
  simp only [decide_eq_true_eq] at hki
  subst hki
  have hs := hm.same k hkm
  have hacq' : S.Acquires k u := hacq.same hs.symm
  obtain ⟨u', hu', hacq'', _⟩ := ht.acquires hkm hacq'.crawlsIn
  have huu : u = u' := by simpa using hacq'.target.symm.trans hacq''.target
  subst huu
  have hold := hknown u hu' n hk
  have hmem : ∀ c ∈ db.jobs, c ≠ j → c ∈ (db.updateJob j.id g).jobs := by
    intro c hcm hne
    refine List.mem_map.mpr ⟨c, hcm, ?_⟩
    simp only [decide_eq_true_eq]
    exact hother c hcm hne
  by_cases hkj : k = j
  · -- its expansions have waited for it
    subst hkj
    have hchild : ∃ c ∈ db.jobs, k.expands c = true ∧ c.depth ≤ n := by
      rcases (known_iff hR ht hc hkm hu' hacq').mp hold with hle | hchild
      · obtain ⟨c, hcm, hexp, hd⟩ := hcrawl hacq'.kind
        exact ⟨c, hcm, hexp, Nat.le_trans hd hle⟩
      · exact hchild
    obtain ⟨c, hcm, hexp, hd⟩ := hchild
    have hcne : c ≠ k := by
      rintro rfl
      simp [Job.expands, hacq'.kind] at hexp
    refine .inr (.inl ⟨c, hmem c hcm hcne, ?_, ?_, hd⟩)
    · rw [hs.expands (.refl c)]
      exact hexp
    · rw [ht.waiting k hkm hacq'.crawlsIn hlive c hcm hexp]
      rfl
  · rw [hother k hkm hkj]
    rcases h k hkm u hacq' n hold hn (fun hf => hf) with hl | ⟨c, hcm, hexp, hl, hd⟩ | hsettled
    · exact .inl hl
    · by_cases hcj : c = j
      · subst hcj
        obtain ⟨d, hdle, hset⟩ := hexpand k hkm u hacq' hexp
        refine .inr (.inr fun x hx => known_move hm' ?_)
        exact (hset (by omega) x hx).mono (by omega)
      · exact .inr (.inl ⟨c, hmem c hcm hcj, hexp, hl, hd⟩)
    · exact .inr (.inr fun x hx => known_move hm' (hsettled x hx))

/-! ## Promotion -/

/-- The update of a promotion to a depth that the distance allows. -/
theorem promote_moves (hR : S.Roomy) (h : S.TableOk db) {x : String} (hx : S.Player x) {depth : Nat}
    (hw : S.Within depth x) (r : Race) :
    S.Moves db fun j => if j.crawls S.T S.runId S.provider x && j.promotable r depth then j.merged depth else j := by
  have hcase : ∀ j : Job, (if j.crawls S.T S.runId S.provider x && j.promotable r depth then j.merged depth else j) = j ∨
      j.crawls S.T S.runId S.provider x = true ∧
        (if j.crawls S.T S.runId S.provider x && j.promotable r depth then j.merged depth else j) = j.merged depth := by
    intro j
    split
    · next hsel =>
      rw [Bool.and_eq_true] at hsel
      exact .inr ⟨hsel.1, rfl⟩
    · exact .inl rfl
  constructor
  · intro j _
    rcases hcase j with heq | ⟨_, heq⟩
    · rw [heq]
      exact .refl j
    · rw [heq]
      have hrow : j.Rewritten 0 (j.merged depth) := .merged depth
      exact hrow.same
  · intro j _
    rcases hcase j with heq | ⟨_, heq⟩
    · rw [heq]
    · rw [heq]
      exact Nat.min_le_left _ _
  · intro j hj hrun
    have hs := h.states j hj hrun
    rcases hcase j with heq | ⟨_, heq⟩
    · rw [heq]
      exact hs
    · rw [heq]
      exact hs
  · intro j hj u hacq hwithin
    rcases hcase j with heq | ⟨hcrawls, heq⟩
    · rw [heq]
      exact hwithin
    · rw [heq]
      have hxu : x = u := by simpa using (crawls_acquires hR h hj hx hcrawls).target.symm.trans hacq.target
      subst hxu
      exact within_min hwithin hw
  · intro j _ hkind
    rcases hcase j with heq | ⟨hcrawls, _⟩
    · rw [heq]
    · rw [(Job.crawls_iff.mp hcrawls).2.2.1] at hkind
      cases hkind
  · intro p _ _ hlive
    have hstate : ∀ j : Job, (if j.crawls S.T S.runId S.provider x && j.promotable r depth then j.merged depth
        else j).state = j.state := by
      intro j
      rcases hcase j with heq | ⟨_, heq⟩
      · rw [heq]
      · rw [heq]
        rfl
    rw [hstate] at hlive
    refine ⟨hlive, fun c _ _ hpending => ?_⟩
    rw [hstate]
    exact hpending

/-- The update alone leaves open who expands the user from the new depth on. -/
theorem CompleteBut.promote (hR : S.Roomy) (ht : S.TableOk db) (hc : S.Capped db) {E : Nat → Nat → Prop}
    (h : S.CompleteBut E db) {x : String} (hx : S.Player x) {depth : Nat} (hw : S.Within depth x) (r : Race) {p : Job}
    (hp : p ∈ db.jobs) (hpx : S.Acquires p x) :
    S.CompleteBut (fun id n => E id n ∨ (id = p.id ∧ depth ≤ n)) (db.updateJobs
      (fun j => j.crawls S.T S.runId S.provider x && j.promotable r depth) fun j => j.merged depth) := by
  have hm := promote_moves hR ht hx hw r
  intro j hj u hacq n hknown hn hE
  obtain ⟨j₀, hj₀, rfl⟩ := List.mem_map.mp hj
  have hs := hm.same j₀ hj₀
  have hacq₀ : S.Acquires j₀ u := hacq.same hs.symm
  obtain ⟨u', hu', hacq', _⟩ := ht.acquires hj₀ hacq₀.crawlsIn
  have huu : u = u' := by simpa using hacq₀.target.symm.trans hacq'.target
  subst huu
  rw [hs.id] at hE
  have hold : S.Known db u n := by
    rcases known_of_move hm hknown with hold | ⟨k, hk, hcrawls, hle, hlt⟩
    · exact hold
    · -- the one row with a new depth is the row of the promotion
      split at hle
      · next hsel =>
        rw [Bool.and_eq_true] at hsel
        have hkx := crawls_acquires hR ht hk hx hsel.1
        have hku := crawls_acquires hR ht hk hu' hcrawls
        have hkp : k = p := acquires_unique hc hk hp hkx hpx
        have hkj : k = j₀ := acquires_unique hc hk hj₀ hku hacq₀
        have hdepth : min k.depth depth ≤ n := hle
        refine (hE (.inr ⟨by rw [← hkj, hkp], ?_⟩)).elim
        omega
      · omega
  have hstate : ∀ k : Job, (if k.crawls S.T S.runId S.provider x && k.promotable r depth then k.merged depth
      else k).state = k.state := by
    intro k
    split <;> rfl
  rw [hstate]
  rcases h j₀ hj₀ u hacq₀ n hold hn (fun he => hE (.inl he)) with hlive | ⟨c, hcm, hexp, hlive, hdepth⟩ | hsettled
  · exact .inl hlive
  · refine .inr (.inl ⟨_, List.mem_map_of_mem hcm, ?_, ?_, Nat.le_trans (hm.le c hcm) hdepth⟩)
    · rw [hs.expands (hm.same c hcm)]
      exact hexp
    · rw [hstate]
      exact hlive
  · exact .inr (.inr fun y hy => known_move hm (hsettled y hy))

theorem filter_eq_singleton {α : Type} {xs : List α} (hnodup : xs.Nodup) {a : α} (ha : a ∈ xs) {p : α → Bool}
    (hp : ∀ x ∈ xs, p x = true ↔ x = a) : xs.filter p = [a] := by
  induction xs with
  | nil => cases ha
  | cons x xs ih =>
    obtain ⟨hx, hnodup⟩ := List.nodup_cons.mp hnodup
    by_cases hxa : x = a
    · subst hxa
      have hnone : xs.filter p = [] := by
        refine List.filter_eq_nil_iff.mpr fun y hy hpy => hx ?_
        rw [← (hp y (List.mem_cons_of_mem _ hy)).mp hpy]
        exact hy
      rw [List.filter_cons_of_pos ((hp x List.mem_cons_self).mpr rfl), hnone]
    · have hpx : ¬ p x = true := fun h => hxa ((hp x List.mem_cons_self).mp h)
      rw [List.filter_cons_of_neg hpx]
      refine ih hnodup ?_ fun y hy => hp y (List.mem_cons_of_mem _ hy)
      rcases List.mem_cons.mp ha with rfl | ha
      · exact (hxa rfl).elim
      · exact ha

/-- The update of a promotion. -/
def promotedDb (S : Setting) (db : Db) (x : String) (depth : Nat) (r : Race) : Db :=
  db.updateJobs (fun j => j.crawls S.T S.runId S.provider x && j.promotable r depth) fun j => j.merged depth

/-- A promotion of a user that is not yet known within the depth adds a fresh expansion of its one job. -/
theorem promote_inserts (hR : S.Roomy) (ht : S.TableOk db) (hc : S.Capped db) {x : String} (hx : S.Player x)
    {depth : Nat} (hw : S.Within depth x) {r : Race} {now : Int} {p : Job} (hp : p ∈ db.jobs) (hpx : S.Acquires p x)
    (hnot : ¬ S.Known db x depth) {db' : Db}
    (h : db.promoteCrawlDepth S.T S.runId S.provider x depth r now = .ok db') :
    ∃ owner, db' = (S.promotedDb db x depth r).inserted S.T (expansionRequest p depth now) owner := by
  have hm := promote_moves hR ht hx hw r
  have hdeep : depth < p.depth := by
    by_contra hle
    exact hnot ⟨p, hp, hpx.crawls hc hp, .inl (by omega)⟩
  have hparents : (db.jobs.filter (Job.crawls S.T S.runId S.provider x)).filter (Job.expandable r) = [p] := by
    rw [List.filter_filter]
    refine filter_eq_singleton (List.Nodup.of_map _ ht.ids.nodup) hp fun k hk => ?_
    constructor
    · intro hsel
      rw [Bool.and_eq_true] at hsel
      exact acquires_unique hc hk hp (crawls_acquires hR ht hk hx hsel.2) hpx
    · rintro rfl
      rw [Bool.and_eq_true]
      refine ⟨?_, hpx.crawls hc hk⟩
      rcases ht.states k hk hpx.run with hs | hs | hs <;> simp [Job.expandable, hs]
  have hdepth : (S.promotedDb db x depth r).expansionDepth S.T p depth = depth := by
    unfold Db.expansionDepth
    rw [hpx.run, (hc.crawl p hp hpx.crawlsIn).1, hpx.target]
    refine Nat.min_eq_left ?_
    cases hk : (S.promotedDb db x depth r).knownCrawlDepth S.T S.runId S.provider x with
    | none => exact Nat.le_of_lt hdeep
    | some k =>
      show depth ≤ k
      have hknown : S.Known (S.promotedDb db x depth r) x k := KnownWithin.of_known hk
      rcases known_of_move hm hknown with hold | ⟨i, _, _, hle, hlt⟩
      · by_contra hlt
        exact hnot (hold.mono (by omega))
      · split at hle
        · have hmin : min i.depth depth ≤ k := hle
          omega
        · omega
  unfold Db.promoteCrawlDepth at h
  dsimp only at h
  rw [hparents, List.foldlM_cons] at h
  obtain ⟨db₁, h₁, h₂⟩ := bind_ok h
  cases h₂
  obtain ⟨res, h₁⟩ := map_snd_ok h₁
  have h₃ : (S.promotedDb db x depth r).enqueueExpansionAt S.T p
      ((S.promotedDb db x depth r).expansionDepth S.T p depth) now = .ok (res, db') := h₁
  rw [hdepth] at h₃
  unfold Db.enqueueExpansionAt at h₃
  split at h₃
  · cases h₃
  replace h₃ : (S.promotedDb db x depth r).enqueueJob S.T (expansionRequest p depth now) = .ok (res, db') := h₃
  rcases enqueueJob_cases h₃ with ⟨rfl, c, hcm, hkey, _⟩ | ⟨_, owner, _, rfl⟩
  · -- an expansion under this key would have made the user known within the depth
    obtain ⟨c₀, hc₀, rfl⟩ := List.mem_map.mp hcm
    rw [expansionRequest_key p depth now hpx.run, (hm.same c₀ hc₀).dedupKey] at hkey
    obtain ⟨hkind, hparent, hle⟩ := hc.keyed c₀ hc₀ _ _ _ hkey
    exact (hnot ⟨p, hp, hpx.crawls hc hp, .inr ⟨c₀, hc₀, by simp [Job.expands, hkind, hparent], hle⟩⟩).elim
  · exact ⟨owner, rfl⟩

theorem fits_expansion {p q : Job} (hp : p ∈ db.jobs) (hsame : q.Same p) {u : String} (hpu : S.Acquires p u)
    (hprovider : p.provider = some S.provider) {depth : Nat} (hle : depth ≤ S.b.maxDepth) (hw : S.Within depth u)
    (now : Int) : S.Fits db (expansionRequest q depth now) := by
  have hrun : q.crawlRunId = some S.runId := hsame.crawlRunId.symm.trans hpu.run
  refine ⟨hrun, .inr rfl, fun id hid => ⟨p, hp, ?_⟩, fun hkind => (by cases hkind), fun _ => ?_⟩
  · rw [hsame.id]
    exact Option.some.inj hid
  · refine ⟨p, hp, u, depth, hpu, ?_, ?_, hle, ?_, hw⟩
    · simp [expansionRequest, hsame.id]
    · simp [expansionRequest, Target.map, hsame.id]
    · rw [expansionRequest_key q depth now hrun, ← hsame.provider, hprovider, hsame.id]

/-- The invariants of the table. -/
structure Good (S : Setting) (db : Db) : Prop where
  table : S.TableOk db
  capped : S.Capped db
  complete : S.Complete db

theorem promote_good (hR : S.Roomy) (h : S.Good db) {x : String} (hx : S.Player x) {depth : Nat}
    (hle : depth ≤ S.b.maxDepth) (hw : S.Within depth x) {r : Race} {now : Int} {p : Job} (hp : p ∈ db.jobs)
    (hpx : S.Acquires p x) (hnot : ¬ S.Known db x depth) {db' : Db} (hc' : S.Capped db')
    (hpro : db.promoteCrawlDepth S.T S.runId S.provider x depth r now = .ok db') : S.Good db' := by
  obtain ⟨owner, rfl⟩ := promote_inserts hR h.table h.capped hx hw hp hpx hnot hpro
  have hm := promote_moves hR h.table hx hw r
  have htable : S.TableOk (S.promotedDb db x depth r) := h.table.move hm
  have hset : ∀ j ∈ db.jobs, (j.crawls S.T S.runId S.provider x && j.promotable r depth) = true →
      j.Rewritten 0 (j.merged depth) := fun _ _ _ => .merged depth
  have hcapped : S.Capped (S.promotedDb db x depth r) := h.capped.update hset
  have hp' := List.mem_map_of_mem (f := fun j => if j.crawls S.T S.runId S.provider x && j.promotable r depth then
    j.merged depth else j) hp
  have hsame := hm.same p hp
  have hpx' := hpx.same hsame
  refine ⟨htable.insert (fits_expansion hp' hsame hpx' (hcapped.crawl _ hp' hpx'.crawlsIn).1 hle hw now) owner, hc', ?_⟩
  refine ((h.complete.promote hR h.table h.capped hx hw r hp hpx).insert_expansion hR htable hcapped hsame depth now
    owner).mono fun id n he => ?_
  obtain ⟨hor, hno⟩ := he
  rcases hor with hfalse | hown
  · exact hfalse
  · refine hno ⟨?_, hown.2⟩
    rw [hsame.id]
    exact hown.1

/-! ## Room -/

def nameOf (j : Job) : String :=
  match j.target with
  | .name u => u
  | .ref _ => ""

/-- The acquisitions of the run. -/
def acquisitions (S : Setting) (db : Db) : List Job := (db.jobsOf S.runId).filter fun j => j.kind = .crawlOpponents

theorem mem_acquisitions {j : Job} : j ∈ S.acquisitions db ↔ j ∈ db.jobs ∧ j.crawlsIn S.runId := by
  simp only [acquisitions, Db.jobsOf, Job.crawlsIn, List.mem_filter, decide_eq_true_eq, and_assoc]

theorem Acquires.nameOf {j : Job} {u : String} (h : S.Acquires j u) : nameOf j = u := by
  simp [Setting.nameOf, h.target]

theorem users_nodup (h : S.TableOk db) (hc : S.Capped db) : ((S.acquisitions db).map nameOf).Nodup := by
  have hnodup : (S.acquisitions db).Nodup := (List.Nodup.of_map _ h.ids.nodup).filter _ |>.filter _
  refine hnodup.map_on fun j hj k hk heq => ?_
  obtain ⟨hjm, hjin⟩ := mem_acquisitions.mp hj
  obtain ⟨hkm, hkin⟩ := mem_acquisitions.mp hk
  obtain ⟨u, _, hju, _⟩ := h.acquires hjm hjin
  obtain ⟨v, _, hkv, _⟩ := h.acquires hkm hkin
  rw [hju.nameOf, hkv.nameOf] at heq
  subst heq
  exact acquires_unique hc hjm hkm hju hkv

theorem users_within (h : S.TableOk db) (hc : S.Capped db) :
    ∀ u ∈ (S.acquisitions db).map nameOf, S.Within S.b.maxDepth u := by
  intro u hu
  obtain ⟨j, hj, rfl⟩ := List.mem_map.mp hu
  obtain ⟨hjm, hjin⟩ := mem_acquisitions.mp hj
  obtain ⟨v, _, hjv, _, hw⟩ := h.acquires hjm hjin
  rw [hjv.nameOf]
  exact within_mono hw (hc.crawl j hjm hjin).2.2

/-- An unknown user within the depth finds room. -/
theorem room_for (hR : S.Roomy) (h : S.TableOk db) (hc : S.Capped db) {x : String} (hw : S.Within S.b.maxDepth x)
    (hnone : ∀ j ∈ db.jobs, j.crawls S.T S.runId S.provider x = false) :
    db.crawlUserCount S.T S.runId < S.b.maxUsers ∧ db.acquisitionJobCount S.runId < S.b.maxJobs := by
  have hnew : x ∉ (S.acquisitions db).map nameOf := by
    intro hmem
    obtain ⟨j, hj, hjx⟩ := List.mem_map.mp hmem
    obtain ⟨hjm, hjin⟩ := mem_acquisitions.mp hj
    obtain ⟨v, _, hjv, _⟩ := h.acquires hjm hjin
    rw [hjv.nameOf] at hjx
    subst hjx
    have hmiss := hnone j hjm
    rw [hjv.crawls hc hjm] at hmiss
    cases hmiss
  obtain ⟨husers, hjobs⟩ := hR.room (x :: (S.acquisitions db).map nameOf)
    (List.nodup_cons.mpr ⟨hnew, users_nodup h hc⟩) (by
      intro u hu
      rcases List.mem_cons.mp hu with rfl | hu
      · exact hw
      · exact users_within h hc u hu)
  simp only [List.length_cons, List.length_map] at husers hjobs
  have hcount : db.crawlUserCount S.T S.runId ≤ (S.acquisitions db).length := by
    rw [crawlUserCount_eq]
    refine Nat.le_trans (List.toFinset_card_le _) ?_
    unfold Db.crawlTargets
    rw [List.length_map]
    rfl
  have hacq : db.acquisitionJobCount S.runId = (S.acquisitions db).length := by
    unfold Db.acquisitionJobCount acquisitions
    congr 1
    refine List.filter_congr fun j hj => ?_
    obtain ⟨hjm, hrun⟩ := List.mem_filter.mp hj
    rcases h.kinds j hjm (by simpa using hrun) with hkind | hkind <;> simp [hkind, JobKind.processing, JobKind.archive]
  omega

/-! ## Expansion -/

theorem opponentRequest_key (hR : S.Roomy) {x : String} (hx : S.Player x) (parent : Job) (params : Params)
    (nextDepth : Nat) (now : Int) :
    (opponentRequest parent S.runId S.provider params nextDepth now x).key S.T =
      ⟨some S.provider, .crawlOpponents, .name x, params, some S.runId⟩ := by
  simp [opponentRequest, Enqueue.key, makeDedupKey, normalizeTarget, Target.map, hR.strip x hx, hR.lower x hx]

/-- No row stands under the key of an unknown user. -/
theorem key_fresh (h : S.TableOk db) (hc : S.Capped db) {x : String}
    (hnone : ∀ j ∈ db.jobs, j.crawls S.T S.runId S.provider x = false) {j : Job} (hj : j ∈ db.jobs) {params : Params} :
    j.dedupKey ≠ ⟨some S.provider, .crawlOpponents, .name x, params, some S.runId⟩ := by
  intro hkey
  have hrun : j.crawlRunId = some S.runId := h.keys j hj (by rw [hkey])
  rcases h.kinds j hj hrun with hkind | hkind
  · obtain ⟨u, _, hacq, htarget, _⟩ := h.acquires hj ⟨hrun, hkind⟩
    rw [hkey] at htarget
    have hxu : x = u := by simpa using htarget
    subst hxu
    have hmiss := hnone j hj
    rw [hacq.crawls hc hj] at hmiss
    cases hmiss
  · obtain ⟨_, _, _, _, _, _, _, _, hkey', _⟩ := h.expansion j hj hrun hkind
    rw [hkey] at hkey'
    cases hkey'

/-- One edge of an expansion. -/
theorem discover_good (hR : S.Roomy) (h : S.Good db) {parent : Job} {x : String} (hx : S.Player x) {nextDepth : Nat}
    (hle : nextDepth ≤ S.b.maxDepth) (hw : S.Within nextDepth x) {r : Race} (hsound : r.sound = true) {now : Int}
    {db' : Db} (hc' : S.Capped db')
    (hd : db.discover S.T parent S.runId S.provider S.params S.b nextDepth r now x = .ok db') :
    S.Good db' ∧ S.Known db' x nextDepth := by
  by_cases hknown : ∃ j ∈ db.jobs, j.crawls S.T S.runId S.provider x = true
  · obtain ⟨j, hj, hcrawls⟩ := hknown
    refine ⟨?_, discover_known h.capped.keyed hsound hj hcrawls hd⟩
    unfold Db.discover at hd
    split at hd
    · next k hk =>
      split at hd
      · cases hd
        exact h
      · next hgt =>
        refine promote_good hR h hx hle hw hj (crawls_acquires hR h.table hj hx hcrawls) ?_ hc' hd
        intro hkn
        obtain ⟨k', hk', hle'⟩ := knownWithin_iff.mp hkn
        cases Option.some.inj (hk.symm.trans hk')
        exact hgt hle'
    · next hnone =>
      rw [knownCrawlDepth_none.mp hnone j hj] at hcrawls
      cases hcrawls
  · have hnone : ∀ j ∈ db.jobs, j.crawls S.T S.runId S.provider x = false := by
      intro j hj
      by_contra hcrawls
      exact hknown ⟨j, hj, by simpa using hcrawls⟩
    obtain ⟨husers, hjobs⟩ := room_for hR h.table h.capped (within_mono hw hle) hnone
    unfold Db.discover at hd
    rw [knownCrawlDepth_none.mpr hnone] at hd
    dsimp only at hd
    rw [if_neg (Nat.not_le.mpr husers), if_neg (Nat.not_le.mpr hjobs)] at hd
    obtain ⟨res, hd⟩ := map_snd_ok hd
    replace hd : db.enqueueJob S.T (opponentRequest parent S.runId S.provider S.params nextDepth now x) =
      .ok (res, db') := hd
    rcases enqueueJob_cases hd with ⟨_, j, hj, hkey, _⟩ | ⟨_, owner, haccepts, rfl⟩
    · rw [opponentRequest_key hR hx] at hkey
      exact (key_fresh h.table h.capped hnone hj hkey).elim
    · have hstrip : (opponentRequest parent S.runId S.provider S.params nextDepth now x).target.map S.T.strip =
          .name x := by simp [opponentRequest, Target.map, hR.strip x hx]
      have hfits : S.Fits db (opponentRequest parent S.runId S.provider S.params nextDepth now x) := by
        refine ⟨rfl, .inl rfl, haccepts.parent, fun _ => ⟨x, hx, hstrip, ?_, hw⟩, fun hkind => (by cases hkind)⟩
        rw [opponentRequest_key hR hx]
      refine ⟨⟨h.table.insert hfits owner, hc',
        CompleteBut.insert_user hR h.table h.complete hx rfl hstrip hnone h.capped owner⟩, ?_⟩
      refine ⟨_, mem_inserted.mpr (.inr rfl), ?_, .inl (Nat.le_refl _)⟩
      refine Job.crawls_iff.mpr ⟨rfl, rfl, rfl, ?_⟩
      show ((opponentRequest parent S.runId S.provider S.params nextDepth now x).target.map S.T.strip).map
        S.T.sqlLower = _
      rw [hstrip]
      rfl

/-- A whole expansion: the invariants stay, and every opponent is known within the next depth. -/
theorem expand_good (hR : S.Roomy) {s : World} (hcap : s.CappedIn S.T S.runId S.provider S.params S.b)
    (h : S.Good s.db) {worker : Nat} {a : Attempt} {parent : Job} {depth : Nat}
    (hexp : s.Expanding worker a parent depth S.runId S.provider S.b) {v : String} (hw : S.Within depth v)
    {edges : List String} (hedges : ∀ x ∈ edges, S.graph.Adj v x) {r : Race} (hsound : r.sound = true) {now : Int}
    {db' : Db} (hex : s.db.expandOpponentFrontier S.T parent depth edges r now = .ok db') :
    S.Good db' ∧ ∀ x ∈ edges, S.Known db' x (depth + 1) := by
  obtain ⟨_, hparams, _⟩ := hcap.expanding hR.bounds hexp
  have hdisc : (Event.expand worker edges r now).Discovers S.T S.runId :=
    fun x hx => hR.strip x (player_adj (hedges x hx))
  have hwrites : Writes S.T S.w.jobMaxRetries (fun db e => s.Asked S.T db e (.expand worker edges r now)) s.db db' :=
    expand_writes hexp.owns hexp.reads hexp.acquisition hex
  have hfold := expandOpponentFrontier_fold hexp.run hexp.source hexp.bounds hexp.within hex
  rw [hparams] at hfold
  have hexpands : ∀ x ∈ edges, Expands S.T S.w.jobMaxRetries
      (fun db e => s.Asked S.T db e (.expand worker edges r now)) s.db parent S.runId S.provider S.params S.b (depth + 1)
      now x := by
    intro x hx
    rw [← hparams]
    exact hexp.expands hx
  -- the tables in front of each edge
  have hstep : ∀ x ∈ edges.filter (fun u => !s.db.knownAtOrBefore S.T S.runId S.provider u depth), ∀ db₁ db₂,
      (Writes S.T S.w.jobMaxRetries (fun db e => s.Asked S.T db e (.expand worker edges r now)) s.db db₁ ∧ S.Good db₁) →
      db₁.discover S.T parent S.runId S.provider S.params S.b (depth + 1) r now x = .ok db₂ →
      (Writes S.T S.w.jobMaxRetries (fun db e => s.Asked S.T db e (.expand worker edges r now)) s.db db₂ ∧
        S.Good db₂) ∧ S.Known db₂ x (depth + 1) := by
    rintro x hx db₁ db₂ ⟨hw₁, hgood₁⟩ hd
    obtain ⟨hxe, _⟩ := List.mem_filter.mp hx
    have hw₂ := hw₁.trans (discover_writes (hexpands x hxe) hw₁ hd)
    have hc₂ : S.Capped db₂ :=
      hw₂.capped hR.child (fun _ _ hasked hc => asked_admitted hcap hR.bounds hdisc hasked hc) h.capped
    obtain ⟨hgood₂, hknown⟩ := discover_good hR hgood₁ (player_adj (hedges x hxe)) hexp.within
      (within_adj hw (hedges x hxe)) hsound hc₂ hd
    exact ⟨⟨hw₂, hgood₂⟩, hknown⟩
  refine ⟨(foldlM_keeps (fun x hx db₁ db₂ hI hd => (hstep x hx db₁ db₂ hI hd).1) hfold ⟨.refl, h⟩).2, ?_⟩
  intro x hx
  by_cases hbefore : s.db.knownAtOrBefore S.T S.runId S.provider x depth = true
  · obtain ⟨k, hk, hle⟩ := Option.any_eq_true .. |>.mp hbefore
    have hle' : k ≤ depth := by simpa using hle
    exact hwrites.knownWithin (knownWithin_iff.mpr ⟨k, hk, by omega⟩)
  · have hmem : x ∈ edges.filter fun u => !s.db.knownAtOrBefore S.T S.runId S.provider u depth :=
      List.mem_filter.mpr ⟨hx, by simpa using hbefore⟩
    obtain ⟨ys, zs, db₁, db₂, hsplit, h₁, h₂, h₃⟩ := foldlM_splits hfold hmem
    have hys : ∀ y ∈ ys, y ∈ edges.filter fun u => !s.db.knownAtOrBefore S.T S.runId S.provider u depth :=
      fun y hy => hsplit ▸ List.mem_append_left _ hy
    have hzs : ∀ z ∈ zs, z ∈ edges.filter fun u => !s.db.knownAtOrBefore S.T S.runId S.provider u depth :=
      fun z hz => hsplit ▸ List.mem_append_right _ (List.mem_cons_of_mem _ hz)
    have hI₁ := foldlM_keeps (fun y hy db₁ db₂ hI hd => (hstep y (hys y hy) db₁ db₂ hI hd).1) h₁ ⟨.refl, h⟩
    obtain ⟨hI₂, hknown⟩ := hstep x hmem db₁ db₂ hI₁ h₂
    refine (foldlM_keeps (I := fun db₃ => (Writes S.T S.w.jobMaxRetries
      (fun db e => s.Asked S.T db e (.expand worker edges r now)) s.db db₃ ∧ S.Good db₃) ∧
      S.Known db₃ x (depth + 1)) ?_ h₃ ⟨hI₂, hknown⟩).2
    rintro z hz db₃ db₄ ⟨hI₃, hk₃⟩ hd
    obtain ⟨hze, _⟩ := List.mem_filter.mp (hzs z hz)
    exact ⟨(hstep z (hzs z hz) db₃ db₄ hI₃ hd).1, (discover_writes (hexpands z hze) hI₃.1 hd).knownWithin hk₃⟩

end Setting
end ChessCrawl.Jobs
