import ChessCrawl.Collection.Children

/-! Which games a full collection brings into its run. A full job queues the stored pages up to a
payload id pinned when its cursor is made, and its own pages; a range that another job commits
meanwhile is subtracted from its gaps without being queued. The invariant accounts for every covered
game of the window as queued or still ahead in the stored replay, and needs that other jobs cover no
further game of the window while the job is in progress. -/
namespace ChessCrawl.Collection
open ChessCrawl.Lib
set_option autoImplicit false

def Cursor.window (c : Cursor) : Span := ⟨c.requestedSinceMs, c.upperMs⟩

/-- The range that the next step of the job commits. -/
def State.covering (s : State) (job : Nat) : Option Span :=
  match s.calls job with
  | some (.running _ _ (.fetched (.page k) raw)) =>
    (s.db.rawPayload raw).bind fun p => (pageTimestamps k p.body).bind fun ts => provenSpan k p.body ts
  | _ => none

/-- A cursor of the job from the pinning of its stored sources to its completion: the one a call
holds, and the saved one. -/
def State.InProgress (s : State) (job : Nat) (c : Cursor) : Prop :=
  (∃ x, s.calls job = some (.saving x c)) ∨ (∃ x pc, s.calls job = some (.running x c pc)) ∨
    (s.db.checkpoints job = some c ∧ c.done = false)

/-- While `job` is in progress, no other job covers a game of its window that was not yet covered. -/
def NoForeignCoverage (P : Finset ProviderGame) (job : Nat) (s : State) : Event → Prop
  | .advance other _ => other ≠ job → ∀ c, s.InProgress job c →
      ∀ r, s.covering other = some r → ∀ g ∈ P, g.createdAt ∈ r → g.createdAt ∈ c.window →
        s.db.CoveredAt g.createdAt
  | _ => True

/-! ## Accounting -/

section Account
variable (env : Env) (P : Finset ProviderGame) (job run : Nat)

/-- The job has a child for the payload. -/
def Queued (db : Db) (raw : Nat) : Prop :=
  ∃ c ∈ db.children, c.rawPayloadId = raw ∧ c.parentJobId = job ∧ c.crawlRunId = some run

/-- Every covered game of the window lies in a range whose page is queued or ahead. -/
def Accounted (db : Db) (c : Cursor) (ahead : Nat → Prop) : Prop :=
  ∀ g ∈ P, g.createdAt ∈ c.window → db.CoveredAt g.createdAt → ∃ row ∈ db.sourceRanges,
    g.createdAt ∈ row.span ∧ (Queued job run db row.rawPayloadId ∨ ahead row.rawPayloadId)

/-- The cursor's window is the run's. -/
structure OfRun (c : Cursor) : Prop where
  fingerprint : c.requestFingerprint = (env.runParams run).fingerprint
  since : milliseconds (env.runParams run).sinceMs (env.runParams run).since = some c.requestedSinceMs
  upto : ∃ given, milliseconds (env.runParams run).untilMs (env.runParams run).upto = some given ∧
    ∀ u, given = some u → c.upperMs = u

end Account

/-- The stored replay has not reached the payload. -/
def Cursor.Pending (c : Cursor) (raw : Nat) : Prop :=
  c.phase = .stored ∧ c.localAfter < raw ∧ raw ≤ c.localHighWater

/-- Payloads a call will still queue from the stored pages. -/
def Pc.Ahead (c : Cursor) : Pc → Nat → Prop
  | .start, raw => c.Pending raw
  | .stored sources short, raw => raw ∈ sources ∨ (short = false ∧ (∀ y ∈ sources, y ≤ raw) ∧ c.Pending raw)
  | .replayed first sources short, raw =>
    raw ∈ sources ∨ (short = false ∧ (∀ y ∈ first :: sources, y ≤ raw) ∧ c.Pending raw)
  | _, _ => False

section Calls
variable (env : Env) (P : Finset ProviderGame) (job run : Nat)

def PcAssoc (db : Db) (x : Exec) (c : Cursor) : Pc → Prop
  | .stored sources short => c.phase = .stored ∧ sources.Pairwise (· ≤ ·) ∧
      (∀ y ∈ sources, c.Pending y ∨ Queued job run db y) ∧
      (short = false → sources ≠ [] ∨ 0 < x.processed)
  | .replayed first sources _ => c.phase = .stored ∧ (first :: sources).Pairwise (· ≤ ·) ∧
      (∀ y ∈ sources, c.Pending y ∨ Queued job run db y) ∧ Queued job run db first
  | .fetched (.page _) raw => Queued job run db raw
  | _ => True

def CallAssoc (db : Db) : Call → Prop
  | .creating x => x.params.fingerprint = (env.runParams run).fingerprint ∧ 0 < x.batchSize
  | .pinning x since upto _ => x.params.fingerprint = (env.runParams run).fingerprint ∧ 0 < x.batchSize ∧
      milliseconds (env.runParams run).sinceMs (env.runParams run).since = some since ∧
      ∃ given, milliseconds (env.runParams run).untilMs (env.runParams run).upto = some given ∧
        ∀ u, given = some u → upto = u
  | .saving x c => 0 < x.batchSize ∧ OfRun env run c ∧ c.done = false ∧ Accounted P job run db c c.Pending
  | .running x c pc => 0 < x.batchSize ∧ (OfRun env run c ∧ c.done = false) ∧
      Accounted P job run db c (pc.Ahead c) ∧ PcAssoc job run db x c pc

end Calls

variable {env : Env} {P : Finset ProviderGame} {job run : Nat}

theorem Accounted.imp {db : Db} {c : Cursor} {a b : Nat → Prop} (h : Accounted P job run db c a)
    (hab : ∀ raw, a raw → Queued job run db raw ∨ b raw) : Accounted P job run db c b := by
  intro g hg hwin hcov
  obtain ⟨row, hrow, hin, hq | ha⟩ := h g hg hwin hcov
  · exact ⟨row, hrow, hin, .inl hq⟩
  · exact ⟨row, hrow, hin, hab _ ha⟩

/-- Ranges and children stay, and a game of the window that is newly covered is in a queued page. -/
structure Accounts (P : Finset ProviderGame) (job run : Nat) (db db' : Db) (w : Span) : Prop where
  ranges : ∀ r ∈ db.sourceRanges, r ∈ db'.sourceRanges
  queued : ∀ raw, Queued job run db raw → Queued job run db' raw
  covered : ∀ g ∈ P, g.createdAt ∈ w → db'.CoveredAt g.createdAt → db.CoveredAt g.createdAt ∨
    ∃ row ∈ db'.sourceRanges, g.createdAt ∈ row.span ∧ Queued job run db' row.rawPayloadId

theorem Accounted.mono {db db' : Db} {c : Cursor} {a : Nat → Prop} (h : Accounted P job run db c a)
    (hs : Accounts P job run db db' c.window) : Accounted P job run db' c a := by
  intro g hg hwin hcovered
  rcases hs.covered g hg hwin hcovered with hold | ⟨row, hrow, hin, hq⟩
  · obtain ⟨row, hrow, hin, hqa⟩ := h g hg hwin hold
    exact ⟨row, hs.ranges row hrow, hin, hqa.imp_left (hs.queued _)⟩
  · exact ⟨row, hrow, hin, .inl hq⟩

theorem coveredAt_of_same {db db' : Db} (h : db'.sourceRanges = db.sourceRanges) {t : Int}
    (ht : db'.CoveredAt t) : db.CoveredAt t := by
  unfold Db.CoveredAt at ht ⊢
  rw [h] at ht
  exact ht

/-! ## Children stay queued -/

theorem queued_enqueue (db : Db) (raw fetch : Nat) (mg : Option Nat) (hrun : env.jobRun job = some run) :
    Queued job run (db.enqueuePayloadNormalization raw fetch mg job (env.jobRun job)) raw := by
  rcases Db.enqueue_children db raw fetch mg job (env.jobRun job) with ⟨c, hc, h1, h2, h3, heq⟩ | heq
  · rw [heq]
    exact ⟨c, hc, h1, h2, by rw [h3, hrun]⟩
  · rw [heq]
    exact ⟨_, List.mem_append_right _ List.mem_cons_self, rfl, rfl, hrun⟩

theorem Queued.of_children {db db' : Db} (h : ∀ c ∈ db.children, c ∈ db'.children) {raw : Nat}
    (hq : Queued job run db raw) : Queued job run db' raw := by
  obtain ⟨c, hc, rest⟩ := hq
  exact ⟨c, h c hc, rest⟩

theorem Effect.queued {j : Nat} {clock : Int} {db db' : Db} {call : Call}
    (h : Effect env j clock db call db') {raw : Nat} (hq : Queued job run db raw) :
    Queued job run db' raw := by
  refine hq.of_children fun c hc => ?_
  rcases h.children with hsame | ⟨raw', fetch, mg, _, rfl⟩
  · rw [hsame]
    exact hc
  · obtain ⟨cs, hcs⟩ := Db.enqueue_frame db raw' fetch mg j (env.jobRun j)
    rw [hcs]
    exact List.mem_append_left _ hc

theorem processChild_queued {db db' : Db} {n : Nat} {e : ChildEvent}
    (h : db.processChild env n e = some db') {raw : Nat} (hq : Queued job run db raw) :
    Queued job run db' raw := by
  obtain ⟨c, p, state, hc, _, hset, _⟩ := processChild_cases h
  obtain ⟨d, hd, h1, h2, h3⟩ := hq
  obtain ⟨m, hm⟩ := List.mem_iff_getElem?.mp hd
  have hlt := (List.getElem?_eq_some_iff.mp hm).1
  by_cases hmn : m = n
  · subst hmn
    rw [hc] at hm
    cases hm
    refine ⟨{ c with state := state }, ?_, h1, h2, h3⟩
    rw [hset]
    exact List.mem_set hlt _
  · refine ⟨d, ?_, h1, h2, h3⟩
    rw [hset]
    refine List.mem_of_getElem? (i := m) ?_
    rw [List.getElem?_set_ne (by omega)]
    exact hm

/-! ## Reading the stored sources -/

theorem overlaps_of_mem {row : SourceRange} {c : Cursor} {t : Int} (hrow : t ∈ row.span) (ht : t ∈ c.window) :
    Db.overlaps row c.requestedSinceMs c.upperMs = true := by
  have h1 : Span.AboveLower row.coveredSince t := hrow.1
  have h2 : t < row.coveredUntil := hrow.2
  have h3 : Span.AboveLower c.requestedSinceMs t := ht.1
  have h4 : t < c.upperMs := ht.2
  unfold Db.overlaps
  rw [Bool.and_eq_true]
  constructor
  · cases hs : row.coveredSince with
    | none => rfl
    | some a =>
      rw [hs, Span.aboveLower_some] at h1
      exact decide_eq_true (by omega)
  · cases hs : c.requestedSinceMs with
    | none => rfl
    | some a =>
      rw [hs, Span.aboveLower_some] at h3
      exact decide_eq_true (by omega)

theorem le_foldr_max {xs : List Nat} {x : Nat} (h : x ∈ xs) : x ≤ xs.foldr max 0 := by
  induction xs with
  | nil => exact absurd h List.not_mem_nil
  | cons y ys ih =>
    rw [List.foldr_cons]
    rcases List.mem_cons.mp h with rfl | h
    · exact le_max_left _ _
    · exact le_trans (ih h) (le_max_right _ _)

theorem le_coveredSourceHighWater {db : Db} {upto : Int} {since : Option Int} {row : SourceRange}
    (hrow : row ∈ db.sourceRanges) (h : Db.overlaps row since upto = true) :
    row.rawPayloadId ≤ db.coveredSourceHighWater upto since :=
  le_foldr_max (List.mem_map_of_mem (List.mem_filter.mpr ⟨hrow, h⟩))

/-- A batch is sorted, and what it leaves out comes after a full batch. -/
theorem coveredSources_spec (db : Db) (c : Cursor) (limit : Nat) :
    (db.coveredSources c.upperMs c.localAfter c.localHighWater limit c.requestedSinceMs).Pairwise (· ≤ ·) ∧
      ∀ row ∈ db.sourceRanges, Db.overlaps row c.requestedSinceMs c.upperMs = true →
        c.localAfter < row.rawPayloadId → row.rawPayloadId ≤ c.localHighWater →
        row.rawPayloadId ∈ db.coveredSources c.upperMs c.localAfter c.localHighWater limit c.requestedSinceMs ∨
        ((db.coveredSources c.upperMs c.localAfter c.localHighWater limit c.requestedSinceMs).length = limit ∧
          ∀ y ∈ db.coveredSources c.upperMs c.localAfter c.localHighWater limit c.requestedSinceMs,
            y ≤ row.rawPayloadId) := by
  unfold Db.coveredSources
  set ids := ((db.sourceRanges.filter fun r => Db.overlaps r c.requestedSinceMs c.upperMs &&
    decide (c.localAfter < r.rawPayloadId) && decide (r.rawPayloadId ≤ c.localHighWater)).map
      SourceRange.rawPayloadId).insertionSort (· ≤ ·) with hids
  have hsorted : ids.Pairwise (· ≤ ·) := List.pairwise_insertionSort _ _
  refine ⟨hsorted.take, fun row hrow hov hlt hle => ?_⟩
  have hmem : row.rawPayloadId ∈ ids := by
    refine (List.perm_insertionSort _ _).mem_iff.mpr (List.mem_map_of_mem (List.mem_filter.mpr ⟨hrow, ?_⟩))
    simp [hov, hlt, hle]
  rw [← List.take_append_drop limit ids] at hmem hsorted
  rcases List.mem_append.mp hmem with hin | hout
  · exact .inl hin
  · refine .inr ⟨?_, fun y hy => (List.pairwise_append.mp hsorted).2.2 y hy _ hout⟩
    have hdrop : 0 < (ids.drop limit).length := List.length_pos_of_mem hout
    rw [List.length_drop] at hdrop
    rw [List.length_take]
    omega

/-! ## Moves of the job -/

/-- What a stored checkpoint of the job promises. -/
structure Durable (env : Env) (P : Finset ProviderGame) (job run : Nat) (db : Db) (c : Cursor) : Prop where
  ofRun : OfRun env run c
  pending : Accounted P job run db c c.Pending
  finished : c.done = true → Accounted P job run db c fun _ => False

/-- Past the stored replay every covered game of the window is queued. -/
structure Settled (env : Env) (P : Finset ProviderGame) (job run : Nat) (db : Db) (c : Cursor) : Prop where
  ofRun : OfRun env run c
  queued : Accounted P job run db c fun _ => False

theorem Settled.congr {db : Db} {c : Cursor} (h : Settled env P job run db c) (c' : Cursor)
    (hf : c'.requestFingerprint = c.requestFingerprint) (hs : c'.requestedSinceMs = c.requestedSinceMs)
    (hu : c'.upperMs = c.upperMs) : Settled env P job run db c' := by
  have hw : c'.window = c.window := by rw [Cursor.window, hs, hu]; rfl
  refine ⟨⟨by rw [hf]; exact h.ofRun.fingerprint, by rw [hs]; exact h.ofRun.since, by rw [hu]; exact h.ofRun.upto⟩, ?_⟩
  unfold Accounted
  rw [hw]
  exact h.queued

theorem Settled.durable {db : Db} {c : Cursor} (h : Settled env P job run db c) :
    Durable env P job run db c :=
  ⟨h.ofRun, h.queued.imp fun _ hf => hf.elim, fun _ => h.queued⟩

theorem Settled.mono {db db' : Db} {c : Cursor} (h : Settled env P job run db c)
    (hs : Accounts P job run db db' c.window) : Settled env P job run db' c :=
  ⟨h.ofRun, h.queued.mono hs⟩

theorem Durable.mono {db db' : Db} {c : Cursor} (h : Durable env P job run db c)
    (hs : Accounts P job run db db' c.window) : Durable env P job run db' c :=
  ⟨h.ofRun, h.pending.mono hs, fun hd => (h.finished hd).mono hs⟩

/-- Pinning: an overlapping range has a payload between zero and the high water. -/
theorem accounted_pin {db : Db} (h : db.Sound env) {c : Cursor} (ha : c.localAfter = 0)
    (hw : c.localHighWater = db.coveredSourceHighWater c.upperMs c.requestedSinceMs)
    (hphase : c.localHighWater ≠ 0 → c.phase = .stored) : Accounted P job run db c c.Pending := by
  intro g hg hwin hcov
  obtain ⟨s, hs, hin⟩ := hcov
  obtain ⟨row, hrow, rfl⟩ := List.mem_map.mp hs
  refine ⟨row, hrow, hin, .inr ?_⟩
  have hle := le_coveredSourceHighWater hrow (overlaps_of_mem hin hwin)
  rw [← hw] at hle
  obtain ⟨p, hp, _, _, hid, _⟩ := h.ranges row hrow
  have hpos : 0 < row.rawPayloadId := by
    obtain ⟨n, hn⟩ := List.mem_iff_getElem?.mp hp
    have hpn := h.numbered n p hn
    omega
  exact ⟨hphase (by omega), by omega, hle⟩

theorem accounted_readStored {db : Db} {c : Cursor} {x : Exec} {sources : List Nat}
    (h : Accounted P job run db c c.Pending)
    (hsources : sources = db.coveredSources c.upperMs c.localAfter c.localHighWater x.batchSize
      c.requestedSinceMs) :
    Accounted P job run db c ((Pc.stored sources (sources.length < x.batchSize)).Ahead c) := by
  intro g hg hwin hcov
  obtain ⟨row, hrow, hin, hq | hpend⟩ := h g hg hwin hcov
  · exact ⟨row, hrow, hin, .inl hq⟩
  · refine ⟨row, hrow, hin, .inr ?_⟩
    have hspec := (coveredSources_spec db c x.batchSize).2 row hrow (overlaps_of_mem hin hwin)
      hpend.2.1 hpend.2.2
    rw [← hsources] at hspec
    rcases hspec with hmem | ⟨hlen, hle⟩
    · exact .inl hmem
    · exact .inr ⟨decide_eq_false (by omega), hle, hpend⟩

/-- A page of the job itself is queued before its range is recorded. -/
theorem own_accounts {clock : Int} {db db' : Db} {call : Call} {next : Option Call}
    (hext : db.Extends env db') (hcall : CallAssoc env P job run db call)
    (hm : Moves env job clock db call db' next) (w : Span) : Accounts P job run db db' w := by
  refine ⟨hext.ranges, fun raw hq => hm.effect.queued hq, fun g hg hwin hcov => ?_⟩
  rcases hm.effect.sourceRanges with hsame | ⟨x, c, k, raw, p, rfl, hp, hr⟩
  · exact .inl (coveredAt_of_same hsame hcov)
  · have hq : Queued job run db raw := hcall.2.2.2
    obtain ⟨s, hs, hin⟩ := hcov
    obtain ⟨row, hrow, rfl⟩ := List.mem_map.mp hs
    obtain ⟨ts, r, _, _, heq⟩ := Db.recordPage_spec hr
    have hrows : row ∈ (db.recordSourceRange raw r.lower r.upper).sourceRanges := by
      rw [heq] at hrow
      exact hrow
    rcases Db.recordSourceRange_cases db raw r.lower r.upper with ⟨_, hsame⟩ | hnew
    · rw [hsame] at hrows
      exact .inl ⟨row.span, List.mem_map_of_mem hrows, hin⟩
    · rw [hnew] at hrows
      rcases List.mem_append.mp hrows with hold | hlast
      · exact .inl ⟨row.span, List.mem_map_of_mem hold, hin⟩
      · refine .inr ⟨row, hrow, hin, hm.effect.queued ?_⟩
        rw [List.mem_singleton.mp hlast]
        exact hq

theorem Moves.assoc {clock : Int} {db db' : Db} {call : Call} {next : Option Call}
    (hrun : env.jobRun job = some run) (hfull : (env.runParams run).mode = .full) (h : db.Sound env)
    (hext : db.Extends env db') (hcall : CallAssoc env P job run db call)
    (hm : Moves env job clock db call db' next) :
    (∀ c, db'.checkpoints job = some c → db.checkpoints job = some c ∨ Durable env P job run db' c) ∧
      ∀ call', next = some call' → CallAssoc env P job run db' call' := by
  have hacc := own_accounts hext hcall hm
  have saved : ∀ (mid : Db) {c' : Cursor}, Durable env P job run db' c' →
      db' = mid.saveCheckpoint job c' →
      ∀ c, db'.checkpoints job = some c → db.checkpoints job = some c ∨ Durable env P job run db' c := by
    intro mid c' hd heq c hc
    rw [heq] at hc
    change Function.update mid.checkpoints job (some c') job = some c at hc
    rw [Function.update_self] at hc
    cases hc
    exact .inr hd
  have hnone : ∀ call', (none : Option Call) = some call' → CallAssoc env P job run db' call' :=
    fun _ hn => nomatch hn
  cases hm with
  | drop => exact ⟨fun c hc => .inl hc, hnone⟩
  | @create x since given first hs hu hle hfirst hback =>
    refine ⟨fun c hc => .inl hc, fun _ hn => ?_⟩
    cases hn
    have hfp := hcall.1
    simp only [Params.fingerprint, Params.mk.injEq] at hfp
    obtain ⟨_, h1, h2, h3, h4, _⟩ := hfp
    rw [h1, h2] at hs
    rw [h3, h4] at hu
    refine ⟨hcall.1, hcall.2, hs, given, hu, fun u hgu => ?_⟩
    rw [hgu]
    rfl
  | @pin x since upto first highWater hw =>
    refine ⟨fun c hc => .inl hc, fun _ hn => ?_⟩
    cases hn
    obtain ⟨hfp, hbatch, hsince, hupto⟩ := hcall
    have hmode : x.params.mode = .full := by
      have hm := congrArg Params.mode hfp
      exact hm.trans hfull
    rw [if_pos hmode] at hw
    refine ⟨hbatch, ⟨hfp, hsince, hupto⟩, rfl, accounted_pin h rfl hw fun hne => ?_⟩
    exact if_neg hne
  | @save x c =>
    obtain ⟨hbatch, hof, hdone, hpend⟩ := hcall
    have hmono := hpend.mono (hacc _)
    refine ⟨saved db ⟨hof, hmono, fun hd => ?_⟩ rfl, fun _ hn => ?_⟩
    · rw [hdone] at hd
      cases hd
    · cases hn
      exact ⟨hbatch, ⟨hof, hdone⟩, hmono, trivial⟩
  | @readStored x c sources hphase hsources =>
    refine ⟨fun c hc => .inl hc, fun _ hn => ?_⟩
    cases hn
    obtain ⟨hbatch, hof, hpend, _⟩ := hcall
    refine ⟨hbatch, hof, accounted_readStored hpend hsources, hphase, ?_, fun y hy => ?_, fun hshort => ?_⟩
    · rw [hsources]
      exact (coveredSources_spec db c x.batchSize).1
    · rw [hsources] at hy
      obtain ⟨_, hlt, hle⟩ := mem_coveredSources hy
      exact .inl ⟨hphase, hlt, hle⟩
    · refine .inl fun hnil => ?_
      rw [hnil] at hshort
      simp only [List.length_nil, decide_eq_false_iff_not] at hshort
      omega
  | @readFollowups x c rows full hphase =>
    refine ⟨fun c hc => .inl hc, fun _ hn => ?_⟩
    cases hn
    obtain ⟨hbatch, hof, hpend, _⟩ := hcall
    refine ⟨hbatch, hof, hpend.imp fun raw hp => ?_, trivial⟩
    have hstored := hp.1
    rw [hphase] at hstored
    cases hstored
  | @resume x c hphase =>
    refine ⟨fun c hc => .inl hc, fun _ hn => ?_⟩
    cases hn
    obtain ⟨hbatch, hof, hpend, _⟩ := hcall
    refine ⟨hbatch, hof, hpend.imp fun raw hp => ?_, trivial⟩
    have hstored := hp.1
    rw [hphase] at hstored
    cases hstored
  | @replay x c raw fetch sources short =>
    obtain ⟨hbatch, hof, hahead, hphase, hsorted, hsrc, _⟩ := hcall
    have hq := queued_enqueue db raw fetch none hrun
    refine ⟨fun c hc => .inl ?_, fun _ hn => ?_⟩
    · obtain ⟨cs, hcs⟩ := Db.enqueue_frame db raw fetch none job (env.jobRun job)
      rw [hcs] at hc
      exact hc
    · cases hn
      refine ⟨hbatch, hof, (hahead.mono (hacc _)).imp fun r hr => ?_, hphase, hsorted, fun y hy => ?_, hq⟩
      · rcases hr with hmem | hbeyond
        · rcases List.mem_cons.mp hmem with rfl | hmem
          · exact .inl hq
          · exact .inr (.inl hmem)
        · exact .inr (.inr hbeyond)
      · rcases hsrc y (List.mem_cons_of_mem _ hy) with hp | hqy
        · exact .inl hp
        · exact .inr ((hacc c.window).queued y hqy)
  | replayLocal hnorun =>
    rw [hrun] at hnorun
    cases hnorun
  | @replayed x x' c raw sources short hx hb hpos =>
    obtain ⟨hbatch, ⟨hof, hdone⟩, hahead, hphase, hsorted, hsrc, hq⟩ := hcall
    have hle := (List.pairwise_cons.mp hsorted).1
    -- moving past `raw` leaves queued payloads behind and keeps the later ones ahead
    have hmove : ∀ y, raw ≤ y → c.Pending y → Queued job run db y ∨ Cursor.Pending { c with localAfter := raw } y := by
      intro y hy hp
      rcases Nat.eq_or_lt_of_le hy with rfl | hlt
      · exact .inl hq
      · exact .inr ⟨hp.1, hlt, hp.2.2⟩
    have hof' : OfRun env run { c with localAfter := raw } := ⟨hof.fingerprint, hof.since, hof.upto⟩
    have hstored : Accounted P job run db { c with localAfter := raw }
        ((Pc.stored sources short).Ahead { c with localAfter := raw }) := by
      refine Accounted.imp (c := { c with localAfter := raw }) hahead fun r hr => ?_
      rcases hr with hmem | ⟨hs, hall, hp⟩
      · exact .inr (.inl hmem)
      · rcases hmove r (hall raw List.mem_cons_self) hp with hqr | hpr
        · exact .inl hqr
        · exact .inr (.inr ⟨hs, fun y hy => hall y (List.mem_cons_of_mem raw hy), hpr⟩)
    have hsrc' : ∀ y ∈ sources, Cursor.Pending { c with localAfter := raw } y ∨ Queued job run db y := by
      intro y hy
      rcases hsrc y hy with hp | hqy
      · exact (hmove y (hle y hy) hp).symm
      · exact .inr hqy
    have hpend : Accounted P job run db { c with localAfter := raw }
        (Cursor.Pending { c with localAfter := raw }) := by
      refine hstored.imp fun r hr => ?_
      rcases hr with hmem | ⟨_, _, hp⟩
      · exact (hsrc' r hmem).symm
      · exact .inr hp
    refine ⟨saved db ⟨hof', hpend.mono (hacc _), fun hd => ?_⟩ rfl, fun _ hn => ?_⟩
    · change c.done = true at hd
      rw [hdone] at hd
      cases hd
    · cases hn
      refine ⟨by rw [hb]; exact hbatch, ⟨hof', hdone⟩, hstored.mono (hacc _), hphase,
        (List.pairwise_cons.mp hsorted).2, fun y hy => ?_, fun _ => .inr hpos⟩
      exact (hsrc' y hy).imp_right ((hacc c.window).queued y)
  | @storedShort x c next hnext =>
    obtain ⟨hbatch, ⟨hof, hdone⟩, hahead, hphase, _⟩ := hcall
    have hset : Settled env P job run db c := ⟨hof, hahead.imp fun r hr => by
      rcases hr with hmem | ⟨hs, _⟩
      · exact absurd hmem List.not_mem_nil
      · cases hs⟩
    have hset' : Settled env P job run _ { c with phase := .followups } :=
      (hset.mono (hacc _)).congr _ rfl rfl rfl
    refine ⟨saved db hset'.durable rfl, ?_⟩
    rcases hnext with rfl | rfl
    · exact hnone
    · intro _ hn
      cases hn
      exact ⟨hbatch, ⟨hset'.ofRun, hdone⟩, hset'.queued.imp fun _ hf => hf.elim, trivial⟩
  | @storedFull x c pc hpc hx =>
    obtain ⟨_, _, _, _, _, _, hshort⟩ := hcall
    rcases hshort rfl with hne | hpos
    · exact absurd rfl hne
    · omega
  | followup =>
    refine ⟨fun c hc => .inl hc, fun _ hn => ?_⟩
    cases hn
    exact ⟨hcall.1, hcall.2.1, hcall.2.2.1, trivial⟩
  | @followed x c next hnext =>
    obtain ⟨hbatch, ⟨hof, hdone⟩, hahead, _⟩ := hcall
    have hset : Settled env P job run db c := ⟨hof, hahead⟩
    have hset' : Settled env P job run _ { c with phase := .pages } :=
      (hset.mono (hacc _)).congr _ rfl rfl rfl
    refine ⟨saved db hset'.durable rfl, ?_⟩
    rcases hnext with rfl | rfl
    · exact hnone
    · intro _ hn
      cases hn
      exact ⟨hbatch, ⟨hset'.ofRun, hdone⟩, hset'.queued, trivial⟩
  | @planCovered x c heq =>
    refine ⟨fun c hc => .inl hc, fun _ hn => ?_⟩
    cases hn
    obtain ⟨hbatch, ⟨hof, hdone⟩, hahead, _⟩ := hcall
    obtain ⟨hf, hu, hs, hd⟩ := replan_fields db x c
    have hset : Settled env P job run db (replan db x c) := Settled.congr ⟨hof, hahead⟩ _ hf hs hu
    exact ⟨hbatch, ⟨hset.ofRun, by rw [hd]; exact hdone⟩, hset.queued, trivial⟩
  | @plan x c hne =>
    refine ⟨fun c hc => .inl hc, fun _ hn => ?_⟩
    cases hn
    obtain ⟨hbatch, ⟨hof, hdone⟩, hahead, _⟩ := hcall
    obtain ⟨hf, hu, hs, hd⟩ := replan_fields db x c
    have hset : Settled env P job run db (replan db x c) := Settled.congr ⟨hof, hahead⟩ _ hf hs hu
    exact ⟨hbatch, ⟨hset.ofRun, by rw [hd]; exact hdone⟩, hset.queued, trivial⟩
  | @close x c =>
    obtain ⟨hbatch, ⟨hof, hdone⟩, hahead, _⟩ := hcall
    have hset : Settled env P job run db c := ⟨hof, hahead⟩
    have hset' := (hset.mono (hacc _)).congr { c with done := true } rfl rfl rfl
    obtain ⟨cov, heq⟩ := Db.commitCovered_frame db job c x.now
    exact ⟨saved _ hset'.durable heq, hnone⟩
  | @reuse x c t raw fetch hl =>
    obtain ⟨hbatch, ⟨hof, hdone⟩, hahead, _⟩ := hcall
    refine ⟨fun c hc => .inl ?_, fun _ hn => ?_⟩
    · obtain ⟨cs, hcs⟩ := Db.enqueue_frame db raw fetch t.maxGames job (env.jobRun job)
      rw [hcs] at hc
      exact hc
    · cases hn
      refine ⟨hbatch, ⟨hof, hdone⟩, hahead.mono (hacc _), ?_⟩
      cases t with
      | followup ref rows full => trivial
      | page k => exact queued_enqueue db raw fetch none hrun
  | request =>
    refine ⟨fun c hc => .inl hc, fun _ hn => ?_⟩
    cases hn
    exact ⟨hcall.1, hcall.2.1, hcall.2.2.1, trivial⟩
  | refuse =>
    refine ⟨fun c hc => .inl hc, fun _ hn => ?_⟩
    cases hn
    exact ⟨hcall.1, hcall.2.1, hcall.2.2.1, trivial⟩
  | @capture x c t requestedAt body ha =>
    obtain ⟨hbatch, ⟨hof, hdone⟩, hahead, _⟩ := hcall
    refine ⟨fun c hc => .inl ?_, fun _ hn => ?_⟩
    · obtain ⟨raws, heq⟩ := Db.storeRawPayload_frame db t.source body requestedAt
      rw [heq] at hc
      exact hc
    · cases hn
      exact ⟨hbatch, ⟨hof, hdone⟩, hahead.mono (hacc _), trivial⟩
  | @queue x c t raw fetch =>
    obtain ⟨hbatch, ⟨hof, hdone⟩, hahead, _⟩ := hcall
    refine ⟨fun c hc => .inl ?_, fun _ hn => ?_⟩
    · obtain ⟨cs, hcs⟩ := Db.enqueue_frame db raw fetch t.maxGames job (env.jobRun job)
      rw [hcs] at hc
      exact hc
    · cases hn
      refine ⟨hbatch, ⟨hof, hdone⟩, hahead.mono (hacc _), ?_⟩
      cases t with
      | followup ref rows full => trivial
      | page k => exact queued_enqueue db raw fetch none hrun
  | @refresh x x' c ref rows full raw g mid ht hx hb =>
    obtain ⟨hbatch, ⟨hof, hdone⟩, hahead, _⟩ := hcall
    have hset : Settled env P job run db c := ⟨hof, hahead⟩
    have hset' := (hset.mono (hacc _)).congr { c with followupAfter := some ref } rfl rfl rfl
    refine ⟨saved mid hset'.durable rfl, fun _ hn => ?_⟩
    cases hn
    exact ⟨by rw [hb]; exact hbatch, ⟨hset'.ofRun, hdone⟩, hset'.queued, trivial⟩
  | @vanished x x' c ref rows full status message hx hb =>
    obtain ⟨hbatch, ⟨hof, hdone⟩, hahead, _⟩ := hcall
    have hset : Settled env P job run db c := ⟨hof, hahead⟩
    have hset' := (hset.mono (hacc _)).congr { c with followupAfter := some ref } rfl rfl rfl
    refine ⟨saved _ hset'.durable rfl, fun _ hn => ?_⟩
    cases hn
    exact ⟨by rw [hb]; exact hbatch, ⟨hset'.ofRun, hdone⟩, hset'.queued, trivial⟩
  | @fail x c t unit status message hunit =>
    refine ⟨fun c hc => .inl ?_, hnone⟩
    obtain ⟨cov, heq⟩ := Db.recordFailure_frame db unit status message x.now
    rw [heq] at hc
    exact hc
  | @record x c k raw p _ hp hr =>
    obtain ⟨hbatch, ⟨hof, hdone⟩, hahead, _⟩ := hcall
    refine ⟨fun c hc => .inl ?_, fun _ hn => ?_⟩
    · obtain ⟨ts, r, _, _, heq⟩ := Db.recordPage_spec hr
      rw [heq] at hc
      rcases Db.recordSourceRange_cases db raw r.lower r.upper with ⟨_, hsame⟩ | hnew
      · rw [hsame] at hc
        exact hc
      · rw [hnew] at hc
        exact hc
    · cases hn
      exact ⟨hbatch, ⟨hof, hdone⟩, hahead.mono (hacc _), trivial⟩
  | judge hp =>
    refine ⟨fun c hc => .inl hc, fun _ hn => ?_⟩
    cases hn
    exact ⟨hcall.1, hcall.2.1, hcall.2.2.1, trivial⟩
  | @finish x c k raw p done hp hd =>
    obtain ⟨hbatch, ⟨hof, hdone⟩, hahead, _⟩ := hcall
    have hset : Settled env P job run db c := ⟨hof, hahead⟩
    have hset' := (hset.mono (hacc _)).congr (if done then { c with done := true } else c)
      (by split <;> rfl) (by split <;> rfl) (by split <;> rfl)
    obtain ⟨cov, heq⟩ := Db.commitPage_frame db job c k raw true done x.now
    exact ⟨saved _ hset'.durable heq, hnone⟩
  | @saturate x c k raw p ts oldest limit done hp ht hd hlast =>
    obtain ⟨hbatch, ⟨hof, hdone⟩, hahead, _⟩ := hcall
    have hset : Settled env P job run db c := ⟨hof, hahead⟩
    have hset' := (hset.mono (hacc _)).congr
      (if done then { c with untilMs := oldest + 1, limit := limit, done := true }
        else { c with untilMs := oldest + 1, limit := limit })
      (by split <;> rfl) (by split <;> rfl) (by split <;> rfl)
    obtain ⟨cov, heq⟩ := Db.commitPage_frame db job { c with untilMs := oldest + 1, limit := limit } k raw
      false done x.now
    exact ⟨saved _ hset'.durable heq, hnone⟩
  | @overflow x c k raw done =>
    refine ⟨fun c hc => .inl ?_, hnone⟩
    obtain ⟨cov, heq, _⟩ := Db.recordCoverage_frame db (.millis k)
      ⟨.error, some raw, x.now, some boundaryError, none, none, false⟩
    rw [heq] at hc
    exact hc

/-! ## Every run -/

structure AssocInv (env : Env) (P : Finset ProviderGame) (job run : Nat) (s : State) : Prop where
  checkpoint : ∀ c, s.db.checkpoints job = some c → Durable env P job run s.db c
  call : ∀ call, s.calls job = some call → CallAssoc env P job run s.db call

theorem CallAssoc.mono {db db' : Db} {call : Call} (h : CallAssoc env P job run db call)
    (hsaving : ∀ x c, call = .saving x c → Accounts P job run db db' c.window)
    (hrunning : ∀ x c pc, call = .running x c pc → Accounts P job run db db' c.window) :
    CallAssoc env P job run db' call := by
  cases call with
  | creating x => exact h
  | pinning x since upto first => exact h
  | saving x c => exact ⟨h.1, h.2.1, h.2.2.1, h.2.2.2.mono (hsaving x c rfl)⟩
  | running x c pc =>
    have hacc := hrunning x c pc rfl
    obtain ⟨hbatch, hof, hahead, hpc⟩ := h
    refine ⟨hbatch, hof, hahead.mono hacc, ?_⟩
    cases pc with
    | stored sources short =>
      exact ⟨hpc.1, hpc.2.1, fun y hy => (hpc.2.2.1 y hy).imp_right (hacc.queued y), hpc.2.2.2⟩
    | replayed first sources short =>
      exact ⟨hpc.1, hpc.2.1, fun y hy => (hpc.2.2.1 y hy).imp_right (hacc.queued y),
        hacc.queued first hpc.2.2.2⟩
    | fetched t raw =>
      cases t with
      | followup ref rows full => trivial
      | page k => exact hacc.queued raw hpc
    | _ => trivial

/-- Another job's step keeps the account of a window whose games it does not newly cover. -/
theorem foreign_accounts {s : State} {other : Nat} {db' : Db} {call : Call} {next : Option Call}
    (hcall : s.calls other = some call) (hext : s.db.Extends env db')
    (hm : Moves env other s.clock s.db call db' next) {w : Span}
    (hw : ∀ r, s.covering other = some r → ∀ g ∈ P, g.createdAt ∈ r → g.createdAt ∈ w →
      s.db.CoveredAt g.createdAt) : Accounts P job run s.db db' w := by
  refine ⟨hext.ranges, fun raw hq => hm.effect.queued hq, fun g hg hwin hcov => .inl ?_⟩
  rcases hm.effect.sourceRanges with hsame | ⟨x, c, k, raw, p, rfl, hp, hr⟩
  · exact coveredAt_of_same hsame hcov
  · obtain ⟨ts, r, hts, hspan, heq⟩ := Db.recordPage_spec hr
    have hcovering : s.covering other = some r := by
      unfold State.covering
      rw [hcall]
      dsimp only
      rw [hp, Option.bind_some, hts, Option.bind_some, hspan]
    obtain ⟨sp, hs, hin⟩ := hcov
    obtain ⟨row, hrow, rfl⟩ := List.mem_map.mp hs
    have hrows : row ∈ (s.db.recordSourceRange raw r.lower r.upper).sourceRanges := by
      rw [heq] at hrow
      exact hrow
    rcases Db.recordSourceRange_cases s.db raw r.lower r.upper with ⟨_, hsame⟩ | hnew
    · rw [hsame] at hrows
      exact ⟨row.span, List.mem_map_of_mem hrows, hin⟩
    · rw [hnew] at hrows
      rcases List.mem_append.mp hrows with hold | hlast
      · exact ⟨row.span, List.mem_map_of_mem hold, hin⟩
      · rw [List.mem_singleton.mp hlast] at hin
        exact hw r hcovering g hg hin hwin

theorem enter_assoc {s : State} (hrun : env.jobRun job = some run) (h : AssocInv env P job run s)
    {params : Params} {stop : Bool} {next : Option Call} (he : enter env s job params stop = some next) :
    ∀ call, next = some call → CallAssoc env P job run s.db call := by
  rintro call rfl
  have hfp := enter_runParams he hrun
  rcases enter_cases he with ⟨c, x, hc, hx, hb, hcfp, hdone, rfl⟩ | ⟨x, hx, hn, hb, rfl⟩
  · have hdur := h.checkpoint c hc
    exact ⟨hb, ⟨hdur.ofRun, hdone⟩, hdur.pending, trivial⟩
  · exact ⟨by rw [hx, hfp], hb⟩

theorem assocInv_step {s t : State} {e : Event} (hrun : env.jobRun job = some run)
    (hfull : (env.runParams run).mode = .full) (hinv : Inv env s) (h : AssocInv env P job run s)
    (hok : NoForeignCoverage P job s e) (hs : step env s e = some t) : AssocInv env P job run t := by
  cases e with
  | tick ms =>
    cases hs
    exact ⟨h.checkpoint, h.call⟩
  | enter j params stop =>
    obtain ⟨next, he, rfl⟩ := Option.map_eq_some_iff.mp hs
    refine ⟨h.checkpoint, fun call hc => ?_⟩
    change Function.update s.calls j next job = some call at hc
    by_cases hj : job = j
    · subst hj
      rw [Function.update_self] at hc
      exact enter_assoc hrun h he call hc
    · rw [Function.update_of_ne hj] at hc
      exact h.call call hc
  | advance j i =>
    obtain ⟨call, hcall, hs⟩ := Option.bind_eq_some_iff.mp hs
    obtain ⟨⟨db, next⟩, hadv, hs⟩ := Option.bind_eq_some_iff.mp hs
    cases hs
    have hm := Call.advance_moves hadv
    have hext := (hm.extends hinv.sound (hinv.calls j call hcall)).1
    by_cases hj : j = job
    · subst hj
      have hown := hm.assoc hrun hfull hinv.sound hext (h.call call hcall)
      refine ⟨fun c hc => ?_, fun call' hc => ?_⟩
      · rcases hown.1 c hc with hold | hnew
        · exact (h.checkpoint c hold).mono (own_accounts hext (h.call call hcall) hm _)
        · exact hnew
      · change Function.update s.calls j next j = some call' at hc
        rw [Function.update_self] at hc
        exact hown.2 call' hc
    · have hacc : ∀ c, s.InProgress job c → Accounts P job run s.db db c.window :=
        fun c hc => foreign_accounts hcall hext hm (hok hj c hc)
      refine ⟨fun c hc => ?_, fun call' hc => ?_⟩
      · change db.checkpoints job = some c at hc
        rw [hm.effect.others (Ne.symm hj)] at hc
        refine (h.checkpoint c hc).mono ?_
        cases hd : c.done with
        | false => exact hacc c (.inr (.inr ⟨hc, hd⟩))
        | true =>
          -- a finished window is covered already
          refine ⟨hext.ranges, fun raw hq => hm.effect.queued hq, fun g hg hwin _ => .inl ?_⟩
          exact (hinv.checkpoints job c hc).finished hd _ hwin
      · change Function.update s.calls j next job = some call' at hc
        rw [Function.update_of_ne (Ne.symm hj)] at hc
        refine (h.call call' hc).mono (fun x c hx => ?_) fun x c pc hx => ?_
        · exact hacc c (.inl ⟨x, by rw [hc, hx]⟩)
        · exact hacc c (.inr (.inl ⟨x, pc, by rw [hc, hx]⟩))
  | crash j =>
    cases hs
    refine ⟨h.checkpoint, fun call hc => ?_⟩
    change Function.update s.calls j none job = some call at hc
    rw [Function.update_apply] at hc
    split at hc
    · cases hc
    · exact h.call call hc
  | child n e =>
    obtain ⟨db, hdb, rfl⟩ := Option.map_eq_some_iff.mp hs
    have hframe := processChild_frame hdb
    have hranges : db.sourceRanges = s.db.sourceRanges := by rw [hframe]
    have hacc : ∀ w, Accounts P job run s.db db w := by
      intro w
      refine ⟨by rw [hranges]; exact fun _ hr => hr, fun raw hq => processChild_queued hdb hq, ?_⟩
      exact fun g _ _ hcov => .inl (coveredAt_of_same hranges hcov)
    refine ⟨fun c hc => ?_, fun call hc => ?_⟩
    · change db.checkpoints job = some c at hc
      rw [hframe] at hc
      exact (h.checkpoint c hc).mono (hacc _)
    · exact (h.call call hc).mono (fun _ c _ => hacc _) fun _ c _ _ => hacc _

theorem reach_assocInv {s : State} (hrun : env.jobRun job = some run)
    (hfull : (env.runParams run).mode = .full)
    (h : Reach (lichess env) (NoForeignCoverage P job) s) : AssocInv env P job run s := by
  refine Reach.invariant (fun s h0 => ?_)
    (fun s e t hr hi hok hs => assocInv_step hrun hfull (reachable_inv hr.reachable) hi hok hs) h
  obtain ⟨hdb, hcalls⟩ := h0
  refine ⟨fun c hc => ?_, fun call hc => ?_⟩
  · rw [hdb] at hc
    cases hc
  · rw [hcalls job] at hc
    cases hc

/-! ## Completeness -/

/-- The run includes every creation time of the cursor's window. -/
theorem OfRun.includes {c : Cursor} (h : OfRun env run c) {t : Int} (ht : t ∈ c.window) :
    (env.runParams run).includes (some t) = true := by
  obtain ⟨given, hgiven, hupper⟩ := h.upto
  have hlow : Span.AboveLower c.requestedSinceMs t := ht.1
  have hhigh : t < c.upperMs := ht.2
  unfold Params.includes
  rw [orElse_of_milliseconds h.since, orElse_of_milliseconds hgiven]
  have hsince : (c.requestedSinceMs.all fun a => decide (a ≤ t)) = true := by
    cases hs : c.requestedSinceMs with
    | none => rfl
    | some a =>
      rw [hs, Span.aboveLower_some] at hlow
      exact decide_eq_true hlow
  have hupto : (given.all fun b => decide (t < b)) = true := by
    cases hg : given with
    | none => rfl
    | some u =>
      rw [hupper u hg] at hhigh
      exact decide_eq_true hhigh
  dsimp only
  split
  · rfl
  · next heq _ => cases heq
  · next heq _ =>
    cases heq
    rw [hsince, hupto]
    rfl

theorem key_of_game? {g : GameObject} {p : ProviderGame} (h : g.game? = some p) : g.key = .byId p.ref := by
  unfold GameObject.game? at h
  unfold GameObject.key
  split at h
  · next hid _ =>
    cases h
    rw [hid]
  · cases h

theorem full_run_association_complete (P : Finset ProviderGame) (jobRun : Nat → Option Nat)
    (runParams : Nat → Params) (job run : Nat) (hrun : jobRun job = some run)
    (hfull : (runParams run).mode = .full) (s : State)
    (h : Reach (lichess (serving P jobRun runParams)) (NoForeignCoverage P job) s) (c : Cursor)
    (hc : s.db.checkpoints job = some c) (hdone : c.done = true)
    (hchildren : ∀ child ∈ s.db.children, child.parentJobId = job → child.state = .done) :
    ∀ g ∈ P, g.createdAt ∈ (⟨c.requestedSinceMs, c.upperMs⟩ : Span) →
      (run, GameKey.byId g.ref) ∈ s.db.runGames := by
  intro g hg hwin
  have hinv := reachable_inv h.reachable
  have hdur := (reach_assocInv hrun hfull h).checkpoint c hc
  have hcov := (hinv.checkpoints job c hc).finished hdone _ hwin
  obtain ⟨row, hrow, hin, ⟨child, hchild, hraw, hparent, hcrun⟩ | hf⟩ := hdur.finished hdone g hg hwin hcov
  · obtain ⟨q, hq, k, ts, hid, hsrc, hts, hspan⟩ := hinv.sound.ranges row hrow
    obtain ⟨p, hp, hpage, hstate⟩ := (reachable_childInv h.reachable).children child hchild
    rw [hraw, ← hid, hinv.sound.numbered.rawPayload_eq hq] at hp
    cases hp
    have hlegal : IsPage P k q.body := of_decide_eq_true (hinv.sound.pages q hq k hsrc)
    have hmem := hlegal.mem_of_provenSpan (pageTimestamps_spec hts) hspan hg hin
    obtain ⟨obj, hobj, hgame⟩ := List.mem_filterMap.mp hmem
    have hassoc := (hstate run (hpage k hsrc) hcrun).2 (hchildren child hchild hparent) obj hobj
    rw [game?_createdAt hgame, key_of_game? hgame] at hassoc
    exact hassoc (hdur.ofRun.includes hwin)
  · exact hf.elim

/-! Job 1 collects one game into run 1 while jobs of other runs are about: in one run job 2 fetches the page before job 1
pins its stored sources, and in the other one after it. -/

def sharedGames : Finset ProviderGame := {⟨1, 5⟩}

def sharedParams : Nat → Params
  | 1 => ⟨.full, none, none, none, none, none, none, none, none⟩
  | _ => ⟨.incremental, none, none, none, none, none, none, none, none⟩

def sharedEnv : Env := serving sharedGames some sharedParams

def childTrace (n : Nat) : List Event := [.child n .start, .child n .game, .child n .finish]

/-- Job 2 is done before job 1 pins its stored sources, and job 3 comes while job 1 is in progress. -/
def sharedTrace : List Event :=
  List.flatten [
    [.tick 10, .enter 2 (sharedParams 2) false], List.replicate 5 (.advance 2 quiet),
    pageTrace 2 [tiedObject 1 5], childTrace 0,
    [.enter 1 (sharedParams 1) false], List.replicate 7 (.advance 1 quiet),
    [.enter 3 (sharedParams 3) false], List.replicate 7 (.advance 3 quiet),
    [.enter 1 (sharedParams 1) false], List.replicate 4 (.advance 1 quiet), childTrace 1]

def overtakenTrace : List Event :=
  List.flatten [
    [.tick 10, .enter 1 (sharedParams 1) false], List.replicate 3 (.advance 1 quiet),
    [.enter 2 (sharedParams 2) false], List.replicate 5 (.advance 2 quiet),
    pageTrace 2 [tiedObject 1 5], childTrace 0, List.replicate 4 (.advance 1 quiet)]

/-- Job 1 is done and has no child left to run, and its run has no game. -/
theorem overtaken_full_run_misses_game : ∃ s, Reachable (lichess sharedEnv) s ∧
    s.db.finishedWindow 1 = some (none, 10) ∧
    (∀ child ∈ s.db.children, child.parentJobId = 1 → child.state = .done) ∧
    ∃ g ∈ sharedGames, g.createdAt ∈ (⟨none, 10⟩ : Span) ∧ (1, GameKey.byId g.ref) ∉ s.db.runGames := by
  obtain ⟨s, hreach, hs⟩ := Reach.of_exec (lichess sharedEnv) (fun _ _ => True)
    (s := emptyState) ⟨rfl, fun _ => rfl⟩ overtakenTrace
    (fun s => decide (s.db.finishedWindow 1 = some (none, 10) ∧
      (∀ child ∈ s.db.children, child.parentJobId = 1 → child.state = .done) ∧
      ∃ g ∈ sharedGames, g.createdAt ∈ (⟨none, 10⟩ : Span) ∧ (1, GameKey.byId g.ref) ∉ s.db.runGames))
    (by decide)
  exact ⟨s, hreach, of_decide_eq_true hs⟩

/-- Other jobs commit their ranges before job 1 begins. -/
def RangesBefore (s : State) : Event → Prop
  | .advance j _ => j = 1 ∨ s.covering j = none ∨ s.calls 1 = none ∧ s.db.checkpoints 1 = none
  | _ => True

instance (s : State) (e : Event) : Decidable (RangesBefore s e) := by
  cases e <;> unfold RangesBefore <;> infer_instance

theorem noForeignCoverage_of_before {P : Finset ProviderGame} {s : State} {e : Event} (h : RangesBefore s e) :
    NoForeignCoverage P 1 s e := by
  cases e with
  | advance j i =>
    intro hj c hc r hr
    obtain rfl | hnone | ⟨hcall, hcheckpoint⟩ := h
    · exact absurd rfl hj
    · rw [hnone] at hr
      cases hr
    · obtain ⟨x, hx⟩ | ⟨x, pc, hx⟩ | ⟨hx, _⟩ := hc
      · cases hcall.symm.trans hx
      · cases hcall.symm.trans hx
      · cases hcheckpoint.symm.trans hx
  | _ => trivial

theorem full_run_association_complete_shared : ∃ s,
    Reach (lichess sharedEnv) (NoForeignCoverage sharedGames 1) s ∧ s.db.finishedWindow 2 = some (none, 10) ∧
    s.db.finishedWindow 1 = some (none, 10) ∧ (1, GameKey.byId 1) ∈ s.db.runGames := by
  obtain ⟨s, hbefore, hs⟩ := Reach.of_exec (lichess sharedEnv) RangesBefore
    (s := emptyState) ⟨rfl, fun _ => rfl⟩ sharedTrace
    (fun s => decide (s.db.finishedWindow 2 = some (none, 10) ∧ s.db.finishedWindow 1 = some (none, 10) ∧
      ∀ child ∈ s.db.children, child.parentJobId = 1 → child.state = .done)) (by decide +kernel)
  obtain ⟨hother, hwin, hchildren⟩ := of_decide_eq_true hs
  have hreach : Reach (lichess sharedEnv) (NoForeignCoverage sharedGames 1) s :=
    hbefore.mono fun _ _ => noForeignCoverage_of_before
  refine ⟨s, hreach, hother, hwin, ?_⟩
  obtain ⟨c, hc, heq⟩ := Option.map_eq_some_iff.mp hwin
  obtain ⟨hcp, hd⟩ := Option.filter_eq_some_iff.mp hc
  simp only [Prod.mk.injEq] at heq
  refine full_run_association_complete sharedGames some sharedParams 1 1 rfl rfl s hreach c hcp hd
    hchildren ⟨1, 5⟩ (by decide) ?_
  rw [heq.1, heq.2]
  exact ⟨trivial, by decide⟩

end ChessCrawl.Collection
