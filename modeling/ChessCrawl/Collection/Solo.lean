import ChessCrawl.Collection.Limits
import ChessCrawl.Lib.Gaps
import ChessCrawl.Lib.Inevitable

/-! One Lichess job by itself, against a provider with a fixed set of well-formed games: its calls follow one another
with no stop request and no failure, and any time may pass between two steps. What other jobs, and earlier calls, were
sent is left open: the archive they start from may hold pages of any games. -/
namespace ChessCrawl.Collection
open ChessCrawl.Lib
set_option autoImplicit false

/-! ## The provider -/

/-- A page of the provider's games, each with a status. -/
def Shows (P : Finset ProviderGame) (k : PageKey) (body : List GameObject) : Prop :=
  IsPage P k body ∧ ∀ g ∈ body, g.status.isSome

/-- A page that the collector can record. -/
structure Legal (k : PageKey) (body : List GameObject) : Prop where
  read : ∃ ts, pageTimestamps k body = some ts
  games : ∀ g ∈ body, ¬ g.Malformed

/-- `Q` holds of the pages that the job may have stored, those of the provider among them. -/
structure Steady (env : Env) (P : Finset ProviderGame) (Q : PageKey → List GameObject → Prop) : Prop where
  sent : ∀ k body, Shows P k body → env.answers k body = true
  kept : ∀ k body, Shows P k body → Q k body
  legal : ∀ k body, Q k body → Legal k body

/-- The body of a follow-up response. -/
def Answers (ref : GameRef) (body : List GameObject) : Prop := ∃ g, body = [g] ∧ g.id = some ref ∧ ¬ g.Malformed

/-- The responses of the provider: a page, a game by itself, or that the game is gone. -/
def Serves (P : Finset ProviderGame) : Target → Response → Prop
  | .page k, .ok body => Shows P k body
  | .page _, .failed _ _ => False
  | .followup ref _ _, .ok body => Answers ref body
  | .followup _ _ _, .failed status _ => status = 404 ∨ status = 410

section Pages
variable {P : Finset ProviderGame} {k : PageKey} {body : List GameObject}

theorem IsPage.creation_eq (h : IsPage P k body) :
    creationTimes k body = some ((presented body).map ProviderGame.createdAt) := by
  have hin : ∀ p ∈ presented body, p.createdAt ∈ k.span := fun p hp => (Finset.mem_filter.mp (h.inside p hp)).2
  have hshown := h.shown
  clear h
  induction body with
  | nil => rfl
  | cons g gs ih =>
    obtain ⟨p, hp⟩ := Option.isSome_iff_exists.mp (hshown g List.mem_cons_self)
    have hcons : presented (g :: gs) = p :: presented gs := List.filterMap_cons_some hp
    rw [hcons] at hin ⊢
    have hrest := ih (fun q hq => hin q (List.mem_cons_of_mem _ hq)) fun x hx => hshown x (List.mem_cons_of_mem _ hx)
    rw [creationTimes, game?_createdAt hp]
    dsimp only
    rw [if_pos (hin p List.mem_cons_self), hrest]
    rfl

/-- What the collector reads off a page of the provider. -/
theorem IsPage.timestamps (h : IsPage P k body) :
    pageTimestamps k body = some ((presented body).map ProviderGame.createdAt) := by
  have hlen := presented_length h.shown
  have hcount := h.count
  unfold pageTimestamps
  rw [if_neg (by omega), h.creation_eq]
  refine Option.filter_eq_some_iff.mpr ⟨rfl, decide_eq_true ?_⟩
  exact List.pairwise_map.mpr h.descending

theorem game?_some {g : GameObject} {p : ProviderGame} (h : g.game? = some p) :
    g.id = some p.ref ∧ g.createdAt = some p.createdAt := by
  unfold GameObject.game? at h
  split at h
  · next ref t hid ht =>
    cases h
    exact ⟨hid, ht⟩
  · cases h

theorem Shows.legal (h : Shows P k body) (hP : ∀ g ∈ P, 0 ≤ g.createdAt) : Legal k body := by
  obtain ⟨hpage, hstatus⟩ := h
  refine ⟨⟨_, hpage.timestamps⟩, ?_⟩
  rintro g hg (hid | hst | htime)
  · obtain ⟨p, hp⟩ := Option.isSome_iff_exists.mp (hpage.shown g hg)
    rw [(game?_some hp).1] at hid
    cases hid
  · have := hstatus g hg
    rw [hst] at this
    cases this
  · obtain ⟨p, hp⟩ := Option.isSome_iff_exists.mp (hpage.shown g hg)
    have hmem : p ∈ presented body := List.mem_filterMap.mpr ⟨g, hg, hp⟩
    have hnonneg := hP p (Finset.mem_filter.mp (hpage.inside p hmem)).1
    have := htime _ (game?_some hp).2
    omega

theorem trackGames_some {db : Db} (h : ∀ g ∈ body, ¬ g.Malformed) : ∃ db', db.trackGames body = some db' := by
  induction body generalizing db with
  | nil => exact ⟨db, rfl⟩
  | cons g gs ih =>
    have hone : ∃ mid, db.trackGame g = some mid := by
      have hg := h g List.mem_cons_self
      unfold GameObject.Malformed at hg
      rw [not_or, not_or] at hg
      obtain ⟨hid, hst, htime⟩ := hg
      obtain ⟨ref, hid⟩ := Option.ne_none_iff_exists'.mp hid
      obtain ⟨status, hst⟩ := Option.ne_none_iff_exists'.mp hst
      rw [not_forall] at htime
      obtain ⟨t, htime⟩ := htime
      rw [Classical.not_imp] at htime
      unfold Db.trackGame
      rw [hid, hst, htime.1]
      exact ⟨_, if_neg htime.2⟩
    obtain ⟨mid, hmid⟩ := hone
    obtain ⟨db', hdb'⟩ := @ih mid fun x hx => h x (List.mem_cons_of_mem _ hx)
    refine ⟨db', ?_⟩
    change (db.trackGame g).bind _ = some db'
    rw [hmid]
    exact hdb'

/-- The games of a legal page have times from the epoch on. -/
theorem Legal.times (h : Legal k body) {ts : List Int} (hts : pageTimestamps k body = some ts) : ∀ t ∈ ts, 0 ≤ t := by
  intro t ht
  have hmem : some t ∈ body.map GameObject.createdAt := by
    rw [(pageTimestamps_spec hts).times]
    exact List.mem_map_of_mem ht
  obtain ⟨g, hg, hcreated⟩ := List.mem_map.mp hmem
  by_contra hneg
  refine h.games g hg (.inr (.inr fun t' ht' => ?_))
  rw [hcreated] at ht'
  cases ht'
  omega

/-- A page with room for a game is recorded. -/
theorem Legal.recorded (h : Legal k body) (hlimit : 1 ≤ k.limit) (db : Db) (raw : Nat) :
    ∃ ts r db', pageTimestamps k body = some ts ∧ ts.length = body.length ∧ (∀ t ∈ ts, 0 ≤ t) ∧
      provenSpan k body ts = some r ∧ db.recordPage k raw body = some db' := by
  obtain ⟨ts, hts⟩ := h.read
  have hlen : ts.length = body.length := (pageTimestamps_spec hts).length_eq
  have hspan : ∃ r, provenSpan k body ts = some r := by
    unfold provenSpan
    split
    · exact ⟨_, rfl⟩
    · next hfull =>
      have hne : ts ≠ [] := by
        intro hnil
        rw [hnil] at hlen
        simp only [rangeDone, decide_eq_true_eq] at hfull
        simp only [List.length_nil] at hlen
        omega
      rw [List.getLast?_eq_some_getLast hne]
      exact ⟨_, rfl⟩
  obtain ⟨r, hr⟩ := hspan
  obtain ⟨db', hdb'⟩ := @trackGames_some body (db.recordSourceRange raw r.lower r.upper) h.games
  refine ⟨ts, r, db', hts, hlen, h.times hts, hr, ?_⟩
  unfold Db.recordPage
  rw [hts]
  change (provenSpan k body _).bind _ = some db'
  rw [hr]
  exact hdb'

/-- There is a page for every request. -/
theorem exists_shows (P : Finset ProviderGame) (k : PageKey) : ∃ body, Shows P k body := by
  obtain ⟨sorted, hsorted⟩ : ∃ sorted, sorted = (window P k).toList.mergeSort
    fun a b => decide (b.createdAt ≤ a.createdAt) := ⟨_, rfl⟩
  have hperm : sorted.Perm (window P k).toList := hsorted ▸ List.mergeSort_perm _ _
  have hmem : ∀ p, p ∈ sorted ↔ p ∈ window P k := fun p => hperm.mem_iff.trans Finset.mem_toList
  have hdesc : sorted.Pairwise fun p q => q.createdAt ≤ p.createdAt := by
    have hpair : sorted.Pairwise fun p q => decide (q.createdAt ≤ p.createdAt) = true := by
      rw [hsorted]
      refine List.pairwise_mergeSort (fun a b c h h' => ?_) (fun a b => ?_) _
      · simp only [decide_eq_true_eq] at h h' ⊢
        omega
      · simp only [Bool.or_eq_true, decide_eq_true_eq]
        omega
    exact hpair.imp fun h => of_decide_eq_true h
  obtain ⟨body, hbody⟩ : ∃ body : List GameObject, body = (sorted.take k.limit).map fun p =>
    ⟨some p.ref, some p.createdAt, some .mate, 0⟩ := ⟨_, rfl⟩
  have hpresented : presented body = sorted.take k.limit := by
    rw [hbody, presented, List.filterMap_map]
    exact List.filterMap_some
  have hlength : sorted.length = (window P k).card := by
    rw [hperm.length_eq, Finset.length_toList]
  refine ⟨body, ⟨fun g hg => ?_, ?_, fun p hp => ?_, ?_, fun p hp hnot q hq => ?_, ?_⟩, fun g hg => ?_⟩
  · rw [hbody] at hg
    obtain ⟨p, _, rfl⟩ := List.mem_map.mp hg
    rfl
  · rw [hpresented]
    exact (hperm.nodup_iff.mpr (Finset.nodup_toList _)).sublist (List.take_sublist _ _)
  · rw [hpresented] at hp
    exact (hmem p).mp (List.mem_of_mem_take hp)
  · rw [hpresented, List.length_take, hlength]
  · rw [hpresented] at hnot hq
    have hdrop : p ∈ sorted.drop k.limit := by
      have := (hmem p).mpr hp
      rw [← List.take_append_drop k.limit sorted] at this
      exact (List.mem_append.mp this).resolve_left hnot
    rw [← List.take_append_drop k.limit sorted] at hdesc
    exact (List.pairwise_append.mp hdesc).2.2 q hq p hdrop
  · rw [hpresented]
    exact hdesc.sublist (List.take_sublist _ _)
  · rw [hbody] at hg
    obtain ⟨p, _, rfl⟩ := List.mem_map.mp hg
    rfl

end Pages

/-- A provider that may have sent anything. -/
def anyProvider (jobRun : Nat → Option Nat) (runParams : Nat → Params) : Env := ⟨fun _ _ => true, jobRun, runParams⟩

/-! ## The run -/

/-- One step of the job, after any time: a new call once the last has ended, else the next program point. -/
inductive Solo (P : Finset ProviderGame) (env : Env) (job : Nat) (params : Params) : State → State → Prop
  | enter {s t : State} (ms : Nat) (h : step env { s with clock := s.clock + ms } (.enter job params false) = some t) :
      Solo P env job params s t
  | advance {s t : State} (ms : Nat) (i : Input) (hstop : i.stop = false)
      (hserved : ∀ x c target requestedAt, s.calls job = some (.running x c (.requested target requestedAt)) →
        Serves P target i.response)
      (h : step env { s with clock := s.clock + ms } (.advance job i) = some t) : Solo P env job params s t

/-- The call is about to raise that the timestamp boundary exceeds `max_page_size`. -/
def Overflows (job : Nat) (s : State) : Prop :=
  ∃ x c k raw done p ts oldest, s.calls job = some (.running x c (.judged k raw done)) ∧
    s.db.rawPayload raw = some p ∧ pageTimestamps k p.body = some ts ∧ rangeDone k p.body = false ∧
    ts.getLast? = some oldest ∧ x.maxPageSize < (nextPage x.pageSize k ts oldest).2

def Completed (job : Nat) (s : State) : Prop := ∃ c, s.db.checkpoints job = some c ∧ c.done = true

def Finished (job : Nat) (s : State) : Prop := Completed job s ∨ Overflows job s

theorem step_advance {env : Env} {s : State} {job : Nat} {i : Input} {call : Call} {db : Db} {next : Option Call}
    (hcall : s.calls job = some call) (hadv : call.advance env job s.clock s.db i = some (db, next)) :
    step env s (.advance job i) = some ⟨db, s.clock, Function.update s.calls job next⟩ := by
  change (s.calls job).bind _ = _
  rw [hcall]
  change (call.advance env job s.clock s.db i).bind _ = _
  rw [hadv]
  rfl

/-- That step records the error and ends the call. -/
theorem Overflows.raises {env : Env} {job : Nat} {s : State} (h : Overflows job s) (i : Input) :
    ∃ x k raw t, step env s (.advance job i) = some t ∧ t.calls job = none ∧
      t.db = s.db.recordCoverage (.millis k) ⟨.error, some raw, x, some boundaryError, none, none, false⟩ := by
  obtain ⟨x, c, k, raw, done, p, ts, oldest, hcall, hp, hts, hfull, hlast, hover⟩ := h
  have hadv : (Pc.judged k raw done).advance env job s.clock s.db i x c = some (s.db.recordCoverage (.millis k)
      ⟨.error, some raw, x.now, some boundaryError, none, none, false⟩, none) := by
    rw [Pc.advance, hp]
    simp only [Option.bind_some, hts, Option.map_some, hfull, Bool.false_eq_true, if_false, hlast, if_pos hover]
  exact ⟨x.now, k, raw, _, step_advance hcall hadv, Function.update_self _ _ _, rfl⟩

/-! ## What the job relies on -/

/-- The gaps of the requested window depend on the recorded ranges alone. -/
theorem missingWindows_ranges {env : Env} {db : Db} (h : db.Sound env) (since : Option Int) (upto : Int) :
    db.missingWindows since upto = missing ⟨since, upto⟩ (db.sourceRanges.map SourceRange.span) := by
  refine missing_congr fun t => ?_
  unfold Db.coveredSpans
  constructor
  · rintro ⟨r, hr, ht⟩
    rcases List.mem_append.mp hr with hr | hr
    · exact ⟨r, hr, ht⟩
    · obtain ⟨u, hu, rfl⟩ := List.mem_map.mp hr
      exact h.history u (Option.mem_toList.mp hu) t ht.2
  · exact Covered.mono fun r hr => List.mem_append_left _ hr

theorem missingWindows_same {env : Env} {db db' : Db} (h : db.Sound env) (h' : db'.Sound env)
    (hranges : db'.sourceRanges = db.sourceRanges) (since : Option Int) (upto : Int) :
    db'.missingWindows since upto = db.missingWindows since upto := by
  rw [missingWindows_ranges h, missingWindows_ranges h', hranges]

/-- The settings of the calls of one job. -/
structure Exec.Same (x₀ x : Exec) : Prop where
  params : x.params = x₀.params
  batch : x.batchSize = x₀.batchSize
  page : x.pageSize = x₀.pageSize
  most : x.maxPageSize = x₀.maxPageSize

/-- The window that the code accepts. -/
def Accepted (x₀ : Exec) (since : Option Int) (upto : Int) : Prop :=
  ∃ given, milliseconds x₀.params.sinceMs x₀.params.since = some since ∧
    milliseconds x₀.params.untilMs x₀.params.upto = some given ∧ upto = given.getD x₀.nowMs ∧
    ∀ a, since = some a → a ≤ upto

/-- A cursor of the job before it is done. -/
structure Cursor.Open (x₀ : Exec) (since : Option Int) (upto : Int) (c : Cursor) : Prop where
  fingerprint : c.requestFingerprint = x₀.params.fingerprint
  since : c.requestedSinceMs = since
  upper : c.upperMs = upto
  limit : 1 ≤ c.limit
  unfinished : c.done = false

/-- The span that the next page is asked for. -/
def Db.aim (mode : Mode) (db : Db) (c : Cursor) : Option Span :=
  if mode = .backfill then some ⟨c.sinceMs, c.untilMs⟩ else (db.missingWindows c.requestedSinceMs c.upperMs).head?

/-- What a pending request is for. -/
def Aimed (mode : Mode) (db : Db) (c : Cursor) : Target → Prop
  | .followup ref rows _ =>
    c.phase = .followups ∧ (ref :: rows).Pairwise (· < ·) ∧ ∀ r ∈ ref :: rows, r ∈ db.awaited c
  | .page k => c.phase = .pages ∧ k = ⟨c.sinceMs, c.untilMs, c.limit⟩ ∧ db.aim mode c = some ⟨c.sinceMs, c.untilMs⟩

/-- A response that the job may have stored. -/
def Source.Admits (Q : PageKey → List GameObject → Prop) : Source → List GameObject → Prop
  | .page k, body => Q k body
  | .game ref, body => Answers ref body

def Obtained (Q : PageKey → List GameObject → Prop) (db : Db) (t : Target) (raw : Nat) : Prop :=
  ∃ p, db.rawPayload raw = some p ∧ p.source = t.source ∧ t.source.Admits Q p.body

/-- A page whose range is recorded. -/
def PageKept (mode : Mode) (db : Db) (c : Cursor) (k : PageKey) (raw : Nat) : Prop :=
  c.phase = .pages ∧ k = ⟨c.sinceMs, c.untilMs, c.limit⟩ ∧ ∃ p ts, db.rawPayload raw = some p ∧
    pageTimestamps k p.body = some ts ∧ ts.length = p.body.length ∧ (∀ t ∈ ts, 0 ≤ t) ∧
    (mode ≠ .backfill → ∃ gs, Fragments (⟨c.sinceMs, c.untilMs⟩ :: gs) ∧
      (rangeDone k p.body = true → db.missingWindows c.requestedSinceMs c.upperMs = gs) ∧
      ∀ oldest, rangeDone k p.body = false → ts.getLast? = some oldest →
        db.missingWindows c.requestedSinceMs c.upperMs = ⟨c.sinceMs, oldest + 1⟩ :: gs)

/-- What holds at a program point of the run. -/
def PcTrack (Q : PageKey → List GameObject → Prop) (job : Nat) (mode : Mode) (db : Db) (x : Exec) (c : Cursor) : Pc → Prop
  | .start => db.checkpoints job = some c
  | .stored sources short => db.checkpoints job = some c ∧ c.phase = .stored ∧ sources.Pairwise (· < ·) ∧
      (∀ raw ∈ sources, raw ∈ db.replayable c) ∧ (sources = [] → short = false → 0 < x.processed)
  | .replayed raw sources _ => c.phase = .stored ∧ (raw :: sources).Pairwise (· < ·) ∧
      ∀ r ∈ raw :: sources, r ∈ db.replayable c
  | .followups rows _ => db.checkpoints job = some c ∧ c.phase = .followups ∧ rows.Pairwise (· < ·) ∧
      ∀ ref ∈ rows, ref ∈ db.awaited c
  | .paging => c.phase = .pages
  | .closing => c.phase = .pages ∧ if mode = .backfill then c.sinceMs = some c.untilMs
      else db.missingWindows c.requestedSinceMs c.upperMs = []
  | .fetching t | .requested t _ => Aimed mode db c t
  | .captured t raw _ | .fetched t raw => Aimed mode db c t ∧ Obtained Q db t raw
  | .refused (.followup ref rows full) status _ =>
      Aimed mode db c (.followup ref rows full) ∧ (status = 404 ∨ status = 410)
  | .refused (.page _) _ _ => False
  | .recorded k raw => PageKept mode db c k raw
  | .judged k raw done => PageKept mode db c k raw ∧
      ∀ p, db.rawPayload raw = some p → done = if mode = .backfill then rangeDone k p.body
        else (db.missingWindows c.requestedSinceMs c.upperMs).isEmpty

/-- The job between and during its calls. -/
def OnTrack (Q : PageKey → List GameObject → Prop) (job : Nat) (x₀ : Exec) (since : Option Int) (upto : Int) (db : Db) :
    Option Call → Prop
  | none => ∃ c, db.checkpoints job = some c ∧ c.Open x₀ since upto
  | some (.creating x) => x₀.Same x ∧ x.nowMs = x₀.nowMs ∧ Accepted x₀ since upto
  | some (.pinning x s u first) =>
    x₀.Same x ∧ s = since ∧ u = upto ∧ (x₀.params.mode = .backfill → first = ⟨since, upto⟩)
  | some (.saving x c) => x₀.Same x ∧ c.Open x₀ since upto
  | some (.running x c pc) => x₀.Same x ∧ c.Open x₀ since upto ∧ PcTrack Q job x₀.params.mode db x c pc

/-- The responses that the job has stored. -/
def OwnLogs (Q : PageKey → List GameObject → Prop) (job : Nat) (db : Db) : Prop :=
  ∀ f ∈ db.fetchLogs, f.jobId = job → ∀ p, db.rawPayload f.rawPayloadId = some p → p.source.Admits Q p.body

/-! ## How much is left -/

def Db.work (db : Db) (x₀ : Exec) (c : Cursor) (rank : Nat) : Nat × Nat × Nat × Nat × Nat :=
  match c.phase with
  | .stored => (2, (db.replayable c).length, 0, 0, rank)
  | .followups => (1, (db.awaited c).length, 0, 0, rank)
  | .pages =>
    (0, if x₀.params.mode = .backfill then 0 else (db.missingWindows c.requestedSinceMs c.upperMs).length,
      (((db.aim x₀.params.mode c).map Span.upper).getD 0).toNat,
      x₀.maxPageSize + 1 - (if db.aim x₀.params.mode c = some ⟨c.sinceMs, c.untilMs⟩ then c.limit else 0), rank)

/-- The steps of a call that are left until something is done: after a page is recorded the call is ahead of the
start of the next one, unless nothing of the gap was covered. -/
def Pc.rank (mode : Mode) (db : Db) (c : Cursor) : Pc → Nat
  | .stored [] false | .followups [] true => 11
  | .start => 9
  | .paging | .stored _ _ | .followups _ _ => 8
  | .replayed _ _ _ | .closing | .fetching _ => 7
  | .requested _ _ => 6
  | .captured _ _ _ => 5
  | .fetched _ _ | .refused _ _ _ => 4
  | .recorded _ _ => if db.aim mode c = some ⟨c.sinceMs, c.untilMs⟩ then 3 else 13
  | .judged _ _ _ => if db.aim mode c = some ⟨c.sinceMs, c.untilMs⟩ then 2 else 12

def Db.left (job : Nat) (x₀ : Exec) (db : Db) : Option Call → Nat × Nat × Nat × Nat × Nat
  | none =>
    match db.checkpoints job with
    | some c => db.work x₀ c 10
    | none => (6, 0, 0, 0, 0)
  | some (.creating _) => (5, 0, 0, 0, 0)
  | some (.pinning _ _ _ _) => (4, 0, 0, 0, 0)
  | some (.saving _ _) => (3, 0, 0, 0, 0)
  | some (.running _ c pc) => db.work x₀ c (pc.rank x₀.params.mode db c)

end ChessCrawl.Collection
