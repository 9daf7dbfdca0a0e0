import ChessCrawl.Jobs.Retained
import ChessCrawl.Jobs.Steady

/-! The attempts of bounded parents, step by step: what an owner has found at each point, and what the steps of
others leave of it. -/
namespace ChessCrawl.Jobs
open ChessCrawl.Lib
set_option autoImplicit false

/-! ## Steps -/

section Moves
variable (T : Text) (w : WorkerSettings) (parserVersion : String)

/-- What an attempt of its own does next. -/
inductive Acquiring.Acts (s : Acquiring) (worker : Nat) (a : Attempt) : Point → AcquisitionEvent → Point → Acquiring → Prop
  | failed {failure : String} : s.world.db.processingFailure a.job.id = some failure →
      Acts s worker a .claimed (.check worker) (.finishing .error failure) s
  | checked : s.world.db.processingFailure a.job.id = none → Acts s worker a .claimed (.check worker) .selecting s
  | selected {remaining : Option Nat} {u : SourceUnit} : a.job.nextUnit remaining = .ok (.unit u) →
      Acts s worker a .selecting (.select worker remaining) (.looking u) s
  | through {remaining : Option Nat} {state : JobState} {reason : String} :
      Acts s worker a .selecting (.select worker remaining) (.finishing state reason) s
  | found {u : SourceUnit} {l : FetchLog} {raw : Nat} : s.archive.latestJobPayload T a.job u = some l →
      l.rawPayloadId = some raw → Acts s worker a (.looking u) (.look worker) (.queueing u raw l.id) s
  | missing {u : SourceUnit} : s.archive.occurrences T a.job u = [] →
      Acts s worker a (.looking u) (.look worker) (.requesting u) s
  | requested {u : SourceUnit} {x : Record} : s.world.Owns worker a →
      Acts s worker a (.requesting u) (.request worker x) (.received u x) s
  | stored {u : SourceUnit} {x : Record} {raw : Nat} : s.world.Owns worker a →
      (s.archive.persistResponse (some a.job.id) (u.key T a.job) x).1 = some raw →
      Acts s worker a (.received u x) (.persist worker)
        (.queueing u raw (s.archive.persistResponse (some a.job.id) (u.key T a.job) x).2.logSeq)
        { s with archive := (s.archive.persistResponse (some a.job.id) (u.key T a.job) x).2 }
  | refused {u : SourceUnit} {x : Record} {reason : String} : s.world.Owns worker a →
      (s.archive.persistResponse (some a.job.id) (u.key T a.job) x).1 = none →
      Acts s worker a (.received u x) (.persist worker) (.finishing .error reason)
        { s with archive := (s.archive.persistResponse (some a.job.id) (u.key T a.job) x).2 }
  | queued {u : SourceUnit} {raw fetch : Nat} {maxGames : Option Int} {now : Int} {world : World} :
      s.world.Owns worker a →
      s.world.step T w (.capture worker raw (some fetch) maxGames parserVersion now) = some world →
      Acts s worker a (.queueing u raw fetch) (.enqueue worker maxGames now) (.advancing u raw fetch)
        { s with world := world }
  | full {u : SourceUnit} {raw fetch : Nat} {maxGames : Option Int} {now : Int} {reason : String} :
      s.world.Owns worker a →
      Acts s worker a (.queueing u raw fetch) (.enqueue worker maxGames now) (.finishing .blocked reason) s
  | advanced {u : SourceUnit} {raw fetch : Nat} {reason : String} {world : World} : s.world.Owns worker a →
      s.world.step T w (.checkpoint worker u.checkpoint.1 u.checkpoint.2) = some world →
      Acts s worker a (.advancing u raw fetch) (.checkpoint worker) (.finishing .pending reason)
        { s with world := world }

/-- A step is one of other code, or of a standing attempt. -/
inductive Acquiring.Moves (s : Acquiring) : AcquisitionEvent → Acquiring → Prop
  | world {ev : Event} {world : World} : s.permits T ev = true → s.world.step T w ev = some world →
      Moves s (.world ev) ({ s with world := world }.resume ev)
  | fetched {jobId : Option Nat} {key : SourceKey} {x : Record} :
      (∀ id, jobId = some id → ∃ j, s.world.db.job id = some j ∧ j.boundedParent = false) →
      Moves s (.fetched jobId key x) { s with archive := (s.archive.persistResponse jobId key x).2 }
  | acts {ev : AcquisitionEvent} {worker : Nat} {a : Attempt} {p q : Point} {t : Acquiring} :
      s.world.attempts worker = some a → s.points worker = some p → s.Acts T w parserVersion worker a p ev q t →
      Moves s ev (t.setPoint worker (some q))

end Moves

section Steps
variable {T : Text} {w : WorkerSettings} {parserVersion : String} {s t : Acquiring}

theorem standing_some {worker : Nat} {x : Attempt × Point} (h : s.standing worker = some x) :
    s.world.attempts worker = some x.1 ∧ s.points worker = some x.2 := by
  obtain ⟨a, ha, h⟩ := Option.bind_eq_some_iff.mp h
  obtain ⟨p, hp, rfl⟩ := Option.map_eq_some_iff.mp h
  exact ⟨ha, hp⟩

theorem fenced_some {worker : Nat} {x : Attempt × Point} (h : s.fenced worker = some x) :
    s.world.Owns worker x.1 ∧ s.points worker = some x.2 := by
  obtain ⟨hstand, hfence⟩ := Option.filter_eq_some_iff.mp h
  obtain ⟨ha, hp⟩ := standing_some hstand
  exact ⟨⟨ha, hfence⟩, hp⟩

theorem latestJobPayload_none {j : Job} {u : SourceUnit} {r : Archive} (h : r.latestJobPayload T j u = none) :
    r.occurrences T j u = [] := List.argmax_eq_none.mp h

theorem latestJobPayload_some {j : Job} {u : SourceUnit} {r : Archive} {l : FetchLog}
    (h : r.latestJobPayload T j u = some l) : l ∈ r.occurrences T j u := List.argmax_mem h

theorem step_moves {ev : AcquisitionEvent} (h : s.step T w parserVersion ev = some t) :
    s.Moves T w parserVersion ev t := by
  cases ev with
  | world ev =>
    replace h : (if _ then _ else _) = some t := h
    split at h
    · next hok =>
      obtain ⟨world, hworld, rfl⟩ := Option.map_eq_some_iff.mp h
      exact .world hok hworld
    · cases h
  | fetched jobId key x =>
    replace h : (if _ then _ else _) = some t := h
    split at h
    · next hjob =>
      cases h
      refine .fetched fun id hid => ?_
      rw [hid] at hjob
      obtain ⟨j, hj, hfree⟩ := (Option.any_eq_true _ _).mp hjob
      exact ⟨j, hj, by simpa using hfree⟩
    · cases h
  | check worker =>
    obtain ⟨⟨a, p⟩, hstand, h⟩ := Option.bind_eq_some_iff.mp h
    obtain ⟨ha, hp⟩ := standing_some hstand
    dsimp only at h ha hp
    split at h
    · cases h
      split
      · next hfail => exact .acts ha hp (.failed hfail)
      · next hfail => exact .acts ha hp (.checked hfail)
    · cases h
  | select worker remaining =>
    obtain ⟨⟨a, p⟩, hstand, h⟩ := Option.bind_eq_some_iff.mp h
    obtain ⟨ha, hp⟩ := standing_some hstand
    dsimp only at h ha hp
    split at h
    · cases h
      split
      · exact .acts ha hp .through
      · exact .acts ha hp .through
      · next hunit => exact .acts ha hp (.selected hunit)
    · cases h
  | look worker =>
    obtain ⟨⟨a, p⟩, hstand, h⟩ := Option.bind_eq_some_iff.mp h
    obtain ⟨ha, hp⟩ := standing_some hstand
    dsimp only at h ha hp
    split at h
    · next u =>
      cases h
      split
      · next raw fetch hfound =>
        obtain ⟨l, hl, hraw⟩ := Option.bind_eq_some_iff.mp hfound
        obtain ⟨_, hbody, heq⟩ := Option.map_eq_some_iff.mp hraw
        cases heq
        exact .acts ha hp (.found hl hbody)
      · next hnone =>
        refine .acts ha hp (.missing ?_)
        cases hl : s.archive.latestJobPayload T a.job u with
        | none => exact latestJobPayload_none hl
        | some l =>
          -- an occurrence names its body
          obtain ⟨_, _, _, b, _, hraw, _⟩ := Archive.mem_occurrences.mp (latestJobPayload_some hl)
          rw [hl, Option.bind_some, hraw] at hnone
          cases hnone
    · cases h
  | request worker x =>
    obtain ⟨⟨a, p⟩, hstand, h⟩ := Option.bind_eq_some_iff.mp h
    obtain ⟨howns, hp⟩ := fenced_some hstand
    dsimp only at h howns hp
    split at h
    · cases h
      exact .acts howns.attempt hp (.requested howns)
    · cases h
  | persist worker =>
    obtain ⟨⟨a, p⟩, hstand, h⟩ := Option.bind_eq_some_iff.mp h
    obtain ⟨howns, hp⟩ := fenced_some hstand
    dsimp only at h howns hp
    split at h
    · cases h
      split
      · next raw hraw => exact .acts howns.attempt hp (.stored howns hraw)
      · next hraw => exact .acts howns.attempt hp (.refused howns hraw)
    · cases h
  | enqueue worker maxGames now =>
    obtain ⟨⟨a, p⟩, hstand, h⟩ := Option.bind_eq_some_iff.mp h
    obtain ⟨howns, hp⟩ := fenced_some hstand
    dsimp only at h howns hp
    split at h
    · split at h
      · next hworld =>
        cases h
        exact .acts howns.attempt hp (.queued howns hworld)
      · cases h
        exact .acts howns.attempt hp (.full howns)
    · cases h
  | checkpoint worker =>
    obtain ⟨⟨a, p⟩, hstand, h⟩ := Option.bind_eq_some_iff.mp h
    obtain ⟨howns, hp⟩ := fenced_some hstand
    dsimp only at h howns hp
    split at h
    · obtain ⟨world, hworld, rfl⟩ := Option.map_eq_some_iff.mp h
      exact .acts howns.attempt hp (.advanced howns hworld)
    · cases h

end Steps

/-! ## What an owner knows -/

/-- The parameters of the job call for the unit. -/
def Job.Calls (j : Job) (u : SourceUnit) : Prop := ∃ remaining, j.nextUnit remaining = .ok (.unit u)

/-- The children of a job are through. -/
def Db.Quiet (db : Db) (id : Nat) : Prop := ∀ c ∈ db.jobs, c.childOf id = true → c.state.terminal = true

/-- The children of a job succeeded. -/
def Db.Clean (db : Db) (id : Nat) : Prop := ∀ c ∈ db.jobs, c.childOf id = true → c.state = .done

/-- The row of a job has the parameters that its owner claimed. -/
def Db.Unmoved (db : Db) (j : Job) : Prop := ∀ row ∈ db.jobs, row.id = j.id → row.params = j.params

/-- The source of a unit is preserved. -/
def Archive.Retains (T : Text) (r : Archive) (j : Job) (u : SourceUnit) (raw fetch : Nat) : Prop :=
  ∃ l ∈ r.occurrences T j u, l.id = fetch ∧ l.rawPayloadId = some raw

/-- The child of an occurrence is in the table. -/
def Db.Enqueued (T : Text) (db : Db) (j : Job) (raw fetch : Nat) (parserVersion : String) : Prop :=
  ∃ c ∈ db.jobs, c.Normalizes T j raw (some fetch) parserVersion

/-- What holds for the owner of a bounded parent at a point. -/
def Point.Holds (T : Text) (parserVersion : String) (db : Db) (r : Archive) (j : Job) : Point → Prop
  | .claimed => db.Unmoved j ∧ db.Quiet j.id
  | .selecting => db.Unmoved j ∧ db.Clean j.id
  | .looking u => db.Unmoved j ∧ db.Clean j.id ∧ j.Calls u
  | .requesting u | .received u _ => db.Unmoved j ∧ db.Clean j.id ∧ j.Calls u ∧ r.occurrences T j u = []
  | .queueing u raw fetch => db.Unmoved j ∧ db.Quiet j.id ∧ j.Calls u ∧ r.Retains T j u raw fetch
  | .advancing u raw fetch => db.Unmoved j ∧ j.Calls u ∧ r.Retains T j u raw fetch ∧ db.Enqueued T j raw fetch parserVersion
  | .finishing .. => True

/-- What a step leaves to the owner of a job. -/
structure Job.Left (T : Text) (db : Db) (r : Archive) (db' : Db) (r' : Archive) (j : Job) : Prop where
  rows : ∀ c ∈ db.jobs, ∃ c' ∈ db'.jobs, c.Same c'
  held : ∃ row ∈ db.jobs, j.Same row
  children : ∀ c' ∈ db'.jobs, c'.childOf j.id = true → ∃ c ∈ db.jobs, c.Same c' ∧
    (c.state.terminal = true → c'.state = c.state)
  params : ∀ row ∈ db.jobs, ∀ row' ∈ db'.jobs, row'.id = row.id → row.id = j.id → row'.params = row.params
  occurrences : ∀ u, r'.occurrences T j u = r.occurrences T j u

section Left
variable {T : Text} {parserVersion : String} {db db' : Db} {r r' : Archive} {j : Job}

theorem Job.Left.unmoved (h : j.Left T db r db' r') (hj : db.Unmoved j) (hids : db'.Ids) : db'.Unmoved j := by
  intro row' hrow' hid
  obtain ⟨row, hrow, hsame⟩ := h.held
  obtain ⟨row'', hrow'', hsame'⟩ := h.rows row hrow
  have heq : row' = row'' := hids.unique hrow' hrow'' (by rw [hid, hsame'.id, hsame.id])
  rw [h.params row hrow row' hrow' (by rw [heq, hsame'.id]) hsame.id, hj row hrow hsame.id]

theorem Job.Left.quiet (h : j.Left T db r db' r') (hj : db.Quiet j.id) : db'.Quiet j.id := by
  intro c' hc' hchild
  obtain ⟨c, hc, hsame, hstate⟩ := h.children c' hc' hchild
  have hterm := hj c hc (by rw [← hsame.childOf]; exact hchild)
  rw [hstate hterm]
  exact hterm

theorem Job.Left.clean (h : j.Left T db r db' r') (hj : db.Clean j.id) : db'.Clean j.id := by
  intro c' hc' hchild
  obtain ⟨c, hc, hsame, hstate⟩ := h.children c' hc' hchild
  have hdone := hj c hc (by rw [← hsame.childOf]; exact hchild)
  rw [hstate (by rw [hdone]; rfl), hdone]

theorem Job.Normalizes.same {c c' : Job} {raw : Nat} {fetch : Option Nat} (h : c.Normalizes T j raw fetch parserVersion)
    (hsame : c.Same c') : c'.Normalizes T j raw fetch parserVersion :=
  ⟨hsame.kind.trans h.kind, hsame.parentJobId.trans h.child, hsame.target.trans h.target, hsame.dedupKey.trans h.key⟩

theorem Job.Left.enqueued (h : j.Left T db r db' r') {raw fetch : Nat} (hj : db.Enqueued T j raw fetch parserVersion) :
    db'.Enqueued T j raw fetch parserVersion := by
  obtain ⟨c, hc, hnorm⟩ := hj
  obtain ⟨c', hc', hsame⟩ := h.rows c hc
  exact ⟨c', hc', hnorm.same hsame⟩

theorem Job.Left.retains (h : j.Left T db r db' r') {u : SourceUnit} {raw fetch : Nat} (hj : r.Retains T j u raw fetch) :
    r'.Retains T j u raw fetch := by
  unfold Archive.Retains at hj ⊢
  rw [h.occurrences]
  exact hj

theorem Job.Left.holds (h : j.Left T db r db' r') (hids : db'.Ids) {p : Point} (hp : p.Holds T parserVersion db r j) :
    p.Holds T parserVersion db' r' j := by
  cases p with
  | claimed => exact ⟨h.unmoved hp.1 hids, h.quiet hp.2⟩
  | selecting => exact ⟨h.unmoved hp.1 hids, h.clean hp.2⟩
  | looking u => exact ⟨h.unmoved hp.1 hids, h.clean hp.2.1, hp.2.2⟩
  | requesting u => exact ⟨h.unmoved hp.1 hids, h.clean hp.2.1, hp.2.2.1, (h.occurrences u).trans hp.2.2.2⟩
  | received u => exact ⟨h.unmoved hp.1 hids, h.clean hp.2.1, hp.2.2.1, (h.occurrences u).trans hp.2.2.2⟩
  | queueing => exact ⟨h.unmoved hp.1 hids, h.quiet hp.2.1, hp.2.2.1, h.retains hp.2.2.2⟩
  | advancing => exact ⟨h.unmoved hp.1 hids, hp.2.1, h.retains hp.2.2.1, h.enqueued hp.2.2.2⟩
  | finishing => trivial

end Left

/-! ## What a step leaves -/

/-- The worker whose attempt enqueues a normalization or moves a cursor. -/
def Event.writer : Event → Option Nat
  | .capture worker .. | .checkpoint worker .. => some worker
  | _ => none

section StepLeft
variable {T : Text} {w : WorkerSettings} {s t : World} {ev : Event}

theorem step_left (hs : s.Sound) (hev : ev.LeavesNormalization T) (h : s.step T w ev = some t) {j : Job}
    (hheld : ∃ row ∈ s.db.jobs, j.Same row)
    (hother : ∀ worker a, ev.writer = some worker → s.Owns worker a → a.job.id ≠ j.id) (r : Archive) :
    j.Left T s.db r t.db r := by
  have hwrites := step_writes hs h
  refine ⟨fun c hc => ?_, hheld, fun c' hc' hchild => ?_, fun row hrow row' hrow' hid hj => ?_, fun _ => rfl⟩
  · obtain ⟨c', hc', hsame, _⟩ := hwrites.row hc
    exact ⟨c', hc', hsame⟩
  · rcases hwrites.back c' hc' with hold | ⟨db₁, e, id, owner, hasked, hsame⟩
    · exact hold
    · -- a new child is the one that an owner of the job enqueues
      rw [hsame.childOf] at hchild
      unfold Job.childOf at hchild
      simp only [Bool.and_eq_true, decide_eq_true_eq] at hchild
      have hkind : e.kind = .normalizePayload := hchild.2
      obtain ⟨worker, a, raw, log, maxGames, parser, now, rfl, howns, rfl⟩ := asked_normalization hasked hev hkind
      exact (hother worker a rfl howns (Option.some.inj hchild.1)).elim
  · rcases step_params hs.ids h hrow hrow' hid with hkeep | ⟨worker, key, value, a, rfl, howns, hjob, _⟩
    · exact hkeep
    · exact (hother worker a rfl howns (hjob.trans hj)).elim

/-- Two owners of one job are one. -/
theorem owners_token (hs : s.Sound) {m n : Nat} {a b : Attempt} (ha : s.Owns m a) (hb : s.Owns n b)
    (hjob : a.job.id = b.job.id) : a.token = b.token := by
  obtain ⟨row, hrow, hsame⟩ := hs.held m a ha.attempt
  have htoken := (ha.inProgress hs.ids hrow hsame.id).2
  have htoken' := (hb.inProgress hs.ids hrow (hsame.id.trans hjob)).2
  exact Option.some.inj (htoken.symm.trans htoken')

/-- Attempts of one job agree on what is bounded. -/
theorem held_bounded (hs : s.Sound) {m : Nat} {a : Attempt} (ha : s.attempts m = some a) {j row : Job}
    (hrow : row ∈ s.db.jobs) (hj : j.Same row) (hid : a.job.id = j.id) : a.job.boundedParent = j.boundedParent := by
  obtain ⟨row', hrow', hsame⟩ := hs.held m a ha
  have heq : row' = row := hs.ids.unique hrow' hrow (by rw [hsame.id, hj.id, hid])
  rw [← hsame.boundedParent, heq, hj.boundedParent]

end StepLeft
end ChessCrawl.Jobs
