import ChessCrawl.Jobs.Attempts

/-! One outstanding source. The owner of a bounded parent carries what it has found: its children were through when
it claimed, none has failed, and the unit that it asks the provider for was never answered. -/
namespace ChessCrawl.Jobs
open ChessCrawl.Lib
set_option autoImplicit false

/-! ## Every reachable state -/

/-- The tables, the tokens and the owners of bounded parents. -/
structure Acquiring.Sound (T : Text) (w : WorkerSettings) (parserVersion : String) (s : Acquiring) : Prop where
  reach : Reach (workers T w) (fun _ ev => ev.LeavesNormalization T) s.world
  archive : s.archive.Sound
  logged : ∀ l ∈ s.archive.logs, ∀ id, l.jobId = some id → ∃ j ∈ s.world.db.jobs, j.id = id
  issued : ∀ worker a, s.world.attempts worker = some a → a.token ∈ s.tokens
  distinct : ∀ m n a b, s.world.attempts m = some a → s.world.attempts n = some b → a.token = b.token → m = n
  bounded : ∀ worker a p, s.world.attempts worker = some a → s.points worker = some p → a.job.boundedParent = true
  holds : ∀ worker a p, s.world.Owns worker a → s.points worker = some p →
    p.Holds T parserVersion s.world.db s.archive a.job
  single : ∀ parent ∈ s.world.db.jobs, parent.boundedParent = true → ∀ c ∈ s.world.db.jobs, ∀ d ∈ s.world.db.jobs,
    c.childOf parent.id = true → d.childOf parent.id = true → c.state.live = true → d.state.live = true → c = d
  once : ∀ parent ∈ s.world.db.jobs, parent.boundedParent = true → ∀ u, (s.archive.occurrences T parent u).length ≤ 1

section Sound
variable {T : Text} {w : WorkerSettings} {parserVersion : String} {s t : Acquiring}

@[simp] theorem setPoint_world (s : Acquiring) (worker : Nat) (p : Option Point) :
    (s.setPoint worker p).world = s.world := rfl

@[simp] theorem setPoint_archive (s : Acquiring) (worker : Nat) (p : Option Point) :
    (s.setPoint worker p).archive = s.archive := rfl

@[simp] theorem setPoint_tokens (s : Acquiring) (worker : Nat) (p : Option Point) :
    (s.setPoint worker p).tokens = s.tokens := rfl

theorem setPoint_points (s : Acquiring) (worker : Nat) (p : Option Point) (n : Nat) :
    (s.setPoint worker p).points n = if n = worker then p else s.points n := rfl

@[simp] theorem resume_world (s : Acquiring) (ev : Event) : (s.resume ev).world = s.world := by
  cases ev <;> rfl

@[simp] theorem resume_archive (s : Acquiring) (ev : Event) : (s.resume ev).archive = s.archive := by
  cases ev <;> rfl

/-- A permitted event leaves normalizations to attempts. -/
theorem permits_leaves {ev : Event} (h : s.permits T ev = true) : ev.LeavesNormalization T := by
  cases ev with
  | enqueue e =>
    unfold Acquiring.permits at h
    simp only [ne_eq, decide_not, Bool.and_eq_true, Bool.not_eq_true', decide_eq_false_iff_not] at h
    exact h
  | _ => trivial

/-- The attempts that other code writes for are not of bounded parents. -/
theorem permits_writer {ev : Event} (h : s.permits T ev = true) {worker : Nat} (hw : ev.writer = some worker)
    {a : Attempt} (ha : s.world.attempts worker = some a) : a.job.boundedParent = false := by
  cases ev with
  | capture worker' =>
    cases hw
    simpa [Acquiring.permits, ha] using h
  | checkpoint worker' =>
    cases hw
    simpa [Acquiring.permits, ha] using h
  | _ => cases hw

theorem Acquiring.Acts.world {worker : Nat} {a : Attempt} {p q : Point} {ev : AcquisitionEvent}
    (h : s.Acts T w parserVersion worker a p ev q t) : t.world = s.world ∨ ∃ e : Event, e.LeavesNormalization T ∧
      e.isClaim = false ∧ e.writer = some worker ∧ s.world.Owns worker a ∧ s.world.step T w e = some t.world ∧
      t.archive = s.archive := by
  cases h with
  | queued howns hstep =>
    refine .inr ⟨_, ?_, rfl, rfl, howns, hstep, rfl⟩
    trivial
  | advanced howns hstep =>
    refine .inr ⟨_, ?_, rfl, rfl, howns, hstep, rfl⟩
    trivial
  | _ => exact .inl rfl

theorem Acquiring.Acts.archive {worker : Nat} {a : Attempt} {p q : Point} {ev : AcquisitionEvent}
    (h : s.Acts T w parserVersion worker a p ev q t) : t.archive = s.archive ∨ ∃ u x, s.world.Owns worker a ∧
      p = .received u x ∧ t.world = s.world ∧
      t.archive = (s.archive.persistResponse (some a.job.id) (u.key T a.job) x).2 := by
  cases h with
  | stored howns _ => exact .inr ⟨_, _, howns, rfl, rfl, rfl⟩
  | refused howns _ => exact .inr ⟨_, _, howns, rfl, rfl, rfl⟩
  | _ => exact .inl rfl

theorem Acquiring.Acts.tokens {worker : Nat} {a : Attempt} {p q : Point} {ev : AcquisitionEvent}
    (h : s.Acts T w parserVersion worker a p ev q t) : t.tokens = s.tokens ∧ t.points = s.points := by
  cases h <;> exact ⟨rfl, rfl⟩

/-- The job table moves by events of the workers. -/
theorem Acquiring.Moves.event {ev : AcquisitionEvent} (h : s.Moves T w parserVersion ev t) :
    t.world = s.world ∨ ∃ e : Event, e.LeavesNormalization T ∧ s.world.step T w e = some t.world := by
  cases h with
  | world hok hstep => exact .inr ⟨_, permits_leaves hok, by rw [resume_world]; exact hstep⟩
  | fetched => exact .inl rfl
  | acts _ _ hacts =>
    rw [setPoint_world]
    rcases hacts.world with heq | ⟨e, hleaves, _, _, _, hstep, _⟩
    · exact .inl heq
    · exact .inr ⟨e, hleaves, hstep⟩

theorem Acquiring.Moves.extends {ev : AcquisitionEvent} (h : s.Moves T w parserVersion ev t) :
    s.archive.Extends t.archive := by
  have hrefl : s.archive.Extends s.archive := ⟨List.prefix_refl _, List.prefix_refl _, Nat.le_refl _⟩
  cases h with
  | world =>
    rw [resume_archive]
    exact hrefl
  | fetched => exact persistResponse_extends _ _ _
  | acts _ _ hacts =>
    rw [setPoint_archive]
    rcases hacts.archive with heq | ⟨u, x, _, _, _, heq⟩
    · rw [heq]
      exact hrefl
    · rw [heq]
      exact persistResponse_extends _ _ _

/-- Rows stay. -/
theorem Acquiring.Moves.rows {ev : AcquisitionEvent} (h : s.Moves T w parserVersion ev t) (hs : s.world.Sound) {j : Job}
    (hj : j ∈ s.world.db.jobs) : ∃ j' ∈ t.world.db.jobs, j.Same j' ∧ (j.state.terminal = true → j'.state = j.state) := by
  rcases h.event with heq | ⟨e, _, hstep⟩
  · rw [heq]
    exact ⟨j, hj, .refl j, fun _ => rfl⟩
  · obtain ⟨j', hj', hsame, _, hstate⟩ := (step_writes hs hstep).row hj
    exact ⟨j', hj', hsame, hstate⟩

/-- The worker whose attempt acts. -/
def AcquisitionEvent.actor : AcquisitionEvent → Option Nat
  | .world _ | .fetched .. => none
  | .check worker | .select worker _ | .look worker | .request worker _ | .persist worker | .enqueue worker _ _
  | .checkpoint worker => some worker

theorem Acquiring.Acts.actor {worker : Nat} {a : Attempt} {p q : Point} {ev : AcquisitionEvent}
    (h : s.Acts T w parserVersion worker a p ev q t) : ev.actor = some worker := by
  cases h <;> rfl

/-- The claim of a job by a worker, with a new token. -/
structure Acquiring.Claims (s : Acquiring) (ev : AcquisitionEvent) (worker : Nat) (a : Attempt) (t : Acquiring) : Prop where
  event : ∃ jobId now maxActiveJobs, ev = .world (.claim worker jobId now maxActiveJobs a.token) ∧
    s.world.db.claim jobId now maxActiveJobs (some a.token) = some (a.job, t.world.db)
  fresh : a.token ∉ s.tokens
  idle : s.world.attempts worker = none
  tokens : t.tokens = a.token :: s.tokens
  points : t.points worker = if a.job.boundedParent then some .claimed else none

theorem claims_of_step {worker jobId maxActiveJobs : Nat} {now : Int} {a : Attempt} {world : World}
    (hok : s.permits T (.claim worker jobId now maxActiveJobs a.token) = true)
    (hstep : s.world.step T w (.claim worker jobId now maxActiveJobs a.token) = some world)
    (hclaim : s.world.db.claim jobId now maxActiveJobs (some a.token) = some (a.job, world.db))
    (ha : world.attempts worker = some a) :
    s.Claims (.world (.claim worker jobId now maxActiveJobs a.token)) worker a
      ({ s with world := world }.resume (.claim worker jobId now maxActiveJobs a.token)) := by
  refine ⟨⟨jobId, now, maxActiveJobs, rfl, hclaim⟩, by simpa [Acquiring.permits] using hok, ?_, rfl, ?_⟩
  · replace hstep : (if _ then _ else _) = some world := hstep
    split at hstep
    · next hidle => exact Option.isNone_iff_eq_none.mp hidle.1
    · cases hstep
  · show (if worker = worker then (world.attempts worker).bind _ else s.points worker) = _
    rw [if_pos rfl, ha]
    rfl

/-- Where an attempt comes from. -/
theorem Acquiring.Moves.attempts {ev : AcquisitionEvent} (h : s.Moves T w parserVersion ev t) {worker : Nat} {a : Attempt}
    (ha : t.world.attempts worker = some a) :
    (∃ b, s.world.attempts worker = some b ∧ a.job = b.job ∧ a.token = b.token ∧
      (t.points worker = s.points worker ∧ ev.actor ≠ some worker ∨ ∃ p q u, s.points worker = some p ∧ t = u.setPoint worker (some q) ∧
        s.Acts T w parserVersion worker b p ev q u)) ∨ s.Claims ev worker a t := by
  cases h with
  | world hok hstep =>
    rw [resume_world] at ha
    rcases step_attempts hstep ha with ⟨b, hb, hcont⟩ | ⟨jobId, now, maxActiveJobs, rfl, hclaim, _⟩
    · refine .inl ⟨b, hb, hcont.job, hcont.token, .inl ⟨?_, nofun⟩⟩
      rename_i e world
      cases e with
      | claim worker' jobId now maxActiveJobs token =>
        refine if_neg fun heq => ?_
        replace hstep : (if _ then _ else _) = some world := hstep
        split at hstep
        · next hidle =>
          rw [← heq, hb] at hidle
          cases hidle.1
        · cases hstep
      | release worker' =>
        refine if_neg fun heq => ?_
        cases hstep
        rw [heq] at ha
        simp [World.setAttempt] at ha
      | _ => rfl
    · exact .inr (claims_of_step hok hstep hclaim ha)
  | fetched => exact .inl ⟨a, ha, rfl, rfl, .inl ⟨rfl, nofun⟩⟩
  | @acts _ worker' b p q u hb hp hacts =>
    rw [setPoint_world] at ha
    have hback : ∃ b', s.world.attempts worker = some b' ∧ a.job = b'.job ∧ a.token = b'.token := by
      rcases hacts.world with heq | ⟨e, _, hclaim, _, _, hstep, _⟩
      · rw [heq] at ha
        exact ⟨a, ha, rfl, rfl⟩
      · rcases step_attempts hstep ha with ⟨b', hb', hcont⟩ | ⟨_, _, _, rfl, _⟩
        · exact ⟨b', hb', hcont.job, hcont.token⟩
        · cases hclaim
    obtain ⟨b', hb', hjob, htoken⟩ := hback
    refine .inl ⟨b', hb', hjob, htoken, ?_⟩
    by_cases hn : worker = worker'
    · subst hn
      cases Option.some.inj (hb.symm.trans hb')
      exact .inr ⟨p, q, u, hp, rfl, hacts⟩
    · refine .inl ⟨?_, fun hactor => hn (Option.some.inj (hactor.symm.trans hacts.actor))⟩
      rw [setPoint_points, if_neg hn, hacts.tokens.2]

theorem Acquiring.Moves.tokens {ev : AcquisitionEvent} (h : s.Moves T w parserVersion ev t) : s.tokens ⊆ t.tokens := by
  cases h with
  | @world e =>
    cases e with
    | claim => exact List.subset_cons_self _ _
    | _ => exact List.Subset.refl _
  | fetched => exact List.Subset.refl _
  | acts _ _ hacts =>
    rw [setPoint_tokens, hacts.tokens.1]
    exact List.Subset.refl _

theorem Acquiring.Sound.world (hs : s.Sound T w parserVersion) : s.world.Sound := reach_sound hs.reach

/-- An owner owned its job before a step, or has claimed it. -/
theorem Acquiring.Moves.owns {ev : AcquisitionEvent} (h : s.Moves T w parserVersion ev t)
    (hs : s.Sound T w parserVersion) {worker : Nat} {a : Attempt} (howns : t.world.Owns worker a)
    (hclaims : ¬ s.Claims ev worker a t) : ∃ b, s.world.Owns worker b ∧ a.job = b.job ∧ a.token = b.token := by
  have hids := hs.world.ids
  rcases h.attempts howns.attempt with ⟨b, hb, hjob, htoken, _⟩ | hclaim
  · cases h with
    | world hok hstep =>
      rw [resume_world] at howns
      refine (step_owns hids hstep ?_ howns).resolve_right ?_
      · rintro n b' hb' worker' jobId now maxActiveJobs rfl
        have hfresh : b'.token ∉ s.tokens := by simpa [Acquiring.permits] using hok
        exact hfresh (hs.issued n b' hb')
      · rintro ⟨jobId, now, maxActiveJobs, rfl, hclaim⟩
        exact hclaims (claims_of_step hok hstep hclaim howns.attempt)
    | fetched => exact ⟨a, howns, rfl, rfl⟩
    | acts _ _ hacts =>
      rw [setPoint_world] at howns
      rcases hacts.world with heq | ⟨e, _, hclaim, _, _, hstep, _⟩
      · rw [heq] at howns
        exact ⟨a, howns, rfl, rfl⟩
      · refine (step_owns hids hstep ?_ howns).resolve_right ?_
        · rintro _ _ _ _ _ _ _ rfl
          cases hclaim
        · rintro ⟨_, _, _, rfl, _⟩
          cases hclaim
  · exact (hclaims hclaim).elim

/-! ## Preservation -/

theorem left_archive {db : Db} {r r' : Archive} {j : Job} (hheld : ∃ row ∈ db.jobs, j.Same row) (hids : db.Ids)
    (hocc : ∀ u, r'.occurrences T j u = r.occurrences T j u) : j.Left T db r db r' where
  rows c hc := ⟨c, hc, .refl c⟩
  held := hheld
  children c hc _ := ⟨c, hc, .refl c, fun _ => rfl⟩
  params row hrow row' hrow' hid _ := by rw [hids.unique hrow' hrow hid]
  occurrences := hocc

/-- A bounded parent is left alone by everybody who does not act for it. -/
theorem Acquiring.Moves.left {ev : AcquisitionEvent} (h : s.Moves T w parserVersion ev t)
    (hs : s.Sound T w parserVersion) {j : Job} (hheld : ∃ row ∈ s.world.db.jobs, j.Same row)
    (hj : j.boundedParent = true)
    (hother : ∀ worker a, s.world.Owns worker a → ev.actor = some worker → a.job.id ≠ j.id) :
    j.Left T s.world.db s.archive t.world.db t.archive := by
  have hsound := hs.world
  obtain ⟨row, hrow, hsame⟩ := hheld
  cases h with
  | world hok hstep =>
    rw [resume_world, resume_archive]
    refine step_left hsound (permits_leaves hok) hstep ⟨row, hrow, hsame⟩ ?_ s.archive
    intro worker a hw howns hid
    have hfree := permits_writer hok hw howns.attempt
    rw [held_bounded hsound howns.attempt hrow hsame hid, hj] at hfree
    cases hfree
  | @fetched jobId key x hfree =>
    refine left_archive ⟨row, hrow, hsame⟩ hsound.ids fun u => persistResponse_other hs.archive ?_ u
    intro hjob
    obtain ⟨j', hj', hfree'⟩ := hfree j.id hjob
    rw [← hsame.id, hsound.ids.job hrow] at hj'
    cases hj'
    rw [hsame.boundedParent, hj] at hfree'
    cases hfree'
  | acts _ _ hacts =>
    rw [setPoint_world, setPoint_archive]
    rcases hacts.world with heq | ⟨e, hleaves, _, hw, howns, hstep, harchive⟩
    · rcases hacts.archive with harchive | ⟨u, x, howns, _, _, harchive⟩
      · rw [heq, harchive]
        exact left_archive ⟨row, hrow, hsame⟩ hsound.ids fun _ => rfl
      · rw [heq, harchive]
        refine left_archive ⟨row, hrow, hsame⟩ hsound.ids fun v => persistResponse_other hs.archive ?_ v
        exact fun hid => hother _ _ howns hacts.actor (Option.some.inj hid)
    · rw [harchive]
      refine step_left hsound hleaves hstep ⟨row, hrow, hsame⟩ ?_ s.archive
      intro worker' a' hw' howns'
      cases Option.some.inj (hw.symm.trans hw')
      cases Option.some.inj (howns.attempt.symm.trans howns'.attempt)
      exact hother _ _ howns hacts.actor

/-- A failed child is found. -/
theorem processingFailure_clean {db : Db} {id : Nat} (hquiet : db.Quiet id) (h : db.processingFailure id = none) :
    db.Clean id := by
  intro c hc hchild
  have hterm := hquiet c hc hchild
  have hmiss := List.find?_eq_none.mp (Option.map_eq_none_iff.mp h) c hc
  unfold Job.childOf at hchild
  simp only [Bool.and_eq_true, decide_eq_true_eq] at hchild
  cases hstate : c.state <;> simp_all [JobState.terminal, JobState.live]

/-- What an owner knows after its own step. -/
theorem Acquiring.Acts.holds {worker : Nat} {a : Attempt} {p q : Point} {ev : AcquisitionEvent}
    (h : s.Acts T w parserVersion worker a p ev q t) (hs : s.Sound T w parserVersion)
    (howns : s.world.Owns worker a) (hp : p.Holds T parserVersion s.world.db s.archive a.job) :
    q.Holds T parserVersion t.world.db t.archive a.job := by
  cases h with
  | failed => trivial
  | checked hnone => exact ⟨hp.1, processingFailure_clean hp.2 hnone⟩
  | selected hunit => exact ⟨hp.1, hp.2, _, hunit⟩
  | through => trivial
  | found hl hraw =>
    have hquiet : s.world.db.Quiet a.job.id := by
      intro c hc hchild
      rw [hp.2.1 c hc hchild]
      rfl
    exact ⟨hp.1, hquiet, hp.2.2, _, latestJobPayload_some hl, rfl, hraw⟩
  | missing hnone => exact ⟨hp.1, hp.2.1, hp.2.2, hnone⟩
  | requested => exact hp
  | @stored u x raw _ hraw =>
    have hquiet : s.world.db.Quiet a.job.id := by
      intro c hc hchild
      rw [hp.2.1 c hc hchild]
      rfl
    refine ⟨hp.1, hquiet, hp.2.2.1, x.answer s.archive.logSeq (some a.job.id) raw, ?_, ?_, rfl⟩
    · rw [persistResponse_own hs.archive, hraw]
      exact List.mem_append_right _ (by simp [SourceUnit.accepts_self])
    · obtain ⟨_, _, _, heq⟩ := persistResponse_stored s.archive (some a.job.id) (u.key T a.job) x
      rw [heq]
      rfl
  | refused => trivial
  | @queued u raw fetch maxGames now world _ hstep =>
    have hsound := hs.world
    have hunmoved : world.db.Unmoved a.job := by
      intro row' hrow' hid
      obtain ⟨row, hrow, hsame⟩ := hsound.held worker a howns.attempt
      rcases step_params hsound.ids hstep hrow hrow' (hid.trans hsame.id.symm) with hkeep | ⟨_, _, _, _, hev, _⟩
      · exact hkeep.trans (hp.1 row hrow hsame.id)
      · cases hev
    exact ⟨hunmoved, hp.2.2.1, hp.2.2.2, capture_enqueued hs.reach howns hstep⟩
  | full => trivial
  | advanced => trivial

theorem claims_holds {ev : AcquisitionEvent} {worker : Nat} {a : Attempt} (hs : s.Sound T w parserVersion)
    (h : s.Claims ev worker a t) (hbounded : a.job.boundedParent = true) :
    t.world.db.Unmoved a.job ∧ t.world.db.Quiet a.job.id := by
  obtain ⟨jobId, now, maxActiveJobs, _, hclaim⟩ := h.event
  obtain ⟨row, hrow, hid, hadm, hjob, hdb⟩ := claim_row hclaim
  have hids := hs.world.ids
  have hrowBounded : row.boundedParent = true := by
    rw [hjob] at hbounded
    exact hbounded
  have hquiet := admissible_quiet hadm hrowBounded
  rw [hdb]
  constructor
  · intro k hk hkid
    obtain ⟨k₀, hk₀, rfl⟩ := List.mem_map.mp hk
    rw [hjob] at hkid ⊢
    split at hkid
    · next hsel =>
      rw [if_pos hsel, hids.unique hk₀ hrow hkid]
    · next hsel =>
      rw [if_neg hsel, hids.unique hk₀ hrow hkid]
      rfl
  · intro c hc hchild
    obtain ⟨c₀, hc₀, rfl⟩ := List.mem_map.mp hc
    rw [hjob] at hchild
    split at hchild
    · next hsel =>
      -- the parent is no child
      have heq : c₀ = row := hids.unique hc₀ hrow (by simpa [hid] using hsel)
      rw [heq] at hchild
      unfold Job.boundedParent at hrowBounded
      simp only [Bool.and_eq_true, Bool.or_eq_true, decide_eq_true_eq] at hrowBounded
      unfold Job.childOf at hchild
      simp only [Bool.and_eq_true, decide_eq_true_eq] at hchild
      have hkind : row.kind = .normalizePayload := hchild.2
      rcases hrowBounded.1 with hother | hother
      · cases hkind.symm.trans hother
      · cases hkind.symm.trans hother
    · next hsel =>
      rw [if_neg hsel]
      exact hquiet c₀ hc₀ hchild

/-- An actor of the job of another owner is that owner. -/
theorem actor_other {ev : AcquisitionEvent} (hs : s.Sound T w parserVersion) {n : Nat} {b : Attempt} (hb : s.world.Owns n b) (hactor : ev.actor ≠ some n) (worker : Nat)
    (a : Attempt) (ha : s.world.Owns worker a) (hev : ev.actor = some worker) : a.job.id ≠ b.job.id := by
  intro hid
  have htoken := owners_token hs.world ha hb hid
  rw [hs.distinct worker n a b ha.attempt hb.attempt htoken] at hev
  exact hactor hev

section Preserve
variable {ev : AcquisitionEvent} (hs : s.Sound T w parserVersion) (h : s.Moves T w parserVersion ev t)
include hs h

theorem moves_reach : Reach (workers T w) (fun _ ev => ev.LeavesNormalization T) t.world := by
  rcases h.event with heq | ⟨e, hleaves, hstep⟩
  · rw [heq]
    exact hs.reach
  · exact .next hs.reach hleaves hstep

theorem moves_holds (worker : Nat) (a : Attempt) (p : Point) (howns : t.world.Owns worker a)
    (hp : t.points worker = some p) : p.Holds T parserVersion t.world.db t.archive a.job := by
  rcases h.attempts howns.attempt with ⟨b, hb, hjob, htoken, hpoint⟩ | hclaims
  · have hnone : ¬ s.Claims ev worker a t := fun hclaims => by
      rw [hclaims.idle] at hb
      cases hb
    obtain ⟨b', hownsb, _⟩ := h.owns hs howns hnone
    cases Option.some.inj (hb.symm.trans hownsb.attempt)
    rw [hjob]
    rcases hpoint with ⟨hsame, hactor⟩ | ⟨p₀, q, u, hp₀, rfl, hacts⟩
    · rw [hsame] at hp
      have hleft := h.left hs (hs.world.held worker b hb) (hs.bounded worker b p hb hp)
        (actor_other hs hownsb hactor)
      exact hleft.holds (reach_sound (moves_reach hs h)).ids (hs.holds worker b p hownsb hp)
    · rw [setPoint_points, if_pos rfl] at hp
      cases hp
      exact hacts.holds hs hownsb (hs.holds worker b p₀ hownsb hp₀)
  · rw [hclaims.points] at hp
    split at hp
    · next hbounded =>
      cases hp
      exact claims_holds hs hclaims hbounded
    · cases hp

theorem moves_issued (worker : Nat) (a : Attempt) (ha : t.world.attempts worker = some a) : a.token ∈ t.tokens := by
  rcases h.attempts ha with ⟨b, hb, _, htoken, _⟩ | hclaims
  · rw [htoken]
    exact h.tokens (hs.issued worker b hb)
  · rw [hclaims.tokens]
    exact List.mem_cons_self

theorem moves_distinct (m n : Nat) (a b : Attempt) (ha : t.world.attempts m = some a)
    (hb : t.world.attempts n = some b) (htoken : a.token = b.token) : m = n := by
  rcases h.attempts ha with ⟨a₀, ha₀, _, hta, _⟩ | hclaim
  · rcases h.attempts hb with ⟨b₀, hb₀, _, htb, _⟩ | hclaim'
    · exact hs.distinct m n a₀ b₀ ha₀ hb₀ (hta.symm.trans (htoken.trans htb))
    · have hold := hs.issued m a₀ ha₀
      rw [← hta, htoken] at hold
      exact (hclaim'.fresh hold).elim
  · rcases h.attempts hb with ⟨b₀, hb₀, _, htb, _⟩ | hclaim'
    · have hold := hs.issued n b₀ hb₀
      rw [← htb, ← htoken] at hold
      exact (hclaim.fresh hold).elim
    · obtain ⟨_, _, _, hev, _⟩ := hclaim.event
      obtain ⟨_, _, _, hev', _⟩ := hclaim'.event
      injection hev.symm.trans hev' with hclaim
      injection hclaim

theorem moves_bounded (worker : Nat) (a : Attempt) (p : Point) (ha : t.world.attempts worker = some a)
    (hp : t.points worker = some p) : a.job.boundedParent = true := by
  rcases h.attempts ha with ⟨b, hb, hjob, _, hpoint⟩ | hclaims
  · rw [hjob]
    rcases hpoint with ⟨hsame, _⟩ | ⟨p₀, _, _, hp₀, _⟩
    · exact hs.bounded worker b p hb (hsame.symm.trans hp)
    · exact hs.bounded worker b p₀ hb hp₀
  · rw [hclaims.points] at hp
    split at hp
    · next hbounded => exact hbounded
    · cases hp

theorem moves_archive : t.archive.Sound := by
  cases h with
  | world =>
    rw [resume_archive]
    exact hs.archive
  | fetched => exact persistResponse_sound hs.archive _ _ _
  | acts _ _ hacts =>
    rw [setPoint_archive]
    rcases hacts.archive with heq | ⟨u, x, _, _, _, heq⟩
    · rw [heq]
      exact hs.archive
    · rw [heq]
      exact persistResponse_sound hs.archive _ _ _

/-- A log names a job that was there before it. -/
theorem moves_named {l : FetchLog} (hl : l ∈ t.archive.logs) {id : Nat} (hid : l.jobId = some id) :
    ∃ j ∈ s.world.db.jobs, j.id = id := by
  -- the logs of a response name its job
  have hnew : ∀ jobId key x, l ∈ (s.archive.persistResponse jobId key x).2.logs →
      (∀ id, jobId = some id → ∃ j ∈ s.world.db.jobs, j.id = id) → ∃ j ∈ s.world.db.jobs, j.id = id := by
    intro jobId key x hl hjob
    obtain ⟨stored, _, _, heq⟩ := persistResponse_stored s.archive jobId key x
    rw [heq] at hl
    rcases List.mem_append.mp hl with hl | hl
    · exact hs.logged l hl id hid
    · exact hjob id ((Record.mem_logs hl).1.symm.trans hid)
  cases h with
  | world =>
    rw [resume_archive] at hl
    exact hs.logged l hl id hid
  | fetched hfree =>
    refine hnew _ _ _ hl fun id hid => ?_
    obtain ⟨j, hj, _⟩ := hfree id hid
    exact ⟨j, Db.job_mem hj⟩
  | acts ha _ hacts =>
    rw [setPoint_archive] at hl
    rcases hacts.archive with heq | ⟨u, x, _, _, _, heq⟩
    · rw [heq] at hl
      exact hs.logged l hl id hid
    · rw [heq] at hl
      refine hnew _ _ _ hl fun id hid => ?_
      obtain ⟨row, hrow, hsame⟩ := hs.world.held _ _ ha
      exact ⟨row, hrow, hsame.id.trans (Option.some.inj hid)⟩

theorem moves_logged : ∀ l ∈ t.archive.logs, ∀ id, l.jobId = some id → ∃ j ∈ t.world.db.jobs, j.id = id := by
  intro l hl id hid
  obtain ⟨j, hj, rfl⟩ := moves_named hs h hl hid
  obtain ⟨j', hj', hsame, _⟩ := h.rows hs.world hj
  exact ⟨j', hj', hsame.id⟩

/-- The row of a job that was there. -/
theorem moves_parent {parent' : Job} (hparent' : parent' ∈ t.world.db.jobs)
    (hid : ∃ j ∈ s.world.db.jobs, j.id = parent'.id) : ∃ parent ∈ s.world.db.jobs, parent.Same parent' := by
  obtain ⟨j, hj, hjid⟩ := hid
  obtain ⟨j', hj', hsame, _⟩ := h.rows hs.world hj
  have heq : j' = parent' := (reach_sound (moves_reach hs h)).ids.unique hj' hparent' (hsame.id.trans hjid)
  exact ⟨j, hj, heq ▸ hsame⟩

theorem moves_once (parent' : Job) (hparent' : parent' ∈ t.world.db.jobs) (hbounded' : parent'.boundedParent = true)
    (u : SourceUnit) : (t.archive.occurrences T parent' u).length ≤ 1 := by
  cases hocc : t.archive.occurrences T parent' u with
  | nil => exact Nat.zero_le _
  | cons l rest =>
  have hl := Archive.mem_occurrences.mp (hocc ▸ List.mem_cons_self)
  obtain ⟨parent, hparent, hsame⟩ := moves_parent hs h hparent' (moves_named hs h hl.1 hl.2.1)
  rw [← hocc, hsame.occurrences]
  have hbounded : parent.boundedParent = true := by rw [← hsame.boundedParent]; exact hbounded'
  have hbefore := hs.once parent hparent hbounded u
  by_cases hact : ∃ worker a, s.world.Owns worker a ∧ ev.actor = some worker ∧ a.job.id = parent.id
  · obtain ⟨worker, a, howns, hactor, hid⟩ := hact
    cases h with
    | world => cases hactor
    | fetched => cases hactor
    | acts ha hp hacts =>
      rw [setPoint_archive]
      rcases hacts.archive with heq | ⟨v, x, howns', rfl, _, heq⟩
      · rw [heq]
        exact hbefore
      -- the response is the first of its unit
      cases Option.some.inj (hacts.actor.symm.trans hactor)
      cases Option.some.inj (howns.attempt.symm.trans ha)
      obtain ⟨row, hrow, hrowSame⟩ := hs.world.held worker a ha
      have hrowEq : row = parent := hs.world.ids.unique hrow hparent (hrowSame.id.trans hid)
      subst hrowEq
      have hnone := (hs.holds worker a _ howns hp).2.2.2
      rw [hrowSame.occurrences] at hbefore ⊢
      rw [heq, persistResponse_own hs.archive]
      split
      · split
        · next haccepts =>
          rw [SourceUnit.accepts_key haccepts, hnone]
          exact Nat.le_refl _
        · rw [List.append_nil]
          exact hbefore
      · rw [List.append_nil]
        exact hbefore
  · have hleft := h.left hs ⟨parent, hparent, .refl parent⟩ hbounded
      fun worker a howns hactor hid => hact ⟨worker, a, howns, hactor, hid⟩
    rw [hleft.occurrences]
    exact hbefore

/-- A child is an old one, or the one that the owner of a bounded parent enqueues when all others are through. -/
theorem moves_child {parent' c' : Job} (hparent' : parent' ∈ t.world.db.jobs) (hbounded' : parent'.boundedParent = true)
    (hc' : c' ∈ t.world.db.jobs) (hchild : c'.childOf parent'.id = true) :
    (∃ c ∈ s.world.db.jobs, c.Same c' ∧ (c.state.terminal = true → c'.state = c.state)) ∨
    ∃ worker a u raw fetch, ev.actor = some worker ∧ s.world.attempts worker = some a ∧
      s.points worker = some (.queueing u raw fetch) ∧ s.world.db.Quiet parent'.id ∧
      c'.dedupKey = normalizationKey T a.job raw (some fetch) parserVersion := by
  have hsound := hs.world
  have hall := h
  cases h with
  | @world e world hok hstep =>
    rw [resume_world] at hc'
    rcases (step_writes hsound hstep).back c' hc' with hold | ⟨db₁, e', id, owner, hasked, hsame⟩
    · exact .inl hold
    · rw [hsame.childOf] at hchild
      unfold Job.childOf at hchild
      simp only [Bool.and_eq_true, decide_eq_true_eq] at hchild
      obtain ⟨worker, a, raw, log, maxGames, parser, now, rfl, howns, rfl⟩ :=
        asked_normalization hasked (permits_leaves hok) hchild.2
      have hid : a.job.id = parent'.id := Option.some.inj hchild.1
      obtain ⟨row, hrow, hrowSame⟩ := hsound.held worker a howns.attempt
      obtain ⟨parent, hparent, hparentSame⟩ := moves_parent hs hall hparent' ⟨row, hrow, hrowSame.id.trans hid⟩
      have hfree := permits_writer hok rfl howns.attempt
      rw [held_bounded hsound howns.attempt hparent (.refl parent) (hid.trans hparentSame.id),
        ← hparentSame.boundedParent, hbounded'] at hfree
      cases hfree
  | fetched => exact .inl ⟨c', hc', .refl c', fun _ => rfl⟩
  | @acts _ worker a p q u ha hp hacts =>
    have hactor := hacts.actor
    rw [setPoint_world] at hc'
    cases hacts with
    | @queued _ raw fetch maxGames now world howns hstep =>
      rcases (step_writes hsound hstep).back c' hc' with hold | ⟨db₁, e, id, owner, ⟨b, hb, rfl⟩, hsame⟩
      · exact .inl hold
      · cases Option.some.inj (howns.attempt.symm.trans hb.attempt)
        rw [hsame.childOf] at hchild
        unfold Job.childOf at hchild
        simp only [Bool.and_eq_true, decide_eq_true_eq] at hchild
        have hid : a.job.id = parent'.id := Option.some.inj hchild.1
        refine .inr ⟨worker, a, _, raw, fetch, hactor, ha, hp, ?_, hsame.dedupKey⟩
        rw [← hid]
        exact (hs.holds worker a _ howns hp).2.1
    | advanced howns hstep =>
      rcases (step_writes hsound hstep).back c' hc' with hold | ⟨_, _, _, _, hasked, _⟩
      · exact .inl hold
      · exact hasked.elim
    | _ => exact .inl ⟨c', hc', .refl c', fun _ => rfl⟩

theorem moves_single (parent' : Job) (hparent' : parent' ∈ t.world.db.jobs) (hbounded' : parent'.boundedParent = true)
    (c' : Job) (hc' : c' ∈ t.world.db.jobs) (d' : Job) (hd' : d' ∈ t.world.db.jobs)
    (hcchild : c'.childOf parent'.id = true) (hdchild : d'.childOf parent'.id = true)
    (hclive : c'.state.live = true) (hdlive : d'.state.live = true) : c' = d' := by
  have hreach := moves_reach hs h
  have hids := (reach_sound hreach).ids
  -- an old row that is live was live, and a quiet parent has none
  have hback : ∀ k k' : Job, (k.state.terminal = true → k'.state = k.state) → k'.state.live = true →
      k.state.live = true := by
    intro k k' hkeep hlive
    by_contra hdead
    have hterm : k.state.terminal = true := by simpa [JobState.terminal] using hdead
    rw [hkeep hterm] at hlive
    exact hdead hlive
  have hquiet : s.world.db.Quiet parent'.id → ∀ k ∈ s.world.db.jobs, ∀ k' : Job, k.Same k' →
      (k.state.terminal = true → k'.state = k.state) → k'.childOf parent'.id = true → k'.state.live = true → False := by
    intro hquiet k hk k' hsame hkeep hchild hlive
    have hterm := hquiet k hk (by rw [← hsame.childOf]; exact hchild)
    have hklive := hback k k' hkeep hlive
    simp [JobState.terminal, hklive] at hterm
  rcases moves_child hs h hparent' hbounded' hc' hcchild with
    ⟨c, hc, hcsame, hckeep⟩ | ⟨worker, a, u, raw, fetch, hactor, ha, hp, hcquiet, hckey⟩
  · rcases moves_child hs h hparent' hbounded' hd' hdchild with
      ⟨d, hd, hdsame, hdkeep⟩ | ⟨_, _, _, _, _, _, _, _, hdquiet, _⟩
    · have hcchild₀ : c.childOf parent'.id = true := by rw [← hcsame.childOf]; exact hcchild
      have hckind : c.kind = .normalizePayload := by
        unfold Job.childOf at hcchild₀
        simp only [Bool.and_eq_true, decide_eq_true_eq] at hcchild₀
        exact hcchild₀.2
      obtain ⟨p, hp, _, _, _, hnorm⟩ := reach_normalizes hs.reach c hc hckind
      have hpid : p.id = parent'.id := by
        unfold Job.childOf at hcchild₀
        simp only [Bool.and_eq_true, decide_eq_true_eq] at hcchild₀
        exact Option.some.inj (hnorm.child.symm.trans hcchild₀.1)
      obtain ⟨parent, hparent, hsame⟩ := moves_parent hs h hparent' ⟨p, hp, hpid⟩
      have hchildren : c = d := by
        refine hs.single parent hparent (by rw [← hsame.boundedParent]; exact hbounded') c hc d hd ?_ ?_
          (hback c c' hckeep hclive) (hback d d' hdkeep hdlive)
        · rw [← hsame.id]
          exact hcchild₀
        · rw [← hsame.id, ← hdsame.childOf]
          exact hdchild
      exact hids.unique hc' hd' (by rw [hcsame.id, hdsame.id, hchildren])
    · exact (hquiet hdquiet c hc c' hcsame hckeep hcchild hclive).elim
  · rcases moves_child hs h hparent' hbounded' hd' hdchild with
      ⟨d, hd, hdsame, hdkeep⟩ | ⟨worker', a', u', raw', fetch', hactor', ha', hp', _, hdkey⟩
    · exact (hquiet hcquiet d hd d' hdsame hdkeep hdchild hdlive).elim
    · cases Option.some.inj (hactor.symm.trans hactor')
      cases Option.some.inj (ha.symm.trans ha')
      cases Option.some.inj (hp.symm.trans hp')
      exact reach_liveUnique hreach c' hc' d' hd' hclive hdlive (hckey.trans hdkey.symm)

end Preserve

theorem reach_acquiring (h : Reachable (acquisition T w parserVersion) s) : s.Sound T w parserVersion := by
  refine Reachable.invariant (fun s hs => ?_) (fun s ev t hI hstep => ?_) h
  · obtain ⟨hworld, _, hbodies, hlogs, hpoints⟩ := hs
    have hreach : Reach (workers T w) (fun _ ev => ev.LeavesNormalization T) s.world := .start hworld
    refine ⟨hreach, ⟨?_, ?_, ?_⟩, ?_, ?_, ?_, ?_, ?_, ?_, ?_⟩
    · rw [hbodies]
      simp
    · rw [hbodies]
      simp
    · rw [hlogs]
      simp
    · rw [hlogs]
      simp
    · intro worker a ha
      rw [hworld.2.2.2 worker] at ha
      cases ha
    · intro m n a b ha
      rw [hworld.2.2.2 m] at ha
      cases ha
    · intro worker a p _ hp
      rw [hpoints worker] at hp
      cases hp
    · intro worker a p _ hp
      rw [hpoints worker] at hp
      cases hp
    · rw [hworld.1]
      simp
    · rw [hworld.1]
      simp
  · have hmoves := step_moves hstep
    exact ⟨moves_reach hI hmoves, moves_archive hI hmoves, moves_logged hI hmoves, moves_issued hI hmoves,
      moves_distinct hI hmoves, moves_bounded hI hmoves, moves_holds hI hmoves, moves_single hI hmoves,
      moves_once hI hmoves⟩

end Sound

/-! ## Retries -/

section Retry
variable {T : Text} {w : WorkerSettings} {parserVersion : String} {s t : Acquiring}

theorem Job.Calls.same {j j' : Job} {u : SourceUnit} (h : j.Calls u) (hsame : j.Same j') (hparams : j'.params = j.params) :
    j'.Calls u := by
  obtain ⟨remaining, hunit⟩ := h
  refine ⟨remaining, ?_⟩
  rw [← hunit]
  unfold Job.nextUnit
  rw [hparams, hsame.provider]

/-- Whatever allowance is left, the parameters call for a unit of the same source. -/
theorem Job.Calls.occurrences {j : Job} {u v : SourceUnit} (hu : j.Calls u) (hv : j.Calls v) (r : Archive) :
    r.occurrences T j v = r.occurrences T j u := by
  have hunits : u = v ∨ ∃ n m, u = .stream n ∧ v = .stream m := by
    obtain ⟨_, hu⟩ := hu
    obtain ⟨_, hv⟩ := hv
    unfold Job.nextUnit at hu hv
    split at hu
    · cases hu
    split at hv
    · cases hv
    split at hu
    · -- a month of chess.com depends on the cursor alone
      rename_i hprovider
      rw [if_pos hprovider] at hv
      split at hu
      · next since stop hsince hstop =>
        simp only [hsince, hstop] at hv
        split at hu
        · cases hu
        · next months hmonths =>
          rw [hmonths] at hv
          dsimp only at hu hv
          split at hu
          · cases hu
          · next hindex =>
            rw [if_neg hindex] at hv
            split at hu
            · next year month hmonth =>
              rw [hmonth] at hv
              cases hu
              cases hv
              exact .inl rfl
            · cases hu
      · cases hu
    · rename_i hprovider
      rw [if_neg hprovider] at hv
      split at hu
      · next hlichess =>
        rw [if_pos hlichess] at hv
        dsimp only at hu hv
        split at hu
        · cases hu
        split at hv
        · cases hv
        cases hu
        cases hv
        exact .inr ⟨_, _, rfl, rfl⟩
      · cases hu
  rcases hunits with rfl | ⟨n, m, rfl, rfl⟩
  · rfl
  · exact SourceUnit.accepts_key rfl

theorem Job.Same.normalizes {j j' c : Job} {raw : Nat} {fetch : Option Nat} (h : j.Same j')
    (hc : c.Normalizes T j raw fetch parserVersion) : c.Normalizes T j' raw fetch parserVersion := by
  refine ⟨hc.kind, by rw [hc.child, h.id], hc.target, ?_⟩
  rw [hc.key]
  unfold normalizationKey
  rw [h.id, h.provider, h.crawlRunId]

/-- A cursor moves behind the preserved source and its child. -/
theorem step_cursor (hs : s.Sound T w parserVersion) {ev : AcquisitionEvent}
    (h : s.step T w parserVersion ev = some t) {parent row : Job} (hparent : parent ∈ s.world.db.jobs)
    (hbounded : parent.boundedParent = true) (hrow : row ∈ t.world.db.jobs) (hid : row.id = parent.id)
    (hmoved : row.params ≠ parent.params) : ∃ worker u raw fetch, ev = .checkpoint worker ∧ parent.Calls u ∧
      row.params = parent.params.set u.checkpoint.1 u.checkpoint.2 ∧ s.archive.Retains T parent u raw fetch ∧
      s.world.db.Enqueued T parent raw fetch parserVersion := by
  have hsound := hs.world
  have hstays : t.world ≠ s.world := by
    intro heq
    rw [heq] at hrow
    rw [hsound.ids.unique hrow hparent hid] at hmoved
    exact hmoved rfl
  cases step_moves h with
  | world hok hstep =>
    rw [resume_world] at hrow
    rcases step_params hsound.ids hstep hparent hrow hid with hkeep | ⟨worker, key, value, a, rfl, howns, hjob, _⟩
    · exact (hmoved hkeep).elim
    · have hfree := permits_writer hok rfl howns.attempt
      rw [held_bounded hsound howns.attempt hparent (.refl parent) hjob, hbounded] at hfree
      cases hfree
  | fetched => exact (hstays rfl).elim
  | @acts _ worker a _ _ _ ha hp hacts =>
    rw [setPoint_world] at hrow
    cases hacts with
    | queued _ hstep =>
      rcases step_params hsound.ids hstep hparent hrow hid with hkeep | ⟨_, _, _, _, hev, _⟩
      · exact (hmoved hkeep).elim
      · cases hev
    | @advanced u raw fetch _ _ howns hstep =>
      rcases step_params hsound.ids hstep hparent hrow hid with hkeep | ⟨_, _, _, b, hev, hb, hjob, hparams⟩
      · exact (hmoved hkeep).elim
      · cases hev
        cases Option.some.inj (ha.symm.trans hb.attempt)
        obtain ⟨hunmoved, hcalls, ⟨l, hl, hfetch⟩, c, hc, hnorm⟩ := hs.holds worker a _ howns hp
        obtain ⟨row', hrow', hsame⟩ := hsound.held worker a ha
        have heq : row' = parent := hsound.ids.unique hrow' hparent (hsame.id.trans hjob)
        subst heq
        have hsameParams := hunmoved row' hparent hsame.id
        refine ⟨worker, u, raw, fetch, rfl, hcalls.same hsame hsameParams, by rw [hparams, hsameParams],
          ⟨l, ?_, hfetch⟩, c, hc, hsame.normalizes hnorm⟩
        rw [hsame.occurrences]
        exact hl
    | _ => exact (hstays rfl).elim

/-- An owner of a bounded parent knows what its point says of the parent's row. -/
theorem owner_point (hs : s.Sound T w parserVersion) {worker : Nat} {a : Attempt} {p : Point} {parent : Job}
    (howns : s.world.Owns worker a) (hp : s.points worker = some p) (hparent : parent ∈ s.world.db.jobs)
    (hid : a.job.id = parent.id) : a.job.Same parent ∧ p.Holds T parserVersion s.world.db s.archive a.job := by
  obtain ⟨row, hrow, hsame⟩ := hs.world.held worker a howns.attempt
  rw [← hs.world.ids.unique hrow hparent (hsame.id.trans hid)]
  exact ⟨hsame, hs.holds worker a p howns hp⟩

/-- The owner of a bounded parent asks the provider only while every child succeeded and the unit has no
occurrence. -/
theorem step_request (hs : s.Sound T w parserVersion) {ev : AcquisitionEvent} {worker : Nat}
    (hev : (∃ x, ev = .request worker x) ∨ ev = .persist worker) (h : s.step T w parserVersion ev = some t)
    {a : Attempt} (ha : s.world.attempts worker = some a) {parent : Job} (hparent : parent ∈ s.world.db.jobs)
    (hid : a.job.id = parent.id) : s.world.db.Clean parent.id ∧ ∃ u,
      (s.points worker = some (.requesting u) ∨ ∃ x, s.points worker = some (.received u x)) ∧
      s.archive.occurrences T parent u = [] := by
  cases step_moves h with
  | world => rcases hev with ⟨_, hev⟩ | hev <;> cases hev
  | fetched => rcases hev with ⟨_, hev⟩ | hev <;> cases hev
  | @acts _ worker' b p q u ha' hp hacts =>
    have hworker : worker' = worker := by
      rcases hev with ⟨_, rfl⟩ | rfl
      · exact (Option.some.inj hacts.actor).symm
      · exact (Option.some.inj hacts.actor).symm
    subst hworker
    cases Option.some.inj (ha.symm.trans ha')
    cases hacts with
    | requested howns =>
      obtain ⟨hsame, hholds⟩ := owner_point hs howns hp hparent hid
      rw [← hid]
      exact ⟨hholds.2.1, _, .inl hp, by rw [hsame.occurrences]; exact hholds.2.2.2⟩
    | stored howns =>
      obtain ⟨hsame, hholds⟩ := owner_point hs howns hp hparent hid
      rw [← hid]
      exact ⟨hholds.2.1, _, .inr ⟨_, hp⟩, by rw [hsame.occurrences]; exact hholds.2.2.2⟩
    | refused howns =>
      obtain ⟨hsame, hholds⟩ := owner_point hs howns hp hparent hid
      rw [← hid]
      exact ⟨hholds.2.1, _, .inr ⟨_, hp⟩, by rw [hsame.occurrences]; exact hholds.2.2.2⟩
    | _ => rcases hev with ⟨_, hev⟩ | hev <;> cases hev

/-- Occurrences stay. -/
theorem trace_occurrences {es : List AcquisitionEvent}
    (h : Trace (acquisition T w parserVersion) (fun _ _ => True) s es t) {parent : Job} {u : SourceUnit} {l : FetchLog}
    (hl : l ∈ s.archive.occurrences T parent u) : l ∈ t.archive.occurrences T parent u :=
  h.keeps (I := fun s => l ∈ s.archive.occurrences T parent u)
    (fun _ _ _ _ hI _ hstep => (step_moves hstep).extends.occurrences hI) hl

/-- Rows stay. -/
theorem trace_row (hs : Reachable (acquisition T w parserVersion) s) {es : List AcquisitionEvent}
    (h : Trace (acquisition T w parserVersion) (fun _ _ => True) s es t) {parent : Job}
    (hparent : parent ∈ s.world.db.jobs) : ∃ row ∈ t.world.db.jobs, parent.Same row := by
  have hkeeps : Reachable (acquisition T w parserVersion) t ∧ ∃ row ∈ t.world.db.jobs, parent.Same row := by
    refine h.keeps (I := fun s => Reachable (acquisition T w parserVersion) s ∧ ∃ row ∈ s.world.db.jobs,
      parent.Same row) ?_ ⟨hs, parent, hparent, .refl parent⟩
    intro s ev t _ ⟨hs, row, hrow, hsame⟩ hok hstep
    obtain ⟨row', hrow', hsame', _⟩ := (step_moves hstep).rows (reach_acquiring hs).world hrow
    exact ⟨.next hs hok hstep, row', hrow', hsame.trans hsame'⟩
  exact hkeeps.2

/-- What a later attempt of a bounded parent does with the occurrence that its unit has. -/
structure Acquiring.Reuses (T : Text) (w : WorkerSettings) (parserVersion : String) (t : Acquiring) (parent : Job)
    (u : SourceUnit) (l : FetchLog) : Prop where
  only : t.archive.occurrences T parent u = [l]
  found : ∀ worker a t', t.standing worker = some (a, .looking u) → a.job.id = parent.id →
    t.step T w parserVersion (.look worker) = some t' →
    ∃ raw, l.rawPayloadId = some raw ∧ t'.points worker = some (.queueing u raw l.id)
  unasked : ∀ worker a p, t.standing worker = some (a, p) → a.job.id = parent.id →
    p = .requesting u ∨ (∃ x, p = .received u x) →
    (∀ x, t.step T w parserVersion (.request worker x) = none) ∧ t.step T w parserVersion (.persist worker) = none
  child : ∀ worker a raw fetch, t.fenced worker = some (a, .queueing u raw fetch) → a.job.id = parent.id →
    fetch = l.id ∧ l.rawPayloadId = some raw ∧ ∀ c ∈ t.world.db.jobs, c.Normalizes T parent raw (some fetch) parserVersion →
      (∀ d ∈ t.world.db.jobs, d.Normalizes T parent raw (some fetch) parserVersion → d = c) ∧
      ∀ maxGames now t', t.step T w parserVersion (.enqueue worker maxGames now) = some t' → t'.world = t.world

theorem reuses_occurrence (ht : t.Sound T w parserVersion) {parent row : Job} (hrow : row ∈ t.world.db.jobs)
    (hsame : parent.Same row) (hbounded : parent.boundedParent = true) {u : SourceUnit} {l : FetchLog}
    (hl : l ∈ t.archive.occurrences T parent u) : t.Reuses T w parserVersion parent u l := by
  have honly : t.archive.occurrences T parent u = [l] := by
    have hlength := ht.once row hrow (by rw [hsame.boundedParent]; exact hbounded) u
    rw [hsame.occurrences] at hlength
    obtain ⟨l', hl'⟩ := List.length_eq_one_iff.mp (Nat.le_antisymm hlength (List.length_pos_of_mem hl))
    rw [hl'] at hl ⊢
    rw [List.mem_singleton.mp hl]
  have hheld : ∀ worker a, t.world.attempts worker = some a → a.job.id = parent.id → parent.Same a.job := by
    intro worker a ha hid
    obtain ⟨row', hrow', hsame'⟩ := ht.world.held worker a ha
    have heq : row' = row := ht.world.ids.unique hrow' hrow (by rw [hsame'.id, hsame.id, hid])
    rw [heq] at hsame'
    exact hsame.trans hsame'.symm
  refine ⟨honly, ?_, ?_, ?_⟩
  · intro worker a t' hstand hid hstep
    obtain ⟨ha, hp⟩ := standing_some hstand
    dsimp only at ha hp
    cases step_moves hstep with
    | @acts _ worker' b p q v ha' hp' hacts =>
      cases Option.some.inj hacts.actor
      cases Option.some.inj (ha.symm.trans ha')
      cases Option.some.inj (hp.symm.trans hp')
      cases hacts with
      | @found _ l' raw hlatest hraw =>
        have hmem := latestJobPayload_some hlatest
        rw [(hheld worker a ha hid).occurrences, honly, List.mem_singleton] at hmem
        subst hmem
        exact ⟨raw, hraw, by rw [setPoint_points, if_pos rfl]⟩
      | missing hnone =>
        rw [(hheld worker a ha hid).occurrences, honly] at hnone
        cases hnone
  · intro worker a p hstand hid hp
    obtain ⟨ha, hpoint⟩ := standing_some hstand
    dsimp only at ha hpoint
    have hnone : ∀ ev, (∃ x, ev = .request worker x) ∨ ev = .persist worker → t.step T w parserVersion ev = none := by
      intro ev hev
      by_contra hsome
      obtain ⟨t', hstep⟩ := Option.ne_none_iff_exists'.mp hsome
      obtain ⟨_, v, hv, hocc⟩ := step_request ht hev hstep ha hrow (hid.trans hsame.id.symm)
      have huv : v = u := by
        rcases hv with hv | ⟨_, hv⟩ <;> rcases hp with rfl | ⟨_, rfl⟩ <;> cases Option.some.inj (hv.symm.trans hpoint)
        · rfl
        · rfl
      rw [huv, hsame.occurrences, honly] at hocc
      cases hocc
    exact ⟨fun x => hnone _ (.inl ⟨x, rfl⟩), hnone _ (.inr rfl)⟩
  · intro worker a raw fetch hfence hid
    obtain ⟨howns, hp⟩ := fenced_some hfence
    dsimp only at howns hp
    have hparent := hheld worker a howns.attempt hid
    obtain ⟨_, _, _, l', hl', hfetch, hraw⟩ := ht.holds worker a _ howns hp
    rw [hparent.occurrences, honly, List.mem_singleton] at hl'
    subst hl'
    refine ⟨hfetch.symm, hraw, fun c hc hnorm => ⟨fun d hd hnorm' => ?_, fun maxGames now t' hstep => ?_⟩⟩
    · exact reach_normalizes_unique ht.reach hd hc hnorm' hnorm
    · cases step_moves hstep with
      | @acts _ worker' b p q v ha' hp' hacts =>
        cases Option.some.inj hacts.actor
        cases Option.some.inj (howns.attempt.symm.trans ha')
        cases Option.some.inj (hp.symm.trans hp')
        cases hacts with
        | queued _ hcapture => exact capture_again howns hc (hparent.normalizes hnorm) hcapture
        | full => rfl

/-- In every state that claims, captures, child processing, crashes and recoveries can reach, a bounded parent has at
most one live child and is not claimed while one is live; its cursor moves only at the checkpoint of a unit whose source
is preserved and whose child is in the table; with a failed child nobody asks the provider for it or stores an answer;
and once a unit has an occurrence, every later attempt takes that occurrence and its child, without a request. -/
theorem bounded_parent_one_source (h : Reachable (acquisition T w parserVersion) s) {parent : Job}
    (hparent : parent ∈ s.world.db.jobs) (hbounded : parent.boundedParent = true) :
    (∀ c ∈ s.world.db.jobs, ∀ d ∈ s.world.db.jobs, c.childOf parent.id = true → d.childOf parent.id = true →
      c.state.live = true → d.state.live = true → c = d) ∧
    (∀ worker now maxActiveJobs token t,
      s.step T w parserVersion (.world (.claim worker parent.id now maxActiveJobs token)) = some t →
      ∀ c ∈ s.world.db.jobs, c.childOf parent.id = true → c.state.live = false) ∧
    (∀ ev t, s.step T w parserVersion ev = some t → ∀ row ∈ t.world.db.jobs, row.id = parent.id →
      row.params ≠ parent.params → ∃ worker u raw fetch, ev = .checkpoint worker ∧ parent.Calls u ∧
        row.params = parent.params.set u.checkpoint.1 u.checkpoint.2 ∧ s.archive.Retains T parent u raw fetch ∧
        s.world.db.Enqueued T parent raw fetch parserVersion) ∧
    (∀ c ∈ s.world.db.jobs, c.childOf parent.id = true → c.state = .error ∨ c.state = .skipped →
      ∀ worker a, s.world.attempts worker = some a → a.job.id = parent.id →
        (∀ x, s.step T w parserVersion (.request worker x) = none) ∧ s.step T w parserVersion (.persist worker) = none) ∧
    ∀ u l, l ∈ s.archive.occurrences T parent u →
      (∀ v, parent.Calls u → parent.Calls v → l ∈ s.archive.occurrences T parent v) ∧
      ∀ es t, Trace (acquisition T w parserVersion) (fun _ _ => True) s es t →
        t.Reuses T w parserVersion parent u l := by
  have hs := reach_acquiring h
  refine ⟨hs.single parent hparent hbounded, ?_, ?_, ?_, ?_⟩
  · intro worker now maxActiveJobs token t hstep c hc hchild
    cases step_moves hstep with
    | world _ hclaim =>
      replace hclaim : (if _ then _ else _) = some _ := hclaim
      split at hclaim
      · obtain ⟨⟨_, db⟩, hr, _⟩ := Option.map_eq_some_iff.mp hclaim
        obtain ⟨row, hrow, hid, hadm, _⟩ := claim_row hr
        rw [hs.world.ids.unique hrow hparent hid] at hadm
        have hterm := admissible_quiet hadm hbounded c hc hchild
        simpa [JobState.terminal] using hterm
      · cases hclaim
    | acts _ _ hacts => cases hacts.actor
  · intro ev t hstep row hrow hid hmoved
    exact step_cursor hs hstep hparent hbounded hrow hid hmoved
  · intro c hc hchild hfailed worker a ha hid
    have hnone : ∀ ev, (∃ x, ev = .request worker x) ∨ ev = .persist worker → s.step T w parserVersion ev = none := by
      intro ev hev
      by_contra hsome
      obtain ⟨t, hstep⟩ := Option.ne_none_iff_exists'.mp hsome
      have hdone := (step_request hs hev hstep ha hparent hid).1 c hc hchild
      rcases hfailed with hfailed | hfailed
      · cases hdone.symm.trans hfailed
      · cases hdone.symm.trans hfailed
    exact ⟨fun x => hnone _ (.inl ⟨x, rfl⟩), hnone _ (.inr rfl)⟩
  · intro u l hl
    refine ⟨fun v hu hv => by rw [hu.occurrences hv]; exact hl, fun es t htrace => ?_⟩
    obtain ⟨row, hrow, hsame⟩ := trace_row h htrace hparent
    exact reuses_occurrence (reach_acquiring (htrace.reach h)) hrow hsame hbounded (trace_occurrences htrace hl)

end Retry

/-! ## A crash behind a capture -/

def emptyAcquiring : Acquiring := ⟨emptyWorld, [], ⟨[], 0, [], 0⟩, fun _ => none⟩

/-- The answer to a stream, behind one server error. -/
def streamRecord : Record := ⟨[(some 503, 2)], 200, 4, "body", by simp [successful]⟩

/-- A worker preserves a stream and dies; the next one comes to the same occurrence. -/
def crashedCapture : List AcquisitionEvent :=
  [.world (.createOpponentCrawl "lichess" "ann" 0 10 ⟨1, 5, 5, 5⟩ "w" 0), .world (.claim 0 1 1 5 7), .check 0,
    .select 0 none, .look 0, .request 0 streamRecord, .persist 0, .world (.release 0),
    .world (.resumeStale none 10 99 [1]), .world (.claim 1 1 100 5 8), .check 1, .select 1 (some 3), .look 1]

theorem bounded_parent_one_source_crashed : ∃ s parent, Reachable (acquisition plainText ⟨2, 1, 60⟩ "p1") s ∧
    parent ∈ s.world.db.jobs ∧ parent.boundedParent = true ∧ s.points 1 = some (.queueing (.stream 3) 1 2) ∧
    ∃ l ∈ s.archive.occurrences plainText parent (.stream 3), l.id = 2 ∧
      s.Reuses plainText ⟨2, 1, 60⟩ "p1" parent (.stream 3) l := by
  obtain ⟨s, hs, hp⟩ := Reach.of_exec (acquisition plainText ⟨2, 1, 60⟩ "p1") (fun _ _ => True) (s := emptyAcquiring)
    ⟨⟨rfl, rfl, rfl, fun _ => rfl⟩, rfl, rfl, rfl, fun _ => rfl⟩ crashedCapture
    (fun s => s.points 1 = some (.queueing (.stream 3) 1 2) && s.world.db.jobs.any fun j => j.boundedParent &&
      (s.archive.occurrences plainText j (.stream 3)).any fun l => l.id = 2) (by decide +kernel)
  simp only [Bool.and_eq_true, List.any_eq_true, decide_eq_true_eq] at hp
  obtain ⟨hpoint, parent, hparent, hbounded, l, hl, hid⟩ := hp
  have hall := bounded_parent_one_source hs hparent hbounded
  exact ⟨s, parent, hs, hparent, hbounded, hpoint, l, hl, hid, (hall.2.2.2.2 _ l hl).2 [] s (.nil s)⟩

end ChessCrawl.Jobs
