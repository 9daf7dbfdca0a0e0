import ChessCrawl.Jobs.Steps

/-! The life of a job: what holds of every row and every dedup key, whatever the workers, the recovery and
the operator do to the table. -/
namespace ChessCrawl.Jobs
open ChessCrawl.Lib
set_option autoImplicit false

/-! ## Rows -/

structure Job.Counted (maxRetries : Nat) (j : Job) : Prop where
  doneAt : j.doneAt.isSome = j.state.terminal
  attempts : j.attempts = j.ownershipGeneration
  retryCount : j.retryCount ≤ maxRetries

section Table
variable {T : Text} {maxRetries : Nat} {P : Db → Enqueue → Prop} {db db' : Db}

theorem Job.Rewritten.counted {j j' : Job} (h : j.Rewritten maxRetries j') (hj : j.Counted maxRetries) :
    j'.Counted maxRetries := by
  obtain ⟨hdone, hattempts, hretry⟩ := hj
  cases h with
  | claimed => exact ⟨rfl, by simp [Job.claimed, hattempts], hretry⟩
  | marked state reason now _ =>
    refine ⟨?_, hattempts, hretry⟩
    simp only [Job.mark]
    cases state.terminal <;> rfl
  | retried reason due _ hlt => exact ⟨rfl, hattempts, hlt⟩
  | recovered => exact ⟨rfl, hattempts, hretry⟩
  | unblocked => exact ⟨rfl, hattempts, hretry⟩
  | released hs =>
    -- a blocked row has no completion time, and this update leaves the column
    rw [hs] at hdone
    exact ⟨hdone, hattempts, hretry⟩
  | merged => exact ⟨hdone, hattempts, hretry⟩
  | checkpointed => exact ⟨hdone, hattempts, hretry⟩
  | budgeted => exact ⟨hdone, hattempts, hretry⟩

/-- A row that is live after an update was live before. -/
theorem Job.Rewritten.live {j j' : Job} (h : j.Rewritten maxRetries j') (hlive : j'.state.live = true) :
    j.state.live = true := by
  by_contra hdead
  have hterm : j.state.terminal = true := by simpa [JobState.terminal] using hdead
  rw [h.terminal hterm] at hlive
  exact hdead hlive

theorem Enqueue.row_counted (e : Enqueue) (id : Nat) (owner : String × Option Nat) :
    (e.row T id owner).Counted maxRetries := ⟨rfl, rfl, Nat.zero_le _⟩

theorem Writes.counted (h : Writes T maxRetries P db db') (hdb : ∀ j ∈ db.jobs, j.Counted maxRetries) :
    ∀ j ∈ db'.jobs, j.Counted maxRetries := by
  refine h.keeps (I := fun db => ∀ j ∈ db.jobs, j.Counted maxRetries) ?_ ?_ ?_ hdb
  · intro db db' h ht j hmem
    exact h j (ht.jobs ▸ hmem)
  · intro db sel set h hset j hmem
    obtain ⟨k, hk, rfl⟩ := List.mem_map.mp hmem
    rcases Rewritten.row hset hk with hrow | hrow
    · rw [hrow]
      exact h k hk
    · exact hrow.counted (h k hk)
  · intro db e owner h _ _ _ j hmem
    rcases List.mem_append.mp hmem with hmem | hmem
    · exact h j hmem
    · rw [List.mem_singleton.mp hmem]
      exact e.row_counted _ _

/-! ## Dedup keys -/

/-- Rows that pass the test have keys of their own. -/
def Db.UniqueKeys (test : Job → Bool) (db : Db) : Prop :=
  ∀ j ∈ db.jobs, ∀ k ∈ db.jobs, test j = true → test k = true → j.dedupKey = k.dedupKey → j = k

/-- The lookup in front of an insert is what keeps the keys unique: it finds every row that a new one could
clash with. -/
theorem Writes.uniqueKeys {test : Job → Bool}
    (htest : ∀ j j' : Job, j.Rewritten maxRetries j' → test j' = true → test j = true)
    (hfound : ∀ db e id owner, P db e → test (e.row T id owner) = true → ∀ j ∈ db.jobs, test j = true →
      j.dedupKey = e.key T → (e.reuseTerminal || j.state.live) = true)
    (h : Writes T maxRetries P db db') (hdb : db.UniqueKeys test) : db'.UniqueKeys test := by
  refine h.keeps (I := Db.UniqueKeys test) ?_ ?_ ?_ hdb
  · intro db db' h ht
    unfold Db.UniqueKeys
    rw [ht.jobs]
    exact h
  · intro db sel set h hset j hj k hk
    obtain ⟨j₀, hj₀, rfl⟩ := List.mem_map.mp hj
    obtain ⟨k₀, hk₀, rfl⟩ := List.mem_map.mp hk
    intro hjt hkt hkey
    have hback : ∀ i ∈ db.jobs, test (if sel i then set i else i) = true →
        test i = true ∧ (if sel i then set i else i).dedupKey = i.dedupKey := by
      intro i hi hit
      rcases Rewritten.row hset hi with hrow | hrow
      · rw [hrow] at hit
        exact ⟨hit, by rw [hrow]⟩
      · exact ⟨htest _ _ hrow hit, hrow.same.dedupKey⟩
    obtain ⟨hj₁, hjkey⟩ := hback j₀ hj₀ hjt
    obtain ⟨hk₁, hkkey⟩ := hback k₀ hk₀ hkt
    rw [h j₀ hj₀ k₀ hk₀ hj₁ hk₁ (by rw [← hjkey, ← hkkey]; exact hkey)]
  · intro db e owner h hP hnone _
    have hclash : test (e.row T (db.jobSeq + 1) owner) = true → ∀ j ∈ db.jobs, test j = true →
        j.dedupKey ≠ e.key T := by
      intro hnew j hj hjt hkey
      have hmiss := List.find?_eq_none.mp hnone j hj
      simp only [hkey, decide_true, Bool.true_and] at hmiss
      exact hmiss (hfound db e _ owner hP hnew j hj hjt hkey)
    intro j hj k hk hjt hkt hkey
    rcases List.mem_append.mp hj with hj | hj <;> rcases List.mem_append.mp hk with hk | hk
    · exact h j hj k hk hjt hkt hkey
    · rw [List.mem_singleton.mp hk] at hkt hkey
      exact (hclash hkt j hj hjt hkey).elim
    · rw [List.mem_singleton.mp hj] at hjt hkey
      exact (hclash hjt k hk hkt hkey.symm).elim
    · rw [List.mem_singleton.mp hj, List.mem_singleton.mp hk]

theorem Writes.liveUnique (h : Writes T maxRetries P db db') (hdb : db.UniqueKeys fun j => j.state.live) :
    db'.UniqueKeys fun j => j.state.live := by
  refine h.uniqueKeys (fun j j' hrow hlive => hrow.live hlive) ?_ hdb
  intro db e id owner _ _ j _ hlive _
  rw [hlive, Bool.or_true]

/-- A key whose requests all reuse terminal jobs has one job. -/
theorem Writes.keyUnique {key : DedupKey} (hP : ∀ db e, P db e → e.key T = key → e.reuseTerminal = true)
    (h : Writes T maxRetries P db db') (hdb : db.UniqueKeys fun j => j.dedupKey = key) :
    db'.UniqueKeys fun j => j.dedupKey = key := by
  refine h.uniqueKeys (fun j j' hrow hkey => ?_) ?_ hdb
  · simpa [← hrow.same.dedupKey] using hkey
  · intro db e id owner hPe hnew j _ _ _
    have hkey : e.key T = key := by simpa [Enqueue.row] using hnew
    rw [hP db e hPe hkey, Bool.true_or]

end Table

/-! ## Runs -/

section Runs
variable {T : Text} {w : WorkerSettings}

/-- The requests that a step of the event can make of `enqueue_job`. -/
def World.Requests (T : Text) (w : WorkerSettings) (s : World) (ev : Event) (e : Enqueue) : Prop :=
  ∃ db, Writes T w.jobMaxRetries (fun db e => s.Asked T db e ev) s.db db ∧ s.Asked T db e ev

/-- Steps that enqueue the key only with `reuse_terminal`. -/
def Reuses (T : Text) (w : WorkerSettings) (key : DedupKey) (s : World) (ev : Event) : Prop :=
  ∀ e, s.Requests T w ev e → e.key T = key → e.reuseTerminal = true

/-- Steps that leave normalizations to `enqueue_payload_normalization`. -/
def Event.LeavesNormalization (T : Text) : Event → Prop
  | .enqueue e => e.kind ≠ .normalizePayload ∧ (e.key T).kind ≠ .normalizePayload
  | _ => True

theorem reach_counted {ok : World → Event → Prop} {s : World} (h : Reach (workers T w) ok s) :
    ∀ j ∈ s.db.jobs, j.Counted w.jobMaxRetries :=
  Reach.invariant (I := fun s => ∀ j ∈ s.db.jobs, j.Counted w.jobMaxRetries)
    (fun s hs => by rw [hs.1]; simp)
    (fun _ _ _ hr hI _ hstep => (step_writes (reach_sound hr) hstep).counted hI) h

theorem reach_liveUnique {ok : World → Event → Prop} {s : World} (h : Reach (workers T w) ok s) :
    s.db.UniqueKeys fun j => j.state.live :=
  Reach.invariant (I := fun s => s.db.UniqueKeys fun j => j.state.live)
    (fun s hs => by unfold Db.UniqueKeys; rw [hs.1]; simp)
    (fun _ _ _ hr hI _ hstep => (step_writes (reach_sound hr) hstep).liveUnique hI) h

theorem reach_keyUnique {key : DedupKey} {s : World} (h : Reach (workers T w) (Reuses T w key) s) :
    s.db.UniqueKeys fun j => j.dedupKey = key :=
  Reach.invariant (I := fun s => s.db.UniqueKeys fun j => j.dedupKey = key)
    (fun s hs => by unfold Db.UniqueKeys; rw [hs.1]; simp)
    (fun _ _ _ hr hI hok hstep => (step_writes (reach_sound hr) hstep).located.keyUnique
      (fun db e hP hkey => hok e ⟨db, hP.2, hP.1⟩ hkey) hI) h

theorem trace_terminal {ok ok' : World → Event → Prop} {s t : World} {es : List Event} (hr : Reach (workers T w) ok s)
    (h : Trace (workers T w) ok' s es t) {j : Job} (hj : j ∈ s.db.jobs) (hterm : j.state.terminal = true) :
    (t.db.job j.id).map Job.state = some j.state := by
  have hkeeps : t.Sound ∧ ∃ j' ∈ t.db.jobs, j'.id = j.id ∧ j'.state = j.state := by
    refine h.keeps (I := fun u => u.Sound ∧ ∃ j' ∈ u.db.jobs, j'.id = j.id ∧ j'.state = j.state) ?_
      ⟨reach_sound hr, j, hj, rfl, rfl⟩
    intro s ev t _ ⟨hs, j₁, hj₁, hid, hstate⟩ _ hstep
    obtain ⟨j₂, hj₂, hsame, _, hkeep⟩ := (step_writes hs hstep).row hj₁
    refine ⟨step_sound hs hstep, j₂, hj₂, hsame.id.trans hid, ?_⟩
    rw [hkeep (by rw [hstate]; exact hterm), hstate]
  obtain ⟨hs, j', hj', hid, hstate⟩ := hkeeps
  rw [← hid, hs.ids.job hj', Option.map_some, hstate]

/-! ## Normalizations -/

/-- The job normalizes a captured occurrence for its parent with a parser. -/
structure Job.Normalizes (T : Text) (j parent : Job) (rawPayloadId : Nat) (fetchLogId : Option Nat)
    (parserVersion : String) : Prop where
  kind : j.kind = .normalizePayload
  child : j.parentJobId = some parent.id
  target : j.target = .ref rawPayloadId
  key : j.dedupKey = normalizationKey T parent rawPayloadId fetchLogId parserVersion

theorem asked_normalization {s : World} {db : Db} {e : Enqueue} {ev : Event} (h : s.Asked T db e ev)
    (hev : ev.LeavesNormalization T) (hkind : e.kind = .normalizePayload) :
    ∃ worker a rawPayloadId fetchLogId maxGames parserVersion now,
      ev = .capture worker rawPayloadId fetchLogId maxGames parserVersion now ∧ s.Owns worker a ∧
      e = normalizationRequest T a.job rawPayloadId fetchLogId maxGames parserVersion now := by
  cases ev with
  | createOpponentCrawl =>
    cases h
    cases hkind
  | enqueue e' =>
    cases h
    exact (hev.1 hkind).elim
  | capture worker rawPayloadId fetchLogId maxGames parserVersion now =>
    obtain ⟨a, howns, rfl⟩ := h
    exact ⟨worker, a, rawPayloadId, fetchLogId, maxGames, parserVersion, now, rfl, howns, rfl⟩
  | expansion =>
    obtain ⟨_, _, _, _, _, _, rfl⟩ := h
    cases hkind
  | expand =>
    obtain ⟨_, _, _, _, _, _, _, _, _, hfor⟩ := h
    cases hfor <;> cases hkind
  | _ => cases h

/-- Whatever a step of its own asks for under another key than an acquisition's, it asks for with
`reuse_terminal`. -/
theorem asked_reuses {s : World} {db : Db} {e : Enqueue} {ev : Event} (h : s.Asked T db e ev)
    (hev : ev ≠ .enqueue e) (hkind : (e.key T).kind ≠ .crawlOpponents) : e.reuseTerminal = true := by
  cases ev with
  | createOpponentCrawl =>
    cases h
    exact (hkind rfl).elim
  | enqueue e' =>
    cases h
    exact (hev rfl).elim
  | capture =>
    obtain ⟨_, _, rfl⟩ := h
    rfl
  | expansion =>
    obtain ⟨_, _, _, _, _, _, rfl⟩ := h
    rfl
  | expand =>
    obtain ⟨_, _, _, _, _, _, _, _, _, hfor⟩ := h
    cases hfor with
    | opponent => exact (hkind rfl).elim
    | promoted => rfl
  | _ => cases h

/-- Every normalization in the table is the one of an occurrence that its parent captured. -/
theorem reach_normalizes {s : World} (h : Reach (workers T w) (fun _ ev => ev.LeavesNormalization T) s) :
    ∀ j ∈ s.db.jobs, j.kind = .normalizePayload → ∃ parent ∈ s.db.jobs, ∃ rawPayloadId fetchLogId parserVersion,
      j.Normalizes T parent rawPayloadId fetchLogId parserVersion := by
  refine Reach.invariant (I := fun s => ∀ j ∈ s.db.jobs, j.kind = .normalizePayload → ∃ parent ∈ s.db.jobs,
    ∃ rawPayloadId fetchLogId parserVersion, j.Normalizes T parent rawPayloadId fetchLogId parserVersion)
    (fun s hs => by rw [hs.1]; simp) (fun s ev t hr hI hev hstep => ?_) h
  have hw := step_writes (reach_sound hr) hstep
  refine hw.located.keeps (I := fun db => ∀ j ∈ db.jobs, j.kind = .normalizePayload → ∃ parent ∈ db.jobs,
    ∃ rawPayloadId fetchLogId parserVersion, j.Normalizes T parent rawPayloadId fetchLogId parserVersion)
    ?_ ?_ ?_ hI
  · intro db db' h ht
    rw [ht.jobs]
    exact h
  · intro db sel set h hset j hj hkind
    obtain ⟨j₀, hj₀, rfl⟩ := List.mem_map.mp hj
    have hj₀same := Rewritten.same hset hj₀
    obtain ⟨p, hp, raw, log, parser, hn⟩ := h j₀ hj₀ (hj₀same.kind ▸ hkind)
    have hpsame := Rewritten.same hset hp
    refine ⟨_, List.mem_map_of_mem hp, raw, log, parser, hkind, ?_, hj₀same.target.trans hn.target, ?_⟩
    · rw [hj₀same.parentJobId, hn.child, hpsame.id]
    · rw [hj₀same.dedupKey, hn.key]
      simp [normalizationKey, makeDedupKey, hpsame.id, hpsame.provider, hpsame.crawlRunId]
  · intro db e owner h hP _ _ j hj hkind
    rcases List.mem_append.mp hj with hj | hj
    · obtain ⟨p, hp, hn⟩ := h j hj hkind
      exact ⟨p, List.mem_append_left _ hp, hn⟩
    · rw [List.mem_singleton.mp hj] at hkind ⊢
      obtain ⟨worker, a, raw, log, maxGames, parser, now, _, howns, rfl⟩ := asked_normalization hP.1 hev hkind
      obtain ⟨p, hp, hsame⟩ := (reach_sound hr).held worker a howns.attempt
      obtain ⟨p', hp', hsame', _⟩ := hP.2.row hp
      have hparent := hsame.trans hsame'
      refine ⟨p', List.mem_append_left _ hp', raw, log, parser, rfl, ?_, rfl, ?_⟩
      · simp [Enqueue.row, normalizationRequest, hparent.id]
      · simp [Enqueue.row, normalizationRequest, Enqueue.key, normalizationKey, makeDedupKey, hparent.id,
          hparent.provider, hparent.crawlRunId]

theorem reach_normalizes_unique {s : World} (h : Reach (workers T w) (fun _ ev => ev.LeavesNormalization T) s)
    {parent j k : Job} {rawPayloadId : Nat} {fetchLogId : Option Nat} {parserVersion : String} (hj : j ∈ s.db.jobs)
    (hk : k ∈ s.db.jobs) (hjn : j.Normalizes T parent rawPayloadId fetchLogId parserVersion)
    (hkn : k.Normalizes T parent rawPayloadId fetchLogId parserVersion) : j = k := by
  refine reach_keyUnique (h.mono fun s ev hev e hreq hkey => ?_) j hj k hk (by simpa using hjn.key)
    (by simpa using hkn.key) (hjn.key.trans hkn.key.symm)
  obtain ⟨db, _, hasked⟩ := hreq
  refine asked_reuses hasked ?_ (by rw [hkey]; simp [normalizationKey, makeDedupKey])
  rintro rfl
  exact hev.2 (by rw [hkey]; rfl)

/-! ## The table -/

/-- In every state that workers, recovery and operators can bring the table to: a completion time stands exactly
at the jobs that are through, attempts count ownerships and retries are bounded; live jobs have keys of their
own; a job that is through stays so in every continuation; a key that is only asked for with `reuse_terminal` has
one job; and so has every captured occurrence, for its parent and parser. -/
theorem job_table_lifecycle {s : World} (h : Reachable (workers T w) s) :
    (∀ j ∈ s.db.jobs, j.Counted w.jobMaxRetries) ∧
    (s.db.UniqueKeys fun j => j.state.live) ∧
    (∀ es t, Trace (workers T w) (fun _ _ => True) s es t → ∀ j ∈ s.db.jobs, j.state.terminal = true →
      (t.db.job j.id).map Job.state = some j.state) ∧
    (∀ key, Reach (workers T w) (Reuses T w key) s → s.db.UniqueKeys fun j => j.dedupKey = key) ∧
    (Reach (workers T w) (fun _ ev => ev.LeavesNormalization T) s →
      (∀ j ∈ s.db.jobs, j.kind = .normalizePayload → ∃ parent ∈ s.db.jobs, ∃ rawPayloadId fetchLogId parserVersion,
        j.Normalizes T parent rawPayloadId fetchLogId parserVersion) ∧
      ∀ parent rawPayloadId fetchLogId parserVersion, ∀ j ∈ s.db.jobs, ∀ k ∈ s.db.jobs,
        j.Normalizes T parent rawPayloadId fetchLogId parserVersion →
        k.Normalizes T parent rawPayloadId fetchLogId parserVersion → j = k) := by
  refine ⟨reach_counted h, reach_liveUnique h, ?_, ?_, ?_⟩
  · intro es t htrace j hj hterm
    exact trace_terminal h htrace hj hterm
  · intro key hkey
    exact reach_keyUnique hkey
  · intro hnorm
    refine ⟨reach_normalizes hnorm, ?_⟩
    intro parent raw log parser j hj k hk hjn hkn
    exact reach_normalizes_unique hnorm hj hk hjn hkn

end Runs

/-- A root that captures one occurrence twice, waits, and is done in its second attempt. -/
def capturedTwice : List Event :=
  [.createOpponentCrawl "lichess" "ann" 0 10 ⟨1, 5, 5, 5⟩ "w" 0, .claim 0 1 1 5 7, .capture 0 3 (some 4) none "p1" 2,
    .capture 0 3 (some 4) none "p1" 2, .finish 0 ⟨.done, "down", true, none, 0⟩ 3, .release 0, .claim 1 2 9 5 8,
    .finish 1 ⟨.done, "parsed", false, none, 0⟩ 9, .release 1, .claim 2 1 99 5 9,
    .finish 2 ⟨.done, "captured", false, none, 0⟩ 99]

theorem job_table_lifecycle_captured : ∃ s, Reachable (workers plainText ⟨2, 1, 60⟩) s ∧
    s.db.jobs.map Job.state = [.done, .done] ∧ s.db.jobs.map Job.attempts = [2, 1] ∧
    (∀ j ∈ s.db.jobs, j.Counted 2) ∧ s.db.UniqueKeys fun j => j.state.live := by
  obtain ⟨s, hs, hp⟩ := Reach.of_exec (workers plainText ⟨2, 1, 60⟩) (fun _ _ => True) (s := emptyWorld)
    ⟨rfl, rfl, rfl, fun _ => rfl⟩ capturedTwice
    (fun s => s.db.jobs.map Job.state = [.done, .done] && s.db.jobs.map Job.attempts = [2, 1]) (by decide +kernel)
  simp only [Bool.and_eq_true, decide_eq_true_eq] at hp
  have hall := job_table_lifecycle hs
  exact ⟨s, hs, hp.1, hp.2, hall.1, hall.2.1⟩

end ChessCrawl.Jobs
