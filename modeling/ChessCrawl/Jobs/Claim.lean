import ChessCrawl.Jobs.Scheduler
import Mathlib.Algebra.Order.Group.Multiset
import Mathlib.Data.List.Find

/-! The session locks of `claim_next_job`. A call takes one or two advisory locks for a candidate, passes over it,
leaves out its provider and asks again, gives the candidate back or keeps it. The table and the locks of other
sessions stay as they are while the call runs; the savepoint of the claim may fail at each of its statements. -/
namespace ChessCrawl.Jobs
set_option autoImplicit false

/-! ## Locks -/

/-- `lock_key` in the two namespaces of a claim: any digest, so two identities may share a key. -/
structure LockKeys (κ : Type) where
  provider : Option String → κ
  job : Nat → κ

/-- The statements inside the savepoint of a claim. -/
inductive ClaimPoint
  | update | getJob | turn
deriving DecidableEq, Repr

/-- What a call finds around it: the keys that other sessions hold, the rows that other transactions have locked,
the statement that fails for a job, and the next token. -/
structure Surroundings (κ : Type) where
  keys : LockKeys κ
  busy : κ → Bool
  rows : List Nat
  raises : Nat → Option ClaimPoint
  token : Nat

/-- A connection with the tables that it sees. A session takes its own lock again and again, and has to give it
back as often. -/
structure ClaimSession (κ : Type) where
  db : Db
  turns : String → ClaimStage → Nat
  turnSeq : Nat
  held : Multiset κ
  ownershipKeys : List κ
  jobFence : Option (Nat × Nat)

structure ClaimRequest where
  crawlRunId : Option Nat
  now : Int
  worker : Option String
  jobId : Option Nat
  stage : ClaimStage
  maxActiveJobs : Nat
  respectFairness : Bool
deriving DecidableEq, Repr

section Call
variable {κ : Type} [DecidableEq κ]

/-- A granted `acquire_lock_key` -/
def ClaimSession.acquired (s : ClaimSession κ) (key : κ) : ClaimSession κ := { s with held := key ::ₘ s.held }

/-- `release_lock_key` -/
def ClaimSession.releaseLockKey (s : ClaimSession κ) (key : κ) : ClaimSession κ := { s with held := s.held.erase key }

def ClaimSession.releaseKeys (s : ClaimSession κ) (keys : List κ) : ClaimSession κ :=
  keys.foldl ClaimSession.releaseLockKey s

/-- `release_job_ownership` on an open connection -/
def ClaimSession.releaseJobOwnership (s : ClaimSession κ) : ClaimSession κ :=
  { s with jobFence := none, ownershipKeys := [] }.releaseKeys s.ownershipKeys.reverse

/-! ## Candidates -/

/-- `NOT provider=ANY(excluded)`: a null on either side of a comparison is unknown, and nothing is compared with
an empty array. -/
def notAny (provider : Option String) (excluded : List (Option String)) : Bool :=
  excluded.isEmpty || (provider.isSome && none ∉ excluded && provider ∉ excluded)

/-- The filters of a request. Under `respect_fairness` the job id is none of them. -/
def ClaimRequest.selects (r : ClaimRequest) (db : Db) (j : Job) : Bool :=
  db.admissible r.now r.maxActiveJobs j && r.crawlRunId.all (fun id => j.crawlRunId = some id) &&
    (r.respectFairness || r.jobId.all fun id => j.id = id) && r.stage.admits j.kind

/-- The rows of the query, in scheduler order and without its limit. -/
def ClaimSession.candidates (s : ClaimSession κ) (e : Surroundings κ) (r : ClaimRequest)
    (excluded : List (Option String)) : List Job :=
  (s.db.jobs.insertionSort fun j k => j.claimOrder s.turns r.stage ≤ k.claimOrder s.turns r.stage).filter fun j =>
    (r.selects s.db j && j.id ∉ e.rows) && (j.kind.processing || notAny j.provider excluded)

/-! ## Attempts -/

inductive TryLocks (κ : Type)
  | skipped
  | excluded
  | taken (keys : List κ)
deriving DecidableEq

/-- The job's lock, after the keys that are held for it. -/
def tryJobLock (e : Surroundings κ) (s : ClaimSession κ) (keys : List κ) (x : Candidate) : TryLocks κ × ClaimSession κ :=
  if e.busy (e.keys.job x.id) then (.skipped, s.releaseKeys keys)
  else (.taken (keys ++ [e.keys.job x.id]), s.acquired (e.keys.job x.id))

def tryLocks (e : Surroundings κ) (r : ClaimRequest) (s : ClaimSession κ) (excluded : List (Option String))
    (x : Candidate) : TryLocks κ × ClaimSession κ :=
  if r.worker.isNone then (.taken [], s)
  else if x.kind.processing then tryJobLock e s [] x
  else if x.provider ∈ excluded then (.skipped, s)
  else if e.busy (e.keys.provider x.provider) then (.excluded, s)
  else tryJobLock e (s.acquired (e.keys.provider x.provider)) [e.keys.provider x.provider] x

/-- The statements of the savepoint. -/
def claimStatements (e : Surroundings κ) (r : ClaimRequest) (s : ClaimSession κ) (x : Candidate) :
    Except ClaimPoint (Option Job) × ClaimSession κ :=
  if e.raises x.id = some .update then (.error .update, s)
  else
    let owner := if r.worker.isSome then some e.token else none
    let updated := { s with db := s.db.updateJob x.id fun j => j.claimed r.now owner }
    if e.raises x.id = some .getJob then (.error .getJob, updated)
    else if e.raises x.id = some .turn then (.error .turn, { updated with turnSeq := s.turnSeq + 1 })
    else (.ok (updated.db.job x.id), { updated with
      turns := fun workspaceId stage =>
        if workspaceId = x.workspaceId ∧ stage = r.stage then s.turnSeq + 1 else s.turns workspaceId stage
      turnSeq := s.turnSeq + 1 })

/-- The savepoint: a failure undoes the rows, not the sequence. -/
def claimUpdate (e : Surroundings κ) (r : ClaimRequest) (s : ClaimSession κ) (x : Candidate) :
    Except ClaimPoint (Option Job) × ClaimSession κ :=
  match claimStatements e r s x with
  | (.error p, t) => (.error p, { t with db := s.db, turns := s.turns })
  | (.ok job, t) => (.ok job, t)

/-- The fairness test: another job is first. -/
def ClaimRequest.yields (r : ClaimRequest) (id : Nat) : Bool := r.respectFairness && r.jobId.any fun wanted => id ≠ wanted

/-- What follows when the locks of a candidate are taken. -/
def claimTaken (e : Surroundings κ) (r : ClaimRequest) (s : ClaimSession κ) (keys : List κ) (x : Candidate) :
    Except ClaimPoint (Option Job) × ClaimSession κ :=
  if r.yields x.id then (.ok none, s.releaseKeys keys.reverse)
  else match claimUpdate e r s x with
    | (.error p, t) => (.error p, t.releaseKeys keys)
    | (.ok job, t) =>
      (.ok job, if r.worker.isSome then { t with ownershipKeys := keys, jobFence := some (x.id, e.token) } else t)

/-! ## The loop -/

inductive Scan (κ : Type)
  | exhausted (excluded : List (Option String)) (s : ClaimSession κ)
  | ended (result : Except ClaimPoint (Option Job)) (s : ClaimSession κ)

def claimWindow (e : Surroundings κ) (r : ClaimRequest) :
    List Candidate → List (Option String) → ClaimSession κ → Scan κ
  | [], excluded, s => .exhausted excluded s
  | x :: rest, excluded, s =>
    match tryLocks e r s excluded x with
    | (.skipped, t) => claimWindow e r rest excluded t
    | (.excluded, t) => claimWindow e r rest (excluded ++ [x.provider]) t
    | (.taken keys, t) => .ended (claimTaken e r t keys x).1 (claimTaken e r t keys x).2

/-- `while True`, with a bound on its rounds. -/
def claimLoop (e : Surroundings κ) (r : ClaimRequest) :
    Nat → List (Option String) → ClaimSession κ → Option (Except ClaimPoint (Option Job) × ClaimSession κ)
  | 0, _, _ => none
  | rounds + 1, excluded, s =>
    if (s.candidates e r excluded).take 100 = [] then some (.ok none, s)
    else match claimWindow e r (((s.candidates e r excluded).take 100).map Job.candidate) excluded s with
      | .ended result t => some (result, t)
      | .exhausted excluded' t =>
        if excluded'.length = excluded.length then some (.ok none, t) else claimLoop e r rounds excluded' t

def claimNextJob (e : Surroundings κ) (r : ClaimRequest) (rounds : Nat) (s : ClaimSession κ) :
    Option (Except ClaimPoint (Option Job) × ClaimSession κ) :=
  claimLoop e r rounds [] s

end Call

/-! ## What is to be had -/

/-- The primary key and `service_job_provider`. -/
structure Db.Constrained (db : Db) : Prop where
  ids : (db.jobs.map Job.id).Nodup
  providers : ∀ j ∈ db.jobs, j.kind.archive = j.provider.isNone

section Locks
variable {κ : Type} {e : Surroundings κ} {r : ClaimRequest} {s t : ClaimSession κ} {x : Candidate}
  {excluded : List (Option String)}

/-- The keys of a candidate, in the order in which they are taken. -/
def Surroundings.keysOf (e : Surroundings κ) (x : Candidate) : List κ :=
  if x.kind.processing then [e.keys.job x.id] else [e.keys.provider x.provider, e.keys.job x.id]

/-- No other session holds a lock that the candidate needs. -/
def Surroundings.obtainable (e : Surroundings κ) (x : Candidate) : Bool :=
  !e.busy (e.keys.job x.id) && (x.kind.processing || !e.busy (e.keys.provider x.provider))

/-- The session with the locks of a candidate added to its own. -/
def ClaimSession.locked (s : ClaimSession κ) (e : Surroundings κ) (x : Candidate) : ClaimSession κ :=
  { s with held := if x.kind.processing then e.keys.job x.id ::ₘ s.held
      else e.keys.job x.id ::ₘ e.keys.provider x.provider ::ₘ s.held }

section Releases
variable [DecidableEq κ]

@[simp] theorem releaseKeys_nil (s : ClaimSession κ) : s.releaseKeys [] = s := rfl

@[simp] theorem releaseKeys_cons (s : ClaimSession κ) (key : κ) (keys : List κ) :
    s.releaseKeys (key :: keys) = (s.releaseLockKey key).releaseKeys keys := rfl

@[simp] theorem acquired_releaseLockKey (s : ClaimSession κ) (key : κ) : (s.acquired key).releaseLockKey key = s := by
  simp [ClaimSession.acquired, ClaimSession.releaseLockKey]

/-- Every release of the call is of this form: the keys of one candidate, in one of the two orders. -/
theorem releaseKeys_held {keys : List κ} (s : ClaimSession κ) : (s.releaseKeys keys).held = s.held - (keys : Multiset κ) := by
  induction keys generalizing s with
  | nil => simp
  | cons key keys ih =>
    rw [releaseKeys_cons, ih, ← Multiset.cons_coe, Multiset.sub_cons]
    rfl

end Releases

theorem locked_held (s : ClaimSession κ) (e : Surroundings κ) (x : Candidate) :
    (s.locked e x).held = (e.keysOf x : Multiset κ) + s.held := by
  unfold ClaimSession.locked Surroundings.keysOf
  by_cases hproc : x.kind.processing = true
  · simp [hproc]
  · simp only [hproc, Bool.false_eq_true, if_false, ← Multiset.cons_coe, Multiset.cons_add, Multiset.coe_nil, Multiset.zero_add]
    exact Multiset.cons_swap ..

/-- Giving the keys of a candidate back, in any order, restores what was held. -/
theorem release_locked [DecidableEq κ] {keys : List κ} (hperm : keys.Perm (e.keysOf x)) (ht : t.held = (s.locked e x).held) :
    (t.releaseKeys keys).held = s.held := by
  rw [releaseKeys_held, ht, locked_held, Multiset.coe_eq_coe.mpr hperm, add_tsub_cancel_left]

/-- One attempt at a candidate. Only a taken one changes the session. -/
theorem tryLocks_cases [DecidableEq κ] (hworker : r.worker.isSome = true) (excluded : List (Option String)) :
    (tryLocks e r s excluded x = (.taken (e.keysOf x), s.locked e x) ∧ e.obtainable x = true) ∨
    (tryLocks e r s excluded x = (.excluded, s) ∧ x.kind.processing = false ∧
      e.busy (e.keys.provider x.provider) = true) ∨
    (tryLocks e r s excluded x = (.skipped, s) ∧
      (e.busy (e.keys.job x.id) = true ∨ x.kind.processing = false ∧ x.provider ∈ excluded)) := by
  have hworker' : r.worker.isNone = false := by simpa using hworker
  unfold tryLocks tryJobLock
  simp only [hworker', Bool.false_eq_true, if_false]
  by_cases hproc : x.kind.processing = true
  · by_cases hbusy : e.busy (e.keys.job x.id) = true
    · simp [hproc, hbusy]
    · simp [hproc, hbusy, Surroundings.keysOf, Surroundings.obtainable, ClaimSession.locked, ClaimSession.acquired]
  · by_cases hex : x.provider ∈ excluded
    · simp [hproc, hex]
    · by_cases hpbusy : e.busy (e.keys.provider x.provider) = true
      · simp [hproc, hex, hpbusy]
      · by_cases hbusy : e.busy (e.keys.job x.id) = true
        · simp [hproc, hex, hpbusy, hbusy]
        · simp [hproc, hex, hpbusy, hbusy, Surroundings.keysOf, Surroundings.obtainable, ClaimSession.locked,
            ClaimSession.acquired]

/-- The candidate's row as the claim leaves it. -/
theorem claimUpdate_cases (hworker : r.worker.isSome = true) {j : Job} (hj : s.db.job j.id = some j) :
    (∃ p, e.raises j.id = some p ∧ (claimUpdate e r s j.candidate).1 = .error p ∧
      (claimUpdate e r s j.candidate).2.held = s.held) ∨
    (e.raises j.id = none ∧ (claimUpdate e r s j.candidate).1 = .ok (some (j.claimed r.now (some e.token))) ∧
      (claimUpdate e r s j.candidate).2.held = s.held) := by
  have hrow : ((s.db.updateJob j.id fun k => k.claimed r.now (some e.token)).job j.id) =
      some (j.claimed r.now (some e.token)) := updateJob_job (fun _ => rfl) hj
  unfold claimUpdate claimStatements
  cases hraises : e.raises j.id with
  | none => simp [Job.candidate, hraises, hworker, hrow]
  | some p => cases p <;> simp [Job.candidate, hraises]

/-- What a call answers once it has the locks of a row. -/
def Surroundings.answer (e : Surroundings κ) (r : ClaimRequest) (j : Job) : Except ClaimPoint (Option Job) :=
  if r.yields j.id then .ok none
  else match e.raises j.id with
    | some p => .error p
    | none => .ok (some (j.claimed r.now (some e.token)))

/-- The locks that belong to an answer: those of the job, and of its provider when the job acquires. -/
def Surroundings.heldFor (e : Surroundings κ) (held : Multiset κ) : Except ClaimPoint (Option Job) → Multiset κ
  | .ok (some j) =>
    if j.kind.processing then e.keys.job j.id ::ₘ held else e.keys.job j.id ::ₘ e.keys.provider j.provider ::ₘ held
  | _ => held

/-- Each exit behind a taken candidate gives back or keeps what it has to. -/
theorem claimTaken_spec [DecidableEq κ] (hworker : r.worker.isSome = true) {j : Job} (hj : s.db.job j.id = some j) :
    (claimTaken e r (s.locked e j.candidate) (e.keysOf j.candidate) j.candidate).1 = e.answer r j ∧
      (claimTaken e r (s.locked e j.candidate) (e.keysOf j.candidate) j.candidate).2.held =
        e.heldFor s.held (e.answer r j) ∧
      (∀ k, e.answer r j = .ok (some k) →
        (claimTaken e r (s.locked e j.candidate) (e.keysOf j.candidate) j.candidate).2.releaseJobOwnership.held = s.held) := by
  unfold claimTaken Surroundings.answer
  by_cases hyields : r.yields j.id = true
  · have hyields' : r.yields j.candidate.id = true := hyields
    simp only [hyields, hyields', if_true, Surroundings.heldFor, true_and]
    exact ⟨release_locked (List.reverse_perm _) rfl, by simp⟩
  · have hyields' : ¬ r.yields j.candidate.id = true := hyields
    rw [if_neg hyields, if_neg hyields']
    obtain ⟨p, hraises, hresult, hheld⟩ | ⟨hraises, hresult, hheld⟩ :=
      claimUpdate_cases (e := e) (s := s.locked e j.candidate) hworker hj
    · rw [← Prod.mk.eta (p := claimUpdate e r (s.locked e j.candidate) j.candidate), hresult, hraises]
      exact ⟨rfl, release_locked (List.Perm.refl _) hheld, by simp⟩
    · rw [← Prod.mk.eta (p := claimUpdate e r (s.locked e j.candidate) j.candidate), hresult, hraises]
      simp only [hworker, if_true]
      exact ⟨trivial, hheld, fun _ _ => release_locked (List.reverse_perm _) hheld⟩

/-! ## Windows -/

/-- The providers that a call has left out are held by others. -/
def Surroundings.AllBusy (e : Surroundings κ) (excluded : List (Option String)) : Prop :=
  ∀ p ∈ excluded, e.busy (e.keys.provider p) = true

theorem not_obtainable_of_provider (hproc : x.kind.processing = false) (hbusy : e.busy (e.keys.provider x.provider) = true) :
    e.obtainable x = false := by
  simp [Surroundings.obtainable, hproc, hbusy]

theorem not_obtainable_of_job (hbusy : e.busy (e.keys.job x.id) = true) : e.obtainable x = false := by
  simp [Surroundings.obtainable, hbusy]

/-- What is known of a window that has no candidate to take, by the providers that it adds. -/
structure Surroundings.Fruitless (e : Surroundings κ) (excluded added : List (Option String)) (rows : List Candidate) : Prop where
  none : ∀ x ∈ rows, e.obtainable x = false
  busy : e.AllBusy added
  source : ∀ p ∈ added, ∃ x ∈ rows, x.kind.processing = false ∧ x.provider = p
  skipped : added = [] → ∀ x ∈ rows, e.busy (e.keys.job x.id) = true ∨ x.kind.processing = false ∧ x.provider ∈ excluded

/-- A window takes its first obtainable candidate. -/
theorem claimWindow_spec [DecidableEq κ] (hworker : r.worker.isSome = true) (hbusy : e.AllBusy excluded) (rows : List Candidate) :
    (∃ added, claimWindow e r rows excluded s = .exhausted (excluded ++ added) s ∧ e.Fruitless excluded added rows) ∨
    (∃ x, rows.find? e.obtainable = some x ∧ claimWindow e r rows excluded s =
      .ended (claimTaken e r (s.locked e x) (e.keysOf x) x).1 (claimTaken e r (s.locked e x) (e.keysOf x) x).2) := by
  induction rows generalizing excluded with
  | nil => exact .inl ⟨[], by simp [claimWindow], by simp, by simp [Surroundings.AllBusy], by simp, by simp⟩
  | cons x rows ih =>
    obtain ⟨htry, hobt⟩ | ⟨htry, hproc, hpbusy⟩ | ⟨htry, hskip⟩ :=
      tryLocks_cases (e := e) (s := s) (x := x) hworker excluded
    · refine .inr ⟨x, by simp [hobt], ?_⟩
      simp only [claimWindow, htry]
    · have hno := not_obtainable_of_provider hproc hpbusy
      have hbusy' : e.AllBusy (excluded ++ [x.provider]) := by
        intro p hp
        rcases List.mem_append.mp hp with hp | hp
        · exact hbusy p hp
        · rw [List.mem_singleton.mp hp]
          exact hpbusy
      obtain ⟨added, hscan, hfruit⟩ | ⟨y, hfind, hscan⟩ := ih hbusy'
      · refine .inl ⟨x.provider :: added, by simp [claimWindow, htry, hscan], ?_, ?_, ?_, by simp⟩
        · simpa [hno] using hfruit.none
        · intro p hp
          rcases List.mem_cons.mp hp with rfl | hp
          · exact hpbusy
          · exact hfruit.busy p hp
        · intro p hp
          rcases List.mem_cons.mp hp with rfl | hp
          · exact ⟨x, by simp, hproc, rfl⟩
          · obtain ⟨y, hy, hyp⟩ := hfruit.source p hp
            exact ⟨y, by simp [hy], hyp⟩
      · exact .inr ⟨y, by simp [hno, hfind], by simp [claimWindow, htry, hscan]⟩
    · have hno : e.obtainable x = false := by
        rcases hskip with hjob | ⟨hproc, hex⟩
        · exact not_obtainable_of_job hjob
        · exact not_obtainable_of_provider hproc (hbusy _ hex)
      obtain ⟨added, hscan, hfruit⟩ | ⟨y, hfind, hscan⟩ := ih hbusy
      · refine .inl ⟨added, by simp [claimWindow, htry, hscan], ?_, hfruit.busy, ?_, ?_⟩
        · simpa [hno] using hfruit.none
        · intro p hp
          obtain ⟨y, hy, hyp⟩ := hfruit.source p hp
          exact ⟨y, by simp [hy], hyp⟩
        · intro hnil y hy
          rcases List.mem_cons.mp hy with rfl | hy
          · exact hskip
          · exact hfruit.skipped hnil y hy
      · exact .inr ⟨y, by simp [hno, hfind], by simp [claimWindow, htry, hscan]⟩

/-! ## Rounds -/

theorem notAny_append {provider : Option String} {added : List (Option String)}
    (h : notAny provider (excluded ++ added) = true) : notAny provider excluded = true := by
  unfold notAny at h ⊢
  cases excluded with
  | nil => rfl
  | cons p ps =>
    simp only [List.cons_append, List.isEmpty_cons, Bool.false_or, Bool.and_eq_true, decide_eq_true_eq,
      List.mem_cons, List.mem_append, not_or] at h ⊢
    exact ⟨⟨h.1.1, h.1.2.1, h.1.2.2.1⟩, h.2.1, h.2.2.1⟩

/-- A round with more providers left out reads fewer of the same rows. -/
theorem candidates_append (s : ClaimSession κ) (e : Surroundings κ) (r : ClaimRequest)
    (excluded added : List (Option String)) :
    s.candidates e r (excluded ++ added) =
      (s.candidates e r excluded).filter fun j => j.kind.processing || notAny j.provider (excluded ++ added) := by
  unfold ClaimSession.candidates
  rw [List.filter_filter]
  congr 1
  funext j
  have himp : notAny j.provider (excluded ++ added) = true → notAny j.provider excluded = true := notAny_append
  cases j.kind.processing
  · cases hnot : notAny j.provider (excluded ++ added)
    · simp
    · simp [himp hnot]
  · simp

theorem candidates_mem {j : Job} (h : j ∈ s.candidates e r excluded) : j ∈ s.db.jobs :=
  (List.mem_insertionSort _).mp (List.mem_filter.mp h).1

theorem Db.Constrained.acquires {db : Db} (h : db.Constrained) {j : Job} (hj : j ∈ db.jobs)
    (hproc : j.kind.processing = false) : j.provider.isSome = true := by
  have harchive : j.kind.archive = false := by
    cases hkind : j.kind <;> simp_all [JobKind.processing, JobKind.archive]
  have hnone : j.provider.isNone = false := by rw [← h.providers j hj, harchive]
  simpa using hnone

theorem Db.Constrained.job {db : Db} (h : db.Constrained) {j : Job} (hj : j ∈ db.jobs) : db.job j.id = some j := by
  unfold Db.job
  cases hfind : db.jobs.find? (fun k => k.id = j.id) with
  | none => simpa using List.find?_eq_none.mp hfind j hj
  | some k =>
    have hk : k ∈ db.jobs ∧ k.id = j.id := Db.job_mem hfind
    rw [List.inj_on_of_nodup_map h.ids hk.1 hj hk.2]

/-- Rows that a round leaves out are not to be had. -/
theorem find_append {added : List (Option String)} (htable : s.db.Constrained) (hbusy : e.AllBusy (excluded ++ added))
    (hnone : none ∉ excluded ++ added) :
    (s.candidates e r (excluded ++ added)).find? (fun j => e.obtainable j.candidate) =
      (s.candidates e r excluded).find? fun j => e.obtainable j.candidate := by
  rw [candidates_append, List.find?_filter]
  apply List.find?_congr
  intro j hj
  by_cases hproc : j.kind.processing = true
  · simp [hproc]
  · have hproc' : j.kind.processing = false := by simpa using hproc
    by_cases hex : j.provider ∈ excluded ++ added
    · have hno : e.obtainable j.candidate = false := not_obtainable_of_provider hproc' (hbusy _ hex)
      simp [hno]
    · have hsome := htable.acquires (candidates_mem hj) hproc'
      simp [notAny, hsome, hnone, hex]

/-- Each round that finds a new provider leaves a row out. -/
theorem candidates_shorter {added : List (Option String)} {rows : List Candidate} (hadded : added ≠ [])
    (hrows : ∀ x ∈ rows, ∃ j ∈ s.candidates e r excluded, j.candidate = x) (hfruit : e.Fruitless excluded added rows) :
    (s.candidates e r (excluded ++ added)).length < (s.candidates e r excluded).length := by
  obtain ⟨p, hp⟩ := List.exists_mem_of_ne_nil _ hadded
  obtain ⟨x, hx, hproc, hxp⟩ := hfruit.source p hp
  obtain ⟨j, hj, rfl⟩ := hrows x hx
  rw [candidates_append]
  apply List.length_filter_lt_length_iff_exists.mpr
  refine ⟨j, hj, ?_⟩
  have hprovider : j.provider = p := hxp
  have hmem : j.provider ∈ excluded ++ added := by
    rw [hprovider]
    exact List.mem_append.mpr (.inr hp)
  have hkind : j.kind.processing = false := hproc
  have hne : excluded ++ added ≠ [] := List.ne_nil_of_mem hmem
  simp [notAny, hkind, hmem, hne]

/-- What the scheduler's order calls for: the first row that is to be had. -/
def ClaimSession.choice (s : ClaimSession κ) (e : Surroundings κ) (r : ClaimRequest) (excluded : List (Option String)) :
    Except ClaimPoint (Option Job) :=
  match (s.candidates e r excluded).find? fun j => e.obtainable j.candidate with
  | some j => e.answer r j
  | none => .ok none

/-- The candidates whose job another session holds. -/
def ClaimSession.busyJobs (s : ClaimSession κ) (e : Surroundings κ) (r : ClaimRequest) (excluded : List (Option String)) :
    Nat :=
  (s.candidates e r excluded).countP fun j => e.busy (e.keys.job j.id)

/-- A round that takes a row takes the first that is to be had, here and in the whole order. -/
theorem window_choice {x : Candidate}
    (h : (((s.candidates e r excluded).take 100).map Job.candidate).find? e.obtainable = some x) :
    ∃ j ∈ s.candidates e r excluded, j.candidate = x ∧ s.choice e r excluded = e.answer r j := by
  rw [List.find?_map, Option.map_eq_some_iff] at h
  obtain ⟨j, hfind, hx⟩ := h
  have hall : (s.candidates e r excluded).find? (fun k => e.obtainable k.candidate) = some j := by
    rw [← List.take_append_drop 100 (s.candidates e r excluded), List.find?_append]
    have hfind' : ((s.candidates e r excluded).take 100).find? (fun k => e.obtainable k.candidate) = some j := hfind
    rw [hfind']
    rfl
  exact ⟨j, List.mem_of_find?_eq_some hall, hx, by rw [ClaimSession.choice, hall]⟩

/-- A window of busy jobs is the whole list when there are fewer than a hundred of them. -/
theorem window_whole (hbusy : ∀ j ∈ (s.candidates e r excluded).take 100, e.busy (e.keys.job j.id) = true)
    (hfew : s.busyJobs e r excluded < 100) : (s.candidates e r excluded).take 100 = s.candidates e r excluded := by
  apply List.take_of_length_le
  by_contra hlong
  have hlen : ((s.candidates e r excluded).take 100).length = 100 := by
    rw [List.length_take]
    omega
  have hcount : ((s.candidates e r excluded).take 100).countP (fun j => e.busy (e.keys.job j.id)) = 100 := by
    rw [List.countP_eq_length.mpr hbusy, hlen]
  have hle := (List.take_sublist 100 (s.candidates e r excluded)).countP_le (p := fun j => e.busy (e.keys.job j.id))
  unfold ClaimSession.busyJobs at hfew
  omega

section Loop
variable [DecidableEq κ]

/-- The loop from any of its rounds. -/
theorem claimLoop_spec (hworker : r.worker.isSome = true) (htable : s.db.Constrained) (rounds : Nat)
    (hbusy : e.AllBusy excluded) (hnone : none ∉ excluded) (hrounds : (s.candidates e r excluded).length < rounds) :
    ∃ result t, claimLoop e r rounds excluded s = some (result, t) ∧ t.held = e.heldFor s.held result ∧
      (∀ j, result = .ok (some j) → t.releaseJobOwnership.held = s.held) ∧
      (s.busyJobs e r excluded < 100 → result = s.choice e r excluded) := by
  induction rounds generalizing excluded with
  | zero => omega
  | succ rounds ih =>
    by_cases hempty : (s.candidates e r excluded).take 100 = []
    · refine ⟨.ok none, s, by simp [claimLoop, hempty], rfl, by simp, fun _ => ?_⟩
      have hnil : s.candidates e r excluded = [] := by simpa using hempty
      simp [ClaimSession.choice, hnil]
    have hrows : ∀ x ∈ ((s.candidates e r excluded).take 100).map Job.candidate,
        ∃ j ∈ s.candidates e r excluded, j.candidate = x := by
      intro x hx
      obtain ⟨j, hj, rfl⟩ := List.mem_map.mp hx
      exact ⟨j, List.mem_of_mem_take hj, rfl⟩
    obtain ⟨added, hscan, hfruit⟩ | ⟨x, hfind, hscan⟩ := claimWindow_spec (s := s) hworker hbusy
      (((s.candidates e r excluded).take 100).map Job.candidate)
    · by_cases hadded : added = []
      · -- no provider was left out, so every row of the window has a busy job
        subst hadded
        refine ⟨.ok none, s, by rw [claimLoop, if_neg hempty, hscan]; simp, rfl, by simp, fun hfew => ?_⟩
        have hjobs : ∀ j ∈ (s.candidates e r excluded).take 100, e.busy (e.keys.job j.id) = true := by
          intro j hj
          rcases hfruit.skipped rfl _ (List.mem_map_of_mem hj) with hjob | ⟨hproc, hex⟩
          · exact hjob
          · have hselected := (List.mem_filter.mp (List.mem_of_mem_take hj)).2
            have hkind : j.kind.processing = false := hproc
            have hmem : j.provider ∈ excluded := hex
            simp [hkind, notAny, hmem, List.ne_nil_of_mem hmem] at hselected
        have hno : (s.candidates e r excluded).find? (fun j => e.obtainable j.candidate) = none := by
          rw [← window_whole hjobs hfew, List.find?_eq_none]
          intro j hj
          simp [hfruit.none _ (List.mem_map_of_mem hj)]
        rw [ClaimSession.choice, hno]
      · have hsomes : none ∉ excluded ++ added := by
          intro hmem
          rcases List.mem_append.mp hmem with hmem | hmem
          · exact hnone hmem
          · obtain ⟨x, hx, hproc, hxp⟩ := hfruit.source none hmem
            obtain ⟨j, hj, rfl⟩ := hrows x hx
            have hprovider := htable.acquires (candidates_mem hj) hproc
            have hnil : j.provider = none := hxp
            simp [hnil] at hprovider
        have hbusy' : e.AllBusy (excluded ++ added) := by
          intro p hp
          rcases List.mem_append.mp hp with hp | hp
          · exact hbusy p hp
          · exact hfruit.busy p hp
        have hshorter := candidates_shorter hadded hrows hfruit
        obtain ⟨result, t, hloop, hheld, hrelease, hchoice⟩ := ih hbusy' hsomes (by omega)
        refine ⟨result, t, by rw [claimLoop, if_neg hempty, hscan]; simp [hadded, hloop], hheld, hrelease,
          fun hfew => ?_⟩
        have hfewer : s.busyJobs e r (excluded ++ added) < 100 := by
          refine Nat.lt_of_le_of_lt ?_ hfew
          unfold ClaimSession.busyJobs
          rw [candidates_append]
          exact List.filter_sublist.countP_le
        rw [hchoice hfewer, ClaimSession.choice, ClaimSession.choice, find_append htable hbusy' hsomes]
    · obtain ⟨j, hj, rfl, hchoice⟩ := window_choice hfind
      obtain ⟨hresult, hheld, hrelease⟩ := claimTaken_spec (e := e) hworker (htable.job (candidates_mem hj))
      refine ⟨_, _, by rw [claimLoop, if_neg hempty, hscan], ?_, ?_, fun _ => ?_⟩
      · rw [hheld, hresult]
      · rw [hresult]
        exact hrelease
      · rw [hresult, hchoice]

/-- More rounds than a call needs change nothing. -/
theorem claimLoop_mono {rounds : Nat} {outcome : Except ClaimPoint (Option Job) × ClaimSession κ}
    (h : claimLoop e r rounds excluded s = some outcome) : claimLoop e r (rounds + 1) excluded s = some outcome := by
  induction rounds generalizing excluded s with
  | zero => simp [claimLoop] at h
  | succ rounds ih =>
    rw [claimLoop] at h ⊢
    split at h
    · next hempty => rw [if_pos hempty, h]
    · next hempty =>
      rw [if_neg hempty]
      split at h
      · exact h
      · split at h
        · next hlen => simp only [hlen, if_true, h]
        · next hlen =>
          simp only [hlen, if_false]
          exact ih h

theorem claimLoop_rounds {rounds more : Nat} {outcome : Except ClaimPoint (Option Job) × ClaimSession κ}
    (h : claimLoop e r rounds excluded s = some outcome) (hle : rounds ≤ more) :
    claimLoop e r more excluded s = some outcome := by
  induction hle with
  | refl => exact h
  | step _ ih => exact claimLoop_mono ih

/-- `claim_next_job` of a worker. The loop ends after as many rounds as there are rows. A call that answers nothing
or raises holds what it held; a call that answers a job holds the job's lock besides, and its provider's when the
job acquires; `release_job_ownership` then gives them back. While fewer than a hundred candidates have a busy job,
the answer is that of the first obtainable row. -/
theorem claim_next_job_balanced (e : Surroundings κ) (r : ClaimRequest) (s : ClaimSession κ)
    (hworker : r.worker.isSome = true) (htable : s.db.Constrained) :
    ∃ result t, (∀ rounds, (s.candidates e r []).length < rounds → claimNextJob e r rounds s = some (result, t)) ∧
      (∀ p, result = .error p → t.held = s.held) ∧
      (result = .ok none → t.held = s.held) ∧
      (∀ j, result = .ok (some j) → t.held = e.keys.job j.id ::ₘ
        if j.kind.processing then s.held else e.keys.provider j.provider ::ₘ s.held) ∧
      (∀ j, result = .ok (some j) → t.releaseJobOwnership.held = s.held) ∧
      (s.busyJobs e r [] < 100 →
        result = match (s.candidates e r []).find? fun j => e.obtainable j.candidate with
          | none => .ok none
          | some j =>
            if r.respectFairness ∧ ∃ wanted, r.jobId = some wanted ∧ wanted ≠ j.id then .ok none
            else match e.raises j.id with
              | some p => .error p
              | none => .ok (some (j.claimed r.now (some e.token)))) := by
  obtain ⟨result, t, hloop, hheld, hrelease, hchoice⟩ := claimLoop_spec (e := e) (r := r) hworker htable
    ((s.candidates e r []).length + 1) (show e.AllBusy [] by simp [Surroundings.AllBusy]) (by simp) (by omega)
  refine ⟨result, t, fun rounds hrounds => claimLoop_rounds hloop hrounds, ?_, ?_, ?_, hrelease, ?_⟩
  · rintro p rfl
    exact hheld
  · rintro rfl
    exact hheld
  · rintro j rfl
    rw [hheld, Surroundings.heldFor]
    split <;> rfl
  · intro hfew
    rw [hchoice hfew, ClaimSession.choice]
    cases (s.candidates e r []).find? fun j => e.obtainable j.candidate with
    | none => rfl
    | some j =>
      have hyields : r.yields j.id = true ↔ r.respectFairness ∧ ∃ wanted, r.jobId = some wanted ∧ wanted ≠ j.id := by
        unfold ClaimRequest.yields
        cases r.jobId with
        | none => simp
        | some wanted => simp [ne_comm]
      simp only [Surroundings.answer, hyields]

end Loop

end Locks

/-! ## A call -/

/-- A profile job that waits. -/
def profileJob (id : Nat) (provider : String) : Job :=
  Enqueue.row plainText ⟨some provider, .fetchUserProfile, .name "alice", [], none, none, 0, 10, none, false, "local", none, 90⟩
    id ("local", none)

/-- The provider of the first job and the second job are held by others. -/
def crowded : Surroundings (Option String ⊕ Nat) where
  keys := ⟨.inl, .inr⟩
  busy key := key = .inl (some "lichess") || key = .inr 2
  rows := []
  raises _ := none
  token := 7

def crowdedSession : ClaimSession (Option String ⊕ Nat) where
  db := ⟨[profileJob 1 "lichess", profileJob 2 "chess.com", profileJob 3 "chess.com"], 3, [], 0, [], [], []⟩
  turns _ _ := 0
  turnSeq := 0
  held := {.inr 9}
  ownershipKeys := []
  jobFence := none

def anyClaim : ClaimRequest := ⟨none, 100, some "worker", none, .all, 2, false⟩

theorem claim_next_job_crowded : ∃ t, claimNextJob crowded anyClaim 4 crowdedSession =
      some (.ok (some ((profileJob 3 "chess.com").claimed 100 (some 7))), t) ∧
    t.held = .inr 3 ::ₘ .inl (some "chess.com") ::ₘ {.inr 9} ∧ t.releaseJobOwnership.held = {.inr 9} := by
  have htable : crowdedSession.db.Constrained := ⟨by decide +kernel, by decide +kernel⟩
  obtain ⟨result, t, hends, _, _, hheld, hrelease, hchoice⟩ :=
    claim_next_job_balanced crowded anyClaim crowdedSession rfl htable
  have hfew : crowdedSession.busyJobs crowded anyClaim [] < 100 := by decide +kernel
  have hfirst : (crowdedSession.candidates crowded anyClaim []).find? (fun j => crowded.obtainable j.candidate) =
      some (profileJob 3 "chess.com") := by decide +kernel
  have hresult : result = .ok (some ((profileJob 3 "chess.com").claimed 100 (some 7))) := by
    rw [hchoice hfew, hfirst]
    rfl
  subst hresult
  exact ⟨t, hends 4 (by decide +kernel), hheld _ rfl, hrelease _ rfl⟩

end ChessCrawl.Jobs
