import ChessCrawl.Application.Submission
import ChessCrawl.Jobs.Steps

/-! Exactly-once submission. The lock of an identity is held from the lookup to the end of the transaction, so nobody
else can commit its row between a lookup that found none and the commit; and only that commit writes rows. -/
namespace ChessCrawl.Application
open ChessCrawl.Lib ChessCrawl.Jobs
set_option autoImplicit false

variable {β : Type}

/-! ## Rows -/

/-- The same submissions, runs, jobs, budgets and usage; sequences may have moved and policies may differ. -/
structure Tables.SameRows (t u : Tables β) : Prop where
  submissions : u.submissions = t.submissions
  runs : u.db.runs = t.db.runs
  jobs : u.db.jobs = t.db.jobs
  budgets : u.db.budgets = t.db.budgets
  accounts : u.ledger.budgets = t.ledger.budgets
  usage : u.ledger.periods = t.ledger.periods
  reservations : u.ledger.reservations = t.ledger.reservations
  gameItems : u.ledger.gameItems = t.ledger.gameItems

theorem Tables.SameRows.refl (t : Tables β) : t.SameRows t := ⟨rfl, rfl, rfl, rfl, rfl, rfl, rfl, rfl⟩

theorem installWorkspacePolicy_policies (L : Budget.Ledger) (w : Nat) (policy : Budget.BudgetPolicy) :
    ∃ policies, (L.installWorkspacePolicy w policy false).2 = { L with policies := policies } := by
  unfold Budget.Ledger.installWorkspacePolicy Budget.Ledger.workspacePolicy
  split
  next row L' hrow =>
  have hL' : ∃ policies, L' = { L with policies := policies } := by
    split at hrow
    · cases hrow
      exact ⟨_, rfl⟩
    · cases hrow
      exact ⟨_, rfl⟩
  obtain ⟨policies, rfl⟩ := hL'
  split
  · dsimp only
    split
    · exact ⟨_, rfl⟩
    · exact ⟨_, rfl⟩
  · exact ⟨_, rfl⟩

theorem Tables.sameRows_tighten (number : String → Nat) (t : Tables β) (c : Call β) :
    t.SameRows (t.tighten number c) := by
  unfold Tables.tighten
  dsimp only
  split
  · obtain ⟨policies, heq⟩ := installWorkspacePolicy_policies t.ledger (number c.workspaceId) c.policy
    rw [heq]
    exact ⟨rfl, rfl, rfl, rfl, rfl, rfl, rfl, rfl⟩
  · obtain ⟨policies, heq⟩ := installWorkspacePolicy_policies
      { t.ledger with workspaces := number c.workspaceId :: t.ledger.workspaces } (number c.workspaceId) c.policy
    rw [heq]
    exact ⟨rfl, rfl, rfl, rfl, rfl, rfl, rfl, rfl⟩

/-! ## Steps -/

/-- The stages in which a session holds the lock of its identity. -/
def Stage.locks : Stage β → Bool
  | .opened | .tightened | .committed .. => false
  | .locked | .absent | .created _ | .admitted _ | .recorded .. => true

/-- The stages behind a lookup that found nothing and in front of the commit. -/
def Stage.creates : Stage β → Bool
  | .absent | .created _ | .admitted _ | .recorded .. => true
  | .opened | .tightened | .locked | .committed .. => false

theorem Stage.locks_of_creates {x : Stage β} (h : x.creates = true) : x.locks = true := by
  cases x <;> simp_all [Stage.locks, Stage.creates]

/-- What one step does: it moves a session without touching a row, ends one, commits the rows of one, or happens
elsewhere. -/
inductive Moved [DecidableEq β] (number : String → Nat) (s : Desk β) : Event β → Desk β → Prop
  | begun {n : Nat} {c : Call β} : s.sessions n = none → Moved number s (.begin n c) (s.stand n (some ⟨c, .opened⟩))
  | tightened {n : Nat} {c : Call β} : s.sessions n = some ⟨c, .opened⟩ →
      Moved number s (.tighten n)
        (({ s with tables := s.tables.tighten number c } : Desk β).stand n (some ⟨c, .tightened⟩))
  | locked {n : Nat} {c : Call β} : s.sessions n = some ⟨c, .tightened⟩ → s.holder c.identity = none →
      Moved number s (.lock n) (({ s with holder := fun i => if i = c.identity then some n else s.holder i } : Desk β).stand
        n (some ⟨c, .locked⟩))
  | found {n : Nat} {c : Call β} {row : Submission β} : s.sessions n = some ⟨c, .locked⟩ →
      s.tables.getSubmission c.identity = some row → Moved number s (.lookup n) (s.answer n c (row.reply c.request))
  | absent {n : Nat} {c : Call β} : s.sessions n = some ⟨c, .locked⟩ → s.tables.getSubmission c.identity = none →
      Moved number s (.lookup n) (s.stand n (some ⟨c, .absent⟩))
  | wrote {n : Nat} {c : Call β} {x y : Stage β} {u : Tables β} {e : Event β} : e.session = some n →
      s.sessions n = some ⟨c, x⟩ → x.creates = true → y.creates = true → s.tables.SameRows u →
      u.ledger.policies = s.tables.ledger.policies →
      (∀ rows row, y = .recorded rows row → row = c.row rows) →
      Moved number s e (({ s with tables := u } : Desk β).stand n (some ⟨c, y⟩))
  | refused {n : Nat} {c : Call β} {x : Stage β} {u : Tables β} {e : Event β} : e.session = some n →
      s.sessions n = some ⟨c, x⟩ → x.creates = true → s.tables.SameRows u → u.ledger.policies = s.tables.ledger.policies →
      Moved number s e (({ s with tables := u } : Desk β).answer n c .refused)
  | committed {n : Nat} {c : Call β} {rows : Rows} {row : Submission β} :
      s.sessions n = some ⟨c, .recorded rows row⟩ → s.tables.getSubmission row.identity = none →
      Moved number s (.commit n) ((({ s with
        tables := s.tables.commit rows row
        created := s.created ++ [row] } : Desk β).unlock n).stand n (some ⟨c, .committed rows.runId rows.jobIds⟩))
  | replied {n : Nat} {c : Call β} {runId : Nat} {jobIds : List Nat} :
      s.sessions n = some ⟨c, .committed runId jobIds⟩ →
      Moved number s (.reply n) (s.answer n c (.accepted runId jobIds false))
  | crashed {n : Nat} : Moved number s (.crash n) ((s.unlock n).stand n none)
  | elsewhere {db : Db} {ledger : Budget.Ledger} :
      Moved number s (.elsewhere db ledger) { s with tables := { s.tables with db := db, ledger := ledger } }

section Inversion
variable [DecidableEq β] {T : Text} {number : String → Nat} {s t : Desk β}

/-- Only the event of its own stage moves a call. -/
theorem act_moved {n : Nat} {c : Call β} {x : Stage β} {e : Event β} (hn : s.sessions n = some ⟨c, x⟩)
    (he : e.session = some n) (hstep : s.act T number n c x e = some t) (hcrash : e ≠ .crash n) :
    Moved number s e t := by
  unfold Desk.act at hstep
  split at hstep
  · cases he
    cases hstep
    exact .tightened hn
  · cases he
    split at hstep
    · next hfree =>
      cases hstep
      exact .locked hn hfree
    · cases hstep
  · cases he
    split at hstep
    · next row hrow =>
      cases hstep
      exact .found hn hrow
    · next hnone =>
      cases hstep
      exact .absent hn hnone
  · split at hstep
    · next view _ =>
      cases hstep
      exact .refused (u := (s.issue view).tables) he hn rfl ⟨rfl, rfl, rfl, rfl, rfl, rfl, rfl, rfl⟩ rfl
    · next runId jobIds view _ =>
      cases hstep
      exact .wrote (u := (s.issue view).tables) he hn rfl rfl ⟨rfl, rfl, rfl, rfl, rfl, rfl, rfl, rfl⟩ rfl
        (by simp)
  · split at hstep
    · cases hstep
      exact .refused (u := s.tables) he hn rfl (Tables.SameRows.refl _) rfl
    · next rows' budgetSeq _ =>
      cases hstep
      exact .wrote (u := { s.tables with ledger := { s.tables.ledger with budgetSeq := budgetSeq } }) he hn rfl rfl
        ⟨rfl, rfl, rfl, rfl, rfl, rfl, rfl, rfl⟩ rfl (by simp)
  · next rows _ =>
    cases hstep
    exact .wrote (u := s.tables) he hn rfl rfl (Tables.SameRows.refl _) rfl (by simp)
  · cases he
    split at hstep
    · next hnone =>
      cases hstep
      exact .committed hn (by simpa using hnone)
    · cases hstep
      exact .refused (u := s.tables) rfl hn rfl (Tables.SameRows.refl _) rfl
  · cases he
    cases hstep
    exact .replied hn
  · cases hstep

theorem step_moved {e : Event β} (hstep : s.step T number e = some t) : Moved number s e t := by
  unfold Desk.step at hstep
  split at hstep
  · split at hstep
    · next hnone =>
      cases hstep
      exact .begun (by simpa using hnone)
    · cases hstep
  · cases hstep
    exact .elsewhere
  · cases hstep
    exact .crashed
  · next hcrash =>
    obtain ⟨n, he, hbind⟩ := Option.bind_eq_some_iff.mp hstep
    obtain ⟨x, hx, hact⟩ := Option.bind_eq_some_iff.mp hbind
    exact act_moved hx he hact (hcrash n)

end Inversion

/-! ## Lookups -/

theorem getSubmission_none {t : Tables β} {i : Identity} :
    t.getSubmission i = none ↔ ∀ row ∈ t.submissions, row.identity ≠ i := by
  simp [Tables.getSubmission, List.find?_eq_none]

theorem getSubmission_mem {t : Tables β} {i : Identity} {row : Submission β} (h : t.getSubmission i = some row) :
    row ∈ t.submissions ∧ row.identity = i :=
  ⟨List.mem_of_find?_eq_some h, by simpa using List.find?_some h⟩

/-- A request as it was recorded has nothing to fill in. -/
theorem filled_canonical (q : Request β) : q.canonical.filled q.operation = q.canonical := by
  cases q with
  | importGames r => simp [Request.canonical, Request.operation, Canonical.filled, setDefault, ImportRequest.fields]
  | crawl r => simp [Request.canonical, Request.operation, Canonical.filled]
  | _ => rfl

/-- The row answers the call: it holds the same operation and, where a replay fills it in, the same request. -/
def Submission.Matches (r : Submission β) (c : Call β) : Prop :=
  r.operation = c.request.operation ∧ r.request.filled c.request.operation = c.request.canonical

theorem row_matches (c : Call β) (rows : Rows) : (c.row rows).Matches c := ⟨rfl, filled_canonical c.request⟩

theorem reply_cases [DecidableEq β] (r : Submission β) (c : Call β) :
    (r.Matches c ∧ r.reply c.request = .accepted r.runId r.jobIds true) ∨ (¬ r.Matches c ∧ r.reply c.request = .conflict) := by
  unfold Submission.reply Submission.Matches
  split
  · next h =>
    right
    refine ⟨fun hm => ?_, rfl⟩
    simp [hm.1, hm.2] at h
  · next h =>
    left
    simp only [ne_eq, not_or, not_not] at h
    exact ⟨h, rfl⟩

theorem reply_iff [DecidableEq β] (r : Submission β) (c : Call β) :
    (r.reply c.request = .accepted r.runId r.jobIds true ↔ r.Matches c) ∧ (r.reply c.request = .conflict ↔ ¬ r.Matches c) := by
  obtain ⟨hmatches, hreply⟩ | ⟨hmatches, hreply⟩ := reply_cases r c <;> simp [hmatches, hreply]

/-! ## The invariant -/

/-- A stored row has the ids and answers the call. -/
def Tables.Holds (t : Tables β) (c : Call β) (runId : Nat) (jobIds : List Nat) : Prop :=
  ∃ row ∈ t.submissions, row.identity = c.identity ∧ row.runId = runId ∧ row.jobIds = jobIds ∧ row.Matches c

/-- What an answer says about the stored rows. -/
def Tables.Backs (t : Tables β) (c : Call β) : Answer → Prop
  | .accepted runId jobIds _ => t.Holds c runId jobIds
  | .conflict => ∃ row ∈ t.submissions, row.identity = c.identity ∧ ¬ row.Matches c
  | .refused => True

structure SubmitOk (s : Desk β) : Prop where
  unique : (s.tables.submissions.map Submission.identity).Nodup
  appended : ∃ before, s.tables.submissions = before ++ s.created
  holds : ∀ n c x, s.sessions n = some ⟨c, x⟩ → x.locks = true → s.holder c.identity = some n
  absent : ∀ n c x, s.sessions n = some ⟨c, x⟩ → x.creates = true → s.tables.getSubmission c.identity = none
  recorded : ∀ n c rows row, s.sessions n = some ⟨c, .recorded rows row⟩ → row = c.row rows
  committed : ∀ n c runId jobIds, s.sessions n = some ⟨c, .committed runId jobIds⟩ → s.tables.Holds c runId jobIds
  answered : ∀ p ∈ s.answers, s.tables.Backs p.1 p.2

section Invariant
variable {s t : Desk β}

theorem Tables.Holds.mono {t u : Tables β} {c : Call β} {runId : Nat} {jobIds : List Nat} (h : t.Holds c runId jobIds)
    (hsub : ∀ row ∈ t.submissions, row ∈ u.submissions) : u.Holds c runId jobIds := by
  obtain ⟨row, hrow, hrest⟩ := h
  exact ⟨row, hsub row hrow, hrest⟩

theorem Tables.Backs.mono {t u : Tables β} {c : Call β} {a : Answer} (h : t.Backs c a)
    (hsub : ∀ row ∈ t.submissions, row ∈ u.submissions) : u.Backs c a := by
  cases a with
  | accepted runId jobIds replayed => exact Tables.Holds.mono h hsub
  | conflict =>
    obtain ⟨row, hrow, hrest⟩ := h
    exact ⟨row, hsub row hrow, hrest⟩
  | refused => trivial

@[simp] theorem stand_sessions {n m : Nat} {x : Option (Session β)} :
    (s.stand n x).sessions m = if m = n then x else s.sessions m := rfl

/-- Lookups read the submissions alone. -/
theorem getSubmission_congr {t u : Tables β} (h : u.submissions = t.submissions) (i : Identity) :
    u.getSubmission i = t.getSubmission i := by
  unfold Tables.getSubmission
  rw [h]

/-- The stored row of an identity is the one that a lookup finds. -/
theorem SubmitOk.getSubmission (h : SubmitOk s) {row : Submission β} {i : Identity} (hrow : row ∈ s.tables.submissions)
    (hid : row.identity = i) : s.tables.getSubmission i = some row := by
  obtain hnone | ⟨row', hrow'⟩ := Option.eq_none_or_eq_some (s.tables.getSubmission i)
  · exact absurd hid (getSubmission_none.mp hnone row hrow)
  · obtain ⟨hmem, hid'⟩ := getSubmission_mem hrow'
    rw [hrow', List.inj_on_of_nodup_map h.unique hmem hrow (hid'.trans hid.symm)]

/-- The lock of another identity is held by another session. -/
theorem SubmitOk.apart (h : SubmitOk s) {n m : Nat} {c d : Call β} {x y : Stage β} (hn : s.sessions n = some ⟨c, x⟩)
    (hm : s.sessions m = some ⟨d, y⟩) (hne : m ≠ n) (hx : x.locks = true) (hy : y.locks = true) :
    d.identity ≠ c.identity := by
  intro heq
  have h1 := h.holds n c x hn hx
  have h2 := h.holds m d y hm hy
  rw [heq, h1] at h2
  exact hne (Option.some.inj h2).symm

/-- The end of a session that has written nothing. -/
theorem SubmitOk.close (h : SubmitOk s) (n : Nat) : SubmitOk ((s.unlock n).stand n none) where
  unique := h.unique
  appended := h.appended
  holds m c x hm hx := by
    simp only [stand_sessions] at hm
    split at hm
    · cases hm
    · next hne =>
      have hold := h.holds m c x hm hx
      change (if s.holder c.identity = some n then none else s.holder c.identity) = some m
      rw [hold, if_neg (by simpa using hne)]
  absent m c x hm hx := by
    simp only [stand_sessions] at hm
    split at hm
    · cases hm
    · exact h.absent m c x hm hx
  recorded m c rows row hm := by
    simp only [stand_sessions] at hm
    split at hm
    · cases hm
    · exact h.recorded m c rows row hm
  committed m c runId jobIds hm := by
    simp only [stand_sessions] at hm
    split at hm
    · cases hm
    · exact h.committed m c runId jobIds hm
  answered := h.answered

/-- Other tables with the same submissions. -/
theorem SubmitOk.retable (h : SubmitOk s) {u : Tables β} (hsub : u.submissions = s.tables.submissions) :
    SubmitOk ({ s with tables := u } : Desk β) where
  unique := by
    change (u.submissions.map Submission.identity).Nodup
    rw [hsub]
    exact h.unique
  appended := by
    obtain ⟨before, hbefore⟩ := h.appended
    exact ⟨before, hsub.trans hbefore⟩
  holds := h.holds
  absent m d x hm hx := (getSubmission_congr hsub _).trans (h.absent m d x hm hx)
  recorded := h.recorded
  committed m d runId jobIds hm := (h.committed m d runId jobIds hm).mono fun row hrow => hsub ▸ hrow
  answered p hp := (h.answered p hp).mono fun row hrow => hsub ▸ hrow

theorem SubmitOk.answer (h : SubmitOk s) {n : Nat} {c : Call β} {a : Answer} (ha : s.tables.Backs c a) :
    SubmitOk (s.answer n c a) := by
  have hclosed := h.close n
  refine ⟨hclosed.unique, hclosed.appended, hclosed.holds, hclosed.absent, hclosed.recorded, hclosed.committed, ?_⟩
  intro p hp
  obtain hp | hp := List.mem_append.mp hp
  · exact h.answered p hp
  · obtain rfl := List.mem_singleton.mp hp
    exact ha

/-- A session moves on to a stage that promises nothing new, over tables with the same submissions. -/
theorem SubmitOk.move (h : SubmitOk s) {n : Nat} {c : Call β} {y : Stage β} {u : Tables β}
    (hsub : u.submissions = s.tables.submissions)
    (hlock : y.locks = true → s.holder c.identity = some n)
    (habsent : y.creates = true → s.tables.getSubmission c.identity = none)
    (hrow : ∀ rows row, y = .recorded rows row → row = c.row rows)
    (hdone : ∀ runId jobIds, y ≠ .committed runId jobIds) :
    SubmitOk (({ s with tables := u } : Desk β).stand n (some ⟨c, y⟩)) where
  unique := (h.retable hsub).unique
  appended := (h.retable hsub).appended
  holds m d x hm hx := by
    simp only [stand_sessions] at hm
    split at hm
    · next heq =>
      cases hm
      rw [heq]
      exact hlock hx
    · exact h.holds m d x hm hx
  absent m d x hm hx := by
    change u.getSubmission d.identity = none
    rw [getSubmission_congr hsub]
    simp only [stand_sessions] at hm
    split at hm
    · cases hm
      exact habsent hx
    · exact h.absent m d x hm hx
  recorded m d rows row hm := by
    simp only [stand_sessions] at hm
    split at hm
    · cases hm
      exact hrow rows row rfl
    · exact h.recorded m d rows row hm
  committed m d runId jobIds hm := by
    simp only [stand_sessions] at hm
    split at hm
    · cases hm
      exact absurd rfl (hdone runId jobIds)
    · exact (h.retable hsub).committed m d runId jobIds hm
  answered := (h.retable hsub).answered

theorem SubmitOk.lock (h : SubmitOk s) {n : Nat} {c : Call β} (hfree : s.holder c.identity = none) :
    SubmitOk (({ s with holder := fun i => if i = c.identity then some n else s.holder i } : Desk β).stand n
      (some ⟨c, .locked⟩)) where
  unique := h.unique
  appended := h.appended
  holds m d x hm hx := by
    change (if d.identity = c.identity then some n else s.holder d.identity) = some m
    simp only [stand_sessions] at hm
    split at hm
    · next heq =>
      cases hm
      rw [if_pos rfl, heq]
    · have hold := h.holds m d x hm hx
      have hne : d.identity ≠ c.identity := by
        intro heq
        rw [heq, hfree] at hold
        cases hold
      rw [if_neg hne, hold]
  absent m d x hm hx := by
    simp only [stand_sessions] at hm
    split at hm
    · cases hm
      cases hx
    · exact h.absent m d x hm hx
  recorded m d rows row hm := by
    simp only [stand_sessions] at hm
    split at hm
    · cases hm
    · exact h.recorded m d rows row hm
  committed m d runId jobIds hm := by
    simp only [stand_sessions] at hm
    split at hm
    · cases hm
    · exact h.committed m d runId jobIds hm
  answered := h.answered

/-- The commit of a call whose identity is not stored. Whoever else is behind a lookup holds another identity. -/
theorem SubmitOk.commit (h : SubmitOk s) {n : Nat} {c : Call β} {rows : Rows} {row : Submission β}
    (hn : s.sessions n = some ⟨c, .recorded rows row⟩) :
    SubmitOk ((({ s with
      tables := s.tables.commit rows row
      created := s.created ++ [row] } : Desk β).unlock n).stand n (some ⟨c, .committed rows.runId rows.jobIds⟩)) := by
  have hrow := h.recorded n c rows row hn
  subst hrow
  have hnone := getSubmission_none.mp (h.absent n c _ hn rfl)
  have hsub : ∀ r ∈ s.tables.submissions, r ∈ (s.tables.commit rows (c.row rows)).submissions :=
    fun r hr => List.mem_append_left _ hr
  constructor
  · change ((s.tables.submissions ++ [c.row rows]).map Submission.identity).Nodup
    rw [List.map_append, List.map_singleton, List.nodup_append]
    refine ⟨h.unique, List.nodup_singleton _, fun i hi j hj heq => ?_⟩
    obtain ⟨r, hr, rfl⟩ := List.mem_map.mp hi
    obtain rfl := List.mem_singleton.mp hj
    exact hnone r hr heq
  · obtain ⟨before, hbefore⟩ := h.appended
    exact ⟨before, by
      change s.tables.submissions ++ [c.row rows] = before ++ (s.created ++ [c.row rows])
      rw [hbefore, List.append_assoc]⟩
  · intro m d x hm hx
    simp only [stand_sessions] at hm
    split at hm
    · cases hm
      cases hx
    · next hne =>
      have hold := h.holds m d x hm hx
      change (if s.holder d.identity = some n then none else s.holder d.identity) = some m
      rw [hold, if_neg (by simpa using hne)]
  · intro m d x hm hx
    simp only [stand_sessions] at hm
    split at hm
    · cases hm
      cases hx
    · next hne =>
      have hold := getSubmission_none.mp (h.absent m d x hm hx)
      have hapart := h.apart hn hm hne rfl (Stage.locks_of_creates hx)
      refine getSubmission_none.mpr fun r hr => ?_
      obtain hr | hr := List.mem_append.mp hr
      · exact hold r hr
      · obtain rfl := List.mem_singleton.mp hr
        exact fun heq => hapart heq.symm
  · intro m d rows' row' hm
    simp only [stand_sessions] at hm
    split at hm
    · cases hm
    · exact h.recorded m d rows' row' hm
  · intro m d runId jobIds hm
    simp only [stand_sessions] at hm
    split at hm
    · cases hm
      exact ⟨c.row rows, List.mem_append_right _ (List.mem_singleton_self _), rfl, rfl, rfl, row_matches c rows⟩
    · exact (h.committed m d runId jobIds hm).mono hsub
  · intro p hp
    exact (h.answered p hp).mono hsub

theorem SubmitOk.step [DecidableEq β] {number : String → Nat} (h : SubmitOk s) {e : Event β} (hmoved : Moved number s e t) :
    SubmitOk t := by
  cases hmoved with
  | begun hnone => exact h.move rfl (by simp [Stage.locks]) (by simp [Stage.creates]) (by simp) (by simp)
  | @tightened n c _ =>
    exact h.move (s.tables.sameRows_tighten number c).submissions (by simp [Stage.locks]) (by simp [Stage.creates])
      (by simp) (by simp)
  | locked _ hfree => exact h.lock hfree
  | @found n c row hn hrow =>
    obtain ⟨hmem, hid⟩ := getSubmission_mem hrow
    apply h.answer
    obtain ⟨hmatches, hreply⟩ | ⟨hmatches, hreply⟩ := reply_cases row c
    · rw [hreply]
      exact ⟨row, hmem, hid, rfl, rfl, hmatches⟩
    · rw [hreply]
      exact ⟨row, hmem, hid, hmatches⟩
  | @absent n c hn hnone =>
    exact h.move (u := s.tables) rfl (fun _ => h.holds n c _ hn rfl) (fun _ => hnone) (by simp) (by simp)
  | @wrote n c x y u e he hn hx hy hsame _ hrecorded =>
    refine h.move hsame.submissions (fun _ => h.holds n c x hn (Stage.locks_of_creates hx)) (fun _ => h.absent n c x hn hx)
      hrecorded fun runId jobIds heq => ?_
    rw [heq] at hy
    cases hy
  | refused he hn hx hsame _ => exact (h.retable hsame.submissions).answer trivial
  | committed hn _ => exact h.commit hn
  | @replied n c runId jobIds hn => exact h.answer (h.committed n c runId jobIds hn)
  | crashed => exact h.close _
  | elsewhere =>
    exact ⟨h.unique, h.appended, h.holds, h.absent, h.recorded, h.committed, h.answered⟩

end Invariant

/-! ## Every run -/

/-- Two stored rows of one identity are one row. -/
theorem Tables.Holds.agree {t : Tables β} (hunique : (t.submissions.map Submission.identity).Nodup) {c d : Call β}
    {runId runId' : Nat} {jobIds jobIds' : List Nat} (hc : t.Holds c runId jobIds) (hd : t.Holds d runId' jobIds')
    (heq : c.identity = d.identity) : runId = runId' ∧ jobIds = jobIds' ∧ c.request.operation = d.request.operation ∧
      c.request.canonical = d.request.canonical := by
  obtain ⟨row, hrow, hid, rfl, rfl, hop, hfill⟩ := hc
  obtain ⟨row', hrow', hid', rfl, rfl, hop', hfill'⟩ := hd
  have hsame : row = row' := List.inj_on_of_nodup_map hunique hrow hrow' (hid.trans (heq.trans hid'.symm))
  subst hsame
  have hoperation := hop.symm.trans hop'
  rw [hoperation] at hfill
  exact ⟨rfl, rfl, hoperation, hfill.symm.trans hfill'⟩

section Runs
variable [DecidableEq β] {T : Text} {number : String → Nat} {s t : Desk β}

theorem submitOk_of_reachable (h : Reachable (submissions T number) s) : SubmitOk s := by
  apply Reachable.invariant (I := SubmitOk) _ _ h
  · intro s hinit
    obtain ⟨hunique, hidle, hholder, hcreated, hanswers⟩ := hinit
    refine ⟨hunique, ⟨s.tables.submissions, by simp [hcreated]⟩, ?_, ?_, ?_, ?_, ?_⟩ <;> simp [hidle, hanswers]
  · intro s e t hI hstep
    exact hI.step (step_moved hstep)

/-- The rows of committed creations are the rows that a run adds. -/
theorem step_appends {before : List (Submission β)} {e : Event β} (hstep : s.step T number e = some t)
    (h : s.tables.submissions = before ++ s.created) : t.tables.submissions = before ++ t.created := by
  cases step_moved hstep with
  | tightened hn => exact (s.tables.sameRows_tighten number _).submissions.trans h
  | wrote _ _ _ _ hsame => exact hsame.submissions.trans h
  | refused _ _ _ hsame => exact hsame.submissions.trans h
  | @committed n c rows row _ _ =>
    change s.tables.submissions ++ [row] = before ++ (s.created ++ [row])
    rw [h, List.append_assoc]
  | _ => exact h

theorem run_appends {s₀ : Desk β} {es : List (Event β)} (hinit : (submissions T number).init s₀)
    (h : Trace (submissions T number) (fun _ _ => True) s₀ es s) : s.tables.submissions = s₀.tables.submissions ++ s.created := by
  obtain ⟨_, _, _, hcreated, _⟩ := hinit
  apply h.keeps (I := fun s => s.tables.submissions = s₀.tables.submissions ++ s.created)
  · intro s e t _ hs _ hstep
    exact step_appends hstep hs
  · simp [hcreated]

/-- The lookup of a key that is stored. -/
theorem lookup_replies (hok : SubmitOk s) {n : Nat} {c : Call β} {row : Submission β} (hn : s.sessions n = some ⟨c, .locked⟩)
    (hrow : row ∈ s.tables.submissions) (hid : row.identity = c.identity) :
    s.step T number (.lookup n) = some (s.answer n c (row.reply c.request)) := by
  have hfound := hok.getSubmission hrow hid
  simp [Desk.step, Event.session, hn, Desk.act, hfound]

end Runs

/-! ## Three calls of one key -/

def emptyDesk : Desk Unit :=
  ⟨⟨[], ⟨[], 0, [], 0, [], [], []⟩, ⟨[0], [], [], [], [], [], [], 0, 0⟩⟩, fun _ => none, fun _ => none, [], []⟩

/-- An import of one user under a policy. -/
def importCall (key : String) (maxGames : Int) (policy : Budget.BudgetPolicy) : Call Unit :=
  ⟨"local", key, .importGames ⟨"lichess", "ann", none, none, maxGames, .bounded, 1⟩, policy⟩

/-- Two calls race for a key, and a third one asks for more games under it. -/
def racingCalls : List (Event Unit) :=
  [.begin 0 (importCall "a" 10 .default), .begin 1 (importCall "a" 10 .default), .tighten 0, .tighten 1, .lock 1,
    .lookup 1, .create 1 0 none, .crash 1, .lock 0, .lookup 0, .create 0 0 none, .admitBudget 0 0, .record 0, .commit 0,
    .begin 2 (importCall "a" 20 .default), .tighten 2, .lock 2, .lookup 2, .begin 1 (importCall "a" 10 .default),
    .tighten 1, .lock 1, .lookup 1, .reply 0]

theorem emptyDesk_init : (submissions plainText fun _ => 0).init emptyDesk :=
  ⟨List.nodup_nil, fun _ => rfl, fun _ => rfl, rfl, rfl⟩

section Runs
variable [DecidableEq β] {T : Text} {number : String → Nat} {s t : Desk β}

/-- A call of an identity that is neither stored nor locked gets to its creation. -/
theorem absent_run (T : Text) (number : String → Nat) {m : Nat} {d : Call β} (hm : s.sessions m = none)
    (hfree : s.holder d.identity = none) (hnone : s.tables.getSubmission d.identity = none) :
    ∃ u, exec (submissions T number) (fun _ _ => True) s [.begin m d, .tighten m, .lock m, .lookup m] = some u ∧
      u.sessions m = some ⟨d, .absent⟩ := by
  let s₁ := s.stand m (some ⟨d, .opened⟩)
  let s₂ := ({ s₁ with tables := s₁.tables.tighten number d } : Desk β).stand m (some ⟨d, .tightened⟩)
  let s₃ := ({ s₂ with holder := fun i => if i = d.identity then some m else s₂.holder i } : Desk β).stand m
    (some ⟨d, .locked⟩)
  have h₁ : s.step T number (.begin m d) = some s₁ := by simp [Desk.step, hm, s₁]
  have h₂ : s₁.step T number (.tighten m) = some s₂ := by
    simp [Desk.step, Event.session, s₁, Desk.act, s₂]
  have h₃ : s₂.step T number (.lock m) = some s₃ := by
    have hfree₂ : s₂.holder d.identity = none := hfree
    simp only [Desk.step, Event.session, Option.bind_some]
    rw [show s₂.sessions m = some ⟨d, .tightened⟩ from if_pos rfl]
    simp [Desk.act, hfree₂, s₃]
  have h₄ : s₃.step T number (.lookup m) = some (s₃.stand m (some ⟨d, .absent⟩)) := by
    have hnone₃ : s₃.tables.getSubmission d.identity = none := by
      rw [← hnone]
      exact getSubmission_congr (s.tables.sameRows_tighten number d).submissions _
    simp only [Desk.step, Event.session, Option.bind_some]
    rw [show s₃.sessions m = some ⟨d, .locked⟩ from if_pos rfl]
    simp [Desk.act, hnone₃]
  refine ⟨s₃.stand m (some ⟨d, .absent⟩), ?_, if_pos rfl⟩
  simp only [exec_cons, submissions, if_true, h₁, h₂, h₃, h₄, Option.bind_some]
  rfl

/-- The stage from which a call ends, and what it ends in. -/
theorem step_ends {n : Nat} {c : Call β} {a : Answer} {e : Event β} (h : Moved number s e t) (he : e.session = some n)
    (hanswers : t.answers = s.answers ++ [(c, a)]) :
    (∃ row, s.sessions n = some ⟨c, .locked⟩ ∧ s.tables.getSubmission c.identity = some row ∧ a = row.reply c.request ∧
      t = s.answer n c a) ∨
    (∃ x u, s.sessions n = some ⟨c, x⟩ ∧ x.creates = true ∧ s.tables.SameRows u ∧ a = .refused ∧
      t = ({ s with tables := u } : Desk β).answer n c a) ∨
    ∃ runId jobIds, s.sessions n = some ⟨c, .committed runId jobIds⟩ ∧ a = .accepted runId jobIds false := by
  have hlast : ∀ {p : Call β × Answer}, s.answers ++ [p] = s.answers ++ [(c, a)] → p = (c, a) :=
    fun heq => List.singleton_inj.mp (List.append_cancel_left heq)
  have hnew : s.answers ≠ s.answers ++ [(c, a)] := by simp
  cases h with
  | @found m d row hn hrow =>
    cases he
    cases hlast hanswers
    exact .inl ⟨row, hn, hrow, rfl, rfl⟩
  | @refused m d x u e' he' hn hx hsame _ =>
    cases he.symm.trans he'
    cases hlast hanswers
    exact .inr (.inl ⟨x, u, hn, hx, hsame, rfl, rfl⟩)
  | @replied m d runId jobIds hn =>
    cases he
    cases hlast hanswers
    exact .inr (.inr ⟨runId, jobIds, hn, rfl⟩)
  | _ => exact absurd hanswers hnew

/-- A refusal leaves neither a row of its identity nor the lock. -/
theorem refused_frees (hok : SubmitOk s) {n : Nat} {c : Call β} {e : Event β} (h : Moved number s e t)
    (he : e.session = some n) (hanswers : t.answers = s.answers ++ [(c, .refused)]) :
    t.tables.getSubmission c.identity = none ∧ t.holder c.identity = none := by
  obtain ⟨row, _, _, hreply, _⟩ | ⟨x, u, hn, hx, hsame, _, rfl⟩ | ⟨_, _, _, ha⟩ := step_ends h he hanswers
  · obtain ⟨_, hreply'⟩ | ⟨_, hreply'⟩ := reply_cases row c <;> cases hreply.trans hreply'
  · refine ⟨(getSubmission_congr hsame.submissions _).trans (hok.absent n c x hn hx), ?_⟩
    change (if s.holder c.identity = some n then none else s.holder c.identity) = none
    rw [if_pos (hok.holds n c x hn (Stage.locks_of_creates hx))]
  · cases ha

/-- A step of a call commits its rows, under a key that is not stored, or leaves all rows alone. -/
theorem step_effect (hok : SubmitOk s) {n : Nat} {e : Event β} (h : Moved number s e t) (he : e.session = some n) :
    (∃ c rows, e = .commit n ∧ s.sessions n = some ⟨c, .recorded rows (c.row rows)⟩ ∧
      s.tables.getSubmission c.identity = none ∧ t.sessions n = some ⟨c, .committed rows.runId rows.jobIds⟩ ∧
      t.tables = s.tables.commit rows (c.row rows) ∧ t.created = s.created ++ [c.row rows]) ∨
    (s.tables.SameRows t.tables ∧ t.created = s.created ∧
      (e = .tighten n ∨ t.tables.ledger.policies = s.tables.ledger.policies)) := by
  cases h with
  | begun _ => cases he
  | @tightened m c hn =>
    cases he
    exact .inr ⟨s.tables.sameRows_tighten number c, rfl, .inl rfl⟩
  | wrote _ _ _ _ hsame hpolicies => exact .inr ⟨hsame, rfl, .inr hpolicies⟩
  | refused _ _ _ hsame hpolicies => exact .inr ⟨hsame, rfl, .inr hpolicies⟩
  | @committed m c rows row hn _ =>
    cases he
    obtain rfl := hok.recorded _ c rows row hn
    exact .inl ⟨c, rows, rfl, hn, hok.absent _ c _ hn rfl, if_pos rfl, rfl, rfl⟩
  | elsewhere => cases he
  | _ => exact .inr ⟨Tables.SameRows.refl _, rfl, .inr rfl⟩

/-- Every step of a call except its commit leaves the submissions, runs, jobs, budgets and usage as they were, and
only the first one touches a policy. The commit adds the rows of the call. A refused call has no row and no lock left
behind, so that any later call of its identity gets to the creation. -/
theorem submission_leaves_no_trace (h : Reachable (submissions T number) s) {n : Nat} {e : Event β}
    (he : e.session = some n) (hstep : s.step T number e = some t) :
    ((∃ c rows, e = .commit n ∧ s.sessions n = some ⟨c, .recorded rows (c.row rows)⟩ ∧
        t.tables = s.tables.commit rows (c.row rows) ∧ t.created = s.created ++ [c.row rows]) ∨
      (s.tables.SameRows t.tables ∧ t.created = s.created ∧
        (e = .tighten n ∨ t.tables.ledger.policies = s.tables.ledger.policies))) ∧
    ∀ c, t.answers = s.answers ++ [(c, .refused)] →
      (∀ row ∈ t.tables.submissions, row.identity ≠ c.identity) ∧ t.holder c.identity = none ∧
      ∀ m d, d.identity = c.identity → t.sessions m = none →
        ∃ u, exec (submissions T number) (fun _ _ => True) t [.begin m d, .tighten m, .lock m, .lookup m] = some u ∧
          u.sessions m = some ⟨d, .absent⟩ := by
  have hok := submitOk_of_reachable h
  have hmoved := step_moved hstep
  refine ⟨?_, fun c hc => ?_⟩
  · obtain ⟨c, rows, heq, hn, _, _, htables, hcreated⟩ | hsame := step_effect hok hmoved he
    · exact .inl ⟨c, rows, heq, hn, htables, hcreated⟩
    · exact .inr hsame
  · obtain ⟨hnone, hfree⟩ := refused_frees hok hmoved he hc
    refine ⟨getSubmission_none.mp hnone, hfree, fun m d hd hm => ?_⟩
    exact absent_run T number hm (by rw [hd]; exact hfree) (by rw [hd]; exact hnone)

end Runs

/-- One queued and one running job are all that a workspace may have. -/
def tight : Budget.BudgetPolicy where
  value f := if f = .workspaceMaxActiveJobs ∨ f = .workspaceMaxQueuedJobs then 1 else Budget.defaultValue f
  valid f := by
    have := Budget.BudgetPolicy.default.valid f
    split
    · decide
    · exact this

/-- The second import finds the workspace full. -/
def fillingCalls : List (Event Unit) :=
  [.begin 0 (importCall "a" 10 tight), .tighten 0, .lock 0, .lookup 0, .create 0 0 none, .admitBudget 0 0, .record 0, .commit 0,
    .begin 1 (importCall "b" 10 tight), .tighten 1, .lock 1, .lookup 1, .create 1 0 none]

theorem sole_answer {s t : Desk β} {i : Identity} {a : Answer} (hnil : s.answers = [])
    (hmap : t.answers.map (fun p => (p.1.identity, p.2)) = [(i, a)]) :
    ∃ c, t.answers = s.answers ++ [(c, a)] ∧ c.identity = i := by
  rw [hnil]
  cases h : t.answers with
  | nil => simp [h] at hmap
  | cons p rest =>
    obtain ⟨c, b⟩ := p
    simp only [h, List.map_cons, List.cons.injEq, Prod.mk.injEq, List.map_eq_nil_iff] at hmap
    obtain ⟨⟨hid, rfl⟩, rfl⟩ := hmap
    exact ⟨c, rfl, hid⟩

theorem submission_leaves_no_trace_full : ∃ s t : Desk Unit, Reachable (submissions plainText fun _ => 0) s ∧
    s.step plainText (fun _ => 0) (.admitBudget 1 0) = some t ∧ t.answers.map Prod.snd = [.refused] ∧
    s.tables.SameRows t.tables ∧ t.holder ("local", "b") = none ∧
    ∀ row ∈ t.tables.submissions, row.identity ≠ ("local", "b") := by
  have htest : ((exec (submissions plainText fun _ => 0) (fun _ _ => True) emptyDesk fillingCalls).any fun s =>
      s.answers.isEmpty && (s.step plainText (fun _ => 0) (.admitBudget 1 0)).any fun t =>
        decide (t.answers.map (fun p => (p.1.identity, p.2)) = [(("local", "b"), .refused)])) = true := by decide +kernel
  obtain ⟨s, hs, htest⟩ := (Option.any_eq_true ..).mp htest
  obtain ⟨hempty, htest⟩ := Bool.and_eq_true_iff.mp htest
  obtain ⟨t, ht, hanswers⟩ := (Option.any_eq_true ..).mp htest
  have hreach : Reachable (submissions plainText fun _ => 0) s :=
    Reach.exec (.start emptyDesk_init) fillingCalls hs
  obtain ⟨heffect, hrefused⟩ := submission_leaves_no_trace hreach (n := 1) rfl ht
  have hnil : s.answers = [] := by simpa using hempty
  obtain ⟨c, hc, hid⟩ := sole_answer hnil (of_decide_eq_true hanswers)
  obtain ⟨hnone, hfree, _⟩ := hrefused c hc
  rw [hid] at hnone hfree
  refine ⟨s, t, hreach, ht, ?_, ?_, hfree, hnone⟩
  · rw [hc, hnil]
    rfl
  · obtain ⟨_, _, hcommit, _⟩ | ⟨hsame, _⟩ := heffect
    · cases hcommit
    · exact hsame

end ChessCrawl.Application
