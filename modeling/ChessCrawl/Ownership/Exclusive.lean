import ChessCrawl.Ownership.Fencing

/-! Exclusive ownership over whole runs: one session at a time can commit under a job's fence, no
commit carries a token that was claimed before the job's last change of owner, generations grow, and
a provider's permit has one holder. -/
namespace ChessCrawl.Ownership
open ChessCrawl.Lib
set_option autoImplicit false

/-! ## The invariant -/

structure Inv (s : State) : Prop where
  apart : Apart Compatible s.sessions
  sessions : ∀ i x, s.sessions[i]? = some x → SessionOk s.archive i x
  archive : ArchiveOk s.archive

/-- A session keeps its facts while another one moves: the rows it shares are not updated, and the
tokens the other commits are the other's own. -/
theorem SessionOk.frame {others : List Session} {i j : Nat} {a a' : Archive} {x x' y : Session}
    (hy : SessionOk a j y) (hstep : StepOk others i a a' x x') (ha : ArchiveOk a) (hne : j ≠ i)
    (hxy : Compatible x y) : SessionOk a' j y := by
  refine ⟨hy.dead, fun job token h => hstep.issued _ (hy.fence job token h), hy.locked, ?_, ?_, ?_⟩
  · exact fun t ht w hw job token heq => hstep.issued _ (hy.claims t ht w hw job token heq)
  · intro t ht
    obtain ⟨hclaims, _, hapart⟩ := List.nodup_append.mp (hy.fresh t ht)
    refine List.nodup_append.mpr ⟨hclaims, hstep.archive.fresh, fun token hmem token' hlog heq => ?_⟩
    subst heq
    rcases hstep.tokens token hlog with hold | hother
    · exact hapart token hmem token hold rfl
    · obtain ⟨job, hw⟩ := mem_claimTokens hmem
      exact hne (issued_unique ha.issued (hy.claims t ht _ hw job token rfl) hother)
  · intro t job token ht hf
    obtain ⟨hshared, howned, hissued⟩ := hy.carried t job token ht hf
    refine ⟨hshared, ?_, hstep.issued _ hissued⟩
    rcases hstep.rows job with hrow | ⟨u, hu, hex⟩
    · rw [hrow]
      exact howned
    · exact absurd hshared (hxy.left u t hu ht job hex).2

theorem inv_init {cfg : Config} (s : State) (h : (ownership cfg).init s) : Inv s := by
  obtain ⟨hsessions, hissued, hlog, hrows⟩ := h
  refine ⟨?_, ?_, ⟨?_, ?_, ?_, ?_, ?_, ?_⟩⟩
  · intro i j x y hx
    rw [hsessions] at hx
    cases hx
  · intro i x hx
    rw [hsessions] at hx
    cases hx
  · rw [hissued]
    exact List.nodup_nil
  · intro job token ht
    rw [hrows job] at ht
    cases ht
  · intro job token g i hmem
    rw [hlog] at hmem
    exact absurd hmem List.not_mem_nil
  · rw [hlog]
    trivial
  · rw [hlog]
    exact List.nodup_nil
  · rw [hlog]
    exact fun _ hmem => absurd hmem List.not_mem_nil

theorem inv_connect {s : State} {pid : Nat} (h : Inv s)
    (hfree : (s.sessions.all fun y => !y.live || decide (y.pid ≠ pid)) = true) :
    Inv { s with sessions := s.sessions ++ [⟨true, pid, none, [], [], none⟩] } := by
  refine ⟨?_, ?_, h.archive⟩
  · refine h.apart.append (fun _ _ => Compatible.symm) fun y hy => ⟨?_, ?_, ?_, ?_⟩
    · exact fun k hk => absurd hk List.not_mem_nil
    · intro _ hlive hpid
      have hy' := List.all_eq_true.mp hfree y hy
      rw [hlive] at hy'
      exact of_decide_eq_true hy' hpid.symm
    · exact fun t u ht => nomatch ht
    · exact fun t u ht => nomatch ht
  · intro i x hx
    change (s.sessions ++ [(⟨true, pid, none, [], [], none⟩ : Session)])[i]? = some x at hx
    rw [List.getElem?_append] at hx
    split at hx
    · exact h.sessions i x hx
    · obtain rfl := List.mem_singleton.mp (List.mem_of_getElem? hx)
      refine ⟨?_, ?_, ?_, ?_, ?_, ?_⟩
      · exact fun h => nomatch h
      · exact fun _ _ h => nomatch h
      · exact fun _ h => nomatch h
      · exact fun _ h => nomatch h
      · exact fun _ h => nomatch h
      · exact fun _ _ _ h => nomatch h

theorem inv_act {s : State} {i : Nat} {x x' : Session} {a' : Archive} (h : Inv s)
    (hx : s.sessions[i]? = some x) (hstep : StepOk (s.sessions.eraseIdx i) i s.archive a' x x') :
    Inv ⟨s.sessions.set i x', a'⟩ := by
  refine ⟨?_, ?_, hstep.archive⟩
  · refine h.apart.set (fun _ _ => Compatible.symm) fun y hy => ?_
    exact hstep.reserves.compatible (h.apart.of_mem_eraseIdx hx hy) hy
  · intro j y hy
    rcases getElem?_set_cases hy with ⟨rfl, rfl⟩ | ⟨hne, hy⟩
    · exact hstep.session
    · exact (h.sessions j y hy).frame hstep h.archive hne (h.apart i j x y hx hy hne.symm)

theorem inv_step {cfg : Config} (s : State) (e : Event) (s' : State) (h : Inv s)
    (hstep : (ownership cfg).step s e = some s') : Inv s' := by
  cases e with
  | connect pid =>
    change step cfg s (.connect pid) = some s' at hstep
    simp only [step] at hstep
    split at hstep
    · next hfree =>
      cases hstep
      exact inv_connect h hfree
    · cases hstep
  | act i e =>
    obtain ⟨x, hx, hrest⟩ := Option.bind_eq_some_iff.mp hstep
    obtain ⟨⟨x', a'⟩, hact, heq⟩ := Option.bind_eq_some_iff.mp hrest
    cases heq
    exact inv_act h hx (stepOk_act (h.sessions i x hx) h.archive hact)

theorem inv_of_reachable {cfg : Config} {s : State} (h : Reachable (ownership cfg) s) : Inv s :=
  Reachable.invariant inv_init inv_step h

/-! ## One owner at a time -/

/-- Session `i` is live and has a transaction that carries the job's fence, or could begin one. -/
def CanCommit (s : State) (i job : Nat) : Prop :=
  ∃ x, s.sessions[i]? = some x ∧ x.live = true ∧
    ((∃ t token, x.txn = some t ∧ t.fence = some (job, token)) ∨
      ∃ token x', x.txn = none ∧ x.jobFence = some (job, token) ∧
        x.begin s.archive (s.sessions.eraseIdx i) = some x')

theorem CanCommit.owned {s : State} {i job : Nat} (hinv : Inv s) (h : CanCommit s i job) :
    ∃ x token, s.sessions[i]? = some x ∧ x.live = true ∧
      (s.archive.rows job).ownedBy token x.pid = true := by
  obtain ⟨x, hx, hlive, ⟨t, token, ht, hf⟩ | ⟨token, x', _, hf, hbegin⟩⟩ := h
  · exact ⟨x, token, hx, hlive, ((hinv.sessions i x hx).carried t job token ht hf).2.1⟩
  · exact ⟨x, token, hx, hlive, ((begin_eq hbegin).2 job token hf).1⟩

theorem canCommit_unique {s : State} (hinv : Inv s) {i j job : Nat} (hi : CanCommit s i job)
    (hj : CanCommit s j job) : i = j := by
  obtain ⟨x, _, hx, hlx, hox⟩ := hi.owned hinv
  obtain ⟨y, _, hy, hly, hoy⟩ := hj.owned hinv
  by_contra hne
  have hpx := (of_decide_eq_true hox).2.2
  have hpy := (of_decide_eq_true hoy).2.2
  have hpid : x.pid = y.pid := Option.some.inj (hpx.symm.trans hpy)
  exact (hinv.apart i j x y hx hy hne).pid hlx hly hpid

theorem held_unique {s : State} (hinv : Inv s) {i j : Nat} {x y : Session} {k : Int}
    (hx : s.sessions[i]? = some x) (hy : s.sessions[j]? = some y) (hkx : k ∈ x.held) (hky : k ∈ y.held) :
    i = j := by
  by_contra hne
  exact (hinv.apart i j x y hx hy hne).held k hkx hky

/-! ## The log of a run -/

/-- The entry changes the owner of the job. -/
def Entry.changesOwner (job : Nat) : Entry → Prop
  | .claimed j _ _ _ | .recovered j => j = job
  | .fencedCommit _ _ _ => False

/-- The latest owner comes from the entries down to the last change of owner. -/
theorem owner_claimed {mid pre : List Entry} {e : Entry} {job token i : Nat}
    (he : e.changesOwner job) (h : owner (mid ++ e :: pre) job = some (token, i)) :
    ∃ g, .claimed job token g i ∈ mid ++ [e] := by
  induction mid with
  | nil =>
    cases e with
    | claimed j tok g i' =>
      obtain rfl : j = job := he
      simp only [List.nil_append, owner, if_true] at h
      cases h
      exact ⟨g, List.mem_singleton.mpr rfl⟩
    | recovered j =>
      obtain rfl : j = job := he
      simp [owner] at h
    | fencedCommit j tok i' => exact absurd he id
  | cons d mid ih =>
    have later : owner (mid ++ e :: pre) job = some (token, i) →
        ∃ g, .claimed job token g i ∈ d :: mid ++ [e] := by
      intro hrest
      obtain ⟨g, hmem⟩ := ih hrest
      exact ⟨g, List.mem_cons_of_mem d hmem⟩
    cases d with
    | claimed j tok g i' =>
      simp only [List.cons_append, owner] at h
      split at h
      · next heq =>
        cases h
        subst heq
        exact ⟨g, List.mem_cons_self⟩
      · exact later h
    | recovered j =>
      simp only [List.cons_append, owner] at h
      split at h
      · cases h
      · exact later h
    | fencedCommit j tok i' => exact later h

theorem stale_token_absent {mid pre : List Entry} {e : Entry} {job token i : Nat}
    (hfresh : (tokens (mid ++ e :: pre)).Nodup) (he : e.changesOwner job)
    (h : owner (mid ++ e :: pre) job = some (token, i)) (g' i' : Nat) :
    .claimed job token g' i' ∉ pre := by
  intro hold
  obtain ⟨g, hnew⟩ := owner_claimed he h
  have hsplit : tokens (mid ++ e :: pre) = tokens (mid ++ [e]) ++ tokens pre := by
    rw [show mid ++ e :: pre = (mid ++ [e]) ++ pre from (List.append_cons mid e pre)]
    exact List.filterMap_append
  rw [hsplit] at hfresh
  exact (List.nodup_append.mp hfresh).2.2 token (mem_tokens hnew) token (mem_tokens hold) rfl

theorem tokens_suffix_nodup (post : List Entry) {pre : List Entry} (h : (tokens (post ++ pre)).Nodup) :
    (tokens pre).Nodup := by
  have hsplit : tokens (post ++ pre) = tokens post ++ tokens pre := List.filterMap_append
  rw [hsplit] at h
  exact (List.nodup_append.mp h).2.1

/-! ## Ownership in every run -/

theorem job_ownership_fenced (cfg : Config) {s : State} (h : Reachable (ownership cfg) s) :
    (∀ job i j, CanCommit s i job → CanCommit s j job → i = j) ∧
    (∀ job token i post mid e pre,
      s.archive.log = post ++ .fencedCommit job token i :: (mid ++ e :: pre) → e.changesOwner job →
        ∀ g' i', .claimed job token g' i' ∉ pre) ∧
    (∀ job token i post pre, s.archive.log = post ++ .fencedCommit job token i :: pre →
      owner pre job = some (token, i)) ∧
    (∀ job token g i post pre, s.archive.log = post ++ .claimed job token g i :: pre →
      ∀ token' g' i', .claimed job token' g' i' ∈ pre → g' < g) ∧
    (∀ (provider i j : Nat) (x y : Session), s.sessions[i]? = some x → s.sessions[j]? = some y →
      cfg.providerKey provider ∈ x.held → cfg.providerKey provider ∈ y.held → i = j) := by
  have hinv := inv_of_reachable h
  have hcommit : ∀ job token i post pre, s.archive.log = post ++ .fencedCommit job token i :: pre →
      owner pre job = some (token, i) := by
    intro job token i post pre heq
    have hlog := hinv.archive.log
    rw [heq] at hlog
    exact hlog.suffix.1
  refine ⟨fun job i j => canCommit_unique hinv, ?_, hcommit, ?_, ?_⟩
  · intro job token i post mid e pre heq he g' i'
    have hfresh := hinv.archive.fresh
    rw [heq] at hfresh
    have hpre : (tokens (.fencedCommit job token i :: (mid ++ e :: pre))).Nodup :=
      tokens_suffix_nodup post hfresh
    exact stale_token_absent hpre he (hcommit job token i post _ heq) g' i'
  · intro job token g i post pre heq
    have hlog := hinv.archive.log
    rw [heq] at hlog
    exact hlog.suffix.1
  · exact fun provider i j x y hx hy hkx hky => held_unique hinv hx hy hkx hky

/-- One acquisition job of one provider. -/
def oneProvider : Config := ⟨fun job => job, fun p => -1 - p, fun _ => some 0⟩

def unowned : State := ⟨[], ⟨fun _ => ⟨.pending, none, none, 0⟩, [], []⟩⟩

/-- A worker claims the job, commits under its fence and dies with a second transaction open. -/
def claimAndDie : List Action :=
  [.begin, .lockRow 7, .takeProvider 7, .takeJob 7, .claimWrite 1, .commit, .begin, .commit, .begin, .die]

/-- Another session recovers the job, claims it and begins under the new fence. -/
def recoverAndClaim : List Action :=
  [.begin, .findOrphan 7, .resumeOrphan, .releaseOrphan, .commit, .begin, .lockRow 7, .takeProvider 7,
    .takeJob 7, .claimWrite 2, .commit, .begin]

def takeover : List Event :=
  .connect 10 :: (claimAndDie.map (Event.act 0) ++ .connect 10 :: recoverAndClaim.map (Event.act 1))

theorem job_ownership_fenced_takeover : ∃ s, Reachable (ownership oneProvider) s ∧
    s.archive.log = [.claimed 7 2 2 1, .recovered 7, .fencedCommit 7 1 0, .claimed 7 1 1 0] ∧
    CanCommit s 1 7 ∧ ∀ j, CanCommit s j 7 → 1 = j := by
  obtain ⟨s, hr, hp⟩ := Reach.of_exec (ownership oneProvider) (fun _ _ => True) (s := unowned)
    ⟨rfl, rfl, rfl, fun _ => rfl⟩ takeover
    (fun s => decide (s.archive.log =
        [.claimed 7 2 2 1, .recovered 7, .fencedCommit 7 1 0, .claimed 7 1 1 0]) &&
      s.sessions[1]?.any fun x => x.live && x.txn.any fun t => decide (t.fence = some (7, 2)))
    (by decide +kernel)
  obtain ⟨hlog, hany⟩ := (Bool.and_eq_true _ _).mp hp
  obtain ⟨x, hx, hx'⟩ := (Option.any_eq_true _ _).mp hany
  obtain ⟨hlive, htxn⟩ := (Bool.and_eq_true _ _).mp hx'
  obtain ⟨t, ht, hf⟩ := (Option.any_eq_true _ _).mp htxn
  have hf : t.fence = some (7, 2) := of_decide_eq_true hf
  have hlog := of_decide_eq_true hlog
  have hcan : CanCommit s 1 7 := ⟨x, hx, hlive, .inl ⟨t, 2, ht, hf⟩⟩
  exact ⟨s, hr, hlog, hcan, fun j => (job_ownership_fenced oneProvider hr).1 7 1 j hcan⟩

end ChessCrawl.Ownership
