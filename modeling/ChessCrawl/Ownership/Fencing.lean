import ChessCrawl.Lib.Apart
import ChessCrawl.Ownership.Sessions
import Mathlib.Data.List.Nodup

/-! Fencing. A transaction that verified its fence keeps a shared lock on the job's row, and claims,
recoveries and completions lock it exclusively; so the row still names the transaction's session and
token when it commits, and every commit under a fence follows the claim that issued its token. -/
namespace ChessCrawl.Ownership
open ChessCrawl.Lib
set_option autoImplicit false

/-! ## The log -/

/-- The token and session of the job's latest claim, none after a recovery. -/
def owner : List Entry → Nat → Option (Nat × Nat)
  | [], _ => none
  | .claimed j token _ session :: log, job => if j = job then some (token, session) else owner log job
  | .recovered j :: log, job => if j = job then none else owner log job
  | .fencedCommit _ _ _ :: log, job => owner log job

def Entry.token? : Entry → Option Nat
  | .claimed _ token _ _ => some token
  | _ => none

def Write.token? : Write → Option Nat
  | .claim _ token => some token
  | _ => none

/-- The tokens of the committed claims. -/
def tokens (log : List Entry) : List Nat := log.filterMap Entry.token?

/-- The tokens of a transaction's claims. -/
def claimTokens (ws : List Write) : List Nat := ws.filterMap Write.token?

theorem mem_tokens {log : List Entry} {job token g i : Nat} (h : .claimed job token g i ∈ log) :
    token ∈ tokens log :=
  List.mem_filterMap.mpr ⟨_, h, rfl⟩

theorem mem_claimTokens {ws : List Write} {token : Nat} (h : token ∈ claimTokens ws) :
    ∃ job, .claim job token ∈ ws := by
  obtain ⟨w, hw, hwt⟩ := List.mem_filterMap.mp h
  cases w with
  | claim job token' =>
    cases hwt
    exact ⟨job, hw⟩
  | recover job => cases hwt
  | finish job state => cases hwt

/-- Commits follow their own claim, and generations grow with every claim. -/
def LogOk : List Entry → Prop
  | [] => True
  | .claimed job _ g _ :: log => (∀ token' g' i', .claimed job token' g' i' ∈ log → g' < g) ∧ LogOk log
  | .recovered _ :: log => LogOk log
  | .fencedCommit job token i :: log => owner log job = some (token, i) ∧ LogOk log

theorem LogOk.suffix {post pre : List Entry} (h : LogOk (post ++ pre)) : LogOk pre := by
  induction post with
  | nil => exact h
  | cons e post ih =>
    cases e with
    | claimed job token g i => exact ih h.2
    | recovered job => exact ih h
    | fencedCommit job token i => exact ih h.2

structure ArchiveOk (a : Archive) : Prop where
  issued : (a.issued.map Prod.fst).Nodup
  owner : ∀ job token, (a.rows job).ownershipToken = some token →
    ∃ i, Ownership.owner a.log job = some (token, i) ∧ (token, i) ∈ a.issued
  generations : ∀ job token g i, .claimed job token g i ∈ a.log → g ≤ (a.rows job).ownershipGeneration
  log : LogOk a.log
  fresh : (tokens a.log).Nodup
  logged : ∀ token ∈ tokens a.log, ∃ i, (token, i) ∈ a.issued

theorem issued_unique {issued : List (Nat × Nat)} (h : (issued.map Prod.fst).Nodup) {token i j : Nat}
    (hi : (token, i) ∈ issued) (hj : (token, j) ∈ issued) : i = j := by
  have heq := List.inj_on_of_nodup_map h hi hj rfl
  exact congrArg Prod.snd heq

/-! ## Writes -/

theorem write_rows_ne (i pid : Nat) (a : Archive) {w : Write} {job : Nat} (h : job ≠ w.job) :
    (a.write i pid w).rows job = a.rows job :=
  Function.update_of_ne h _ _

theorem write_rows_self (i pid : Nat) (a : Archive) (w : Write) :
    (a.write i pid w).rows w.job = w.apply pid (a.rows w.job) :=
  Function.update_self _ _ _

theorem owner_entries_ne (i : Nat) (w : Write) (r : Row) (log : List Entry) {job : Nat} (h : job ≠ w.job) :
    owner (w.entries i r ++ log) job = owner log job := by
  cases w with
  | claim j token =>
    have hj : ¬ j = job := fun he => h he.symm
    simp only [Write.entries, List.singleton_append, owner, if_neg hj]
  | recover j =>
    have hj : ¬ j = job := fun he => h he.symm
    simp only [Write.entries, List.singleton_append, owner, if_neg hj]
  | finish j state => rfl

theorem tokens_write (i pid : Nat) (a : Archive) (w : Write) :
    tokens (a.write i pid w).log = claimTokens [w] ++ tokens a.log := by
  cases w <;> rfl

/-- A claim under a new token of the session, a recovery and a completion keep the archive in order. -/
theorem write_ok {i : Nat} (pid : Nat) {a : Archive} (h : ArchiveOk a) {w : Write}
    (hw : ∀ job token, w = .claim job token → (token, i) ∈ a.issued)
    (hfresh : (claimTokens [w] ++ tokens a.log).Nodup) : ArchiveOk (a.write i pid w) := by
  refine ⟨h.issued, ?_, ?_, ?_, ?_, ?_⟩
  · intro job token ht
    change ∃ i', owner (w.entries i (a.rows w.job) ++ a.log) job = some (token, i') ∧ (token, i') ∈ a.issued
    by_cases hj : job = w.job
    · subst hj
      rw [write_rows_self] at ht
      cases w with
      | claim j tok =>
        cases ht
        refine ⟨i, ?_, hw j token rfl⟩
        simp only [Write.entries, Write.job, List.singleton_append, owner, if_true]
      | recover j => cases ht
      | finish j state => exact h.owner j token ht
    · rw [write_rows_ne i pid a hj] at ht
      rw [owner_entries_ne i w _ a.log hj]
      exact h.owner job token ht
  · intro job token g i' hmem
    have hold : .claimed job token g i' ∈ a.log → g ≤ ((a.write i pid w).rows job).ownershipGeneration := by
      intro hin
      have hle := h.generations job token g i' hin
      by_cases hj : job = w.job
      · subst hj
        rw [write_rows_self]
        cases w with
        | claim j tok => exact Nat.le_succ_of_le hle
        | recover j => exact hle
        | finish j state => exact hle
      · rw [write_rows_ne i pid a hj]
        exact hle
    rcases List.mem_append.mp hmem with hnew | hin
    · cases w with
      | claim j tok =>
        have heq := List.mem_singleton.mp hnew
        cases heq
        have hself := write_rows_self i pid a (.claim job token)
        change (a.write i pid (.claim job token)).rows job = _ at hself
        rw [hself]
        exact Nat.le_refl _
      | recover j =>
        have heq := List.mem_singleton.mp hnew
        cases heq
      | finish j state => exact absurd hnew List.not_mem_nil
    · exact hold hin
  · cases w with
    | claim j tok =>
      refine ⟨fun token' g' i' hin => ?_, h.log⟩
      exact Nat.lt_succ_of_le (h.generations j token' g' i' hin)
    | recover j => exact h.log
    | finish j state => exact h.log
  · rw [tokens_write]
    exact hfresh
  · rw [tokens_write]
    intro token hmem
    rcases List.mem_append.mp hmem with hnew | hold
    · obtain ⟨job, hclaim⟩ := mem_claimTokens hnew
      exact ⟨i, hw job token (List.mem_singleton.mp hclaim).symm⟩
    · exact h.logged token hold

theorem foldl_write_ok {i : Nat} (pid : Nat) {ws : List Write} {a : Archive} (h : ArchiveOk a)
    (hw : ∀ w ∈ ws, ∀ job token, w = .claim job token → (token, i) ∈ a.issued)
    (hfresh : (claimTokens ws ++ tokens a.log).Nodup) :
    ArchiveOk (ws.foldl (Archive.write i pid) a) := by
  induction ws generalizing a with
  | nil => exact h
  | cons w ws ih =>
    have hsplit : claimTokens (w :: ws) = claimTokens [w] ++ claimTokens ws :=
      List.filterMap_append (l := [w])
    rw [hsplit, List.append_assoc] at hfresh
    have hperm : (claimTokens ws ++ (claimTokens [w] ++ tokens a.log)).Nodup := by
      rw [← List.append_assoc] at hfresh ⊢
      exact (List.perm_append_comm.append_right _).nodup hfresh
    have hhead : ArchiveOk (a.write i pid w) :=
      write_ok pid h (hw w List.mem_cons_self) (List.nodup_append.mp hperm).2.1
    refine ih hhead (fun v hv => hw v (List.mem_cons_of_mem w hv)) ?_
    rw [tokens_write]
    exact hperm

theorem foldl_write_issued {i pid : Nat} {ws : List Write} {a : Archive} :
    (ws.foldl (Archive.write i pid) a).issued = a.issued := by
  induction ws generalizing a with
  | nil => rfl
  | cons w ws ih => exact ih

theorem tokens_foldl_write {i pid : Nat} {ws : List Write} {a : Archive} {token : Nat}
    (h : token ∈ tokens (ws.foldl (Archive.write i pid) a).log) :
    token ∈ claimTokens ws ∨ token ∈ tokens a.log := by
  induction ws generalizing a with
  | nil => exact .inr h
  | cons w ws ih =>
    rcases ih h with hin | hin
    · obtain ⟨v, hv, hvt⟩ := List.mem_filterMap.mp hin
      exact .inl (List.mem_filterMap.mpr ⟨v, List.mem_cons_of_mem w hv, hvt⟩)
    · rw [tokens_write] at hin
      rcases List.mem_append.mp hin with hnew | hold
      · obtain ⟨v, hv, hvt⟩ := List.mem_filterMap.mp hnew
        rw [List.mem_singleton.mp hv] at hvt
        exact .inl (List.mem_filterMap.mpr ⟨w, List.mem_cons_self, hvt⟩)
      · exact .inr hold

theorem foldl_write_rows {i pid : Nat} {ws : List Write} {a : Archive} {job : Nat}
    (h : ∀ w ∈ ws, job ≠ w.job) : (ws.foldl (Archive.write i pid) a).rows job = a.rows job := by
  induction ws generalizing a with
  | nil => rfl
  | cons w ws ih =>
    rw [List.foldl_cons, ih fun v hv => h v (List.mem_cons_of_mem w hv)]
    exact write_rows_ne i pid a (h w List.mem_cons_self)

/-! ## Sessions -/

/-- Two sessions share no advisory lock and no conflicting row lock, and live ones differ in pid. -/
structure Compatible (x y : Session) : Prop where
  held : ∀ k ∈ x.held, k ∉ y.held
  pid : x.live = true → y.live = true → x.pid ≠ y.pid
  left : ∀ t u, x.txn = some t → y.txn = some u → ∀ job ∈ t.exclusive, job ∉ u.exclusive ∧ job ∉ u.shared
  right : ∀ t u, x.txn = some t → y.txn = some u → ∀ job ∈ u.exclusive, job ∉ t.exclusive ∧ job ∉ t.shared

theorem Compatible.symm {x y : Session} (h : Compatible x y) : Compatible y x where
  held k hk hx := h.held k hx hk
  pid hy hx he := h.pid hx hy he.symm
  left t u ht hu := h.right u t hu ht
  right t u ht hu := h.left u t hu ht

structure SessionOk (a : Archive) (i : Nat) (x : Session) : Prop where
  dead : x.live = false → x.held = [] ∧ x.txn = none
  fence : ∀ job token, x.jobFence = some (job, token) → (token, i) ∈ a.issued
  locked : ∀ t, x.txn = some t → ∀ w ∈ t.writes, w.job ∈ t.exclusive
  claims : ∀ t, x.txn = some t → ∀ w ∈ t.writes, ∀ job token, w = .claim job token → (token, i) ∈ a.issued
  fresh : ∀ t, x.txn = some t → (claimTokens t.writes ++ tokens a.log).Nodup
  carried : ∀ t job token, x.txn = some t → t.fence = some (job, token) →
    job ∈ t.shared ∧ (a.rows job).ownedBy token x.pid = true ∧ (token, i) ∈ a.issued

/-- A step takes only locks that the other sessions leave free. -/
structure Reserves (others : List Session) (x x' : Session) : Prop where
  live : x'.live = true → x.live = true
  pid : x'.pid = x.pid
  held : ∀ k ∈ x'.held, k ∈ x.held ∨ canAcquire others k = true
  exclusive : ∀ t', x'.txn = some t' → ∀ job ∈ t'.exclusive,
    (∃ t, x.txn = some t ∧ job ∈ t.exclusive) ∨ canLock others job = true
  shared : ∀ t', x'.txn = some t' → ∀ job ∈ t'.shared,
    (∃ t, x.txn = some t ∧ job ∈ t.shared) ∨ canShare others job = true

theorem canLock_spec {others : List Session} {job : Nat} (h : canLock others job = true) {y : Session}
    (hy : y ∈ others) {u : Txn} (hu : y.txn = some u) : job ∉ u.exclusive ∧ job ∉ u.shared := by
  have hall := List.all_eq_true.mp h y hy
  rw [hu] at hall
  exact of_decide_eq_true hall

theorem canShare_spec {others : List Session} {job : Nat} (h : canShare others job = true) {y : Session}
    (hy : y ∈ others) {u : Txn} (hu : y.txn = some u) : job ∉ u.exclusive := by
  have hall := List.all_eq_true.mp h y hy
  rw [hu] at hall
  exact of_decide_eq_true hall

theorem Reserves.compatible {others : List Session} {x x' y : Session} (h : Reserves others x x')
    (hxy : Compatible x y) (hy : y ∈ others) : Compatible x' y := by
  refine ⟨fun k hk hky => ?_, fun hx' hly => ?_, fun t u ht hu job hjob => ?_, fun t u ht hu job hjob => ?_⟩
  · rcases h.held k hk with hold | hnew
    · exact hxy.held k hold hky
    · exact of_decide_eq_true (List.all_eq_true.mp hnew y hy) hky
  · rw [h.pid]
    exact hxy.pid (h.live hx') hly
  · rcases h.exclusive t ht job hjob with ⟨t0, ht0, hold⟩ | hnew
    · exact hxy.left t0 u ht0 hu job hold
    · exact canLock_spec hnew hy hu
  · constructor
    · intro hex
      rcases h.exclusive t ht job hex with ⟨t0, ht0, hold⟩ | hnew
      · exact (hxy.left t0 u ht0 hu job hold).1 hjob
      · exact (canLock_spec hnew hy hu).1 hjob
    · intro hsh
      rcases h.shared t ht job hsh with ⟨t0, ht0, hold⟩ | hnew
      · exact (hxy.right t0 u ht0 hu job hjob).2 hold
      · exact canShare_spec hnew hy hu hjob

/-! ## One step -/

/-- What a step of session `i` guarantees to the archive and to the other sessions. -/
structure StepOk (others : List Session) (i : Nat) (a a' : Archive) (x x' : Session) : Prop where
  reserves : Reserves others x x'
  session : SessionOk a' i x'
  archive : ArchiveOk a'
  issued : ∀ p ∈ a.issued, p ∈ a'.issued
  rows : ∀ job, a'.rows job = a.rows job ∨ ∃ t, x.txn = some t ∧ job ∈ t.exclusive
  tokens : ∀ token ∈ Ownership.tokens a'.log, token ∈ Ownership.tokens a.log ∨ (token, i) ∈ a.issued

/-- A transaction goes on: it keeps its fence and its locks, takes free ones, and updates only rows
it has locked, claiming only under tokens of its own session. -/
structure Extends (others : List Session) (i : Nat) (a : Archive) (t t' : Txn) : Prop where
  exclusive : ∀ job ∈ t'.exclusive, job ∈ t.exclusive ∨ canLock others job = true
  keeps : ∀ job ∈ t.exclusive, job ∈ t'.exclusive
  shared : t'.shared = t.shared
  fence : t'.fence = t.fence
  writes : ∀ w ∈ t'.writes, w ∈ t.writes ∨
    w.job ∈ t'.exclusive ∧ ∀ job token, w = .claim job token → (token, i) ∈ a.issued
  fresh : (claimTokens t.writes ++ tokens a.log).Nodup → (claimTokens t'.writes ++ tokens a.log).Nodup

theorem Extends.of_eq {others : List Session} {i : Nat} {a : Archive} {t t' : Txn}
    (hex : t'.exclusive = t.exclusive) (hsh : t'.shared = t.shared) (hf : t'.fence = t.fence)
    (hw : t'.writes = t.writes) : Extends others i a t t' := by
  refine ⟨fun job h => .inl ?_, fun job h => ?_, hsh, hf, fun w h => .inl ?_, fun h => ?_⟩
  · rw [← hex]
    exact h
  · rw [hex]
    exact h
  · rw [← hw]
    exact h
  · rw [hw]
    exact h

theorem Extends.lock {others : List Session} {i : Nat} {a : Archive} {t t' : Txn} {job : Nat}
    (hcan : canLock others job = true) (hex : t'.exclusive = job :: t.exclusive)
    (hsh : t'.shared = t.shared) (hf : t'.fence = t.fence)
    (hw : ∀ w ∈ t'.writes, w ∈ t.writes ∨ w.job = job ∧ ∀ j token, w ≠ .claim j token)
    (htokens : claimTokens t'.writes = claimTokens t.writes) : Extends others i a t t' := by
  refine ⟨fun job' h => ?_, fun job' h => ?_, hsh, hf, fun w h => ?_, fun h => ?_⟩
  · rw [hex] at h
    rcases List.mem_cons.mp h with rfl | hold
    · exact .inr hcan
    · exact .inl hold
  · rw [hex]
    exact List.mem_cons_of_mem job h
  · rcases hw w h with hold | ⟨hjob, hclaim⟩
    · exact .inl hold
    · refine .inr ⟨?_, fun j token heq => absurd heq (hclaim j token)⟩
      rw [hex, hjob]
      exact List.mem_cons_self
  · rw [htokens]
    exact h

/-- The updates of a transaction grow by one of a locked row. -/
theorem Extends.write {others : List Session} {i : Nat} {a : Archive} {t t' : Txn} {w : Write}
    (hex : t'.exclusive = t.exclusive) (hsh : t'.shared = t.shared) (hf : t'.fence = t.fence)
    (hw : t'.writes = t.writes ++ [w]) (hlock : w.job ∈ t.exclusive)
    (hclaim : ∀ job token, w = .claim job token → (token, i) ∈ a.issued)
    (hnew : ∀ token ∈ claimTokens [w], token ∉ claimTokens t.writes ∧ token ∉ tokens a.log) :
    Extends others i a t t' := by
  refine ⟨fun job h => .inl ?_, fun job h => ?_, hsh, hf, fun v h => ?_, fun h => ?_⟩
  · rw [← hex]
    exact h
  · rw [hex]
    exact h
  · rw [hw] at h
    rcases List.mem_append.mp h with hold | hnew
    · exact .inl hold
    · rw [List.mem_singleton.mp hnew, hex]
      exact .inr ⟨hlock, hclaim⟩
  · have hsplit : claimTokens t'.writes = claimTokens t.writes ++ claimTokens [w] := by
      rw [hw]
      exact List.filterMap_append
    have hone : (claimTokens [w]).Nodup := by
      cases w with
      | claim job token => exact List.nodup_singleton token
      | recover job => exact List.nodup_nil
      | finish job state => exact List.nodup_nil
    rw [hsplit, List.append_assoc]
    obtain ⟨hleft, hright, hapart⟩ := List.nodup_append.mp h
    refine List.nodup_append.mpr ⟨hleft, List.nodup_append.mpr ⟨hone, hright, ?_⟩, ?_⟩
    · intro token ht token' ht' heq
      subst heq
      exact (hnew token ht).2 ht'
    · intro token ht token' ht' heq
      subst heq
      rcases List.mem_append.mp ht' with hw' | hlog
      · exact (hnew token hw').1 ht
      · exact hapart token ht token hlog rfl

/-- A step inside the transaction that leaves the rows alone. -/
theorem stepOk_txn {others : List Session} {i : Nat} {a a' : Archive} {x x' : Session} {t t' : Txn}
    (hs : SessionOk a i x) (ht : x.txn = some t) (hlive : x.live = true) (ha' : ArchiveOk a')
    (hrows : a'.rows = a.rows) (hlog : a'.log = a.log) (hissued : ∀ p ∈ a.issued, p ∈ a'.issued)
    (hlive' : x'.live = x.live) (hpid : x'.pid = x.pid) (ht' : x'.txn = some t')
    (hfence : ∀ job token, x'.jobFence = some (job, token) → (token, i) ∈ a'.issued)
    (hheld : ∀ k ∈ x'.held, k ∈ x.held ∨ canAcquire others k = true) (hext : Extends others i a' t t') :
    StepOk others i a a' x x' := by
  refine ⟨⟨fun _ => hlive, hpid, hheld, ?_, ?_⟩, ⟨?_, hfence, ?_, ?_, ?_, ?_⟩, ha', hissued,
    fun job => .inl ?_, fun token h => .inl ?_⟩
  · intro u hu job hjob
    cases ht'.symm.trans hu
    rcases hext.exclusive job hjob with hold | hcan
    · exact .inl ⟨t, ht, hold⟩
    · exact .inr hcan
  · intro u hu job hjob
    cases ht'.symm.trans hu
    rw [hext.shared] at hjob
    exact .inl ⟨t, ht, hjob⟩
  · intro hdead
    rw [hlive', hlive] at hdead
    cases hdead
  · intro u hu w hmem
    cases ht'.symm.trans hu
    rcases hext.writes w hmem with hold | ⟨hlock, _⟩
    · exact hext.keeps _ (hs.locked t ht w hold)
    · exact hlock
  · intro u hu w hmem job token heq
    cases ht'.symm.trans hu
    rcases hext.writes w hmem with hold | ⟨_, hclaim⟩
    · exact hissued _ (hs.claims t ht w hold job token heq)
    · exact hclaim job token heq
  · intro u hu
    cases ht'.symm.trans hu
    refine hext.fresh ?_
    rw [hlog]
    exact hs.fresh t ht
  · intro u job token hu hf
    cases ht'.symm.trans hu
    rw [hext.fence] at hf
    obtain ⟨hshared, howned, htoken⟩ := hs.carried t job token ht hf
    rw [hext.shared, hrows, hpid]
    exact ⟨hshared, howned, hissued _ htoken⟩
  · rw [hrows]
  · rw [← hlog]
    exact h

/-- A step after which the session has no transaction. -/
theorem stepOk_close {others : List Session} {i : Nat} {a a' : Archive} {x x' : Session}
    (hs : SessionOk a i x) (ha' : ArchiveOk a') (hissued : ∀ p ∈ a.issued, p ∈ a'.issued)
    (hrows : ∀ job, a'.rows job = a.rows job ∨ ∃ t, x.txn = some t ∧ job ∈ t.exclusive)
    (htokens : ∀ token ∈ tokens a'.log, token ∈ tokens a.log ∨ (token, i) ∈ a.issued)
    (hlive : x'.live = true → x.live = true) (hpid : x'.pid = x.pid) (ht' : x'.txn = none)
    (hfence : ∀ job token, x'.jobFence = some (job, token) → x.jobFence = some (job, token))
    (hheld : ∀ k ∈ x'.held, k ∈ x.held) (hdead : x'.live = false → x'.held = []) :
    StepOk others i a a' x x' := by
  have hnone : ∀ u, x'.txn ≠ some u := by
    intro u hu
    rw [ht'] at hu
    cases hu
  refine ⟨⟨hlive, hpid, fun k hk => .inl (hheld k hk), ?_, ?_⟩, ⟨fun hd => ⟨hdead hd, ht'⟩, ?_, ?_, ?_, ?_, ?_⟩,
    ha', hissued, hrows, htokens⟩
  · exact fun u hu => absurd hu (hnone u)
  · exact fun u hu => absurd hu (hnone u)
  · exact fun job token h => hissued _ (hs.fence job token (hfence job token h))
  · exact fun u hu => absurd hu (hnone u)
  · exact fun u hu => absurd hu (hnone u)
  · exact fun u hu => absurd hu (hnone u)
  · exact fun u _ _ hu => absurd hu (hnone u)

/-- The transaction carries the session's own fence, verified under a shared lock on the row. -/
theorem begin_eq {others : List Session} {a : Archive} {x x' : Session} (h : x.begin a others = some x') :
    x' = { x with txn := some ⟨x.jobFence, (x.jobFence.map Prod.fst).toList, [], [], .ready⟩ } ∧
      ∀ job token, x.jobFence = some (job, token) →
        (a.rows job).ownedBy token x.pid = true ∧ canShare others job = true := by
  unfold Session.begin at h
  split at h
  · split at h
    · next hf =>
      cases h
      rw [hf]
      exact ⟨rfl, fun _ _ hne => nomatch hne⟩
    · next job token hf =>
      split at h
      · next hok =>
        cases h
        rw [hf]
        refine ⟨rfl, fun job' token' heq => ?_⟩
        cases heq
        exact (Bool.and_eq_true _ _).mp hok
      · cases h
  · cases h

theorem stepOk_begin {others : List Session} {i : Nat} {a : Archive} {x x' : Session}
    (hs : SessionOk a i x) (ha : ArchiveOk a) (hlive : x.live = true) (h : x.begin a others = some x') :
    StepOk others i a a x x' := by
  obtain ⟨rfl, hfence⟩ := begin_eq h
  refine ⟨⟨fun h => h, rfl, fun k hk => .inl hk, ?_, ?_⟩, ⟨?_, hs.fence, ?_, ?_, ?_, ?_⟩, ha, fun _ h => h,
    fun _ => .inl rfl, fun _ h => .inl h⟩
  · intro u hu job hjob
    cases hu
    exact absurd hjob List.not_mem_nil
  · intro u hu job hjob
    cases hu
    obtain ⟨⟨job', token⟩, hf, rfl⟩ := Option.map_eq_some_iff.mp (Option.mem_toList.mp hjob)
    exact .inr (hfence job' token hf).2
  · intro hdead
    rw [show x.live = false from hdead] at hlive
    cases hlive
  · intro u hu w hw
    cases hu
    exact absurd hw List.not_mem_nil
  · intro u hu w hw
    cases hu
    exact absurd hw List.not_mem_nil
  · intro u hu
    cases hu
    exact ha.fresh
  · intro u job token hu hf
    cases hu
    change x.jobFence = some (job, token) at hf
    refine ⟨?_, (hfence job token hf).1, hs.fence job token hf⟩
    simp only [hf, Option.map_some, Option.toList_some, List.mem_singleton]

theorem fenced_ok {i : Nat} {a : Archive} {x : Session} {t : Txn} (hs : SessionOk a i x)
    (ha : ArchiveOk a) (ht : x.txn = some t) : ArchiveOk (a.fenced i t.fence) := by
  cases hf : t.fence with
  | none => exact ha
  | some f =>
    obtain ⟨job, token⟩ := f
    obtain ⟨_, howned, hissued⟩ := hs.carried t job token ht hf
    have htoken : (a.rows job).ownershipToken = some token := (of_decide_eq_true howned).2.1
    obtain ⟨i', howner, hissued'⟩ := ha.owner job token htoken
    cases issued_unique ha.issued hissued hissued'
    refine ⟨ha.issued, ha.owner, fun job' token' g i' hmem => ?_, ⟨howner, ha.log⟩, ha.fresh, ha.logged⟩
    rcases List.mem_cons.mp hmem with heq | hold
    · cases heq
    · exact ha.generations job' token' g i' hold

theorem fenced_rows (i : Nat) (a : Archive) (f : Option (Nat × Nat)) : (a.fenced i f).rows = a.rows := by
  cases f <;> rfl

theorem fenced_issued (i : Nat) (a : Archive) (f : Option (Nat × Nat)) :
    (a.fenced i f).issued = a.issued := by
  cases f <;> rfl

theorem fenced_tokens (i : Nat) (a : Archive) (f : Option (Nat × Nat)) :
    tokens (a.fenced i f).log = tokens a.log := by
  cases f <;> rfl

theorem stepOk_commit {others : List Session} {i : Nat} {a : Archive} {x : Session} {t : Txn}
    (hs : SessionOk a i x) (ha : ArchiveOk a) (ht : x.txn = some t) (hlive : x.live = true) :
    StepOk others i a (t.writes.foldl (Archive.write i x.pid) (a.fenced i t.fence)) x
      { x with txn := none } := by
  have hclaims : ∀ w ∈ t.writes, ∀ job token, w = .claim job token →
      (token, i) ∈ (a.fenced i t.fence).issued := by
    rw [fenced_issued]
    exact hs.claims t ht
  have hfresh : (claimTokens t.writes ++ tokens (a.fenced i t.fence).log).Nodup := by
    rw [fenced_tokens]
    exact hs.fresh t ht
  have hok := foldl_write_ok x.pid (fenced_ok hs ha ht) hclaims hfresh
  refine stepOk_close hs hok ?_ ?_ ?_ (fun _ => hlive) rfl rfl (fun _ _ h => h) (fun _ h => h) ?_
  · rw [foldl_write_issued, fenced_issued]
    exact fun _ h => h
  · intro job
    by_cases hw : ∃ w ∈ t.writes, job = w.job
    · obtain ⟨w, hmem, rfl⟩ := hw
      exact .inr ⟨t, ht, hs.locked t ht w hmem⟩
    · have hne : ∀ w ∈ t.writes, job ≠ w.job := fun w hmem heq => hw ⟨w, hmem, heq⟩
      rw [foldl_write_rows hne, fenced_rows]
      exact .inl rfl
  · intro token hmem
    rcases tokens_foldl_write hmem with hclaim | hold
    · obtain ⟨job, hin⟩ := mem_claimTokens hclaim
      exact .inr (hs.claims t ht _ hin job token rfl)
    · rw [fenced_tokens] at hold
      exact .inl hold
  · intro hdead
    rw [show x.live = false from hdead] at hlive
    cases hlive

theorem mem_foldl_erase {keys held : List Int} {k : Int} (h : k ∈ keys.foldl List.erase held) : k ∈ held := by
  induction keys generalizing held with
  | nil => exact h
  | cons key keys ih => exact List.mem_of_mem_erase (ih h)

/-- A fresh token enters the issued list. -/
theorem issue_ok {i token : Nat} {a : Archive} (h : ArchiveOk a) (hnew : token ∉ a.issued.map Prod.fst) :
    ArchiveOk { a with issued := (token, i) :: a.issued } := by
  refine ⟨List.nodup_cons.mpr ⟨hnew, h.issued⟩, fun job token' ht => ?_, h.generations, h.log, h.fresh,
    fun token' ht => ?_⟩
  · obtain ⟨i', howner, hmem⟩ := h.owner job token' ht
    exact ⟨i', howner, List.mem_cons_of_mem _ hmem⟩
  · obtain ⟨i', hmem⟩ := h.logged token' ht
    exact ⟨i', List.mem_cons_of_mem _ hmem⟩

theorem stepOk_inTxn {cfg : Config} {others : List Session} {i : Nat} {a a' : Archive} {x x' : Session}
    {t : Txn} {e : Action} (hs : SessionOk a i x) (ha : ArchiveOk a) (ht : x.txn = some t)
    (hlive : x.live = true) (h : x.inTxn cfg a others i t e = some (x', a')) :
    StepOk others i a a' x x' := by
  have goes : ∀ {y : Session} {t' : Txn}, y.live = x.live → y.pid = x.pid → y.jobFence = x.jobFence →
      y.txn = some t' → (∀ k ∈ y.held, k ∈ x.held ∨ canAcquire others k = true) →
      Extends others i a t t' → StepOk others i a a x y := by
    intro y t' hl hp hf hy hh he
    refine stepOk_txn hs ht hlive ha rfl rfl (fun _ h => h) hl hp hy (fun job token hj => ?_) hh he
    rw [hf] at hj
    exact hs.fence job token hj
  have same : ∀ k ∈ x.held, k ∈ x.held ∨ canAcquire others k = true := fun _ hk => .inl hk
  have grown : ∀ {key : Int}, canAcquire others key = true →
      ∀ k ∈ key :: x.held, k ∈ x.held ∨ canAcquire others k = true := by
    intro key hcan k hk
    rcases List.mem_cons.mp hk with rfl | hk
    · exact .inr hcan
    · exact .inl hk
  cases e with
  | begin => cases h
  | release => cases h
  | die => cases h
  | lockRow job =>
    simp only [Session.inTxn] at h
    split at h
    · next hc =>
      cases h
      exact goes rfl rfl rfl rfl same (.lock hc.2.2 rfl rfl rfl (fun _ hw => .inl hw) rfl)
    · cases h
  | takeProvider job =>
    simp only [Session.inTxn] at h
    split at h
    · split at h
      · next hc =>
        cases h
        exact goes rfl rfl rfl rfl (grown hc.2.2) (.of_eq rfl rfl rfl rfl)
      · cases h
    · split at h
      · cases h
        exact goes rfl rfl rfl rfl same (.of_eq rfl rfl rfl rfl)
      · cases h
  | takeJob job =>
    simp only [Session.inTxn] at h
    split at h
    · split at h
      · next hc =>
        cases h
        exact goes rfl rfl rfl rfl (grown hc.2) (.of_eq rfl rfl rfl rfl)
      · cases h
    · cases h
  | skipCandidate =>
    simp only [Session.inTxn] at h
    split at h
    · cases h
      exact goes rfl rfl rfl rfl (fun k hk => .inl (mem_foldl_erase hk)) (.of_eq rfl rfl rfl rfl)
    · cases h
      exact goes rfl rfl rfl rfl (fun k hk => .inl (mem_foldl_erase hk)) (.of_eq rfl rfl rfl rfl)
    · cases h
  | claimWrite token =>
    simp only [Session.inTxn] at h
    split at h
    · next job keys hpc =>
      split at h
      · next hc =>
        cases h
        have hnew : ∀ token' ∈ claimTokens [.claim job token],
            token' ∉ claimTokens t.writes ∧ token' ∉ tokens a.log := by
          intro token' hmem
          rw [List.mem_singleton.mp hmem]
          constructor
          · intro hin
            obtain ⟨job', hw⟩ := mem_claimTokens hin
            exact hc.2 (List.mem_map_of_mem (hs.claims t ht _ hw job' token rfl))
          · intro hin
            obtain ⟨i', hissued⟩ := ha.logged token hin
            exact hc.2 (List.mem_map_of_mem hissued)
        have hmine : ∀ job' token', Write.claim job token = .claim job' token' →
            (token', i) ∈ (token, i) :: a.issued := by
          intro job' token' heq
          cases heq
          exact List.mem_cons_self
        refine stepOk_txn hs ht hlive (issue_ok ha hc.2) rfl rfl (fun _ => List.mem_cons_of_mem _) rfl rfl rfl
          ?_ same (.write rfl rfl rfl rfl hc.1 hmine hnew)
        intro job' token' heq
        cases heq
        exact List.mem_cons_self
      · cases h
    · cases h
  | findOrphan job =>
    simp only [Session.inTxn] at h
    split at h
    · next hc =>
      split at h
      · next hown =>
        cases h
        exact goes rfl rfl rfl rfl (grown hown.2) (.lock hc.2.2 rfl rfl rfl (fun _ hw => .inl hw) rfl)
      · cases h
        exact goes rfl rfl rfl rfl same (.lock hc.2.2 rfl rfl rfl (fun _ hw => .inl hw) rfl)
    · cases h
  | resumeOrphan =>
    simp only [Session.inTxn] at h
    split at h
    · next job hpc =>
      split at h
      · next hc =>
        cases h
        exact goes rfl rfl rfl rfl same 
          (.write rfl rfl rfl rfl hc (fun _ _ heq => nomatch heq) fun _ hin => absurd hin List.not_mem_nil)
      · cases h
    · cases h
  | releaseOrphan =>
    simp only [Session.inTxn] at h
    split at h
    · cases h
      exact goes rfl rfl rfl rfl (fun k hk => .inl (List.mem_of_mem_erase hk)) (.of_eq rfl rfl rfl rfl)
    · cases h
      exact goes rfl rfl rfl rfl (fun k hk => .inl (List.mem_of_mem_erase hk)) (.of_eq rfl rfl rfl rfl)
    · cases h
  | finish state =>
    simp only [Session.inTxn] at h
    split at h
    · next job token hf =>
      split at h
      · next hc =>
        cases h
        have htokens : claimTokens (t.writes ++ [.finish job state]) = claimTokens t.writes := by
          simp [claimTokens, Write.token?]
        refine goes rfl rfl rfl rfl same (.lock hc.2 rfl rfl rfl (fun w hw => ?_) htokens)
        rcases List.mem_append.mp hw with hold | hnew
        · exact .inl hold
        · rw [List.mem_singleton.mp hnew]
          exact .inr ⟨rfl, fun _ _ heq => nomatch heq⟩
      · cases h
    · cases h
  | commit =>
    simp only [Session.inTxn] at h
    split at h
    · cases h
      exact stepOk_commit hs ha ht hlive
    · cases h
  | rollback =>
    cases h
    refine stepOk_close hs ha (fun _ h => h) (fun _ => .inl rfl) (fun _ h => .inl h) (fun h => h) rfl rfl (fun _ _ h => h)
      (fun _ h => h) fun hdead => ?_
    rw [show x.live = false from hdead] at hlive
    cases hlive

theorem stepOk_act {cfg : Config} {others : List Session} {i : Nat} {a a' : Archive} {x x' : Session}
    {e : Action} (hs : SessionOk a i x) (ha : ArchiveOk a) (h : x.act cfg a others i e = some (x', a')) :
    StepOk others i a a' x x' := by
  unfold Session.act at h
  split at h
  · next hlive =>
    split at h
    · cases h
      exact stepOk_close hs ha (fun _ h => h) (fun _ => .inl rfl) (fun _ h => .inl h) (fun h => nomatch h) rfl rfl
        (fun _ _ h => h) (fun _ h => absurd h List.not_mem_nil) fun _ => rfl
    · obtain ⟨y, hy, heq⟩ := Option.map_eq_some_iff.mp h
      cases heq
      exact stepOk_begin hs ha hlive hy
    · next htxn =>
      cases h
      refine stepOk_close hs ha (fun _ h => h) (fun _ => .inl rfl) (fun _ h => .inl h) (fun h => h) rfl htxn
        (fun _ _ h => nomatch h) (fun _ h => mem_foldl_erase h) fun hdead => ?_
      rw [show x.live = false from hdead] at hlive
      cases hlive
    · next t ht => exact stepOk_inTxn hs ha ht hlive h
    · cases h
  · cases h

end ChessCrawl.Ownership
