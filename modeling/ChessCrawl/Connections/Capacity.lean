import ChessCrawl.Connections.Admission
import Mathlib.Data.List.Nodup

/-! Every run keeps to the limit, returns each admission once and behind its native session, and leaves no caller asleep
over a free place. -/
namespace ChessCrawl.Connections
open ChessCrawl.Lib
set_option autoImplicit false

/-! ## Permits and their threads -/

/-- The permit that a thread works on. -/
def Pc.permit : Pc → Option Nat
  | .entering | .waiting | .timedOut => none
  | .connecting p | .configuring p | .closing p | .disconnecting p | .releasing p _ | .returning p _ => some p

/-- The thread is in the queue of the condition or has been taken from it. -/
def Pc.queued : Pc → Bool
  | .waiting | .timedOut => true
  | _ => false

/-- What a thread relies on at its step. -/
def Pc.Holds (n : Nat) (q : Permit) : Pc → Prop
  | .entering | .waiting | .timedOut => True
  | .connecting _ => q.connected = false ∧ q.released = false ∧ q.native = false
  | .configuring _ => q.connected = false ∧ q.released = false
  | .closing _ => True
  | .disconnecting _ => q.closeLock = some n
  | .releasing _ closer => q.native = false ∧ (if closer then q.closeLock = some n else q.connected = false)
  | .returning _ closer => q.native = false ∧ q.released = true ∧ q.lock = some n ∧
      (closer = true → q.closeLock = some n)

def Pc.returns : Pc → Bool
  | .returning .. => true
  | _ => false

/-- `sole`: until its connection is handed out, a permit is its maker's alone. `kept`: and is not forgotten. -/
structure Permit.Ok (threads : Nat → Option Pc) (p : Nat) (q : Permit) : Prop where
  native : q.native = true → q.released = false
  holds : ∀ n pc, threads n = some pc → pc.permit = some p → pc.Holds n q
  lock : ∀ n, q.lock = some n → q.released = true ∧ ∃ pc, threads n = some pc ∧ pc.permit = some p ∧ pc.returns = true
  sole : q.connected = false → ∀ n m pc pc', threads n = some pc → threads m = some pc' → pc.permit = some p →
    pc'.permit = some p → n = m
  kept : q.connected = false → q.released = false → ∃ n pc, threads n = some pc ∧ pc.permit = some p

structure State.Inv (limit : Nat) (s : State) : Prop where
  bound : s.active ≤ limit
  count : s.active = s.permits.countP Permit.outstanding
  permits : ∀ (p : Nat) (q : Permit), s.permits[p]? = some q → q.Ok s.threads p
  known : ∀ n pc p, s.threads n = some pc → pc.permit = some p → p < s.permits.length
  nodup : (s.waiters ++ s.woken).Nodup
  queue : ∀ n, n ∈ s.waiters ++ s.woken ↔ ∃ pc, s.threads n = some pc ∧ pc.queued = true
  slots : s.waiters ≠ [] → limit ≤ s.active + s.woken.length
  used : s.misused = false

variable {limit : Nat} {s t : State}

/-- A thread that moves on, without touching the permit, between pcs that do not name it. -/
theorem Permit.Ok.other {threads : Nat → Option Pc} {p n : Nat} {q : Permit} (h : q.Ok threads p) {pc' : Option Pc}
    (hold : ∀ pc, threads n = some pc → pc.permit ≠ some p) (hnew : ∀ pc, pc' = some pc → pc.permit ≠ some p) :
    q.Ok (Function.update threads n pc') p := by
  have hsame : ∀ m pc, pc.permit = some p → (Function.update threads n pc' m = some pc ↔ threads m = some pc) := by
    intro m pc hpc
    by_cases hm : m = n
    · subst hm
      rw [Function.update_self]
      exact ⟨fun heq => absurd hpc (hnew pc heq), fun heq => absurd hpc (hold pc heq)⟩
    · rw [Function.update_of_ne hm]
  refine ⟨h.native, fun m pc hm hpc => h.holds m pc ((hsame m pc hpc).mp hm) hpc, fun m hm => ?_,
    fun hc m k pc pc' hm hk hpc hpc' => ?_, fun hc hr => ?_⟩
  · obtain ⟨hreleased, pc, hpc, hpermit, hreturns⟩ := h.lock m hm
    exact ⟨hreleased, pc, (hsame m pc hpermit).mpr hpc, hpermit, hreturns⟩
  · exact h.sole hc m k pc pc' ((hsame m pc hpc).mp hm) ((hsame k pc' hpc').mp hk) hpc hpc'
  · obtain ⟨m, pc, hm, hpc⟩ := h.kept hc hr
    exact ⟨m, pc, (hsame m pc hpc).mpr hm, hpc⟩

theorem count_set {permits : List Permit} {p : Nat} {q : Permit} (h : permits[p]? = some q) (q' : Permit) :
    (permits.set p q').countP Permit.outstanding + (if q.outstanding then 1 else 0) =
      permits.countP Permit.outstanding + (if q'.outstanding then 1 else 0) := by
  obtain ⟨hp, rfl⟩ := List.getElem?_eq_some_iff.mp h
  have hle := List.boole_getElem_le_countP (p := Permit.outstanding) hp
  rw [List.countP_set hp]
  omega

/-! ## Steps on a permit -/

theorem Pc.queued_of_permit {pc : Pc} {p : Nat} (h : pc.permit = some p) : pc.queued = false := by
  cases pc <;> first | rfl | cases h

section Worked
variable {n p : Nat} {pc : Pc} {q q' : Permit} {pc' : Option Pc}

theorem State.Inv.work_permits (h : s.Inv limit) (hn : s.threads n = some pc) (hpc : pc.permit = some p)
    (hpc' : ∀ x, pc' = some x → x.permit = some p) (hok : q'.Ok (Function.update s.threads n pc') p) (m : Nat) (r : Permit)
    (hr : (s.permits.set p q')[m]? = some r) : r.Ok (Function.update s.threads n pc') m := by
  by_cases hm : m = p
  · subst hm
    rw [List.getElem?_set_self (h.known n pc m hn hpc)] at hr
    rwa [← Option.some.inj hr]
  · rw [List.getElem?_set_ne (Ne.symm hm)] at hr
    refine (h.permits m r hr).other (fun x hx heq => ?_) fun x hx heq => ?_
    · rw [hn] at hx
      rw [← Option.some.inj hx, hpc] at heq
      exact hm (Option.some.inj heq).symm
    · rw [hpc' x hx] at heq
      exact hm (Option.some.inj heq).symm

theorem State.Inv.work_known (h : s.Inv limit) (hn : s.threads n = some pc) (hpc : pc.permit = some p)
    (hpc' : ∀ x, pc' = some x → x.permit = some p) (m : Nat) (x : Pc) (r : Nat)
    (hm : Function.update s.threads n pc' m = some x) (hr : x.permit = some r) : r < (s.permits.set p q').length := by
  rw [List.length_set]
  by_cases heq : m = n
  · subst heq
    rw [Function.update_self] at hm
    rw [hpc' x hm] at hr
    rw [← Option.some.inj hr]
    exact h.known m pc p hn hpc
  · rw [Function.update_of_ne heq] at hm
    exact h.known m x r hm hr

theorem State.Inv.work_queue (h : s.Inv limit) (hn : s.threads n = some pc) (hpc : pc.permit = some p)
    (hpc' : ∀ x, pc' = some x → x.permit = some p) (m : Nat) :
    m ∈ s.waiters ++ s.woken ↔ ∃ x, Function.update s.threads n pc' m = some x ∧ x.queued = true := by
  rw [h.queue m]
  by_cases heq : m = n
  · subst heq
    rw [Function.update_self]
    constructor
    · rintro ⟨x, hx, hqueued⟩
      rw [hn] at hx
      rw [← Option.some.inj hx, Pc.queued_of_permit hpc] at hqueued
      cases hqueued
    · rintro ⟨x, hx, hqueued⟩
      rw [Pc.queued_of_permit (hpc' x hx)] at hqueued
      cases hqueued
  · rw [Function.update_of_ne heq]

/-- A thread works on a permit that stays counted as it is. -/
theorem State.Inv.work (h : s.Inv limit) (hn : s.threads n = some pc) (hpc : pc.permit = some p)
    (hq : s.permits[p]? = some q) (hpc' : ∀ x, pc' = some x → x.permit = some p) (hcount : q'.outstanding = q.outstanding)
    (hok : q'.Ok (Function.update s.threads n pc') p) : ((s.set p q').go n pc').Inv limit where
  bound := h.bound
  count := by
    have hset := count_set hq q'
    rw [hcount] at hset
    exact h.count.trans (Nat.add_right_cancel hset).symm
  permits := h.work_permits hn hpc hpc' hok
  known := h.work_known hn hpc hpc'
  nodup := h.nodup
  queue := h.work_queue hn hpc hpc'
  slots := h.slots
  used := h.used

end Worked

/-- A thread's own step on its permit. -/
structure Permit.Moves (threads : Nat → Option Pc) (n p : Nat) (q q' : Permit) (pc' : Option Pc) : Prop where
  connected : q.connected = true → q'.connected = true
  permit : ∀ x, pc' = some x → x.permit = some p
  native : q'.native = true → q'.released = false
  holds : ∀ x, pc' = some x → x.Holds n q'
  others : ∀ m x, m ≠ n → threads m = some x → x.permit = some p → x.Holds m q → x.Holds m q'
  lock : ∀ m, q'.lock = some m → q'.released = true ∧
    ((m ≠ n ∧ q.lock = some m) ∨ (m = n ∧ ∃ x, pc' = some x ∧ x.returns = true))
  kept : q'.connected = false → q'.released = false → ∃ x, pc' = some x

theorem Permit.Ok.own {threads : Nat → Option Pc} {n p : Nat} {q q' : Permit} {pc : Pc} {pc' : Option Pc} (h : q.Ok threads p)
    (hn : threads n = some pc) (hpc : pc.permit = some p) (hm : Permit.Moves threads n p q q' pc') :
    q'.Ok (Function.update threads n pc') p where
  native := hm.native
  holds m x hx hpermit := by
    by_cases heq : m = n
    · subst heq
      exact hm.holds x (by simpa using hx)
    · rw [Function.update_of_ne heq] at hx
      exact hm.others m x heq hx hpermit (h.holds m x hx hpermit)
  lock m hlock := by
    obtain ⟨hreleased, ⟨hne, hold⟩ | ⟨rfl, x, hx, hreturns⟩⟩ := hm.lock m hlock
    · obtain ⟨_, x, hx, hpermit, hreturns⟩ := h.lock m hold
      exact ⟨hreleased, x, by rwa [Function.update_of_ne hne], hpermit, hreturns⟩
    · exact ⟨hreleased, x, by simpa using hx, hm.permit x hx, hreturns⟩
  sole hconnected m k x y hx hy hxp hyp := by
    have hold : q.connected = false := by
      cases heq : q.connected with
      | false => rfl
      | true => rw [hm.connected heq] at hconnected; cases hconnected
    by_cases hmn : m = n <;> by_cases hkn : k = n
    · rw [hmn, hkn]
    · rw [Function.update_of_ne hkn] at hy
      rw [hmn]
      exact h.sole hold n k pc y hn hy hpc hyp
    · rw [Function.update_of_ne hmn] at hx
      rw [hkn]
      exact h.sole hold m n x pc hx hn hxp hpc
    · rw [Function.update_of_ne hmn] at hx
      rw [Function.update_of_ne hkn] at hy
      exact h.sole hold m k x y hx hy hxp hyp
  kept hconnected hreleased := by
    obtain ⟨x, hx⟩ := hm.kept hconnected hreleased
    exact ⟨n, x, by simpa using hx, hm.permit x hx⟩

section Moves
variable {threads : Nat → Option Pc} {n p : Nat} {q : Permit}

/-- While its maker has it, no other thread knows a permit. -/
theorem Permit.Ok.alone (h : q.Ok threads p) (hconnected : q.connected = false) {pc : Pc} (hn : threads n = some pc)
    (hpc : pc.permit = some p) {m : Nat} {x : Pc} (hne : m ≠ n) (hx : threads m = some x) (hpermit : x.permit = some p) :
    False := hne (h.sole hconnected m n x pc hx hn hpermit hpc)

theorem Permit.Ok.lock_other (h : q.Ok threads p) {pc : Pc} (hn : threads n = some pc) (hreturns : pc.returns = false) {m : Nat}
    (hm : q.lock = some m) : q.released = true ∧ m ≠ n := by
  obtain ⟨hreleased, x, hx, _, hxreturns⟩ := h.lock m hm
  refine ⟨hreleased, ?_⟩
  rintro rfl
  rw [hn] at hx
  rw [← Option.some.inj hx, hreturns] at hxreturns
  cases hxreturns

theorem moves_connect (h : q.Ok threads p) (hn : threads n = some (.connecting p)) :
    Permit.Moves threads n p q { q with native := true } (some (.configuring p)) := by
  obtain ⟨hconnected, hreleased, _⟩ := h.holds n _ hn rfl
  refine ⟨id, by simp [Pc.permit], fun _ => hreleased, by simp [Pc.Holds, hconnected, hreleased], fun m x hne hx hpermit _ => ?_,
    fun m hm => ?_, by simp⟩
  · exact (h.alone hconnected hn rfl hne hx hpermit).elim
  · obtain ⟨hold, hne⟩ := h.lock_other hn rfl hm
    exact ⟨hold, .inl ⟨hne, hm⟩⟩

/-- A step that leaves the permit as it is. -/
theorem moves_on (h : q.Ok threads p) {pc pc' : Pc} (hn : threads n = some pc) (hreturns : pc.returns = false)
    (hpc' : pc'.permit = some p) (hholds : pc'.Holds n q) : Permit.Moves threads n p q q (some pc') := by
  refine ⟨id, by simp [hpc'], h.native, by simp [hholds], fun _ _ _ _ _ hx => hx, fun m hm => ?_, by simp⟩
  obtain ⟨hold, hne⟩ := h.lock_other hn hreturns hm
  exact ⟨hold, .inl ⟨hne, hm⟩⟩

theorem moves_configured (h : q.Ok threads p) (hn : threads n = some (.configuring p)) :
    Permit.Moves threads n p q { q with connected := true } none := by
  obtain ⟨hconnected, _⟩ := h.holds n _ hn rfl
  refine ⟨by simp, by simp, h.native, by simp, fun m x hne hx hpermit _ => ?_, fun m hm => ?_, by simp⟩
  · exact (h.alone hconnected hn rfl hne hx hpermit).elim
  · obtain ⟨hold, hne⟩ := h.lock_other hn rfl hm
    exact ⟨hold, .inl ⟨hne, hm⟩⟩

theorem moves_closing (h : q.Ok threads p) (hn : threads n = some (.closing p)) (hfree : q.closeLock = none) :
    Permit.Moves threads n p q { q with closeLock := some n } (some (.disconnecting p)) := by
  refine ⟨id, by simp [Pc.permit], h.native, by simp [Pc.Holds], fun m x hne hx hpermit hold => ?_, fun m hm => ?_, by simp⟩
  · -- nobody relies on a lock that is free
    cases x with
    | disconnecting r => simp [Pc.Holds, hfree] at hold
    | releasing r closer => cases closer <;> simp_all [Pc.Holds]
    | returning r closer => cases closer <;> simp_all [Pc.Holds]
    | _ => exact hold
  · obtain ⟨hold, hne⟩ := h.lock_other hn rfl hm
    exact ⟨hold, .inl ⟨hne, hm⟩⟩

theorem moves_disconnecting (h : q.Ok threads p) (hn : threads n = some (.disconnecting p)) :
    Permit.Moves threads n p q { q with native := false } (some (.releasing p true)) := by
  have hclose : q.closeLock = some n := h.holds n _ hn rfl
  refine ⟨id, by simp [Pc.permit], by simp, by simp [Pc.Holds, hclose], fun m x hne hx hpermit hold => ?_, fun m hm => ?_,
    by simp⟩
  · cases x <;> simp_all [Pc.Holds]
  · obtain ⟨hold, hne⟩ := h.lock_other hn rfl hm
    exact ⟨hold, .inl ⟨hne, hm⟩⟩

/-- A second release does nothing. -/
theorem moves_released {closer : Bool} (h : q.Ok threads p) (hn : threads n = some (.releasing p closer))
    (hreleased : q.released = true) :
    Permit.Moves threads n p q (q.leave closer) none := by
  obtain ⟨hnative, hclose⟩ := h.holds n _ hn rfl
  refine ⟨id, by simp, by simp [Permit.leave, hnative], by simp, fun m x hne hx hpermit hold => ?_, fun m hm => ?_,
    by simp [Permit.leave, hreleased]⟩
  · cases closer with
    | false => exact hold
    | true =>
      have hclose : q.closeLock = some n := hclose
      cases x with
      | disconnecting r => simp_all [Pc.Holds]
      | releasing r c => cases c <;> simp_all [Pc.Holds, Permit.leave]
      | returning r c => cases c <;> simp_all [Pc.Holds, Permit.leave]
      | _ => exact hold
  · obtain ⟨hold, hne⟩ := h.lock_other hn rfl hm
    exact ⟨hold, .inl ⟨hne, hm⟩⟩

theorem moves_releasing {closer : Bool} (h : q.Ok threads p) (hn : threads n = some (.releasing p closer))
    (hfree : q.lock = none) :
    Permit.Moves threads n p q { q with lock := some n, released := true } (some (.returning p closer)) := by
  obtain ⟨hnative, hclose⟩ := h.holds n _ hn rfl
  refine ⟨id, by simp [Pc.permit], by simp [hnative], ?_, fun m x hne hx hpermit hold => ?_, fun m hm => ?_, by simp⟩
  · rintro x hx
    obtain rfl := Option.some.inj hx
    exact ⟨hnative, rfl, rfl, fun hc => by simpa [hc] using hclose⟩
  · -- the maker of a permit is the only one to release it before it is handed out
    cases x with
    | connecting r => exact (h.alone hold.1 hn rfl hne hx hpermit).elim
    | configuring r => exact (h.alone hold.1 hn rfl hne hx hpermit).elim
    | returning r c => simp_all [Pc.Holds]
    | _ => exact hold
  · obtain rfl := Option.some.inj hm
    exact ⟨rfl, .inr ⟨rfl, _, rfl, rfl⟩⟩

theorem moves_returning {closer : Bool} (h : q.Ok threads p) (hn : threads n = some (.returning p closer)) :
    Permit.Moves threads n p q { q.leave closer with lock := none } none := by
  obtain ⟨hnative, hreleased, hlock, hclose⟩ := h.holds n _ hn rfl
  refine ⟨id, by simp, by simp [Permit.leave, hnative], by simp, fun m x hne hx hpermit hold => ?_, by simp,
    by simp [Permit.leave, hreleased]⟩
  cases closer with
  | false => cases x <;> simp_all [Pc.Holds, Permit.leave]
  | true =>
    cases x with
    | releasing r c => cases c <;> simp_all [Pc.Holds, Permit.leave]
    | _ => simp_all [Pc.Holds, Permit.leave]

end Moves

/-! ## Steps on the queue -/

/-- A thread that has left the queue, with the places it was in. -/
def State.unqueue (s : State) (n : Nat) : State :=
  { s with
    waiters := s.waiters.erase n
    woken := s.woken.erase n }

section Queue
variable {n : Nat}

theorem State.Inv.unqueue_nodup (h : s.Inv limit) (n : Nat) : (s.waiters.erase n ++ s.woken.erase n).Nodup :=
  h.nodup.sublist ((List.erase_sublist ..).append (List.erase_sublist ..))

theorem State.Inv.mem_unqueue (h : s.Inv limit) (n m : Nat) :
    m ∈ s.waiters.erase n ++ s.woken.erase n ↔ m ≠ n ∧ m ∈ s.waiters ++ s.woken := by
  have hwaiters : s.waiters.Nodup := (List.nodup_append.mp h.nodup).1
  have hwoken : s.woken.Nodup := (List.nodup_append.mp h.nodup).2.1
  rw [List.mem_append, List.mem_append, hwaiters.mem_erase_iff, hwoken.mem_erase_iff]
  constructor
  · rintro (⟨hne, hm⟩ | ⟨hne, hm⟩)
    · exact ⟨hne, .inl hm⟩
    · exact ⟨hne, .inr hm⟩
  · rintro ⟨hne, hm | hm⟩
    · exact .inl ⟨hne, hm⟩
    · exact .inr ⟨hne, hm⟩

/-- One who leaves the queue takes no more than one wake-up along. -/
theorem State.Inv.unqueue_slots (h : s.Inv limit) (n : Nat) (hne : s.waiters.erase n ≠ []) :
    limit ≤ s.active + 1 + (s.woken.erase n).length := by
  have hslots := h.slots fun hnil => hne (by rw [hnil]; rfl)
  have hlength : s.woken.length ≤ (s.woken.erase n).length + 1 := by
    rw [List.length_erase]
    split <;> omega
  omega

/-- The permits of threads that move where no permit is. -/
theorem State.Inv.permits_of (h : s.Inv limit) (hold : ∀ x, s.threads n = some x → x.permit = none) {pc' : Option Pc}
    (hpc' : ∀ x, pc' = some x → x.permit = none) (p : Nat) (q : Permit) (hq : s.permits[p]? = some q) :
    q.Ok (Function.update s.threads n pc') p := by
  refine (h.permits p q hq).other (fun x hx heq => ?_) fun x hx heq => ?_
  · rw [hold x hx] at heq
    cases heq
  · rw [hpc' x hx] at heq
    cases heq

theorem State.Inv.known_of (h : s.Inv limit) {pc' : Option Pc} (hpc' : ∀ x, pc' = some x → x.permit = none) (m : Nat)
    (x : Pc) (p : Nat) (hm : Function.update s.threads n pc' m = some x) (hx : x.permit = some p) : p < s.permits.length := by
  by_cases heq : m = n
  · subst heq
    rw [Function.update_self] at hm
    rw [hpc' x hm] at hx
    cases hx
  · rw [Function.update_of_ne heq] at hm
    exact h.known m x p hm hx

theorem State.Inv.leave (h : s.Inv limit) {pc : Pc} (hn : s.threads n = some pc) (hpc : pc.permit = none)
    (hfull : limit ≤ s.active) : ((s.unqueue n).go n none).Inv limit where
  bound := h.bound
  count := h.count
  permits := h.permits_of (by simp [hn, hpc]) (by simp)
  known := h.known_of (by simp)
  nodup := h.unqueue_nodup n
  queue m := by
    refine (h.mem_unqueue n m).trans ?_
    rw [h.queue m]
    by_cases heq : m = n
    · simp [heq, State.go]
    · simp [heq, State.go, State.unqueue]
  slots _ := Nat.le_add_right_of_le hfull
  used := h.used

theorem State.Inv.wait (h : s.Inv limit) {pc : Pc} (hn : s.threads n = some pc) (hpc : pc.permit = none)
    (hfull : limit ≤ s.active) : ((s.unqueue n).wait n).Inv limit where
  bound := h.bound
  count := h.count
  permits := h.permits_of (by simp [hn, hpc]) (by simp [Pc.permit])
  known := h.known_of (by simp [Pc.permit])
  nodup := by
    have hperm : (s.waiters.erase n ++ [n] ++ s.woken.erase n).Perm (n :: (s.waiters.erase n ++ s.woken.erase n)) := by
      rw [List.append_assoc, List.singleton_append]
      exact List.perm_middle
    refine hperm.nodup_iff.mpr (List.nodup_cons.mpr ⟨fun hmem => ?_, h.unqueue_nodup n⟩)
    exact ((h.mem_unqueue n n).mp hmem).1 rfl
  queue m := by
    have hmem : m ∈ s.waiters.erase n ++ [n] ++ s.woken.erase n ↔ m = n ∨ m ∈ s.waiters.erase n ++ s.woken.erase n := by
      simp only [List.mem_append, List.mem_singleton]
      tauto
    refine hmem.trans ?_
    rw [h.mem_unqueue n m, h.queue m]
    by_cases heq : m = n
    · simp [heq, State.wait, State.go, Pc.queued]
    · simp [heq, State.wait, State.go, State.unqueue]
  slots _ := Nat.le_add_right_of_le hfull
  used := h.used

theorem fresh_ok (h : s.Inv limit) (n : Nat) : Permit.fresh.Ok
    (Function.update s.threads n (some (.connecting s.permits.length))) s.permits.length := by
  have hmine : ∀ m x, Function.update s.threads n (some (.connecting s.permits.length)) m = some x →
      x.permit = some s.permits.length → m = n ∧ x = .connecting s.permits.length := by
    intro m x hm hx
    by_cases heq : m = n
    · subst heq
      exact ⟨rfl, by simpa using hm.symm⟩
    · rw [Function.update_of_ne heq] at hm
      exact absurd (h.known m x _ hm hx) (Nat.lt_irrefl _)
  refine ⟨by simp [Permit.fresh], fun m x hm hx => ?_, by simp [Permit.fresh], fun _ m k x y hm hk hx hy => ?_,
    fun _ _ => ⟨n, _, Function.update_self .., rfl⟩⟩
  · rw [(hmine m x hm hx).2]
    exact ⟨rfl, rfl, rfl⟩
  · rw [(hmine m x hm hx).1, (hmine k y hk hy).1]

theorem State.Inv.grant (h : s.Inv limit) {pc : Pc} (hn : s.threads n = some pc) (hpc : pc.permit = none)
    (hfree : s.active < limit) : ((s.unqueue n).grant n).Inv limit where
  bound := hfree
  count := by
    change s.active + 1 = (s.permits ++ [Permit.fresh]).countP Permit.outstanding
    rw [List.countP_append, ← h.count]
    rfl
  permits p q hq := by
    change (s.permits ++ [Permit.fresh])[p]? = some q at hq
    obtain hlt | heq | hgt := Nat.lt_trichotomy p s.permits.length
    · rw [List.getElem?_append_left hlt] at hq
      refine (h.permits p q hq).other (fun x hx heq => ?_) fun x hx heq => ?_
      · rw [hn] at hx
        rw [← Option.some.inj hx, hpc] at heq
        cases heq
      · obtain rfl := Option.some.inj hx
        have : s.permits.length = p := Option.some.inj heq
        omega
    · subst heq
      rw [List.getElem?_concat_length] at hq
      rw [← Option.some.inj hq]
      exact fresh_ok h n
    · rw [List.getElem?_eq_none (by simp; omega)] at hq
      cases hq
  known m x p hm hx := by
    change p < (s.permits ++ [Permit.fresh]).length
    rw [List.length_append, List.length_singleton]
    by_cases heq : m = n
    · subst heq
      have hx' : x = .connecting s.permits.length := by simpa [State.grant, State.go, State.unqueue] using hm.symm
      rw [hx'] at hx
      have : s.permits.length = p := Option.some.inj hx
      omega
    · have := h.known m x p (by simpa [State.grant, State.go, State.unqueue, Function.update_of_ne heq] using hm) hx
      omega
  nodup := h.unqueue_nodup n
  queue m := by
    refine (h.mem_unqueue n m).trans ?_
    rw [h.queue m]
    by_cases heq : m = n
    · simp [heq, State.grant, State.go, State.unqueue, Pc.queued]
    · simp [heq, State.grant, State.go, State.unqueue]
  slots := h.unqueue_slots n
  used := h.used

theorem State.Inv.check (h : s.Inv limit) {pc : Pc} (hn : s.threads n = some pc) (hpc : pc.permit = none) (late : Bool) :
    ((s.unqueue n).check limit n late).Inv limit := by
  unfold State.check
  split
  · next hfree => exact h.grant hn hpc hfree
  · next hfull =>
    split
    · exact h.leave hn hpc (Nat.le_of_not_lt hfull)
    · exact h.wait hn hpc (Nat.le_of_not_lt hfull)

end Queue

/-! ## Every step -/

section Steps
variable {n p : Nat}

theorem State.Inv.moved (h : s.Inv limit) {pc : Pc} {q q' : Permit} {pc' : Option Pc} (hn : s.threads n = some pc)
    (hpc : pc.permit = some p) (hq : s.permits[p]? = some q) (hcount : q'.outstanding = q.outstanding)
    (hmoves : q.Ok s.threads p → Permit.Moves s.threads n p q q' pc') : ((s.set p q').go n pc').Inv limit := by
  have hmoved := hmoves (h.permits p q hq)
  exact h.work hn hpc hq hmoved.permit hcount ((h.permits p q hq).own hn hpc hmoved)

theorem set_same {q : Permit} (hq : s.permits[p]? = some q) : s.set p q = s := by
  obtain ⟨hp, rfl⟩ := List.getElem?_eq_some_iff.mp hq
  simp [State.set, List.set_getElem_self]

/-- A wake-up takes one caller from one list to the other. -/
theorem notify_perm (s : State) : (s.notify.waiters ++ s.notify.woken).Perm (s.waiters ++ s.woken) := by
  unfold State.notify
  cases hwaiters : s.waiters with
  | nil => simp [hwaiters]
  | cons m rest =>
    simp only [List.cons_append]
    rw [← List.append_assoc]
    exact List.perm_append_singleton m (rest ++ s.woken)

theorem notify_wakes (s : State) (h : s.notify.waiters ≠ []) :
    s.waiters ≠ [] ∧ s.notify.woken.length = s.woken.length + 1 := by
  unfold State.notify at h ⊢
  cases hwaiters : s.waiters with
  | nil =>
    rw [hwaiters] at h
    exact absurd hwaiters h
  | cons m rest => simp

theorem notify_rest (s : State) : s.notify.active = s.active ∧ s.notify.permits = s.permits ∧
    s.notify.threads = s.threads ∧ s.notify.misused = s.misused := by
  unfold State.notify
  cases s.waiters <;> exact ⟨rfl, rfl, rfl, rfl⟩

/-- `SessionAdmission.release` never finds its counter at zero. -/
theorem State.Inv.returned (h : s.Inv limit) {closer : Bool} {q : Permit} (hn : s.threads n = some (.returning p closer))
    (hq : s.permits[p]? = some q) : ((s.giveBack.set p { q.leave closer with lock := none }).go n none).Inv limit := by
  have hok := h.permits p q hq
  obtain ⟨_, hreleased, hlock, _⟩ := hok.holds n _ hn rfl
  have hmoves := moves_returning hok hn
  let q' : Permit := { q.leave closer with lock := none }
  have hset := count_set hq q'
  have hbefore : q.outstanding = true := by simp [Permit.outstanding, hlock]
  have hafter : q'.outstanding = false := by simp [q', Permit.outstanding, Permit.leave, hreleased]
  rw [← h.count, hbefore, hafter] at hset
  simp only [if_true, Bool.false_eq_true, if_false] at hset
  have hactive : s.active ≠ 0 := by omega
  let u : State := { s with active := s.active - 1 }
  obtain ⟨hactive', hpermits', hthreads', hmisused'⟩ := notify_rest u
  have hgive : s.giveBack = u.notify := if_neg hactive
  have hperm := notify_perm u
  rw [hgive]
  constructor
  · change u.notify.active ≤ limit
    have hbound := h.bound
    rw [hactive']
    exact Nat.le_trans (Nat.sub_le _ _) hbound
  · change u.notify.active = (u.notify.permits.set p q').countP Permit.outstanding
    rw [hactive', hpermits']
    exact Nat.sub_eq_of_eq_add hset.symm
  · change ∀ (m : Nat) (r : Permit), (u.notify.permits.set p q')[m]? = some r →
      r.Ok (Function.update u.notify.threads n none) m
    rw [hpermits', hthreads']
    exact h.work_permits hn rfl hmoves.permit (hok.own hn rfl hmoves)
  · change ∀ m x r, Function.update u.notify.threads n none m = some x → x.permit = some r →
      r < (u.notify.permits.set p q').length
    rw [hpermits', hthreads']
    exact h.work_known hn rfl hmoves.permit
  · exact hperm.nodup_iff.mpr h.nodup
  · intro m
    change m ∈ u.notify.waiters ++ u.notify.woken ↔ ∃ x, Function.update u.notify.threads n none m = some x ∧ _
    rw [hthreads']
    exact hperm.mem_iff.trans (h.work_queue hn rfl hmoves.permit m)
  · intro hne
    obtain ⟨hold, hwoken⟩ := notify_wakes u hne
    have hslots := h.slots hold
    change limit ≤ u.notify.active + u.notify.woken.length
    rw [hactive', hwoken]
    change limit ≤ s.active - 1 + (s.woken.length + 1)
    omega
  · exact hmisused'.trans h.used

theorem State.Inv.enter (h : s.Inv limit) (hn : s.threads n = none) : (s.go n (some .entering)).Inv limit where
  bound := h.bound
  count := h.count
  permits := h.permits_of (by simp [hn]) (by simp [Pc.permit])
  known := h.known_of (by simp [Pc.permit])
  nodup := h.nodup
  queue m := by
    refine (h.queue m).trans ?_
    by_cases heq : m = n
    · simp [heq, hn, State.go, Pc.queued]
    · simp [heq, State.go]
  slots := h.slots
  used := h.used

theorem State.Inv.expire (h : s.Inv limit) (hn : s.threads n = some .waiting) : (s.go n (some .timedOut)).Inv limit where
  bound := h.bound
  count := h.count
  permits := h.permits_of (by simp [hn, Pc.permit]) (by simp [Pc.permit])
  known := h.known_of (by simp [Pc.permit])
  nodup := h.nodup
  queue m := by
    refine (h.queue m).trans ?_
    by_cases heq : m = n
    · simp [heq, hn, State.go, Pc.queued]
    · simp [heq, State.go]
  slots := h.slots
  used := h.used

/-- Any thread may close a connection that was handed out. -/
theorem State.Inv.close (h : s.Inv limit) (hn : s.threads n = none) {q : Permit} (hq : s.permits[p]? = some q)
    (hconnected : q.connected = true) : (s.go n (some (.closing p))).Inv limit where
  bound := h.bound
  count := h.count
  permits m r hr := by
    by_cases hm : m = p
    · subst hm
      obtain rfl := Option.some.inj (hq.symm.trans hr)
      have hok := h.permits m q hq
      refine ⟨hok.native, fun k x hk hx => ?_, fun k hlock => ?_, fun hfalse => ?_, fun hfalse => ?_⟩
      · by_cases heq : k = n
        · subst heq
          obtain rfl : x = .closing m := by simpa [State.go] using hk.symm
          trivial
        · exact hok.holds k x (by simpa [State.go, heq] using hk) hx
      · obtain ⟨hreleased, x, hx, hrest⟩ := hok.lock k hlock
        have hne : k ≠ n := by
          rintro rfl
          rw [hn] at hx
          cases hx
        exact ⟨hreleased, x, by simpa [State.go, hne] using hx, hrest⟩
      · rw [hconnected] at hfalse
        cases hfalse
      · rw [hconnected] at hfalse
        cases hfalse
    · refine (h.permits m r hr).other (by simp [hn]) fun x hx heq => ?_
      obtain rfl := Option.some.inj hx
      exact hm (Option.some.inj heq).symm
  known m x r hm hr := by
    by_cases heq : m = n
    · subst heq
      obtain rfl : x = .closing p := by simpa [State.go] using hm.symm
      obtain rfl := Option.some.inj hr
      exact (List.getElem?_eq_some_iff.mp hq).1
    · exact h.known m x r (by simpa [State.go, heq] using hm) hr
  nodup := h.nodup
  queue m := by
    refine (h.queue m).trans ?_
    by_cases heq : m = n
    · simp [heq, hn, State.go, Pc.queued]
    · simp [heq, State.go]
  slots := h.slots
  used := h.used

theorem State.Inv.lose (h : s.Inv limit) {q : Permit} (hq : s.permits[p]? = some q) :
    (s.set p { q with native := false }).Inv limit where
  bound := h.bound
  count := by
    have hset := count_set hq { q with native := false }
    rw [show Permit.outstanding { q with native := false } = q.outstanding from rfl] at hset
    exact h.count.trans (Nat.add_right_cancel hset).symm
  permits m r hr := by
    by_cases hm : m = p
    · subst hm
      have hr : r = { q with native := false } := by
        rw [State.set, List.getElem?_set_self (List.getElem?_eq_some_iff.mp hq).1] at hr
        exact (Option.some.inj hr).symm
      subst hr
      have hok := h.permits m q hq
      refine ⟨by simp, fun k x hk hx => ?_, hok.lock, hok.sole, hok.kept⟩
      have hholds := hok.holds k x hk hx
      cases x <;> simp_all [Pc.Holds]
    · rw [State.set, List.getElem?_set_ne (Ne.symm hm)] at hr
      exact h.permits m r hr
  known m x r hm hr := by
    rw [State.set, List.length_set]
    exact h.known m x r hm hr
  nodup := h.nodup
  queue := h.queue
  slots := h.slots
  used := h.used

/-- A thread in no list leaves none. -/
theorem unqueue_same (hwaiters : n ∉ s.waiters) (hwoken : n ∉ s.woken) : s.unqueue n = s := by
  unfold State.unqueue
  rw [List.erase_of_not_mem hwaiters, List.erase_of_not_mem hwoken]

theorem State.Inv.advance (h : s.Inv limit) {pc : Pc} (hn : s.threads n = some pc) (answer : Bool)
    (hstep : s.advance limit n answer pc = some t) : t.Inv limit := by
  cases pc with
  | entering =>
    have hout : n ∉ s.waiters ++ s.woken := by simp [h.queue, hn, Pc.queued]
    simp only [List.mem_append, not_or] at hout
    cases hstep
    rw [← unqueue_same hout.1 hout.2]
    exact h.check hn rfl false
  | waiting =>
    unfold State.advance at hstep
    dsimp only at hstep
    split at hstep
    · next hwoken =>
      cases hstep
      have hout : n ∉ s.waiters := fun hin => (List.nodup_append.mp h.nodup).2.2 n hin n hwoken rfl
      have heq : ({ s with woken := s.woken.erase n } : State) = s.unqueue n := by
        rw [State.unqueue, List.erase_of_not_mem hout]
      rw [heq]
      exact h.check hn rfl answer
    · cases hstep
  | timedOut =>
    cases hstep
    exact h.check hn rfl answer
  | connecting p =>
    obtain ⟨q, hq, rfl⟩ := Option.map_eq_some_iff.mp hstep
    split
    · exact h.moved hn rfl hq rfl fun hok => moves_connect hok hn
    · rw [← set_same hq]
      refine h.moved hn rfl hq rfl fun hok => moves_on hok hn rfl rfl ?_
      obtain ⟨hconnected, _, hnative⟩ := hok.holds n _ hn rfl
      exact ⟨hnative, hconnected⟩
  | configuring p =>
    obtain ⟨q, hq, rfl⟩ := Option.map_eq_some_iff.mp hstep
    split
    · exact h.moved hn rfl hq rfl fun hok => moves_configured hok hn
    · rw [← set_same hq]
      exact h.moved hn rfl hq rfl fun hok => moves_on hok hn rfl rfl trivial
  | closing p =>
    obtain ⟨q, hq, hif⟩ := Option.bind_eq_some_iff.mp hstep
    split at hif
    · cases hif
    · next hfree =>
      cases hif
      exact h.moved hn rfl hq rfl fun hok => moves_closing hok hn (by simpa using hfree)
  | disconnecting p =>
    obtain ⟨q, hq, rfl⟩ := Option.map_eq_some_iff.mp hstep
    exact h.moved hn rfl hq rfl fun hok => moves_disconnecting hok hn
  | releasing p closer =>
    obtain ⟨q, hq, hif⟩ := Option.bind_eq_some_iff.mp hstep
    split at hif
    · cases hif
    · next hfree =>
      have hfree : q.lock = none := by simpa using hfree
      split at hif
      · next hreleased =>
        cases hif
        exact h.moved hn rfl hq rfl fun hok => moves_released hok hn hreleased
      · next hreleased =>
        cases hif
        have hcount : Permit.outstanding { q with lock := some n, released := true } = q.outstanding := by
          simp [Permit.outstanding, hreleased]
        exact h.moved hn rfl hq hcount fun hok => moves_releasing hok hn hfree
  | returning p closer =>
    obtain ⟨q, hq, rfl⟩ := Option.map_eq_some_iff.mp hstep
    exact h.returned hn hq

theorem step_inv (h : s.Inv limit) {e : Event} (hstep : s.step limit e = some t) : t.Inv limit := by
  cases e with
  | connect n =>
    unfold State.step at hstep
    dsimp only at hstep
    split at hstep
    · next hn =>
      cases hstep
      exact h.enter (Option.isNone_iff_eq_none.mp hn)
    · cases hstep
  | close n p =>
    unfold State.step at hstep
    dsimp only at hstep
    split at hstep
    · next hok =>
      cases hstep
      obtain ⟨q, hq, hconnected⟩ := (Option.any_eq_true _ _).mp hok.2
      exact h.close (Option.isNone_iff_eq_none.mp hok.1) hq hconnected
    · cases hstep
  | step n answer =>
    obtain ⟨pc, hn, hadvance⟩ := Option.bind_eq_some_iff.mp hstep
    exact h.advance hn answer hadvance
  | timeout n =>
    unfold State.step at hstep
    dsimp only at hstep
    split at hstep
    · next hn =>
      cases hstep
      exact h.expire hn
    · cases hstep
  | lost p =>
    obtain ⟨q, hq, rfl⟩ := Option.map_eq_some_iff.mp hstep
    exact h.lose hq

theorem inv_of_reachable (h : Reachable (sessions limit) s) : s.Inv limit := by
  refine Reachable.invariant (I := State.Inv limit) ?_ (fun s e t hs hstep => step_inv hs hstep) h
  rintro s rfl
  constructor <;> simp

theorem queued_steps (h : s.Inv limit) (hn : n ∈ s.woken) (hfree : s.active < limit) (late : Bool) :
    ∃ t p, s.step limit (.step n late) = some t ∧ t.threads n = some (.connecting p) := by
  obtain ⟨pc, hpc, hqueued⟩ := (h.queue n).mp (List.mem_append_right _ hn)
  cases pc with
  | waiting => simp [State.step, hpc, State.advance, hn, State.check, hfree, State.grant, State.go]
  | timedOut => simp [State.step, hpc, State.advance, State.check, hfree, State.grant, State.go]
  | _ => cases hqueued

/-- Nothing is outstanding between calls but the open connections. -/
theorem idle_outstanding (h : s.Inv limit) (hidle : ∀ n, s.threads n = none) :
    s.permits.countP Permit.outstanding = s.permits.countP fun q => q.connected && !q.released := by
  refine List.countP_congr fun q hq => ?_
  obtain ⟨p, hp⟩ := List.mem_iff_getElem?.mp hq
  have hok := h.permits p q hp
  have hlock : q.lock = none := by
    refine Option.eq_none_iff_forall_ne_some.mpr fun n hn => ?_
    obtain ⟨_, pc, hpc, _⟩ := hok.lock n hn
    rw [hidle n] at hpc
    cases hpc
  cases hconnected : q.connected with
  | true => simp [Permit.outstanding, hlock]
  | false =>
    cases hreleased : q.released with
    | true => simp [Permit.outstanding, hlock, hreleased]
    | false =>
      obtain ⟨n, pc, hpc, _⟩ := hok.kept hconnected hreleased
      rw [hidle n] at hpc
      cases hpc

/-- In every run of connects, failed connects, concurrent and repeated closes, timeouts and lost sessions: no more native
sessions are open than admissions are out, and no more of these than the limit; each admission comes back once, behind its
native session; the callers that have been woken cover the free places while anybody waits, and take one each; and with
all threads idle only open connections hold an admission. -/
theorem sessions_admitted (h : Reachable (sessions limit) s) :
    s.permits.countP Permit.native ≤ s.active ∧ s.active ≤ limit ∧
    s.active = s.permits.countP Permit.outstanding ∧ s.misused = false ∧
    (∀ q ∈ s.permits, q.native = true → q.released = false) ∧
    (s.waiters ≠ [] → limit ≤ s.active + s.woken.length) ∧
    (∀ n ∈ s.woken, s.active < limit → ∀ late, ∃ t p, s.step limit (.step n late) = some t ∧
      t.threads n = some (.connecting p)) ∧
    ((∀ n, s.threads n = none) → s.active = s.permits.countP fun q => q.connected && !q.released) := by
  have hinv := inv_of_reachable h
  have hnative : ∀ q ∈ s.permits, q.native = true → q.released = false := by
    intro q hq
    obtain ⟨p, hp⟩ := List.mem_iff_getElem?.mp hq
    exact (hinv.permits p q hp).native
  refine ⟨?_, hinv.bound, hinv.count, hinv.used, hnative, hinv.slots, fun n hn hfree late => queued_steps hinv hn hfree late,
    fun hidle => hinv.count.trans (idle_outstanding hinv hidle)⟩
  rw [hinv.count]
  refine List.countP_mono_left fun q hq hopen => ?_
  simp [Permit.outstanding, hnative q hq hopen]

end Steps

/-- Two callers wait for the one place, which two threads give back at a time. -/
def contended : List Event :=
  [.connect 0, .step 0 false, .step 0 true, .step 0 true, .connect 1, .step 1 false, .connect 2, .step 2 false,
    .close 0 0, .close 3 0, .step 0 false, .step 0 false, .step 0 false, .step 0 false, .step 3 false, .step 3 false,
    .step 3 false]

theorem sessions_admitted_contended : ∃ s, Reachable (sessions 1) s ∧ s.active = 0 ∧ s.waiters = [2] ∧ s.woken = [1] ∧
    ∃ t p, s.step 1 (.step 1 true) = some t ∧ t.threads 1 = some (.connecting p) := by
  obtain ⟨s, hreach, hs⟩ := Reach.of_exec (sessions 1) (fun _ _ => True) (s := ⟨0, [], [], [], fun _ => none, false⟩) rfl
    contended (fun s => decide (s.active = 0 ∧ s.waiters = [2] ∧ s.woken = [1])) (by decide +kernel)
  obtain ⟨hactive, hwaiters, hwoken⟩ := of_decide_eq_true hs
  obtain ⟨_, _, _, _, _, _, hsteps, _⟩ := sessions_admitted hreach
  exact ⟨s, hreach, hactive, hwaiters, hwoken, hsteps 1 (by simp [hwoken]) (by omega) true⟩

end ChessCrawl.Connections
