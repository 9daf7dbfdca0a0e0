import ChessCrawl.Storage.LocalFiles

/-! What `LocalObjectStore` guarantees across crashes, and that every step of it is one of the object operations. -/
namespace ChessCrawl.Storage.LocalStore
open ChessCrawl.Lib
set_option autoImplicit false

theorem sized_eq_some {size : Nat} {content body : Bytes} :
    sized size content = some body ↔ content = body ∧ body.length = size := by
  simp only [sized]
  constructor
  · intro h
    split at h
    · cases h
    · rename_i hlength
      obtain rfl := Option.some.inj h
      rw [not_not, List.length_take] at hlength
      have hshort : content.length ≤ size + 1 := by omega
      rw [List.take_of_length_le hshort]
      exact ⟨rfl, by omega⟩
  · rintro ⟨rfl, rfl⟩
    simp

/-! ## Projections -/

section Projections
variable (s : State) (f : Files) (i : Nat) (pc : Option Pc)

@[simp] theorem go_files : (s.go i pc).files = s.files := rfl
@[simp] theorem go_deletes : (s.go i pc).deletes = s.deletes := rfl
@[simp] theorem go_acknowledged : (s.go i pc).acknowledged = s.acknowledged := rfl
@[simp] theorem go_answers : (s.go i pc).answers = s.answers := rfl
@[simp] theorem on_files : (s.on f).files = f := rfl

@[simp] theorem go_self : (s.go i pc).threads i = pc := by
  simp [State.go]

theorem go_ne {j : Nat} (h : j ≠ i) : (s.go i pc).threads j = s.threads j := by
  simp [State.go, h]

end Projections

/-! ## The invariant -/

/-- The inode that only this thread can reach. -/
def Pc.owned : Pc → Option Nat
  | .writing _ n | .flushing _ n | .linking _ n => some n
  | _ => none

/-- The inode that the thread has opened under its name. -/
def Pc.opened : Pc → Option Nat
  | .matching _ n | .reading _ _ n => some n
  | _ => none

def State.owned (s : State) (i : Nat) : Option Nat := (s.threads i).bind Pc.owned

def State.Accepts (s : State) (p : Put) : Prop := (p.key, p.body) ∈ s.supplied ∧ p.since ≤ s.deletes p.key

/-- No name has ever stood for the inode. -/
def State.Private (s : State) (n : Nat) : Prop := n < s.files.inodes ∧ ∀ k, some n ∉ s.files.filesKept k

/-- The object is there, and the directories that are still to be synced are all that a crash could take it by. -/
def State.Settling (place : ObjectKey → Path) (s : State) (p : Put) (todo : List Path) : Prop :=
  s.files.Present p.key p.body ∧ ∀ d, d <+: place p.key → d ∈ todo ∨ s.files.Settled place p.key p.body d

def Pc.Ok (place : ObjectKey → Path) (s : State) : Pc → Prop
  | .making p _ | .creating p | .comparing p => s.Accepts p
  | .writing p n => s.Accepts p ∧ s.Private n
  | .flushing p n => s.Accepts p ∧ s.Private n ∧ s.files.content n = p.body
  | .linking p n => s.Accepts p ∧ s.Private n ∧ s.files.content n = p.body ∧ s.files.contentKept n = true
  | .matching p n => s.Accepts p ∧ n < s.files.inodes ∧ (s.deletes p.key = p.since → s.files.files p.key = some n)
  | .syncing p todo => s.Accepts p ∧ (s.deletes p.key = p.since → s.Settling place p todo)
  | .reading key _ n => n < s.files.inodes ∧ (key, s.files.content n) ∈ s.supplied
  | .opening .. | .unlinking _ => True

/-- An acknowledged body stays behind its key until somebody deletes it. -/
def State.Kept (place : ObjectKey → Path) (s : State) (p : Put) : Prop :=
  p.since ≤ s.deletes p.key ∧ (s.deletes p.key = p.since → s.files.Durable place p.key p.body)

def State.Answered (s : State) (a : ObjectKey × Nat × Bytes) : Prop := a.2.2.length = a.2.1 ∧ (a.1, a.2.2) ∈ s.supplied

structure Ok (place : ObjectKey → Path) (s : State) : Prop where
  files : s.files.Sound place
  supplied : ∀ k n, some n ∈ s.files.filesKept k → (k, s.files.content n) ∈ s.supplied
  threads : ∀ i pc, s.threads i = some pc → pc.Ok place s
  apart : ∀ i j q n, s.owned i = some n → s.threads j = some q → (j ≠ i → q.owned ≠ some n) ∧ q.opened ≠ some n
  acknowledged : ∀ p ∈ s.acknowledged, s.Kept place p
  answers : ∀ a ∈ s.answers, s.Answered a

/-! ## What a step does -/

/-- What a step does to the names. -/
inductive Changes (s t : State) : Prop
  | quiet (hcalm : ∀ k, Disk.Calm s.files t.files k)
  | linked (p : Put) (n : Nat) (hfree : s.files.files p.key = none) (hbody : s.files.content n = p.body)
      (hsupplied : (p.key, p.body) ∈ s.supplied) (hfiles : t.files = s.files.setName p.key (some n))
  | unlinked (key : ObjectKey) (hfiles : t.files = s.files.setName key none) (hdeletes : t.deletes key ≠ s.deletes key)

/-- An inode that a thread comes to hold is its own, new, or one behind a name. -/
def State.Takes (s : State) (i : Nat) (q : Pc) : Prop :=
  (∀ n, q.owned = some n → s.owned i = some n ∨ s.files.inodes ≤ n) ∧
    ∀ n, q.opened = some n → ∃ k, some n ∈ s.files.filesKept k

/-- A step of thread `i`. -/
structure Moves (place : ObjectKey → Path) (s t : State) (i : Nat) : Prop where
  threads : ∀ j, j ≠ i → t.threads j = s.threads j
  sound : t.files.Sound place
  inodes : s.files.inodes ≤ t.files.inodes
  supplied : ∀ q ∈ s.supplied, q ∈ t.supplied
  deletes : ∀ k, s.deletes k ≤ t.deletes k
  content : ∀ n, n < s.files.inodes → s.owned i ≠ some n →
    t.files.content n = s.files.content n ∧ (s.files.contentKept n = true → t.files.contentKept n = true)
  names : ∀ k n, some n ∈ t.files.filesKept k → some n ∈ s.files.filesKept k ∨ s.owned i = some n
  changes : Changes s t
  linked : ∀ k n, s.owned i = some n → some n ∈ t.files.filesKept k → (k, t.files.content n) ∈ t.supplied
  next : ∀ q, t.threads i = some q → q.Ok place t ∧ s.Takes i q
  acknowledged : ∀ p ∈ t.acknowledged, p ∈ s.acknowledged ∨ t.Kept place p
  answers : ∀ a ∈ t.answers, a ∈ s.answers ∨ t.Answered a

section Steps
variable {place : ObjectKey → Path} {s t : State} {i : Nat} {p : Put}

theorem Changes.calm (h : Changes s t) {k : ObjectKey} (hdeletes : t.deletes k = s.deletes k)
    (hthere : s.files.files k ≠ none) : Disk.Calm s.files t.files k := by
  cases h with
  | quiet hcalm => exact hcalm k
  | linked p n hfree _ _ hfiles =>
    have hk : k ≠ p.key := by
      rintro rfl
      exact hthere hfree
    rw [hfiles]
    exact Disk.Calm.setName s.files hk _
  | unlinked key hfiles hne =>
    have hk : k ≠ key := by
      rintro rfl
      exact hne hdeletes
    rw [hfiles]
    exact Disk.Calm.setName s.files hk _

theorem present_files {k : ObjectKey} {body : Bytes} (h : s.files.Present k body) : s.files.files k ≠ none := by
  obtain ⟨n, hn, _⟩ := h
  simp [hn]

namespace Moves

theorem accepts (h : Moves place s t i) (hp : s.Accepts p) : t.Accepts p :=
  ⟨h.supplied _ hp.1, Nat.le_trans hp.2 (h.deletes _)⟩

theorem hidden (h : Moves place s t i) {n : Nat} (hn : s.Private n) (hne : s.owned i ≠ some n) : t.Private n := by
  refine ⟨Nat.lt_of_lt_of_le hn.1 h.inodes, fun k hk => ?_⟩
  obtain hold | howned := h.names k n hk
  · exact hn.2 k hold
  · exact hne howned

/-- Without a deletion since the call, nothing has been deleted by this step either. -/
theorem deletes_eq (h : Moves place s t i) {k : ObjectKey} {since : Nat} (hle : since ≤ s.deletes k)
    (heq : t.deletes k = since) : s.deletes k = since ∧ t.deletes k = s.deletes k := by
  have := h.deletes k
  omega

theorem kept (h : Moves place s t i) (hsound : s.files.Sound place) (hp : s.Kept place p) : t.Kept place p := by
  refine ⟨Nat.le_trans hp.1 (h.deletes _), fun heq => ?_⟩
  obtain ⟨hold, hsame⟩ := h.deletes_eq hp.1 heq
  have hdurable := hp.2 hold
  exact (h.changes.calm hsame (present_files (hdurable.present hsound))).durable hdurable

theorem settling (h : Moves place s t i) (hsound : s.files.Sound place) {todo : List Path}
    (hsame : t.deletes p.key = s.deletes p.key) (hs : s.Settling place p todo) : t.Settling place p todo := by
  have hcalm := h.changes.calm hsame (present_files hs.1)
  exact ⟨hcalm.present hsound hs.1, fun d hd => (hs.2 d hd).imp_right hcalm.settled⟩

/-- What another thread knows stays true. -/
theorem other (h : Moves place s t i) (hsound : s.files.Sound place) {q : Pc} (hq : q.Ok place s)
    (howned : ∀ n, s.owned i = some n → q.owned ≠ some n ∧ q.opened ≠ some n) : q.Ok place t := by
  cases q with
  | making p _ => exact h.accepts hq
  | creating p => exact h.accepts hq
  | comparing p => exact h.accepts hq
  | writing p n =>
    have hne : s.owned i ≠ some n := fun heq => (howned n heq).1 rfl
    exact ⟨h.accepts hq.1, h.hidden hq.2 hne⟩
  | flushing p n =>
    have hne : s.owned i ≠ some n := fun heq => (howned n heq).1 rfl
    exact ⟨h.accepts hq.1, h.hidden hq.2.1 hne, (h.content n hq.2.1.1 hne).1.trans hq.2.2⟩
  | linking p n =>
    have hne : s.owned i ≠ some n := fun heq => (howned n heq).1 rfl
    obtain ⟨hcontent, hkept⟩ := h.content n hq.2.1.1 hne
    exact ⟨h.accepts hq.1, h.hidden hq.2.1 hne, hcontent.trans hq.2.2.1, hkept hq.2.2.2⟩
  | matching p n =>
    refine ⟨h.accepts hq.1, Nat.lt_of_lt_of_le hq.2.1 h.inodes, fun heq => ?_⟩
    obtain ⟨hold, hsame⟩ := h.deletes_eq hq.1.2 heq
    have hfile := hq.2.2 hold
    rw [(h.changes.calm hsame (by simp [hfile])).files, hfile]
  | syncing p todo =>
    refine ⟨h.accepts hq.1, fun heq => ?_⟩
    obtain ⟨hold, hsame⟩ := h.deletes_eq hq.1.2 heq
    exact h.settling hsound hsame (hq.2 hold)
  | reading key size n =>
    have hne : s.owned i ≠ some n := fun heq => (howned n heq).2 rfl
    refine ⟨Nat.lt_of_lt_of_le hq.1 h.inodes, ?_⟩
    rw [(h.content n hq.1 hne).1]
    exact h.supplied _ hq.2
  | opening key size => trivial
  | unlinking key => trivial

end Moves

theorem Ok.private_of_owned (h : Ok place s) {n : Nat} (hn : s.owned i = some n) : s.Private n := by
  obtain ⟨pc, hpc, howned⟩ := Option.bind_eq_some_iff.mp hn
  have hok := h.threads i pc hpc
  cases pc <;> simp only [Pc.owned, Option.some.injEq, reduceCtorEq] at howned
  all_goals
    subst howned
    first
      | exact hok.2
      | exact hok.2.1

theorem Ok.opened_lt (h : Ok place s) {q : Pc} {n : Nat} (hq : s.threads i = some q) (hn : q.opened = some n) :
    n < s.files.inodes := by
  have hok := h.threads i q hq
  cases q <;> simp only [Pc.opened, Option.some.injEq, reduceCtorEq] at hn
  all_goals
    subst hn
    first
      | exact hok.2.1
      | exact hok.1

theorem Ok.move (h : Ok place s) (hmove : Moves place s t i) : Ok place t := by
  refine ⟨hmove.sound, fun k n hn => ?_, fun j q hq => ?_, fun a b q n ha hb => ?_, fun p hp => ?_, fun a ha => ?_⟩
  · by_cases howned : s.owned i = some n
    · exact hmove.linked k n howned hn
    · have hold := (hmove.names k n hn).resolve_right howned
      rw [(hmove.content n (h.files.whole k n hold).1 howned).1]
      exact hmove.supplied _ (h.supplied k n hold)
  · by_cases hji : j = i
    · subst hji
      exact (hmove.next q hq).1
    · rw [hmove.threads j hji] at hq
      exact hmove.other h.files (h.threads j q hq)
        fun n hn => ⟨(h.apart i j q n hn hq).1 hji, (h.apart i j q n hn hq).2⟩
  · have hfresh : ∀ m, t.owned i = some m → s.owned i = some m ∨ s.files.inodes ≤ m := by
      intro m hm
      obtain ⟨pc, hpc, howned⟩ := Option.bind_eq_some_iff.mp hm
      exact (hmove.next pc hpc).2.1 m howned
    have hsame : ∀ c, c ≠ i → t.owned c = s.owned c := fun c hc => by unfold State.owned; rw [hmove.threads c hc]
    by_cases hai : a = i
    · subst hai
      by_cases hba : b = a
      · subst hba
        refine ⟨fun hne => absurd rfl hne, fun hopened => ?_⟩
        have howned : q.owned = some n := by simpa [State.owned, hb] using ha
        cases q <;> simp [Pc.owned, Pc.opened] at howned hopened
      · rw [hmove.threads b hba] at hb
        obtain hold | hge := hfresh n ha
        · exact h.apart a b q n hold hb
        · refine ⟨fun _ howned => ?_, fun hopened => ?_⟩
          · have hprivate := h.private_of_owned (i := b) (n := n) (by simp [State.owned, hb, howned])
            have := hprivate.1
            omega
          · have := h.opened_lt hb hopened
            omega
    · rw [hsame a hai] at ha
      by_cases hbi : b = i
      · subst hbi
        obtain ⟨_, howned, hopened⟩ := hmove.next q hb
        have hprivate := h.private_of_owned ha
        refine ⟨fun hne heq => ?_, fun heq => ?_⟩
        · obtain hold | hge := howned n heq
          · obtain ⟨pc, hpc, hpcowned⟩ := Option.bind_eq_some_iff.mp hold
            exact (h.apart a b pc n ha hpc).1 hne hpcowned
          · have := hprivate.1
            omega
        · obtain ⟨k, hk⟩ := hopened n heq
          exact hprivate.2 k hk
      · rw [hmove.threads b hbi] at hb
        exact h.apart a b q n ha hb
  · obtain hold | hnew := hmove.acknowledged p hp
    · exact hmove.kept h.files (h.acknowledged p hold)
    · exact hnew
  · obtain hold | hnew := hmove.answers a ha
    · exact ⟨(h.answers a hold).1, hmove.supplied _ (h.answers a hold).2⟩
    · exact hnew

theorem takes_nothing {q : Pc} (howned : q.owned = none) (hopened : q.opened = none) : s.Takes i q := by
  simp [State.Takes, howned, hopened]

theorem owned_of {pc : Pc} (hi : s.threads i = some pc) : s.owned i = pc.owned := by
  simp [State.owned, hi]

theorem ok_go {pc : Option Pc} {q : Pc} : q.Ok place (s.go i pc) ↔ q.Ok place s := by
  cases q <;> rfl

namespace Moves

theorem disk (h : Ok place s) {f : Files} {next : Option Pc} (hsound : f.Sound place) (hinodes : s.files.inodes ≤ f.inodes)
    (hcontent : ∀ n, n < s.files.inodes → s.owned i ≠ some n →
      f.content n = s.files.content n ∧ (s.files.contentKept n = true → f.contentKept n = true))
    (hcalm : ∀ k, Disk.Calm s.files f k) (hnext : ∀ q, next = some q → q.Ok place (s.on f) ∧ s.Takes i q) :
    Moves place s ((s.on f).go i next) i := by
  refine ⟨fun j hj => go_ne _ _ _ hj, hsound, hinodes, fun _ hq => hq, fun _ => Nat.le_refl _, hcontent,
    fun k n hn => .inl ((hcalm k).kept _ hn), .quiet hcalm, fun k n howned hn => ?_, fun q hq => ?_, fun _ hp => .inl hp,
    fun _ ha => .inl ha⟩
  · exact absurd ((hcalm k).kept _ hn) ((h.private_of_owned howned).2 k)
  · rw [go_self] at hq
    obtain ⟨hok, htakes⟩ := hnext q hq
    exact ⟨ok_go.mpr hok, htakes⟩

theorem stay (h : Ok place s) {next : Option Pc} (hnext : ∀ q, next = some q → q.Ok place s ∧ s.Takes i q) :
    Moves place s (s.go i next) i :=
  disk h h.files (Nat.le_refl _) (fun _ _ _ => ⟨rfl, id⟩) (fun k => .refl _ k) hnext

theorem stopped (h : Ok place s) : Moves place s (s.go i none) i := by
  apply stay h
  simp

end Moves

theorem mem_toSync {d : Path} (h : d <+: place p.key) : d ∈ State.toSync place p := by
  simpa [State.toSync] using h

theorem link_moves (h : Ok place s) {n : Nat} (howned : s.owned i = some n)
    (hok : (Pc.linking p n).Ok place s) (hfree : s.files.files p.key = none) (hdir : s.files.dirs (place p.key) = true) :
    Moves place s ((s.on (s.files.setName p.key (some n))).go i (some (.syncing p (State.toSync place p)))) i := by
  obtain ⟨haccepts, hprivate, hbody, hkept⟩ := hok
  have hnames : ∀ k m, some m ∈ (s.files.setName p.key (some n)).filesKept k →
      some m ∈ s.files.filesKept k ∨ k = p.key ∧ m = n := by
    intro k m hm
    by_cases hk : k = p.key
    · subst hk
      simpa [Disk.setName] using hm
    · left
      simpa [Disk.setName, hk] using hm
  refine ⟨fun j hj => go_ne _ _ _ hj, h.files.setName fun m hm => ?_, Nat.le_refl _, fun _ hq => hq, fun _ => Nat.le_refl _,
    fun _ _ _ => ⟨rfl, id⟩, fun k m hm => (hnames k m hm).imp_right fun heq => ?_,
    .linked p n hfree hbody haccepts.1 rfl, fun k m hm hlinked => ?_, fun q hq => ?_, fun _ hp => .inl hp,
    fun _ ha => .inl ha⟩
  · obtain rfl := Option.some.inj hm
    exact ⟨hprivate.1, hkept, hdir⟩
  · rw [howned, heq.2]
  · obtain rfl : n = m := Option.some.inj (howned.symm.trans hm)
    obtain hold | ⟨rfl, _⟩ := hnames k n hlinked
    · exact absurd hold (hprivate.2 k)
    · show (p.key, s.files.content n) ∈ s.supplied
      rw [hbody]
      exact haccepts.1
  · rw [go_self] at hq
    obtain rfl := Option.some.inj hq
    refine ⟨⟨haccepts, fun _ => ⟨⟨n, ?_, hbody⟩, fun d hd => .inl (mem_toSync hd)⟩⟩, takes_nothing rfl rfl⟩
    simp [Disk.setName]

theorem sync_moves (h : Ok place s) {d : Path} {todo : List Path} (hok : (Pc.syncing p (d :: todo)).Ok place s) :
    Moves place s ((s.on (s.files.syncDir place d)).go i (some (.syncing p todo))) i := by
  have hcalm : ∀ k, Disk.Calm s.files (s.files.syncDir place d) k := fun k => .syncDir h.files d k
  refine Moves.disk h (h.files.syncDir d) (Nat.le_refl _) (fun _ _ _ => ⟨rfl, id⟩) hcalm fun q hq => ?_
  obtain rfl := Option.some.inj hq
  refine ⟨⟨hok.1, fun heq => ?_⟩, takes_nothing rfl rfl⟩
  obtain ⟨hpresent, hleft⟩ := hok.2 heq
  refine ⟨(hcalm p.key).present h.files hpresent, fun e he => ?_⟩
  obtain htodo | hsettled := hleft e he
  · obtain rfl | hlater := List.mem_cons.mp htodo
    · exact .inr (Disk.settled_syncDir h.files hpresent e)
    · exact .inl hlater
  · exact .inr ((hcalm p.key).settled hsettled)

theorem unlink_moves (h : Ok place s) (howned : s.owned i = none) (key : ObjectKey) :
    Moves place s ({ s.on (s.files.setName key none) with
      deletes := Function.update s.deletes key (s.deletes key + 1) }.go i none) i := by
  have hle : ∀ k, s.deletes k ≤ Function.update s.deletes key (s.deletes key + 1) k := by
    intro k
    by_cases hk : k = key
    · subst hk
      simp
    · simp [hk]
  refine ⟨fun j hj => go_ne _ _ _ hj, h.files.setName (by simp), Nat.le_refl _, fun _ hq => hq, hle,
    fun _ _ _ => ⟨rfl, id⟩, fun k n hn => .inl ?_, .unlinked key rfl (by simp), fun k n hn => ?_, fun q hq => ?_,
    fun _ hp => .inl hp, fun _ ha => .inl ha⟩
  · by_cases hk : k = key
    · subst hk
      simpa [Disk.setName] using hn
    · simpa [Disk.setName, hk] using hn
  · rw [howned] at hn
    cases hn
  · rw [go_self] at hq
    cases hq

theorem advance_moves (h : Ok place s) {pc : Pc} (hi : s.threads i = some pc) (upTo : Nat) :
    Moves place s (s.advance place i upTo pc) i := by
  have hok := h.threads i pc hi
  have howned := owned_of hi
  cases pc with
  | making p todo =>
    cases todo with
    | nil =>
      refine Moves.stay h fun q hq => ?_
      obtain rfl := Option.some.inj hq
      exact ⟨hok, takes_nothing rfl rfl⟩
    | cons d todo =>
      simp only [State.advance]
      split
      · rename_i hparent
        refine Moves.disk h (h.files.mkdir hparent) (Nat.le_refl _) (fun _ _ _ => ⟨rfl, id⟩)
          (fun k => .mkdir _ d k) fun q hq => ?_
        obtain rfl := Option.some.inj hq
        exact ⟨hok, takes_nothing rfl rfl⟩
      · exact Moves.stopped h
  | creating p =>
    simp only [State.advance]
    split
    · refine Moves.disk h (h.files.create []) (Nat.le_succ _) (fun n hn _ => ?_)
        (fun k => .create h.files [] k) fun q hq => ?_
      · have hne : n ≠ s.files.inodes := by omega
        simp [Disk.create, hne]
      · obtain rfl := Option.some.inj hq
        refine ⟨⟨hok, Nat.lt_succ_self _, fun k hk => ?_⟩, fun n hn => .inr ?_, by simp [Pc.opened]⟩
        · have := (h.files.whole k _ hk).1
          omega
        · simp only [Pc.owned, Option.some.injEq] at hn
          omega
    · exact Moves.stopped h
  | writing p n =>
    obtain ⟨haccepts, hprivate⟩ := hok
    refine Moves.disk h (h.files.write hprivate.2 _) (Nat.le_refl _) (fun m hm hne => ?_)
      (fun k => .write hprivate.2 _ k) fun q hq => ?_
    · have hmn : m ≠ n := fun heq => hne (heq ▸ howned)
      simp [Disk.write, hmn]
    · obtain rfl := Option.some.inj hq
      have htakes : ∀ m, some n = some m → s.owned i = some m ∨ s.files.inodes ≤ m := fun m hm => .inl (howned.trans hm)
      split
      · rename_i hfull
        rw [List.length_take] at hfull
        refine ⟨⟨haccepts, hprivate, ?_⟩, htakes, by simp [Pc.opened]⟩
        simp only [on_files, Disk.write, Function.update_self]
        exact List.take_of_length_le (by omega)
      · exact ⟨⟨haccepts, hprivate⟩, htakes, by simp [Pc.opened]⟩
  | flushing p n =>
    obtain ⟨haccepts, hprivate, hbody⟩ := hok
    refine Moves.disk h (h.files.fsync n) (Nat.le_refl _) (fun m _ hne => ?_)
      (fun k => .fsync _ n k) fun q hq => ?_
    · have hmn : m ≠ n := fun heq => hne (heq ▸ howned)
      simp [Disk.fsync, hmn]
    · obtain rfl := Option.some.inj hq
      refine ⟨⟨haccepts, hprivate, hbody, ?_⟩, fun m hm => .inl (howned.trans hm),
        by simp [Pc.opened]⟩
      simp [Disk.fsync]
  | linking p n =>
    simp only [State.advance]
    split
    · refine Moves.stay h fun q hq => ?_
      obtain rfl := Option.some.inj hq
      exact ⟨hok.1, takes_nothing rfl rfl⟩
    · rename_i hfree
      split
      · rename_i hdir
        exact link_moves h howned hok hfree hdir
      · exact Moves.stopped h
  | comparing p =>
    refine Moves.stay h fun q hq => ?_
    obtain ⟨n, hn, rfl⟩ := Option.map_eq_some_iff.mp hq
    have hmem : some n ∈ s.files.filesKept p.key := hn ▸ h.files.current p.key
    refine ⟨⟨hok, (h.files.whole _ n hmem).1, fun _ => hn⟩, by simp [Pc.owned], fun m hm => ⟨p.key, ?_⟩⟩
    rwa [← hm]
  | matching p n =>
    refine Moves.stay h fun q hq => ?_
    split at hq
    · rename_i hsame
      obtain rfl := Option.some.inj hq
      refine ⟨⟨hok.1, fun heq => ⟨⟨n, hok.2.2 heq, (sized_eq_some.mp hsame).1⟩, fun d hd => .inl (mem_toSync hd)⟩⟩,
        takes_nothing rfl rfl⟩
    · cases hq
  | syncing p todo =>
    cases todo with
    | nil =>
      have hmove : Moves place s (s.go i none) i := Moves.stopped h
      refine ⟨hmove.threads, hmove.sound, hmove.inodes, hmove.supplied, hmove.deletes, hmove.content, hmove.names,
        .quiet fun k => .refl _ k, hmove.linked, fun q hq => ?_, fun p' hp' => ?_, fun _ ha => .inl ha⟩
      · simp [State.advance] at hq
      · simp only [State.advance, go_acknowledged, List.mem_append, List.mem_singleton] at hp'
        refine hp'.imp_right fun heq => ?_
        subst heq
        refine ⟨hok.1.2, fun hsince => Disk.durable_of_settled fun d hd => ?_⟩
        exact ((hok.2 hsince).2 d hd).resolve_left (by simp)
    | cons d todo => exact sync_moves h hok
  | opening key size =>
    refine Moves.stay h fun q hq => ?_
    obtain ⟨n, hn, rfl⟩ := Option.map_eq_some_iff.mp hq
    have hmem : some n ∈ s.files.filesKept key := hn ▸ h.files.current key
    refine ⟨⟨(h.files.whole _ n hmem).1, h.supplied _ n hmem⟩, by simp [Pc.owned], fun m hm => ⟨key, ?_⟩⟩
    rwa [← hm]
  | reading key size n =>
    simp only [State.advance]
    split
    · exact Moves.stopped h
    · rename_i body hsized
      obtain ⟨rfl, hlength⟩ := sized_eq_some.mp hsized
      have hmove : Moves place s (s.go i none) i := Moves.stopped h
      refine ⟨hmove.threads, hmove.sound, hmove.inodes, hmove.supplied, hmove.deletes, hmove.content, hmove.names,
        .quiet fun k => .refl _ k, hmove.linked, fun q hq => ?_, fun _ hp => .inl hp, fun a ha => ?_⟩
      · simp at hq
      · simp only [go_answers, List.mem_append, List.mem_singleton] at ha
        refine ha.imp_right fun heq => ?_
        subst heq
        exact ⟨hlength, hok.2⟩
  | unlinking key => exact unlink_moves h howned key

/-- A call begins in a thread that has none. -/
theorem begin_moves (h : Ok place s) (hi : s.threads i = none) (q : ObjectKey × Bytes) {pc : Pc}
    (hok : pc.Ok place { s with supplied := s.supplied ++ [q] }) (howned : pc.owned = none) (hopened : pc.opened = none) :
    Moves place s ({ s with supplied := s.supplied ++ [q] }.go i (some pc)) i := by
  refine ⟨fun j hj => go_ne _ _ _ hj, h.files, Nat.le_refl _, fun _ hq => List.mem_append_left _ hq,
    fun _ => Nat.le_refl _, fun _ _ _ => ⟨rfl, id⟩, fun _ _ hn => .inl hn, .quiet fun k => .refl _ k, fun k n hn => ?_,
    fun q' hq => ?_, fun _ hp => .inl hp, fun _ ha => .inl ha⟩
  · simp [State.owned, hi] at hn
  · rw [go_self] at hq
    obtain rfl := Option.some.inj hq
    exact ⟨ok_go.mpr hok, takes_nothing howned hopened⟩

theorem step_moves (h : Ok place s) {e : Event} (he : ∀ keep pick garbage, e ≠ .crash keep pick garbage)
    (hstep : s.step place e = some t) : ∃ i, Moves place s t i := by
  cases e with
  | put i key body =>
    obtain ⟨hi, ht⟩ := Option.ite_none_right_eq_some.mp hstep
    obtain rfl := Option.some.inj ht
    refine ⟨i, begin_moves h (Option.isNone_iff_eq_none.mp hi) (key, body) ⟨?_, Nat.le_refl _⟩ rfl rfl⟩
    simp
  | read i key size =>
    obtain ⟨hi, ht⟩ := Option.ite_none_right_eq_some.mp hstep
    obtain rfl := Option.some.inj ht
    refine ⟨i, Moves.stay h fun q hq => ?_⟩
    obtain rfl := Option.some.inj hq
    exact ⟨trivial, takes_nothing rfl rfl⟩
  | delete i key =>
    obtain ⟨hi, ht⟩ := Option.ite_none_right_eq_some.mp hstep
    obtain rfl := Option.some.inj ht
    refine ⟨i, Moves.stay h fun q hq => ?_⟩
    obtain rfl := Option.some.inj hq
    exact ⟨trivial, takes_nothing rfl rfl⟩
  | step i upTo =>
    obtain ⟨pc, hpc, rfl⟩ := Option.map_eq_some_iff.mp hstep
    exact ⟨i, advance_moves h hpc upTo⟩
  | fail i =>
    obtain ⟨_, ht⟩ := Option.ite_none_right_eq_some.mp hstep
    obtain rfl := Option.some.inj ht
    exact ⟨i, Moves.stopped h⟩
  | crash keep pick garbage => exact absurd rfl (he keep pick garbage)

theorem crash_ok (h : Ok place s) (keep : Path → Bool) (pick : ObjectKey → Nat) (garbage : Nat → Bytes) :
    Ok place { s with
      files := s.files.crash place keep pick garbage
      threads := fun _ => none } := by
  refine ⟨h.files.crash keep pick garbage, fun k n hn => ?_, fun i pc hpc => ?_, fun i j q n hn _ => ?_, fun p hp => ?_,
    h.answers⟩
  · have hfile : (s.files.crash place keep pick garbage).files k = some n := (List.mem_singleton.mp hn).symm
    have hold := h.files.files_crash hfile
    show (k, (s.files.crash place keep pick garbage).content n) ∈ s.supplied
    simp only [Disk.crash, if_pos (h.files.whole k n hold).2]
    exact h.supplied k n hold
  · cases hpc
  · cases hn
  · obtain ⟨hsince, hdurable⟩ := h.acknowledged p hp
    exact ⟨hsince, fun heq => (hdurable heq).crash h.files keep pick garbage⟩

theorem step_ok (h : Ok place s) {e : Event} (hstep : s.step place e = some t) : Ok place t := by
  cases e with
  | crash keep pick garbage =>
    obtain rfl := Option.some.inj hstep
    exact crash_ok h keep pick garbage
  | _ =>
    obtain ⟨i, hmove⟩ := step_moves h (by simp) hstep
    exact h.move hmove

theorem blank_ok (place : ObjectKey → Path) : Ok place ⟨blank, fun _ => none, fun _ => 0, [], [], []⟩ := by
  refine ⟨⟨rfl, fun _ hd => hd, fun d hd => ?_, fun k n hk => ?_, fun _ => List.mem_singleton_self _, fun k n hn => ?_⟩,
    fun k n hn => ?_, fun i pc hpc => ?_, fun i j q n hn _ => ?_, fun p hp => ?_, fun a ha => ?_⟩
  · obtain rfl : d = [] := of_decide_eq_true hd
    rfl
  · cases hk
  · cases List.mem_singleton.mp hn
  · cases List.mem_singleton.mp hn
  · cases hpc
  · cases hn
  · cases hp
  · cases ha

theorem ok_of_reachable (h : Reachable (localStore place) s) : Ok place s := by
  apply Reachable.invariant _ _ h
  · rintro _ rfl
    exact blank_ok place
  · intro s e t hs hstep
    exact step_ok hs hstep

/-- In every run of concurrent puts, reads and deletions with failures, torn writes and crashes: whatever is behind a key
is one whole body that was supplied for it; a body whose `put` has returned stays behind its key, crashes included, until
the key is deleted; and a read returns a supplied body of the size that it expects. -/
theorem objects_survive (h : Reachable (localStore place) s) :
    (∀ key body, s.files.view key = some body → (key, body) ∈ s.supplied) ∧
    (∀ p ∈ s.acknowledged, s.deletes p.key = p.since → s.files.view p.key = some p.body) ∧
    ∀ key size body, (key, size, body) ∈ s.answers → body.length = size ∧ (key, body) ∈ s.supplied := by
  have hok := ok_of_reachable h
  refine ⟨fun key body hview => ?_, fun p hp heq => ?_, fun key size body ha => hok.answers _ ha⟩
  · obtain ⟨n, hn, rfl⟩ := Disk.view_eq_some.mp hview
    exact hok.supplied key n (hn ▸ hok.files.current key)
  · exact Disk.view_eq_some.mpr (((hok.acknowledged p hp).2 heq).present hok.files)

end Steps

def firstKey : ObjectKey := .source "sha256:ab"

def secondKey : ObjectKey := .source "sha256:cd"

/-- The second thread has written half of its body when the power fails, and nothing is spared that was not durable. -/
def lostPower : List Event :=
  [.put 0 firstKey [1, 2]] ++ List.replicate 14 (.step 0 2) ++ [.put 1 secondKey [3, 4]] ++ List.replicate 7 (.step 1 1) ++
    [.crash (fun _ => false) (fun _ => 0) fun _ => [9]]

theorem lostPower_reachable : ∃ s, Reachable (localStore (directory "archive" id)) s ∧
    s.acknowledged = [⟨firstKey, [1, 2], 0⟩] ∧ s.deletes firstKey = 0 ∧ s.threads 0 = none := by
  obtain ⟨s, hreach, hs⟩ := Reach.of_exec (localStore (directory "archive" id)) (fun _ _ => True)
    (s := ⟨blank, fun _ => none, fun _ => 0, [], [], []⟩) rfl lostPower
    (fun s => (s.threads 0).isNone && decide (s.acknowledged = [⟨firstKey, [1, 2], 0⟩] ∧ s.deletes firstKey = 0))
    (by decide +kernel)
  obtain ⟨hidle, hs⟩ := Bool.and_eq_true_iff.mp hs
  obtain ⟨hacknowledged, hdeletes⟩ := of_decide_eq_true hs
  exact ⟨s, hreach, hacknowledged, hdeletes, Option.isNone_iff_eq_none.mp hidle⟩

theorem objects_survive_power : ∃ s, Reachable (localStore (directory "archive" id)) s ∧
    s.acknowledged = [⟨firstKey, [1, 2], 0⟩] ∧ s.files.view firstKey = some [1, 2] := by
  obtain ⟨s, hreach, hacknowledged, hdeletes, _⟩ := lostPower_reachable
  refine ⟨s, hreach, hacknowledged, (objects_survive hreach).2.1 ⟨firstKey, [1, 2], 0⟩ ?_ hdeletes⟩
  rw [hacknowledged]
  exact List.mem_singleton_self _

end ChessCrawl.Storage.LocalStore
