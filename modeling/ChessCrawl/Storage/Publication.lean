import ChessCrawl.Storage.Durability

/-! Between crashes, every step of `LocalObjectStore` is an operation on objects or leaves them alone, and a `put` that
nobody disturbs does what the operation does. -/
namespace ChessCrawl.Storage.LocalStore
open ChessCrawl.Lib
set_option autoImplicit false

/-- The objects of all stores, of which this one has the location `l`. -/
def State.objects (s : State) (o : Objects) (l : Location) : Objects := fun q => if q.1 = l then s.files.view q.2 else o q

/-- Steps of one thread. -/
def Event.Steps (i : Nat) : Event → Prop
  | .step j _ => j = i
  | _ => False

/-- Calls of `put` and steps of one thread. -/
def Event.Alone (i : Nat) : Event → Prop
  | .put j _ _ => j = i
  | .step j _ => j = i
  | _ => False

section Refinement
variable {place : ObjectKey → Path} {s t : State} {i : Nat} {p : Put} {o : Objects} {l : Location}

theorem objects_self (key : ObjectKey) : s.objects o l (l, key) = s.files.view key := by
  simp [State.objects]

theorem objects_congr (h : t.files.view = s.files.view) : t.objects o l = s.objects o l := by
  unfold State.objects
  rw [h]

theorem objects_update {key : ObjectKey} {v : Option Bytes} (h : t.files.view = Function.update s.files.view key v) :
    t.objects o l = Function.update (s.objects o l) (l, key) v := by
  funext q
  unfold State.objects
  by_cases hq : q = (l, key)
  · subst hq
    simp [h]
  · rw [Function.update_of_ne hq]
    split
    · rename_i hl
      have hkey : q.2 ≠ key := fun heq => hq (Prod.ext hl heq)
      rw [h, Function.update_of_ne hkey]
    · rfl

theorem objects_put_new {key : ObjectKey} {body : Bytes} (hfree : s.files.view key = none)
    (h : t.files.view = Function.update s.files.view key (some body)) :
    (s.objects o l).put (l, key) body = some (t.objects o l) := by
  unfold Objects.put
  rw [objects_self, hfree, objects_update h]

theorem objects_put_old {key : ObjectKey} {body : Bytes} (h : s.files.view key = some body) :
    (s.objects o l).put (l, key) body = some (s.objects o l) := by
  unfold Objects.put
  rw [objects_self, h]
  simp

theorem objects_put_refused {key : ObjectKey} {body old : Bytes} (h : s.files.view key = some old) (hne : old ≠ body) :
    (s.objects o l).put (l, key) body = none := by
  unfold Objects.put
  rw [objects_self, h]
  simp [hne]

/-- What a step does to the objects. -/
theorem Changes.objects (h : Changes s t) (hsound : s.files.Sound place) (o : Objects) (l : Location) :
    t.objects o l = s.objects o l ∨
    (∃ key body, (key, body) ∈ s.supplied ∧ s.files.view key = none ∧
      (s.objects o l).put (l, key) body = some (t.objects o l)) ∨
    ∃ key, t.objects o l = (s.objects o l).delete (l, key) := by
  cases h with
  | quiet hcalm => exact .inl (objects_congr (funext fun k => (hcalm k).view hsound))
  | linked p n hfree hbody hsupplied hfiles =>
    have hview : s.files.view p.key = none := by simp [Disk.view, hfree]
    refine .inr (.inl ⟨p.key, p.body, hsupplied, hview, objects_put_new hview ?_⟩)
    rw [hfiles, Disk.view_setName, Option.map_some, hbody]
  | unlinked key hfiles _ =>
    refine .inr (.inr ⟨key, objects_update ?_⟩)
    rw [hfiles, Disk.view_setName, Option.map_none]

/-- Any step but a crash leaves the objects as they are, puts one supplied body where there was none, or deletes one
object. When a call of `put` returns, its object is there unless somebody has deleted it since the call began. One that is
refused has found other bytes in the file that it has opened; an operation would have refused too, unless somebody has
deleted the object since the call began. -/
theorem steps_are_object_operations (h : Reachable (localStore place) s) {e : Event}
    (he : ∀ keep pick garbage, e ≠ .crash keep pick garbage) (hstep : s.step place e = some t) (o : Objects)
    (l : Location) :
    (t.objects o l = s.objects o l ∨
      (∃ key body, (key, body) ∈ s.supplied ∧ s.files.view key = none ∧
        (s.objects o l).put (l, key) body = some (t.objects o l)) ∨
      ∃ key, t.objects o l = (s.objects o l).delete (l, key)) ∧
    (∀ p, t.acknowledged = s.acknowledged ++ [p] → t.deletes p.key = p.since →
      (t.objects o l).put (l, p.key) p.body = some (t.objects o l)) ∧
    ∀ i upTo p n, e = .step i upTo → s.threads i = some (.matching p n) → t.threads i = none →
      s.files.content n ≠ p.body ∧ (s.deletes p.key = p.since → (s.objects o l).put (l, p.key) p.body = none) := by
  have hok := ok_of_reachable h
  obtain ⟨j, hmove⟩ := step_moves hok he hstep
  refine ⟨hmove.changes.objects hok.files o l, fun p hp heq => ?_, fun i upTo p n he' hi hover => ?_⟩
  · have hkept := (hok.move hmove).acknowledged p (by simp [hp])
    exact objects_put_old (Disk.view_eq_some.mpr ((hkept.2 heq).present (hok.move hmove).files))
  · subst he'
    obtain ⟨_, _, hfile⟩ := hok.threads i _ hi
    obtain ⟨pc, hpc, rfl⟩ := Option.map_eq_some_iff.mp hstep
    obtain rfl := Option.some.inj (hi.symm.trans hpc)
    have hother : s.files.content n ≠ p.body := by
      intro hsame
      have hsized : sized p.body.length (s.files.content n) = some p.body := sized_eq_some.mpr ⟨hsame, rfl⟩
      simp [State.advance, hsized] at hover
    refine ⟨hother, fun heq => ?_⟩
    have hview : s.files.view p.key = some (s.files.content n) := by simp [Disk.view, hfile heq]
    exact objects_put_refused hview hother

/-- The last step of a call. -/
theorem steps_are_object_operations_returning : ∃ s t : State, Reachable (localStore (directory "archive" id)) s ∧
    s.step (directory "archive" id) (.step 0 0) = some t ∧
    (t.objects (fun _ => none) ⟨.localFiles, "archive"⟩).put (⟨.localFiles, "archive"⟩, firstKey) [1, 2] =
      some (t.objects (fun _ => none) ⟨.localFiles, "archive"⟩) := by
  let place := directory "archive" id
  obtain ⟨s, hreach, hs⟩ := Reach.of_exec (localStore place) (fun _ _ => True)
    (s := ⟨blank, fun _ => none, fun _ => 0, [], [], []⟩) rfl (.put 0 firstKey [1, 2] :: List.replicate 13 (.step 0 2))
    (fun s => decide (s.threads 0 = some (.syncing ⟨firstKey, [1, 2], 0⟩ []) ∧ s.deletes firstKey = 0))
    (by decide +kernel)
  obtain ⟨hpc, hdeletes⟩ := of_decide_eq_true hs
  have hstep : s.step place (.step 0 0) = some (s.advance place 0 0 (.syncing ⟨firstKey, [1, 2], 0⟩ [])) := by
    simp [State.step, hpc]
  have hoperation := steps_are_object_operations hreach (by simp) hstep (fun _ => none) ⟨.localFiles, "archive"⟩
  exact ⟨s, _, hreach, hstep, hoperation.2.1 ⟨firstKey, [1, 2], 0⟩ rfl hdeletes⟩

/-! ## Undisturbed calls -/

/-- Where a `put` has not had an effect yet. -/
def Pc.Before (place : ObjectKey → Path) (p : Put) (f : Files) : Pc → Prop
  | .making q todo => q = p ∧ ∃ done, done ++ todo = (place p.key).inits ∧ ∀ d ∈ done, f.dirs d = true
  | .creating q | .writing q _ | .flushing q _ | .linking q _ => q = p ∧ f.dirs (place p.key) = true
  | .comparing q => q = p ∧ f.files p.key ≠ none
  | .matching q n => q = p ∧ f.files p.key = some n
  | _ => False

/-- How far the thread of `put` has come since `s`. -/
inductive Underway (i : Nat) (o : Objects) (l : Location) (place : ObjectKey → Path) (p : Put) (s t : State) : Prop
  | before (pc : Pc) (hi : t.threads i = some pc) (hpc : pc.Before place p t.files) (hview : t.files.view = s.files.view)
      (hacknowledged : t.acknowledged = s.acknowledged)
  | settling (todo : List Path) (hi : t.threads i = some (.syncing p todo)) (hacknowledged : t.acknowledged = s.acknowledged)
      (hput : (s.objects o l).put (l, p.key) p.body = some (t.objects o l))
  | returned (hi : t.threads i = none) (hacknowledged : t.acknowledged = s.acknowledged ++ [p])
      (hput : (s.objects o l).put (l, p.key) p.body = some (t.objects o l))
  | refused (hi : t.threads i = none) (hacknowledged : t.acknowledged = s.acknowledged)
      (hobjects : t.objects o l = s.objects o l) (hput : (s.objects o l).put (l, p.key) p.body = none)

/-- A step that neither gives a name nor takes one. -/
theorem advance_view (h : Ok place s) {pc : Pc} (hi : s.threads i = some pc) (upTo : Nat)
    (hfiles : (s.advance place i upTo pc).files.files = s.files.files)
    (hdeletes : (s.advance place i upTo pc).deletes = s.deletes) :
    (s.advance place i upTo pc).files.view = s.files.view := by
  funext k
  refine Disk.Calm.view ?_ h.files
  cases (advance_moves h hi upTo).changes with
  | quiet hcalm => exact hcalm k
  | linked p n hfree _ _ hset =>
    rw [hset] at hfiles
    have := congrFun hfiles p.key
    simp [Disk.setName, hfree] at this
  | unlinked key _ hne => exact absurd (congrFun hdeletes key) hne

theorem dropLast_made {path d : Path} {done todo : List Path} (h : done ++ d :: todo = path.inits) :
    d.dropLast = [] ∨ d.dropLast ∈ done := by
  have hlength : done.length < path.inits.length := by simp [← h]
  have hd : d = path.take done.length := by
    rw [← List.getElem_inits path done.length hlength]
    simp [← h]
  by_cases hzero : done.length = 0
  · left
    simp [hd, hzero]
  · right
    have hlt : done.length - 1 < path.inits.length := by omega
    have hprevious : d.dropLast = path.inits[done.length - 1] := by
      rw [List.length_inits] at hlength
      rw [List.getElem_inits, List.dropLast_eq_take, hd, List.take_take, List.length_take]
      congr 1
      omega
    rw [hprevious]
    have hbefore : done.length - 1 < done.length := by omega
    simp [← h, List.getElem_append_left hbefore]

/-- One step of the thread, with any part of the body written. -/
theorem before_step {u : State} {pc : Pc} (hok : Ok place t) (hi : t.threads i = some pc) (hpc : pc.Before place p t.files)
    (hview : t.files.view = s.files.view) (hacknowledged : t.acknowledged = s.acknowledged) (upTo : Nat)
    (hu : u = t.advance place i upTo pc) : Underway i o l place p s u := by
  subst hu
  have hobjects : t.objects o l = s.objects o l := objects_congr hview
  -- Most steps only move on.
  have hmoved : ∀ q : Pc, (t.advance place i upTo pc).threads i = some q →
      q.Before place p (t.advance place i upTo pc).files →
      (t.advance place i upTo pc).files.files = t.files.files → (t.advance place i upTo pc).deletes = t.deletes →
      (t.advance place i upTo pc).acknowledged = t.acknowledged → Underway i o l place p s (t.advance place i upTo pc) :=
    fun q hq hbefore hfiles hdeletes hack =>
      .before q hq hbefore ((advance_view hok hi upTo hfiles hdeletes).trans hview) (hack.trans hacknowledged)
  cases pc with
  | making q todo =>
    obtain ⟨rfl, done, hpath, hdone⟩ := hpc
    cases todo with
    | nil =>
      rw [List.append_nil] at hpath
      refine hmoved (.creating q) (go_self _ _ _) ⟨rfl, hdone _ ?_⟩ rfl rfl rfl
      simp [hpath]
    | cons d todo =>
      have hparent : t.files.dirs d.dropLast = true := by
        obtain hnil | hmem := dropLast_made hpath
        · rw [hnil]
          exact hok.files.exists_of_kept _ hok.files.top
        · exact hdone _ hmem
      have hadvance : t.advance place i upTo (.making q (d :: todo)) =
          (t.on (t.files.mkdir d)).go i (some (.making q todo)) := by
        simp [State.advance, hparent]
      refine hmoved (.making q todo) ?_ ⟨rfl, done ++ [d], by simpa using hpath, ?_⟩ ?_ ?_ ?_
      all_goals rw [hadvance]
      · exact go_self _ _ _
      · intro c hc
        by_cases hcd : c = d
        · simp [Disk.mkdir, hcd]
        · have hmem : c ∈ done := by simpa [hcd] using hc
          simpa [Disk.mkdir, hcd] using hdone c hmem
      all_goals rfl
  | creating q =>
    obtain ⟨rfl, hdir⟩ := hpc
    have hadvance : t.advance place i upTo (.creating q) =
        (t.on (t.files.create [])).go i (some (.writing q t.files.inodes)) := by
      simp [State.advance, hdir]
    refine hmoved (.writing q t.files.inodes) ?_ ?_ ?_ ?_ ?_
    all_goals rw [hadvance]
    · exact go_self _ _ _
    · exact ⟨rfl, hdir⟩
    all_goals rfl
  | writing q n =>
    obtain ⟨rfl, hdir⟩ := hpc
    by_cases hwhole : (q.body.take upTo).length = q.body.length
    · exact hmoved (.flushing q n) ((go_self _ _ _).trans (by rw [if_pos hwhole])) ⟨rfl, hdir⟩ rfl rfl rfl
    · exact hmoved (.writing q n) ((go_self _ _ _).trans (by rw [if_neg hwhole])) ⟨rfl, hdir⟩ rfl rfl rfl
  | flushing q n =>
    obtain ⟨rfl, hdir⟩ := hpc
    exact hmoved (.linking q n) (go_self _ _ _) ⟨rfl, hdir⟩ rfl rfl rfl
  | linking q n =>
    obtain ⟨rfl, hdir⟩ := hpc
    cases hfile : t.files.files q.key with
    | none =>
      have hadvance : t.advance place i upTo (.linking q n) =
          (t.on (t.files.setName q.key (some n))).go i (some (.syncing q (State.toSync place q))) := by
        simp [State.advance, hfile, hdir]
      have hbody : t.files.content n = q.body := (hok.threads i _ hi).2.2.1
      rw [hadvance]
      refine .settling _ (go_self _ _ _) hacknowledged ?_
      rw [← hobjects]
      refine objects_put_new ?_ ?_
      · simp [Disk.view, hfile]
      · rw [go_files, on_files, Disk.view_setName, Option.map_some, hbody]
    | some m =>
      have hadvance : t.advance place i upTo (.linking q n) = t.go i (some (.comparing q)) := by
        simp [State.advance, hfile]
      refine hmoved (.comparing q) ?_ ?_ ?_ ?_ ?_
      all_goals rw [hadvance]
      · exact go_self _ _ _
      · exact ⟨rfl, by simp [hfile]⟩
      all_goals rfl
  | comparing q =>
    obtain ⟨rfl, hthere⟩ := hpc
    obtain ⟨m, hfile⟩ := Option.ne_none_iff_exists'.mp hthere
    exact hmoved (.matching q m) ((go_self _ _ _).trans (by rw [hfile, Option.map_some])) ⟨rfl, hfile⟩ rfl rfl rfl
  | matching q n =>
    obtain ⟨rfl, hfile⟩ := hpc
    have hthere : t.files.view q.key = some (t.files.content n) := by simp [Disk.view, hfile]
    have hsame : (t.advance place i upTo (.matching q n)).objects o l = s.objects o l := hobjects
    by_cases hsized : sized q.body.length (t.files.content n) = some q.body
    · refine .settling _ ((go_self _ _ _).trans (if_pos hsized)) hacknowledged ?_
      rw [hsame, ← hobjects]
      exact objects_put_old (hthere.trans (congrArg some (sized_eq_some.mp hsized).1))
    · refine .refused ((go_self _ _ _).trans (if_neg hsized)) hacknowledged hsame ?_
      rw [← hobjects]
      exact objects_put_refused hthere fun heq => hsized (sized_eq_some.mpr ⟨heq, rfl⟩)
  | syncing q todo => exact hpc.elim
  | opening key size => exact hpc.elim
  | reading key size n => exact hpc.elim
  | unlinking key => exact hpc.elim

theorem underway_step {u : State} (hok : Ok place t) (h : Underway i o l place p s t) {upTo : Nat}
    (hstep : t.step place (.step i upTo) = some u) : Underway i o l place p s u := by
  obtain ⟨pc, hi, hu⟩ := Option.map_eq_some_iff.mp hstep
  cases h with
  | before pc' hi' hpc hview hacknowledged =>
    obtain rfl := Option.some.inj (hi'.symm.trans hi)
    exact before_step hok hi hpc hview hacknowledged upTo hu.symm
  | settling todo hi' hacknowledged hput =>
    obtain rfl := Option.some.inj (hi'.symm.trans hi)
    subst hu
    cases todo with
    | nil => exact .returned (go_self _ _ _) (congrArg (· ++ [p]) hacknowledged) hput
    | cons d todo => exact .settling todo (go_self _ _ _) hacknowledged hput
  | returned hi' => simp [hi'] at hi
  | refused hi' => simp [hi'] at hi

/-- Whatever parts of its body a `put` writes, one after the other: if its thread comes to the end of the call, it has done
what the operation does, or has been refused where the operation is. -/
theorem put_settles (h : Reachable (localStore place) s) {key : ObjectKey} {body : Bytes} {s₀ : State}
    (hput : s.step place (.put i key body) = some s₀) {es : List Event}
    (hrun : Trace (localStore place) (fun _ e => e.Steps i) s₀ es t) (hover : t.threads i = none) (o : Objects) (l : Location) :
    (t.acknowledged = s.acknowledged ++ [⟨key, body, s.deletes key⟩] ∧
        (s.objects o l).put (l, key) body = some (t.objects o l)) ∨
      t.acknowledged = s.acknowledged ∧ t.objects o l = s.objects o l ∧ (s.objects o l).put (l, key) body = none := by
  let p : Put := ⟨key, body, s.deletes key⟩
  have hstart : Underway i o l place p s s₀ := by
    unfold State.step at hput
    dsimp only at hput
    split at hput
    · obtain rfl := Option.some.inj hput
      exact .before (.making p (place key).inits) (go_self _ _ _) ⟨rfl, [], rfl, by simp⟩ rfl rfl
    · cases hput
  have hboth : Ok place t ∧ Underway i o l place p s t := by
    refine Trace.keeps (I := fun t => Ok place t ∧ Underway i o l place p s t) (fun t e u _ ht he hstep => ?_) hrun
      ⟨step_ok (ok_of_reachable h) hput, hstart⟩
    refine ⟨step_ok ht.1 hstep, ?_⟩
    cases e with
    | step j upTo =>
      obtain rfl : j = i := he
      exact underway_step ht.1 ht.2 hstep
    | put | read | delete | fail | crash => exact False.elim he
  cases hboth.2 with
  | before pc hi => simp [hover] at hi
  | settling todo hi => simp [hover] at hi
  | returned _ hacknowledged hdone => exact .inl ⟨hacknowledged, hdone⟩
  | refused _ hacknowledged hsame hrefused => exact .inr ⟨hacknowledged, hsame, hrefused⟩

/-- How many system calls are left, if the body is written at once. -/
def Pc.left (place : ObjectKey → Path) : Pc → Nat
  | .making p todo => (place p.key).length + 9 + todo.length
  | .creating p => (place p.key).length + 8
  | .writing p _ => (place p.key).length + 7
  | .flushing p _ => (place p.key).length + 6
  | .linking p _ => (place p.key).length + 5
  | .comparing p => (place p.key).length + 4
  | .matching p _ => (place p.key).length + 3
  | .syncing _ todo => todo.length + 1
  | .opening .. => 2
  | .reading .. => 1
  | .unlinking _ => 1

/-- The bytes of the next system call. -/
def Pc.size : Pc → Nat
  | .writing p _ => p.body.length
  | _ => 0

theorem advance_left {pc q : Pc} (hq : (s.advance place i pc.size pc).threads i = some q) : q.left place < pc.left place := by
  cases pc with
  | making p todo =>
    cases todo with
    | nil =>
      obtain rfl := Option.some.inj ((go_self _ _ _).symm.trans hq)
      simp [Pc.left]
    | cons d todo =>
      simp only [State.advance] at hq
      split at hq
      · obtain rfl := Option.some.inj ((go_self _ _ _).symm.trans hq)
        simp [Pc.left]
      · simp at hq
  | creating p =>
    simp only [State.advance] at hq
    split at hq
    · obtain rfl := Option.some.inj ((go_self _ _ _).symm.trans hq)
      simp [Pc.left]
    · simp at hq
  | writing p n =>
    simp only [State.advance, Pc.size, List.take_length, if_true] at hq
    obtain rfl := Option.some.inj ((go_self _ _ _).symm.trans hq)
    simp [Pc.left]
  | flushing p n =>
    obtain rfl := Option.some.inj ((go_self _ _ _).symm.trans hq)
    simp [Pc.left]
  | linking p n =>
    simp only [State.advance] at hq
    split at hq
    · obtain rfl := Option.some.inj ((go_self _ _ _).symm.trans hq)
      simp [Pc.left]
    · split at hq
      · obtain rfl := Option.some.inj ((go_self _ _ _).symm.trans hq)
        simp [Pc.left, State.toSync]
      · simp at hq
  | comparing p =>
    simp only [State.advance, go_self, Option.map_eq_some_iff] at hq
    obtain ⟨n, _, rfl⟩ := hq
    simp [Pc.left]
  | matching p n =>
    simp only [State.advance, go_self] at hq
    split at hq
    · obtain rfl := Option.some.inj hq
      simp [Pc.left, State.toSync]
    · cases hq
  | syncing p todo =>
    cases todo with
    | nil => simp [State.advance] at hq
    | cons d todo =>
      obtain rfl := Option.some.inj ((go_self _ _ _).symm.trans hq)
      simp [Pc.left]
  | opening key size =>
    simp only [State.advance, go_self, Option.map_eq_some_iff] at hq
    obtain ⟨n, _, rfl⟩ := hq
    simp [Pc.left]
  | reading key size n =>
    simp only [State.advance] at hq
    split at hq
    all_goals simp at hq
  | unlinking key => simp [State.advance] at hq

/-- A call that nobody disturbs ends, when it writes its body at once. -/
theorem thread_ends {n : Nat} (h : ∀ pc, s.threads i = some pc → pc.left place ≤ n) :
    ∃ es t, Trace (localStore place) (fun _ e => e.Steps i) s es t ∧ t.threads i = none := by
  induction n generalizing s with
  | zero =>
    cases hi : s.threads i with
    | none => exact ⟨[], s, .nil s, hi⟩
    | some pc =>
      have := h pc hi
      cases pc <;> simp [Pc.left] at this
  | succ n ih =>
    cases hi : s.threads i with
    | none => exact ⟨[], s, .nil s, hi⟩
    | some pc =>
      have hstep : s.step place (.step i pc.size) = some (s.advance place i pc.size pc) := by simp [State.step, hi]
      obtain ⟨es, t, hrun, hover⟩ := ih (s := s.advance place i pc.size pc) (by
        intro q hq
        have := advance_left hq
        have := h pc hi
        omega)
      exact ⟨.step i pc.size :: es, t, .cons rfl hstep hrun, hover⟩

/-- From any reachable state, also after crashes in the middle of other calls: a `put` whose thread runs on its own ends.
It is acknowledged, and does to the objects what the operation does, exactly if the operation accepts the body. -/
theorem put_completes (h : Reachable (localStore place) s) (hi : s.threads i = none) (key : ObjectKey) (body : Bytes)
    (o : Objects) (l : Location) :
    ∃ es t, Trace (localStore place) (fun _ e => e.Alone i) s (.put i key body :: es) t ∧ t.threads i = none ∧
      ((t.acknowledged = s.acknowledged ++ [⟨key, body, s.deletes key⟩] ∧
          (s.objects o l).put (l, key) body = some (t.objects o l)) ∨
        t.acknowledged = s.acknowledged ∧ t.objects o l = s.objects o l ∧ (s.objects o l).put (l, key) body = none) := by
  let s₀ : State := { s with supplied := s.supplied ++ [(key, body)] }.go i
    (some (.making ⟨key, body, s.deletes key⟩ (place key).inits))
  have hput : s.step place (.put i key body) = some s₀ := by
    simp [State.step, hi, s₀]
  have hleft : ∀ pc, s₀.threads i = some pc →
      pc.left place ≤ Pc.left place (.making ⟨key, body, s.deletes key⟩ (place key).inits) := by
    intro pc hpc
    rw [Option.some.inj (hpc.symm.trans (go_self _ _ _))]
  obtain ⟨es, t, hrun, hover⟩ := thread_ends hleft
  have halone : ∀ (t : State) (e : Event), e.Steps i → e.Alone i := by
    intro _ e he
    cases e with
    | step j upTo => exact he
    | put | read | delete | fail | crash => exact False.elim he
  exact ⟨es, t, .cons rfl hput (hrun.mono halone), hover, put_settles h hput hrun hover o l⟩

/-- A `put` of other bytes behind the key that survived the loss of power. -/
theorem put_completes_refused : ∃ s es t, Reachable (localStore (directory "archive" id)) s ∧
    Trace (localStore (directory "archive" id)) (fun _ e => e.Alone 0) s (.put 0 firstKey [7] :: es) t ∧
    t.threads 0 = none ∧ t.acknowledged = s.acknowledged := by
  obtain ⟨s, hreach, hacknowledged, hdeletes, hidle⟩ := lostPower_reachable
  let l : Location := ⟨.localFiles, "archive"⟩
  obtain ⟨es, t, hrun, hover, hcases⟩ := put_completes hreach hidle firstKey [7] (fun _ => none) l
  refine ⟨s, es, t, hreach, hrun, hover, ?_⟩
  obtain ⟨_, hput⟩ | ⟨hsame, _, _⟩ := hcases
  · have hok := ok_of_reachable hreach
    have hkept := hok.acknowledged ⟨firstKey, [1, 2], 0⟩ (by rw [hacknowledged]; exact List.mem_singleton_self _)
    have hview := Disk.view_eq_some.mpr ((hkept.2 hdeletes).present hok.files)
    rw [objects_put_refused hview (by decide)] at hput
    cases hput
  · exact hsame

end Refinement

end ChessCrawl.Storage.LocalStore
