import ChessCrawl.Collection.Keys

/-! Every cursor that a call saves asks for a page with room for a game. -/
namespace ChessCrawl.Collection
open ChessCrawl.Lib
set_option autoImplicit false

variable {env : Env} {job : Nat} {clock : Int} {db db' : Db} {call : Call} {next : Option Call} {stop : Bool}

def Db.Limited (db : Db) : Prop := ∀ job c, db.checkpoints job = some c → 1 ≤ c.limit

def Call.Limited : Call → Prop
  | .creating x | .pinning x _ _ _ => 1 ≤ x.pageSize
  | .saving x c | .running x c _ => 1 ≤ x.pageSize ∧ 1 ≤ c.limit

namespace Db.Limited

theorem frame (h : db.Limited) (hsame : db'.checkpoints = db.checkpoints) : db'.Limited := by
  intro job c hc
  rw [hsame] at hc
  exact h job c hc

theorem saveCheckpoint (h : db.Limited) (job : Nat) {c : Cursor} (hc : 1 ≤ c.limit) :
    (db.saveCheckpoint job c).Limited := by
  intro j c' hj
  change Function.update db.checkpoints job (some c) j = some c' at hj
  rw [Function.update_apply] at hj
  split at hj
  · cases hj
    exact hc
  · exact h j c' hj

theorem enqueue (h : db.Limited) (raw fetch : Nat) (mg : Option Nat) (job : Nat) (run : Option Nat) :
    (db.enqueuePayloadNormalization raw fetch mg job run).Limited := by
  obtain ⟨cs, heq⟩ := Db.enqueue_frame db raw fetch mg job run
  rw [heq]
  exact h

theorem recordCoverage (h : db.Limited) (unit : UnitKey) (row : CoverageRow) : (db.recordCoverage unit row).Limited := by
  obtain ⟨cov, heq, _⟩ := Db.recordCoverage_frame db unit row
  rw [heq]
  exact h

end Db.Limited

theorem replan_limited {x : Exec} {c : Cursor} (hx : 1 ≤ x.pageSize) (hc : 1 ≤ c.limit) : 1 ≤ (replan db x c).limit := by
  unfold replan
  split
  · exact hc
  · dsimp only
    split
    · exact hx
    · exact hc

theorem Moves.limited (hm : Moves env job clock db call db' next) (h : db.Limited) (hcall : call.Limited) :
    db'.Limited ∧ ∀ call', next = some call' → call'.Limited := by
  have go : ∀ {db' : Db} {call' : Call}, db'.Limited → call'.Limited →
      db'.Limited ∧ ∀ c, some call' = some c → c.Limited := by
    intro db' call' hdb hc
    refine ⟨hdb, fun c hn => ?_⟩
    cases hn
    exact hc
  have stop : ∀ {db' : Db}, db'.Limited → db'.Limited ∧ ∀ c, (none : Option Call) = some c → c.Limited :=
    fun hdb => ⟨hdb, fun _ hn => by cases hn⟩
  cases hm with
  | drop => exact stop h
  | create hs hu hle hfirst hback => exact go h hcall
  | pin hw => exact go h ⟨hcall, hcall⟩
  | save => exact go (h.saveCheckpoint job hcall.2) hcall
  | readStored | readFollowups | resume | replayLocal | followup | request | refuse | judge => exact go h hcall
  | replay | reuse | queue => exact go (h.enqueue _ _ _ _ _) hcall
  | replayed hx hb hpos hsize => exact go (h.saveCheckpoint job hcall.2) ⟨hsize ▸ hcall.1, hcall.2⟩
  | storedShort hnext =>
    have hsave := h.saveCheckpoint job (c := { ‹Cursor› with phase := .followups }) hcall.2
    rcases hnext with rfl | rfl
    · exact stop hsave
    · exact go hsave hcall
  | storedFull hpc hx =>
    rcases hpc with rfl | rfl
    · exact go h hcall
    · exact go h hcall
  | followed hnext =>
    have hsave := h.saveCheckpoint job (c := { ‹Cursor› with phase := .pages }) hcall.2
    rcases hnext with rfl | rfl
    · exact stop hsave
    · exact go hsave hcall
  | planCovered heq => exact go h ⟨hcall.1, replan_limited hcall.1 hcall.2⟩
  | plan hne => exact go h ⟨hcall.1, replan_limited hcall.1 hcall.2⟩
  | @close x c =>
    obtain ⟨cov, heq⟩ := Db.commitCovered_frame db job c x.now
    rw [heq]
    exact stop (h.saveCheckpoint job (c := { c with done := true }) hcall.2)
  | @capture x c t requestedAt body ha =>
    obtain ⟨raws, heq⟩ := Db.storeRawPayload_frame db t.source body requestedAt
    refine go (h.frame ?_) hcall
    change (db.storeRawPayload t.source body requestedAt).1.checkpoints = _
    rw [heq]
  | refresh ht hx hb hsize =>
    refine go (Db.Limited.saveCheckpoint (h.frame ?_) job hcall.2) ⟨hsize ▸ hcall.1, hcall.2⟩
    rw [Db.trackGame_frame ht]
  | vanished hx hb hsize =>
    exact go (Db.Limited.saveCheckpoint (h.recordCoverage _ _) job hcall.2) ⟨hsize ▸ hcall.1, hcall.2⟩
  | fail hunit => exact stop (h.recordCoverage _ _)
  | record hp hr =>
    refine go (h.frame ?_) hcall
    rw [Db.recordPage_frame hr]
  | @finish x c k raw p done hp hd =>
    obtain ⟨cov, heq⟩ := Db.commitPage_frame db job c k raw true done x.now
    rw [heq]
    refine stop (h.saveCheckpoint job ?_)
    split
    · exact hcall.2
    · exact hcall.2
  | @saturate x c k raw p ts oldest limit done hp ht hd hlast hlimit =>
    obtain ⟨cov, heq⟩ := Db.commitPage_frame db job { c with untilMs := oldest + 1, limit := limit } k raw false done x.now
    rw [heq]
    refine stop (h.saveCheckpoint job ?_)
    split
    · exact hlimit
    · exact hlimit
  | overflow => exact stop (h.recordCoverage _ _)

/-! ## Settings -/

/-- The settings that the code accepts. -/
structure Exec.Sized (x : Exec) : Prop where
  batch : 0 < x.batchSize
  page : 0 < x.pageSize
  most : x.pageSize ≤ x.maxPageSize

theorem ofParams_sized {params : Params} {nowMs : Int} {x : Exec} (h : Exec.ofParams params nowMs = some x) : x.Sized := by
  unfold Exec.ofParams at h
  obtain ⟨batch, hbatch, h⟩ := Option.bind_eq_some_iff.mp h
  obtain ⟨page, hpage, h⟩ := Option.bind_eq_some_iff.mp h
  obtain ⟨most, _, h⟩ := Option.bind_eq_some_iff.mp h
  split at h
  · cases h
  · next hle =>
    cases h
    exact ⟨positive_pos hbatch, positive_pos hpage, not_lt.mp hle⟩

/-- What a call starts with: the settings of its parameters and, if there is one, the job's open checkpoint. -/
theorem enter_starts {s : State} {params : Params} (h : enter env s job params stop = some (some call)) :
    ∃ x, Exec.ofParams params s.clock = some x ∧
      (env.jobRun job).all (fun r => decide ((env.runParams r).fingerprint = params.fingerprint)) = true ∧
      (call = .creating x ∧ s.db.checkpoints job = none ∨
        ∃ c, s.db.checkpoints job = some c ∧ c.requestFingerprint = params.fingerprint ∧ c.done = false ∧
          call = .running x c .start) := by
  unfold enter at h
  split at h
  · cases h
  · split at h
    · next hbelongs =>
      split at h
      · next c x hc hx =>
        split at h
        · cases h
        · next hguard =>
          cases h
          obtain ⟨hsame, hopen⟩ := not_or.mp hguard
          exact ⟨x, hx, hbelongs, .inr ⟨c, hc, not_not.mp hsame, by simpa using (not_or.mp hopen).1, rfl⟩⟩
      · next x hc hx =>
        split at h
        · cases h
        · cases h
          exact ⟨x, hx, hbelongs, .inl ⟨rfl, hc⟩⟩
      · cases h
    · cases h

/-! ## Every run -/

structure LimitedState (s : State) : Prop where
  db : s.db.Limited
  calls : ∀ job call, s.calls job = some call → call.Limited

theorem LimitedState.step {s t : State} {e : Event} (h : LimitedState s) (hs : step env s e = some t) : LimitedState t := by
  cases e with
  | tick ms =>
    cases hs
    exact ⟨h.db, h.calls⟩
  | enter job params stop =>
    obtain ⟨next, he, rfl⟩ := Option.map_eq_some_iff.mp hs
    refine ⟨h.db, fun j call hc => ?_⟩
    have hnew : ∀ call, next = some call → call.Limited := by
      rintro call rfl
      obtain ⟨x, hx, _, ⟨rfl, _⟩ | ⟨c, hsaved, _, _, rfl⟩⟩ := enter_starts he
      · exact (ofParams_sized hx).page
      · exact ⟨(ofParams_sized hx).page, h.db job c hsaved⟩
    rcases update_calls hnew j call hc with hold | hnew
    · exact h.calls j call hold
    · exact hnew
  | crash job =>
    cases hs
    refine ⟨h.db, fun j call hc => ?_⟩
    rcases update_calls (P := Call.Limited) (fun _ hn => by cases hn) j call hc with hold | hnew
    · exact h.calls j call hold
    · exact hnew
  | child n e =>
    obtain ⟨db, hdb, rfl⟩ := Option.map_eq_some_iff.mp hs
    refine ⟨h.db.frame ?_, h.calls⟩
    rw [processChild_frame hdb]
  | advance job i =>
    obtain ⟨call, hcall, hs⟩ := Option.bind_eq_some_iff.mp hs
    obtain ⟨⟨db, next⟩, hadv, hs⟩ := Option.bind_eq_some_iff.mp hs
    cases hs
    obtain ⟨hdb, hnext⟩ := (Call.advance_moves hadv).limited h.db (h.calls job call hcall)
    refine ⟨hdb, fun j call hc => ?_⟩
    rcases update_calls hnext j call hc with hold | hnew
    · exact h.calls j call hold
    · exact hnew

theorem reachable_limited {s : State} (h : Reachable (lichess env) s) : LimitedState s := by
  refine Reachable.invariant (I := LimitedState) ?_ (fun s e t hl hs => hl.step hs) h
  rintro s ⟨hdb, hcalls⟩
  refine ⟨fun j c hc => ?_, fun j call hc => ?_⟩
  · rw [hdb] at hc
    cases hc
  · rw [hcalls j] at hc
    cases hc

end ChessCrawl.Collection
