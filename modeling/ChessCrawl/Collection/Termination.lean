import ChessCrawl.Collection.Progress

/-! A job by itself reaches a done checkpoint or the error of an exhausted page budget. -/
namespace ChessCrawl.Collection
open ChessCrawl.Lib
set_option autoImplicit false

variable {env : Env} {P : Finset ProviderGame} {Q : PageKey → List GameObject → Prop} {job : Nat} {x₀ x : Exec}
  {since : Option Int} {upto : Int} {db db' : Db} {c : Cursor}

/-! ## A new job -/

/-- Only a job with a checkpoint has requested anything. -/
structure Logged (s : State) : Prop where
  logs : ∀ f ∈ s.db.fetchLogs, s.db.checkpoints f.jobId ≠ none
  calls : ∀ job x c pc, s.calls job = some (.running x c pc) → s.db.checkpoints job ≠ none

theorem Effect.keeps_checkpoint {clock : Int} {call : Call} (h : Effect env job clock db call db') {j : Nat}
    (hj : db.checkpoints j ≠ none) : db'.checkpoints j ≠ none := by
  by_cases heq : j = job
  · subst heq
    cases h with
    | note cov => exact hj
    | save cov fol c =>
      rw [show Db.checkpoints _ j = some c from Function.update_self _ _ _]
      exact Option.some_ne_none c
    | @queue raw fetch mg hq =>
      obtain ⟨cs, hcs⟩ := Db.enqueue_frame db raw fetch mg j (env.jobRun j)
      rw [hcs]
      exact hj
    | @capture x c t requestedAt body hcall =>
      obtain ⟨raws, heq⟩ := Db.storeRawPayload_frame db t.source body requestedAt
      rw [heq]
      exact hj
    | @record x c k raw p _ hcall hp hr =>
      rw [Db.recordPage_frame hr]
      exact hj
  · rw [h.others heq]
    exact hj

theorem Effect.logged {clock : Int} {call : Call} (h : Effect env job clock db call db') {f : FetchLog}
    (hf : f ∈ db'.fetchLogs) : f ∈ db.fetchLogs ∨ f.jobId = job ∧ ∃ x c pc, call = .running x c pc := by
  cases h with
  | note cov => exact .inl hf
  | save cov fol c => exact .inl hf
  | @queue raw fetch mg hq =>
    obtain ⟨cs, hcs⟩ := Db.enqueue_frame db raw fetch mg job (env.jobRun job)
    rw [hcs] at hf
    exact .inl hf
  | @capture x c t requestedAt body hcall =>
    rcases List.mem_append.mp hf with hf | hf
    · obtain ⟨raws, heq⟩ := Db.storeRawPayload_frame db t.source body requestedAt
      rw [heq] at hf
      exact .inl hf
    · rw [List.mem_singleton.mp hf]
      exact .inr ⟨rfl, x, c, _, hcall⟩
  | @record x c k raw p _ hcall hp hr =>
    rw [Db.recordPage_frame hr] at hf
    exact .inl hf

theorem advance_logged {clock : Int} {i : Input} {call : Call} {next : Option Call}
    (hadv : call.advance env job clock db i = some (db', next))
    (h : ∀ x c pc, call = .running x c pc → db.checkpoints job ≠ none) {x : Exec} {c : Cursor} {pc : Pc}
    (hnext : next = some (.running x c pc)) : db'.checkpoints job ≠ none := by
  subst hnext
  cases call with
  | creating x =>
    rw [Call.advance] at hadv
    split at hadv
    · dsimp only at hadv
      split at hadv
      · cases hadv
      · cases hadv
    · cases hadv
  | pinning x since upto first => cases hadv
  | saving x c =>
    cases hadv
    rw [show Db.checkpoints _ job = some c from Function.update_self _ _ _]
    exact Option.some_ne_none c
  | running x c pc => exact (Call.advance_moves hadv).effect.keeps_checkpoint (h x c pc rfl)

theorem Logged.step {s t : State} {e : Event} (h : Logged s) (hs : step env s e = some t) : Logged t := by
  cases e with
  | tick ms =>
    cases hs
    exact ⟨h.logs, h.calls⟩
  | enter job params stop =>
    obtain ⟨next, he, rfl⟩ := Option.map_eq_some_iff.mp hs
    refine ⟨h.logs, fun j x c pc hj => ?_⟩
    change Function.update s.calls job next j = _ at hj
    rw [Function.update_apply] at hj
    split at hj
    · next heq =>
      subst heq hj
      rcases enter_cases he with ⟨c', x', hc, _⟩ | ⟨x', _, _, _, hcall⟩
      · rw [show Db.checkpoints _ j = some c' from hc]
        exact Option.some_ne_none c'
      · cases hcall
    · exact h.calls j x c pc hj
  | crash job =>
    cases hs
    refine ⟨h.logs, fun j x c pc hj => ?_⟩
    change Function.update s.calls job none j = _ at hj
    rw [Function.update_apply] at hj
    split at hj
    · cases hj
    · exact h.calls j x c pc hj
  | child n e =>
    obtain ⟨db, hdb, rfl⟩ := Option.map_eq_some_iff.mp hs
    have hframe := processChild_frame hdb
    refine ⟨?_, ?_⟩
    · rw [hframe]
      exact h.logs
    · rw [hframe]
      exact h.calls
  | advance job i =>
    obtain ⟨call, hcall, hs⟩ := Option.bind_eq_some_iff.mp hs
    obtain ⟨⟨db, next⟩, hadv, hs⟩ := Option.bind_eq_some_iff.mp hs
    cases hs
    have heffect := (Call.advance_moves hadv).effect
    have hown : ∀ x c pc, call = .running x c pc → s.db.checkpoints job ≠ none := by
      rintro x c pc rfl
      exact h.calls job x c pc hcall
    refine ⟨fun f hf => ?_, fun j x c pc hj => ?_⟩
    · rcases heffect.logged hf with hold | ⟨hjob, x, c, pc, hrun⟩
      · exact heffect.keeps_checkpoint (h.logs f hold)
      · rw [hjob]
        exact heffect.keeps_checkpoint (hown x c pc hrun)
    · change Function.update s.calls job next j = _ at hj
      rw [Function.update_apply] at hj
      split at hj
      · next heq =>
        subst heq
        exact advance_logged hadv hown hj
      · exact heffect.keeps_checkpoint (h.calls j x c pc hj)

theorem reachable_logged {s : State} (h : Reachable (lichess env) s) : Logged s := by
  refine Reachable.invariant (I := Logged) ?_ (fun s e t hl hs => hl.step hs) h
  rintro s ⟨hdb, hcalls⟩
  refine ⟨fun f hf => ?_, fun job x c pc hj => ?_⟩
  · rw [hdb] at hf
    cases hf
  · rw [hcalls job] at hj
    cases hj

/-! ## Every run of the job -/

/-- What holds throughout the run. -/
structure Solitary (Q : PageKey → List GameObject → Prop) (env : Env) (job : Nat) (x₀ : Exec) (since : Option Int)
    (upto : Int) (s : State) : Prop where
  reachable : Reachable (lichess env) s
  logs : OwnLogs Q job s.db
  track : OnTrack Q job x₀ since upto s.db (s.calls job)

theorem ofParams_same {params : Params} {nowMs nowMs' : Int} {x : Exec} (h : Exec.ofParams params nowMs = some x) :
    ∃ x', Exec.ofParams params nowMs' = some x' ∧ x.Same x' := by
  refine ⟨{ x with nowMs := nowMs' }, ?_, ⟨rfl, rfl, rfl, rfl⟩⟩
  unfold Exec.ofParams at h ⊢
  obtain ⟨batch, hbatch, h⟩ := Option.bind_eq_some_iff.mp h
  obtain ⟨page, hpage, h⟩ := Option.bind_eq_some_iff.mp h
  obtain ⟨most, hmost, h⟩ := Option.bind_eq_some_iff.mp h
  split at h
  · cases h
  · next hle =>
    cases h
    refine Option.bind_eq_some_iff.mpr ⟨batch, hbatch, Option.bind_eq_some_iff.mpr ⟨page, hpage,
      Option.bind_eq_some_iff.mpr ⟨most, hmost, ?_⟩⟩⟩
    rw [if_neg hle]

/-- The settings of the job's calls come from its parameters, which are those of its run. -/
structure Begun (env : Env) (job : Nat) (params : Params) (x₀ : Exec) : Prop where
  settings : Exec.ofParams params x₀.nowMs = some x₀
  belongs : ((env.jobRun job).all fun r => decide ((env.runParams r).fingerprint = params.fingerprint)) = true

variable {params : Params}

theorem enter_begun {s : State} {call : Call} (h : enter env s job params false = some (some call)) :
    ∃ x, Begun env job params x ∧ x.nowMs = s.clock ∧ (call = .creating x ∧ s.db.checkpoints job = none ∨
      ∃ c, s.db.checkpoints job = some c ∧ c.requestFingerprint = x.params.fingerprint ∧ c.done = false ∧
        call = .running x c .start) := by
  obtain ⟨x, hx, hbelongs, hstart⟩ := enter_starts h
  obtain ⟨hparams, hnow, _⟩ := ofParams_fields hx
  rw [← hparams] at hstart
  exact ⟨x, ⟨by rw [hnow]; exact hx, hbelongs⟩, hnow, hstart⟩

/-- The next call resumes an open checkpoint. -/
theorem enter_resumes {s : State} (hb : Begun env job params x₀) (hnone : s.calls job = none)
    (hsaved : s.db.checkpoints job = some c) (hc : c.Open x₀ since upto) :
    ∃ x, x₀.Same x ∧ enter env s job params false = some (some (.running x c .start)) := by
  obtain ⟨x, hx, hsame⟩ := @ofParams_same params x₀.nowMs s.clock x₀ hb.settings
  refine ⟨x, hsame, ?_⟩
  have hfp : c.requestFingerprint = params.fingerprint := by
    rw [hc.fingerprint, (ofParams_fields hb.settings).1]
  unfold enter
  rw [hnone, if_neg (by simp), if_pos hb.belongs, hsaved, hx]
  simp [hfp, hc.unfinished]

theorem resume_progress {s : State} (hb : Begun env job params x₀) (h : Solitary Q env job x₀ since upto s)
    (hnone : s.calls job = none) (ms : Nat) :
    ∃ t, step env { s with clock := s.clock + ms } (.enter job params false) = some t ∧
      Progress Q P job x₀ since upto s.db none t.db (t.calls job) := by
  have htrack := h.track
  rw [hnone] at htrack
  obtain ⟨c, hsaved, hc⟩ := htrack
  obtain ⟨x, hsame, hcall⟩ := @enter_resumes env job x₀ since upto c params
    { s with clock := s.clock + ms } hb hnone hsaved hc
  refine ⟨⟨s.db, s.clock + ms, Function.update s.calls job (some (.running x c .start))⟩, ?_,
    .inr ⟨fun _ => ?_, h.logs, ?_, ?_⟩⟩
  · rw [step, hcall]
    rfl
  · dsimp only
    rw [Function.update_self]
    exact (affords_idle hsaved).symm
  · dsimp only
    rw [Function.update_self]
    exact ⟨hsame, hc, hsaved⟩
  · dsimp only
    rw [Function.update_self]
    unfold Db.left
    dsimp only
    rw [hsaved]
    exact before_rank (Nat.lt_succ_self 9)

/-- There is a response to what the call waits for. -/
theorem exists_response (P : Finset ProviderGame) (call : Call) : ∃ response,
    ∀ x c t requestedAt, call = .running x c (.requested t requestedAt) → Serves P t response := by
  by_cases h : ∃ x c t requestedAt, call = .running x c (.requested t requestedAt)
  · obtain ⟨x, c, t, requestedAt, rfl⟩ := h
    cases t with
    | page k =>
      obtain ⟨body, hbody⟩ := exists_shows P k
      refine ⟨.ok body, fun x c t requestedAt heq => ?_⟩
      cases heq
      exact hbody
    | followup ref rows full =>
      refine ⟨.failed 404 "", fun x c t requestedAt heq => ?_⟩
      cases heq
      exact .inl rfl
  · exact ⟨.failed 404 "", fun x c t requestedAt heq => absurd ⟨x, c, t, requestedAt, heq⟩ h⟩

/-- Within the budget a step is possible, and every step is progress. -/
theorem solo_progress (hS : Steady env P Q) (hb : Begun env job params x₀) {s : State}
    (h : Solitary Q env job x₀ since upto s) (hnot : ¬ Overflows job s) :
    (∃ t, Solo P env job params s t) ∧ ∀ t, Solo P env job params s t → Reachable (lichess env) t ∧
      Progress Q P job x₀ since upto s.db (s.calls job) t.db (t.calls job) := by
  have hreach : ∀ {ms : Nat} {e : Event} {t : State}, step env { s with clock := s.clock + ms } e = some t →
      Reachable (lichess env) t := by
    intro ms e t ht
    have htick : (lichess env).step s (.tick ms) = some { s with clock := s.clock + ms } := rfl
    exact Reach.next (Reach.next h.reachable trivial htick) trivial ht
  have hinv := reachable_inv h.reachable
  cases hcall : s.calls job with
  | none =>
    constructor
    · obtain ⟨t, ht, _⟩ := @resume_progress env P Q job x₀ since upto params s hb h hcall 0
      exact ⟨t, .enter 0 ht⟩
    · intro t ht
      cases ht with
      | enter ms ht =>
        obtain ⟨t', ht', hprogress⟩ := resume_progress hb h hcall ms
        rw [ht] at ht'
        cases ht'
        exact ⟨hreach ht, hprogress⟩
      | advance ms i hstop hserved ht =>
        obtain ⟨call, hcall', _⟩ := Option.bind_eq_some_iff.mp ht
        rw [hcall] at hcall'
        cases hcall'
  | some call =>
    have htrack := h.track
    rw [hcall] at htrack
    have hadvance := fun clock (i : Input) (hstop : i.stop = false) hserved =>
      @call_progress env P Q job x₀ since upto s.db hS (ofParams_sized hb.settings) hinv.sound
        (reachable_keyed h.reachable) h.logs call (hinv.calls job call hcall)
        (fits_of_not_overflows hcall hnot) htrack clock i hstop hserved
    constructor
    · obtain ⟨response, hserved⟩ := exists_response P call
      obtain ⟨db', next, hadv, _⟩ := hadvance (s.clock + (0 : Nat)) ⟨false, false, false, response⟩ rfl hserved
      refine ⟨_, .advance 0 ⟨false, false, false, response⟩ rfl ?_ (step_advance hcall hadv)⟩
      intro x c t requestedAt heq
      rw [hcall] at heq
      exact hserved x c t requestedAt (Option.some.inj heq)
    · intro t ht
      cases ht with
      | enter ms ht =>
        obtain ⟨next, hnext, _⟩ := Option.map_eq_some_iff.mp ht
        unfold enter at hnext
        rw [show State.calls _ job = some call from hcall, if_pos Option.isSome_some] at hnext
        cases hnext
      | advance ms i hstop hserved ht =>
        obtain ⟨db', next, hadv, hprogress⟩ := hadvance (s.clock + (ms : Nat)) i hstop fun x c t requestedAt heq =>
          hserved x c t requestedAt (by rw [hcall, heq])
        have ht' := @step_advance env { s with clock := s.clock + ms } job i call db' next hcall hadv
        have hreached := hreach ht
        rw [ht'] at ht
        cases ht
        refine ⟨hreached, ?_⟩
        dsimp only
        rw [Function.update_self]
        exact hprogress

/-- A job that starts in any archive. -/
theorem solitary_creating {s : State} (h : Reachable (lichess env) s)
    (henter : enter env s job params false = some (some (.creating x))) (hfresh : s.db.checkpoints job = none)
    (ha : Accepted x since upto) :
    Solitary Q env job x since upto { s with calls := Function.update s.calls job (some (.creating x)) } := by
  have hstep : (lichess env).step s (.enter job params false) =
      some { s with calls := Function.update s.calls job (some (.creating x)) } := by
    change (enter env s job params false).map _ = _
    rw [henter]
    rfl
  refine ⟨Reach.next h trivial hstep, fun f hf hjob => ?_, ?_⟩
  · exact absurd (hjob ▸ hfresh) ((reachable_logged h).logs f hf)
  · dsimp only
    rw [Function.update_self]
    exact ⟨⟨rfl, rfl, rfl, rfl⟩, rfl, ha⟩

/-- A job that goes on from the checkpoint of an earlier call. -/
theorem solitary_resumed {s : State} (h : Reachable (lichess env) s)
    (henter : enter env s job params false = some (some (.running x c .start))) (hlogs : OwnLogs Q job s.db)
    (hsaved : s.db.checkpoints job = some c) (hsame : c.requestFingerprint = x.params.fingerprint) (hopen : c.done = false) :
    Solitary Q env job x c.requestedSinceMs c.upperMs
      { s with calls := Function.update s.calls job (some (.running x c .start)) } := by
  have hstep : (lichess env).step s (.enter job params false) =
      some { s with calls := Function.update s.calls job (some (.running x c .start)) } := by
    change (enter env s job params false).map _ = _
    rw [henter]
    rfl
  refine ⟨Reach.next h trivial hstep, hlogs, ?_⟩
  dsimp only
  rw [Function.update_self]
  exact ⟨⟨rfl, rfl, rfl, rfl⟩, ⟨hsame, rfl, rfl, (reachable_limited h).db job c hsaved, hopen⟩, hsaved⟩

theorem solo_inevitable (hS : Steady env P Q) {s : State} (hb : Begun env job params x₀)
    (h : Solitary Q env job x₀ since upto s) : Inevitable (Solo P env job params) (Finished job) s := by
  refine Inevitable.of_counters (fun s => Finished job s ∨ Solitary Q env job x₀ since upto s)
    (fun s => s.db.left job x₀ (s.calls job)) (fun s hI hnot => ?_) (.inr h)
  obtain ⟨hstep, hnext⟩ := solo_progress hS hb (hI.resolve_left hnot) fun hover => hnot (.inr hover)
  refine ⟨hstep, fun t ht => ?_⟩
  obtain ⟨hreach, ⟨_, hdone, _⟩ | ⟨_, hlogs, htrack, hless⟩⟩ := hnext t ht
  · exact ⟨.inl (.inl hdone), .inl (.inl hdone)⟩
  · exact ⟨.inr ⟨hreach, hlogs, htrack⟩, .inr hless⟩

theorem anyProvider_steady (hP : ∀ g ∈ P, 0 ≤ g.createdAt) (jobRun : Nat → Option Nat) (runParams : Nat → Params) :
    Steady (anyProvider jobRun runParams) P Legal := ⟨fun _ _ _ => rfl, fun _ _ h => h.legal hP, fun _ _ h => h⟩

/-- Whatever the archive holds, whatever games its pages show and whatever the other jobs have left, a job of an accepted
window ends, from its first call or from a checkpoint whose own pages could be read: its checkpoint is done, or it raises
that a timestamp boundary exceeds the budget. -/
theorem paging_terminates (P : Finset ProviderGame) (hP : ∀ g ∈ P, 0 ≤ g.createdAt) (jobRun : Nat → Option Nat)
    (runParams : Nat → Params) (s s₁ : State) (h : Reachable (lichess (anyProvider jobRun runParams)) s) (job : Nat)
    (params : Params) (call : Call) (henter : step (anyProvider jobRun runParams) s (.enter job params false) = some s₁)
    (hcall : s₁.calls job = some call) (hwindow : ∀ x, call = .creating x → ∃ since upto, Accepted x since upto)
    (hread : ∀ c, s.db.checkpoints job = some c → OwnLogs Legal job s.db) :
    Inevitable (Solo P (anyProvider jobRun runParams) job params) (Finished job) s₁ ∧
      ∀ t, Overflows job t → ∀ i, ∃ now k raw u, step (anyProvider jobRun runParams) t (.advance job i) = some u ∧
        u.calls job = none ∧
        u.db = t.db.recordCoverage (.millis k) ⟨.error, some raw, now, some boundaryError, none, none, false⟩ := by
  obtain ⟨next, hentered, rfl⟩ := Option.map_eq_some_iff.mp henter
  rw [show State.calls _ job = next from Function.update_self _ _ _] at hcall
  subst hcall
  refine ⟨?_, fun t ht i => ht.raises i⟩
  have hS := anyProvider_steady hP jobRun runParams
  obtain ⟨x, hb, _, ⟨rfl, hfresh⟩ | ⟨c, hsaved, hsame, hopen, rfl⟩⟩ := enter_begun hentered
  · obtain ⟨since, upto, ha⟩ := hwindow x rfl
    exact solo_inevitable hS hb (solitary_creating h hentered hfresh ha)
  · exact solo_inevitable hS hb (solitary_resumed h hentered (hread c hsaved) hsaved hsame hopen)

/-! A job resumes after a page with a game that the provider no longer has, while another job is in a call. -/

def GameObject.sound (g : GameObject) : Bool := g.id.isSome && g.status.isSome && g.createdAt.any fun t => decide (0 ≤ t)

def Db.readable (db : Db) (job : Nat) : Bool :=
  db.fetchLogs.all fun f => decide (f.jobId ≠ job) || (db.rawPayload f.rawPayloadId).all fun p =>
    match p.source with
    | .page k => (pageTimestamps k p.body).isSome && p.body.all GameObject.sound
    | .game _ => false

theorem ownLogs_of_readable (h : db.readable job = true) : OwnLogs Legal job db := by
  intro f hf hjob p hp
  have hread := List.all_eq_true.mp h f hf
  rw [hjob, hp, Bool.or_eq_true, decide_eq_true_eq, Option.all_some] at hread
  have hread := hread.resolve_left fun hne => hne rfl
  cases hsrc : p.source with
  | page k =>
    rw [hsrc] at hread
    obtain ⟨hts, hgames⟩ := Bool.and_eq_true_iff.mp hread
    refine ⟨Option.isSome_iff_exists.mp hts, fun g hg hbad => ?_⟩
    have hsound := List.all_eq_true.mp hgames g hg
    simp only [GameObject.sound, Bool.and_eq_true] at hsound
    obtain ⟨⟨hid, hstatus⟩, htime⟩ := hsound
    rcases hbad with hnone | hnone | hneg
    · rw [hnone] at hid
      cases hid
    · rw [hnone] at hstatus
      cases hstatus
    · obtain ⟨t, ht, hpos⟩ := (Option.any_eq_true _ _).mp htime
      have := hneg t ht
      have := of_decide_eq_true hpos
      omega
  | game ref =>
    rw [hsrc] at hread
    cases hread

def resumedEnv : Env := anyProvider (fun _ => none) fun _ => tiedParams

def resumedTrace : List Event :=
  List.flatten [[.tick 10, .enter 8 tiedParams false, .advance 8 quiet, .enter 7 tiedParams false],
    List.replicate 5 (.advance 7 quiet), pageTrace 7 [tiedObject 9 8]]

def Db.openLimit (db : Db) (job : Nat) : Option Nat := ((db.checkpoints job).filter fun c => !c.done).map Cursor.limit

def Call.resumed : Call → Bool
  | .running _ _ .start => true
  | _ => false

theorem paging_terminates_tied : ∃ s s₁, Reachable (lichess resumedEnv) s ∧ s.db.openLimit 7 = some 2 ∧
    (s.calls 8).isSome ∧ step resumedEnv s (.enter 7 tiedParams false) = some s₁ ∧
    Inevitable (Solo tiedGames resumedEnv 7 tiedParams) (Finished 7) s₁ := by
  obtain ⟨s, hreach, hs⟩ := Reach.of_exec (lichess resumedEnv) (fun _ _ => True) (s := emptyState) ⟨rfl, fun _ => rfl⟩
    resumedTrace (fun s => s.db.openLimit 7 = some 2 ∧ (s.calls 8).isSome ∧ s.db.readable 7 ∧
      ((step resumedEnv s (.enter 7 tiedParams false)).bind fun s₁ => (s₁.calls 7).map Call.resumed) = some true)
    (by decide +kernel)
  obtain ⟨hlimit, hother, hread, hresumed⟩ := of_decide_eq_true hs
  obtain ⟨s₁, henter, hresumed⟩ := Option.bind_eq_some_iff.mp hresumed
  obtain ⟨call, hcall, hresumed⟩ := Option.map_eq_some_iff.mp hresumed
  refine ⟨s, s₁, hreach, hlimit, hother, henter, (paging_terminates tiedGames (by decide) (fun _ => none)
    (fun _ => tiedParams) s s₁ hreach 7 tiedParams call henter hcall ?_ fun _ _ => ownLogs_of_readable hread).1⟩
  rintro x rfl
  cases hresumed

end ChessCrawl.Collection
