import ChessCrawl.Collection.Soundness

/-! Payload children of collection jobs. Every child names a preserved payload, a page's child has no
selection limit, and a finished one has associated every object of its page that the run's window
includes. -/
namespace ChessCrawl.Collection
open ChessCrawl.Lib
set_option autoImplicit false

/-- The objects of the body that the run's window includes are the run's games. -/
def Associated (env : Env) (db : Db) (r : Nat) (body : List GameObject) : Prop :=
  ∀ g ∈ body, (env.runParams r).includes g.createdAt = true → (r, g.key) ∈ db.runGames

def ChildOk (env : Env) (db : Db) (c : Child) : Prop :=
  ∃ p, db.rawPayload c.rawPayloadId = some p ∧ (∀ k, p.source = .page k → c.maxGames = none) ∧
    ∀ r, c.maxGames = none → c.crawlRunId = some r →
      (∀ position remaining, c.state = .running position remaining →
        remaining = none ∧ Associated env db r (p.body.take position)) ∧
      (c.state = .done → Associated env db r p.body)

/-- The payloads a call is about to queue exist. -/
def PcSources (db : Db) : Pc → Prop
  | .stored sources _ | .replayed _ sources _ => ∀ raw ∈ sources, ∃ p, db.rawPayload raw = some p
  | .captured t raw _ => ∃ p, db.rawPayload raw = some p ∧ p.source = t.source
  | _ => True

def CallSources (db : Db) : Call → Prop
  | .running _ _ pc => PcSources db pc
  | _ => True

theorem Associated.mono {env : Env} {db db' : Db} (h : ∀ x ∈ db.runGames, x ∈ db'.runGames) {r : Nat}
    {body : List GameObject} (ha : Associated env db r body) : Associated env db' r body :=
  fun g hg hin => h _ (ha g hg hin)

theorem ChildOk.mono {env : Env} {db db' : Db} (hraw : db.rawPayloads <+: db'.rawPayloads)
    (hrun : ∀ x ∈ db.runGames, x ∈ db'.runGames) {c : Child} (h : ChildOk env db c) : ChildOk env db' c := by
  obtain ⟨p, hp, hpage, hstate⟩ := h
  refine ⟨p, rawPayload_prefix hraw hp, hpage, fun r hmg hr => ?_⟩
  obtain ⟨hrunning, hdone⟩ := hstate r hmg hr
  exact ⟨fun position remaining hs => ⟨(hrunning position remaining hs).1,
    (hrunning position remaining hs).2.mono hrun⟩, fun hs => (hdone hs).mono hrun⟩

theorem CallSources.mono {db db' : Db} (hraw : db.rawPayloads <+: db'.rawPayloads) {call : Call}
    (h : CallSources db call) : CallSources db' call := by
  cases call with
  | running x c pc =>
    cases pc with
    | stored sources short =>
      intro raw hr
      obtain ⟨p, hp⟩ := h raw hr
      exact ⟨p, rawPayload_prefix hraw hp⟩
    | replayed first sources short =>
      intro raw hr
      obtain ⟨p, hp⟩ := h raw hr
      exact ⟨p, rawPayload_prefix hraw hp⟩
    | captured t raw fetch =>
      obtain ⟨p, hp, hsrc⟩ := h
      exact ⟨p, rawPayload_prefix hraw hp, hsrc⟩
    | _ => trivial
  | _ => trivial

theorem mem_coveredSources {db : Db} {upto : Int} {after highWater limit : Nat} {since : Option Int}
    {raw : Nat} (h : raw ∈ db.coveredSources upto after highWater limit since) :
    (∃ row ∈ db.sourceRanges, row.rawPayloadId = raw) ∧ after < raw ∧ raw ≤ highWater := by
  have hmem := (List.perm_insertionSort _ _).mem_iff.mp (List.mem_of_mem_take h)
  obtain ⟨row, hrow, rfl⟩ := List.mem_map.mp hmem
  obtain ⟨hin, hguard⟩ := List.mem_filter.mp hrow
  simp only [Bool.and_eq_true, decide_eq_true_eq] at hguard
  exact ⟨⟨row, hin, rfl⟩, hguard.1.2, hguard.2⟩

theorem rawPayload_of_range {env : Env} {db : Db} (h : db.Sound env) {row : SourceRange}
    (hrow : row ∈ db.sourceRanges) : ∃ p, db.rawPayload row.rawPayloadId = some p := by
  obtain ⟨p, hp, k, ts, hid, _⟩ := h.ranges row hrow
  exact ⟨p, by rw [← hid]; exact h.numbered.rawPayload_eq hp⟩

/-- A move keeps the call's sources in the archive. -/
theorem Moves.callSources {env : Env} {job : Nat} {clock : Int} {db db' : Db} {call : Call}
    {next : Option Call} (h : db.Sound env) (hcall : CallSources db call)
    (hext : db.Extends env db') (hm : Moves env job clock db call db' next) :
    ∀ call', next = some call' → CallSources db' call' := by
  have hnone : ∀ call', (none : Option Call) = some call' → CallSources db' call' :=
    fun _ hn => nomatch hn
  cases hm with
  | readStored hphase hsources =>
    intro _ hn
    cases hn
    intro raw hraw
    rw [hsources] at hraw
    obtain ⟨⟨row, hrow, rfl⟩, _⟩ := mem_coveredSources hraw
    exact rawPayload_of_range h hrow
  | @replay x c raw fetch sources short =>
    intro _ hn
    cases hn
    have hrest : CallSources db (.running x c (.replayed raw sources short)) :=
      fun y hy => hcall y (List.mem_cons_of_mem _ hy)
    exact hrest.mono hext.raws
  | replayLocal hrun =>
    intro _ hn
    cases hn
    exact fun raw hraw => hcall raw (List.mem_cons_of_mem _ hraw)
  | replayed hx hb hpos =>
    intro _ hn
    cases hn
    exact hcall
  | storedShort hnext =>
    rcases hnext with rfl | rfl
    · exact hnone
    · intro _ hn
      cases hn
      trivial
  | storedFull hpc hx =>
    intro _ hn
    cases hn
    rcases hpc with rfl | rfl
    · trivial
    · trivial
  | followed hnext =>
    rcases hnext with rfl | rfl
    · exact hnone
    · intro _ hn
      cases hn
      trivial
  | @capture x c t requestedAt body ha =>
    intro _ hn
    cases hn
    obtain ⟨p, hp, hsrc, _⟩ := held_capture h.numbered t.source body requestedAt
    exact ⟨p, hp, hsrc⟩
  | drop | close | fail | finish | saturate | overflow => exact hnone
  | _ =>
    intro _ hn
    cases hn
    trivial

/-- A child is queued for a payload that exists, and without a limit when that is a page. -/
theorem enqueue_childOk {env : Env} {db : Db} {raw fetch : Nat} {mg : Option Nat} {job : Nat}
    {p : RawPayload} (h : ∀ c ∈ db.children, ChildOk env db c) (hp : db.rawPayload raw = some p)
    (hpage : ∀ k, p.source = .page k → mg = none) :
    ∀ c ∈ (db.enqueuePayloadNormalization raw fetch mg job (env.jobRun job)).children,
      ChildOk env (db.enqueuePayloadNormalization raw fetch mg job (env.jobRun job)) c := by
  rcases Db.enqueue_children db raw fetch mg job (env.jobRun job) with ⟨_, _, _, _, _, heq⟩ | heq
  · rw [heq]
    exact h
  · rw [heq]
    intro c hc
    rcases List.mem_append.mp hc with hc | hc
    · exact (h c hc).mono (List.prefix_refl _) fun _ hx => hx
    · rw [List.mem_singleton.mp hc]
      refine ⟨p, hp, hpage, fun r _ _ => ⟨fun position remaining hs => ?_, fun hs => ?_⟩⟩
      · cases hs
      · cases hs

theorem Target.maxGames_of_page {t : Target} {k : PageKey} (h : t.source = .page k) : t.maxGames = none := by
  cases t with
  | followup ref rows full => cases h
  | page k' => rfl

theorem Effect.childOk {env : Env} {job : Nat} {clock : Int} {db db' : Db} {call : Call}
    (hcall : CallSources db call) (hext : db.Extends env db') (h : ∀ c ∈ db.children, ChildOk env db c)
    (he : Effect env job clock db call db') : ∀ c ∈ db'.children, ChildOk env db' c := by
  rcases he.children with hsame | ⟨raw, fetch, mg, hq, rfl⟩
  · intro c hc
    rw [hsame] at hc
    refine (h c hc).mono hext.raws ?_
    rw [he.runGames]
    exact fun _ hx => hx
  · cases hq with
    | stored x c sources short hmg =>
      obtain ⟨p, hp⟩ := hcall raw List.mem_cons_self
      exact enqueue_childOk h hp fun _ _ => hmg
    | reuse x c t hmg hl =>
      obtain ⟨p, hp, hsrc⟩ := Db.latestJobPayload_spec hl
      refine enqueue_childOk h hp fun k hk => ?_
      rw [hmg]
      exact Target.maxGames_of_page (by rw [← hsrc]; exact hk)
    | captured x c t hmg =>
      obtain ⟨p, hp, hsrc⟩ := hcall
      refine enqueue_childOk h hp fun k hk => ?_
      rw [hmg]
      exact Target.maxGames_of_page (by rw [← hsrc]; exact hk)

/-! ## Processing -/

theorem associate_grows (env : Env) (runGames : List (Nat × GameKey)) (run : Option Nat) (g : GameObject)
    (remaining : Option Nat) : ∀ x ∈ runGames, x ∈ (associate env runGames run g remaining).1 := by
  intro x hx
  unfold associate
  split
  · exact hx
  · split
    · exact hx
    · exact List.mem_append_left _ hx

/-- Without a limit an included game is a member afterwards, and there is still no limit. -/
theorem associate_unlimited (env : Env) (runGames : List (Nat × GameKey)) (r : Nat) (g : GameObject) :
    (associate env runGames (some r) g none).2 = none ∧
      ((env.runParams r).includes g.createdAt = true →
        (r, g.key) ∈ (associate env runGames (some r) g none).1) := by
  unfold associate
  dsimp only
  split
  · next hguard =>
    refine ⟨rfl, fun hin => ?_⟩
    rcases hguard with hout | hmem | hlimit
    · rw [hin] at hout
      cases hout
    · exact hmem
    · cases hlimit
  · exact ⟨rfl, fun _ => by simp⟩

/-- What an event does to its child and to the runs' games. -/
theorem processChild_cases {env : Env} {db db' : Db} {n : Nat} {e : ChildEvent}
    (h : db.processChild env n e = some db') :
    ∃ c p state, db.children[n]? = some c ∧ db.rawPayload c.rawPayloadId = some p ∧
      db'.children = db.children.set n { c with state := state } ∧
      db'.rawPayloads = db.rawPayloads ∧
      ((db'.runGames = db.runGames ∧ (state = .pending ∨ state = .failed ∨
          state = .running 0 c.maxGames ∨
          (state = .done ∧ ∃ position remaining, c.state = .running position remaining ∧
            p.body.length ≤ position))) ∨
        ∃ position remaining g, c.state = .running position remaining ∧ p.body[position]? = some g ∧
          db'.runGames = (associate env db.runGames c.crawlRunId g remaining).1 ∧
          state = .running (position + 1) (associate env db.runGames c.crawlRunId g remaining).2) := by
  unfold Db.processChild at h
  obtain ⟨c, hc, h⟩ := Option.bind_eq_some_iff.mp h
  obtain ⟨p, hp, h⟩ := Option.bind_eq_some_iff.mp h
  split at h
  · cases h
    exact ⟨c, p, _, hc, hp, rfl, rfl, .inl ⟨rfl, .inr (.inr (.inl rfl))⟩⟩
  · next position remaining hstate _ _ =>
    obtain ⟨g, hg, h⟩ := Option.bind_eq_some_iff.mp h
    cases h
    exact ⟨c, p, _, hc, hp, rfl, rfl, .inr ⟨position, remaining, g, hstate, hg, rfl, rfl⟩⟩
  · next position remaining hstate _ _ =>
    split at h
    · next hlen =>
      cases h
      exact ⟨c, p, _, hc, hp, rfl, rfl,
        .inl ⟨rfl, .inr (.inr (.inr ⟨rfl, position, remaining, hstate, hlen⟩))⟩⟩
    · cases h
  · cases h
    exact ⟨c, p, _, hc, hp, rfl, rfl, .inl ⟨rfl, .inl rfl⟩⟩
  · cases h
    exact ⟨c, p, _, hc, hp, rfl, rfl, .inl ⟨rfl, .inr (.inl rfl)⟩⟩
  · cases h
    exact ⟨c, p, _, hc, hp, rfl, rfl, .inl ⟨rfl, .inl rfl⟩⟩
  · cases h

theorem processChild_runGames {env : Env} {db db' : Db} {n : Nat} {e : ChildEvent}
    (h : db.processChild env n e = some db') : ∀ x ∈ db.runGames, x ∈ db'.runGames := by
  obtain ⟨c, p, state, _, _, _, _, ⟨hrun, _⟩ | ⟨position, remaining, g, _, _, hrun, _⟩⟩ :=
    processChild_cases h
  · rw [hrun]
    exact fun _ hx => hx
  · rw [hrun]
    exact associate_grows env db.runGames c.crawlRunId g remaining

theorem processChild_childOk {env : Env} {db db' : Db} {n : Nat} {e : ChildEvent}
    (h : ∀ c ∈ db.children, ChildOk env db c) (hp : db.processChild env n e = some db') :
    ∀ c ∈ db'.children, ChildOk env db' c := by
  have hgrow := processChild_runGames hp
  obtain ⟨c, p, state, hc, hraw, hset, hraws, hcase⟩ := processChild_cases hp
  have hprefix : db.rawPayloads <+: db'.rawPayloads := by rw [hraws]
  intro d hd
  rw [hset] at hd
  rcases List.mem_or_eq_of_mem_set hd with hold | rfl
  · exact (h d hold).mono hprefix hgrow
  · obtain ⟨q, hq, hpage, hstate⟩ := h c (List.mem_of_getElem? hc)
    rw [hraw] at hq
    cases hq
    refine ⟨p, rawPayload_prefix hprefix hraw, hpage, fun r hmg hr => ?_⟩
    obtain ⟨hrunning, hdone⟩ := hstate r hmg hr
    rcases hcase with ⟨_, rfl | rfl | rfl | ⟨rfl, position, remaining, hcs, hlen⟩⟩ |
      ⟨position, remaining, g, hcs, hg, hrun, rfl⟩
    · exact ⟨fun _ _ hs => (nomatch hs), fun hs => nomatch hs⟩
    · exact ⟨fun _ _ hs => (nomatch hs), fun hs => nomatch hs⟩
    · refine ⟨fun position remaining hs => ?_, fun hs => nomatch hs⟩
      cases hs
      exact ⟨hmg, fun g hg => by simp at hg⟩
    · refine ⟨fun _ _ hs => (nomatch hs), fun _ => ?_⟩
      have hall := (hrunning position remaining hcs).2
      rw [List.take_of_length_le hlen] at hall
      exact hall.mono hgrow
    · obtain ⟨hnone, hall⟩ := hrunning position remaining hcs
      subst hnone
      have hr' : c.crawlRunId = some r := hr
      rw [hr'] at hrun
      obtain ⟨hlimit, hjoin⟩ := associate_unlimited env db.runGames r g
      refine ⟨fun pos rem hs => ?_, fun hs => nomatch hs⟩
      cases hs
      rw [hr']
      refine ⟨hlimit, fun g' hg' hin => ?_⟩
      rw [List.take_add_one, hg] at hg'
      rcases List.mem_append.mp hg' with hg' | hg'
      · exact hgrow _ (hall g' hg' hin)
      · have hgg : g' = g := by simpa using hg'
        subst hgg
        rw [hrun]
        exact hjoin hin

/-! ## Every run -/

structure ChildInv (env : Env) (s : State) : Prop where
  children : ∀ c ∈ s.db.children, ChildOk env s.db c
  calls : ∀ job call, s.calls job = some call → CallSources s.db call

theorem childInv_step {env : Env} {s t : State} {e : Event} (hinv : Inv env s) (h : ChildInv env s)
    (hs : step env s e = some t) : ChildInv env t := by
  cases e with
  | tick ms =>
    cases hs
    exact ⟨h.children, h.calls⟩
  | enter job params stop =>
    obtain ⟨next, he, rfl⟩ := Option.map_eq_some_iff.mp hs
    have hnext : ∀ call, next = some call → CallSources s.db call := by
      rintro call rfl
      rcases enter_cases he with ⟨c, x, _, _, _, _, _, rfl⟩ | ⟨x, _, _, _, rfl⟩
      · trivial
      · trivial
    refine ⟨h.children, fun j call hc => ?_⟩
    rcases update_calls hnext j call hc with hold | hnew
    · exact h.calls j call hold
    · exact hnew
  | advance job i =>
    obtain ⟨call, hcall, hs⟩ := Option.bind_eq_some_iff.mp hs
    obtain ⟨⟨db, next⟩, hadv, hs⟩ := Option.bind_eq_some_iff.mp hs
    cases hs
    have hm := Call.advance_moves hadv
    have hext := (hm.extends hinv.sound (hinv.calls job call hcall)).1
    refine ⟨hm.effect.childOk (h.calls job call hcall) hext h.children, fun j c hc => ?_⟩
    rcases update_calls (hm.callSources hinv.sound (h.calls job call hcall) hext) j c hc with hold | hnew
    · exact (h.calls j c hold).mono hext.raws
    · exact hnew
  | crash job =>
    cases hs
    refine ⟨h.children, fun j c hc => ?_⟩
    rcases update_calls (P := CallSources s.db) (fun _ hn => by cases hn) j c hc with hold | hnew
    · exact h.calls j c hold
    · exact hnew
  | child n e =>
    obtain ⟨db, hdb, rfl⟩ := Option.map_eq_some_iff.mp hs
    refine ⟨processChild_childOk h.children hdb, fun j c hc => (h.calls j c hc).mono ?_⟩
    obtain ⟨_, _, _, _, _, _, hraws, _⟩ := processChild_cases hdb
    change s.db.rawPayloads <+: db.rawPayloads
    rw [hraws]

theorem reachable_childInv {env : Env} {s : State} (h : Reachable (lichess env) s) : ChildInv env s := by
  refine Reach.invariant (fun s h0 => ?_) (fun s e t hr hi _ hs => childInv_step (reachable_inv hr) hi hs) h
  obtain ⟨hdb, hcalls⟩ := h0
  refine ⟨fun c hc => ?_, fun job call hc => ?_⟩
  · rw [hdb] at hc
    exact absurd hc List.not_mem_nil
  · rw [hcalls job] at hc
    cases hc

end ChessCrawl.Collection
