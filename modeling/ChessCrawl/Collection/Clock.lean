import ChessCrawl.Collection.Soundness

/-! When coverage reaches into the future. The upper bound of a range is the requested `until` or the
clock of the call that made the cursor; validation bounds the `until` of an import by the calendar
only, so coverage may certify time that has not passed. Runs whose imports ask for past bounds never
do. -/
namespace ChessCrawl.Collection
open ChessCrawl.Lib
set_option autoImplicit false

/-! ## Import admission -/

structure ImportRequest where
  collectionMode : Mode
  since : Option Int
  upto : Option Int
  maxGames : Int
  batchSize : Int
deriving DecidableEq, Repr

structure Limits where
  maxGames : Int
  maxJobs : Int

/-- Exclusive end of the year 9999. -/
def maxTimestamp : Int := 253402300800

/-- `validate_integer`. -/
def validateInteger (value minimum maximum : Int) : Bool := decide (minimum ≤ value ∧ value ≤ maximum)

/-- `validate_import` on the three collection modes. -/
def validateImport (limits : Limits) (r : ImportRequest) : Bool :=
  (r.since.all fun s => validateInteger s 0 (maxTimestamp - 1)) &&
  (r.upto.all fun u => validateInteger u 1 maxTimestamp) &&
  (r.since.all fun s => r.upto.all fun u => decide (s < u)) &&
  validateInteger r.maxGames 1 limits.maxGames && validateInteger r.batchSize 1 12 &&
  decide (2 ≤ limits.maxJobs)

/-- The job parameters of an admitted Lichess import. -/
def importParams (r : ImportRequest) : Params :=
  ⟨r.collectionMode, r.since, r.since.map (· * 1000), r.upto, r.upto.map (· * 1000), some r.batchSize,
    none, none, some r.maxGames⟩

/-- The requested upper bound in milliseconds. -/
def Params.requestedUntil (p : Params) : Option Int := p.untilMs.orElse fun _ => p.upto.map (· * 1000)

/-- The parameters come from a valid import; an operator may later change the capacity settings. -/
def Admitted (limits : Limits) (p : Params) : Prop :=
  ∃ r, validateImport limits r = true ∧ p.fingerprint = (importParams r).fingerprint

/-- Calls are only made for admitted imports. -/
def AdmittedCalls (limits : Limits) (_ : State) : Event → Prop
  | .enter _ params _ => Admitted limits params
  | _ => True

/-- Moreover no call starts before the upper bound of its import has passed. -/
def PastCalls (limits : Limits) (s : State) : Event → Prop
  | .enter _ params _ => Admitted limits params ∧ ∀ u, params.requestedUntil = some u → u ≤ s.clock
  | _ => True

/-! ## Bounds by the clock -/

def Cursor.Timed (clock : Int) (c : Cursor) : Prop := c.upperMs ≤ clock ∧ c.untilMs ≤ clock

def Pc.Timed (clock : Int) : Pc → Prop
  | .requested t requestedAt => requestedAt ≤ clock ∧ ∀ k, t = .page k → k.upto ≤ requestedAt
  | _ => True

def Call.Timed (clock : Int) : Call → Prop
  | .creating x => x.nowMs ≤ clock ∧
      ∀ u, milliseconds x.params.untilMs x.params.upto = some (some u) → u ≤ clock
  | .pinning _ _ upto first => upto ≤ clock ∧ first.upper ≤ clock
  | .saving _ c => c.Timed clock
  | .running _ c pc => c.Timed clock ∧ pc.Timed clock

structure Db.Timed (clock : Int) (db : Db) : Prop where
  raws : ∀ p ∈ db.rawPayloads, p.requestedAt ≤ clock ∧ ∀ k, p.source = .page k → k.upto ≤ p.requestedAt
  checkpoints : ∀ job c, db.checkpoints job = some c → c.Timed clock
  history : ∀ u, db.historyWatermark = some u → ∃ r ∈ db.sourceRanges, r.coveredUntil = u

namespace Db.Timed

theorem frame {clock : Int} {db db' : Db} (h : db.Timed clock) (hraw : db'.rawPayloads = db.rawPayloads)
    (hrange : ∀ r ∈ db.sourceRanges, r ∈ db'.sourceRanges) (hcp : db'.checkpoints = db.checkpoints)
    (hw : db'.historyWatermark = db.historyWatermark) : db'.Timed clock := by
  refine ⟨by rw [hraw]; exact h.raws, by rw [hcp]; exact h.checkpoints, fun u hu => ?_⟩
  rw [hw] at hu
  obtain ⟨r, hr, hru⟩ := h.history u hu
  exact ⟨r, hrange r hr, hru⟩

theorem saveCheckpoint {clock : Int} {db : Db} (h : db.Timed clock) (job : Nat) {c : Cursor}
    (hc : c.Timed clock) : (db.saveCheckpoint job c).Timed clock := by
  refine ⟨h.raws, fun job' c' hc' => ?_, h.history⟩
  change Function.update db.checkpoints job (some c) job' = some c' at hc'
  rw [Function.update_apply] at hc'
  split at hc'
  · cases hc'
    exact hc
  · exact h.checkpoints job' c' hc'

theorem enqueue {clock : Int} {db : Db} (h : db.Timed clock) (raw fetch : Nat) (mg : Option Nat)
    (job : Nat) (run : Option Nat) : (db.enqueuePayloadNormalization raw fetch mg job run).Timed clock := by
  obtain ⟨cs, hcs⟩ := Db.enqueue_frame db raw fetch mg job run
  rw [hcs]
  exact h.frame rfl (fun _ hr => hr) rfl rfl

theorem recordCoverage {clock : Int} {db : Db} (h : db.Timed clock) (unit : UnitKey) (row : CoverageRow)
    (hunit : unit ≠ .history) : (db.recordCoverage unit row).Timed clock := by
  obtain ⟨cov, heq, hframe⟩ := Db.recordCoverage_frame db unit row
  rw [heq]
  exact h.frame rfl (fun _ hr => hr) rfl (Db.historyWatermark_congr (hframe _ hunit.symm))

theorem recordUnless {clock : Int} {db : Db} (h : db.Timed clock) (b : Bool) (unit : UnitKey)
    (row : CoverageRow) (hunit : unit ≠ .history) :
    (if b then db.recordCoverage unit row else db).Timed clock := by
  cases b with
  | true => exact h.recordCoverage unit row hunit
  | false => exact h

/-- The union's open fragment ends where one of its ranges does. -/
theorem recordHistory {clock : Int} {db : Db} (h : db.Timed clock) (raw : Option Nat) (now : Int) :
    (db.recordHistory raw now).Timed clock := by
  obtain ⟨cov, heq⟩ := Db.recordHistory_frame db raw now
  have hmark : ∀ u, (db.recordHistory raw now).historyWatermark = some u →
      ∃ r ∈ db.sourceRanges, r.coveredUntil = u := by
    intro u hu
    rcases Db.historyWatermark_recordHistory hu with hold | hnew
    · exact h.history u hold
    · obtain ⟨s, hs, rfl⟩ := openUpper_mem hnew
      rcases List.mem_append.mp hs with hrange | hmark
      · obtain ⟨r, hr, rfl⟩ := List.mem_map.mp hrange
        exact ⟨r, hr, rfl⟩
      · obtain ⟨v, hv, rfl⟩ := List.mem_map.mp hmark
        exact h.history v (Option.mem_toList.mp hv)
  rw [heq] at hmark ⊢
  exact ⟨h.raws, h.checkpoints, hmark⟩

theorem capture {clock : Int} {db : Db} (h : db.Timed clock) (src : Source) (body : List GameObject)
    {requestedAt : Int} (hle : requestedAt ≤ clock) (hk : ∀ k, src = .page k → k.upto ≤ requestedAt) :
    (db.storeRawPayload src body requestedAt).1.Timed clock := by
  rcases Db.storeRawPayload_cases db src body requestedAt with ⟨p, _, _, _, heq⟩ | heq
  · rw [heq]
    exact h
  · rw [heq]
    refine ⟨fun p hp => ?_, h.checkpoints, h.history⟩
    rcases List.mem_append.mp hp with hp | hp
    · exact h.raws p hp
    · rw [List.mem_singleton.mp hp]
      exact ⟨hle, hk⟩

theorem recordPage {clock : Int} {db db' : Db} (h : db.Timed clock) {k : PageKey} {raw : Nat}
    {body : List GameObject} (hr : db.recordPage k raw body = some db') : db'.Timed clock := by
  obtain ⟨ts, r, _, _, heq⟩ := Db.recordPage_spec hr
  rw [heq]
  rcases Db.recordSourceRange_cases db raw r.lower r.upper with ⟨_, hsame⟩ | hnew
  · rw [hsame]
    exact h.frame rfl (fun _ hr => hr) rfl rfl
  · rw [hnew]
    exact h.frame rfl (fun s hs => List.mem_append_left _ hs) rfl rfl

theorem commitPage {clock : Int} {db : Db} (h : db.Timed clock) (job : Nat) {c : Cursor} (k : PageKey)
    (raw : Nat) (whole done : Bool) (now : Int) (hc : c.Timed clock) :
    (db.commitPage job c k raw whole done now).Timed clock := by
  have h1 := h.recordCoverage (.millis k) (Db.completeRow (some raw) k.since k.upto now) (by simp)
  have h2 := h1.recordUnless whole (.window k.since k.upto)
    (Db.completeRow (some raw) k.since k.upto now) (by simp)
  have h3 := h2.recordHistory (some raw) now
  have h4 := h3.recordUnless done (.window c.requestedSinceMs c.upperMs)
    (Db.completeRow (some raw) c.requestedSinceMs c.upperMs now) (by simp)
  refine h4.saveCheckpoint job ?_
  cases done with
  | true => exact hc
  | false => exact hc

theorem commitCovered {clock : Int} {db : Db} (h : db.Timed clock) (job : Nat) {c : Cursor} (now : Int)
    (hc : c.Timed clock) : (db.commitCovered job c now).Timed clock := by
  have h1 := h.recordCoverage (.window c.requestedSinceMs c.upperMs)
    (Db.completeRow none c.requestedSinceMs c.upperMs now) (by simp)
  exact (h1.recordHistory none now).saveCheckpoint job hc

theorem tick {clock clock' : Int} {db : Db} (h : db.Timed clock) (hle : clock ≤ clock') :
    db.Timed clock' := by
  refine ⟨fun p hp => ⟨le_trans (h.raws p hp).1 hle, (h.raws p hp).2⟩, fun job c hc => ?_, h.history⟩
  have hb := h.checkpoints job c hc
  exact ⟨le_trans hb.1 hle, le_trans hb.2 hle⟩

end Db.Timed

/-! ## One move -/

theorem replan_timed {clock : Int} {db : Db} {x : Exec} {c : Cursor} (hc : c.Timed clock) :
    (replan db x c).Timed clock := by
  unfold replan
  split
  · exact hc
  · exact ⟨hc.1, le_trans (head_missing_upper_le db _ _) hc.1⟩

theorem Moves.timed {env : Env} {job : Nat} {clock : Int} {db db' : Db} {call : Call}
    {next : Option Call} (hok : CallOk db call) (h : db.Timed clock) (hcall : call.Timed clock)
    (hm : Moves env job clock db call db' next) :
    db'.Timed clock ∧ ∀ call', next = some call' → call'.Timed clock := by
  have go : ∀ {db' : Db} {call' : Call}, db'.Timed clock → call'.Timed clock →
      db'.Timed clock ∧ ∀ c, some call' = some c → c.Timed clock := by
    intro db' call' hdb hc
    refine ⟨hdb, fun c hn => ?_⟩
    cases hn
    exact hc
  have stop : ∀ {db' : Db}, db'.Timed clock →
      db'.Timed clock ∧ ∀ c, (none : Option Call) = some c → c.Timed clock :=
    fun hdb => ⟨hdb, fun _ hn => nomatch hn⟩
  cases hm with
  | drop => exact stop h
  | @create x since given first hs hu hle hfirst hback =>
    have hupto : given.getD x.nowMs ≤ clock := by
      cases given with
      | none => exact hcall.1
      | some u => exact hcall.2 u hu
    exact go h ⟨hupto, le_trans hfirst hupto⟩
  | pin hw => exact go h hcall
  | save => exact go (h.saveCheckpoint job hcall) ⟨hcall, trivial⟩
  | readStored hphase hsources => exact go h ⟨hcall.1, trivial⟩
  | readFollowups hphase => exact go h ⟨hcall.1, trivial⟩
  | resume hphase => exact go h ⟨hcall.1, trivial⟩
  | replay => exact go (h.enqueue _ _ _ _ _) ⟨hcall.1, trivial⟩
  | replayLocal hrun => exact go h ⟨hcall.1, trivial⟩
  | replayed hx hb hpos => exact go (h.saveCheckpoint job hcall.1) ⟨hcall.1, trivial⟩
  | storedShort hnext =>
    have hsave := h.saveCheckpoint job (c := { ‹Cursor› with phase := .followups }) hcall.1
    rcases hnext with rfl | rfl
    · exact stop hsave
    · exact go hsave ⟨hcall.1, trivial⟩
  | storedFull hpc hx =>
    rcases hpc with rfl | rfl
    · exact go h ⟨hcall.1, trivial⟩
    · exact go h ⟨hcall.1, trivial⟩
  | followup => exact go h ⟨hcall.1, trivial⟩
  | followed hnext =>
    have hsave := h.saveCheckpoint job (c := { ‹Cursor› with phase := .pages }) hcall.1
    rcases hnext with rfl | rfl
    · exact stop hsave
    · exact go hsave ⟨hcall.1, trivial⟩
  | planCovered heq => exact go h ⟨replan_timed hcall.1, trivial⟩
  | plan hne => exact go h ⟨replan_timed hcall.1, trivial⟩
  | close => exact stop (h.commitCovered job _ hcall.1)
  | reuse hl => exact go (h.enqueue _ _ _ _ _) ⟨hcall.1, trivial⟩
  | @request x c t =>
    refine go h ⟨hcall.1, le_refl clock, fun k hk => ?_⟩
    subst hk
    have haim : Aims c k := hok.2.2
    rw [haim.2]
    exact hcall.1.2
  | refuse => exact go h ⟨hcall.1, trivial⟩
  | @capture x c t requestedAt body ha =>
    have hraw := h.capture t.source body hcall.2.1 fun k hk => by
      cases t with
      | followup ref rows full => cases hk
      | page k' =>
        cases hk
        exact hcall.2.2 k rfl
    exact go (hraw.frame rfl (fun _ hr => hr) rfl rfl) ⟨hcall.1, trivial⟩
  | queue => exact go (h.enqueue _ _ _ _ _) ⟨hcall.1, trivial⟩
  | @refresh x x' c ref rows full raw g mid ht hx hb =>
    have hmid : mid.Timed clock := by
      rw [Db.trackGame_frame ht]
      exact h.frame rfl (fun _ hr => hr) rfl rfl
    exact go (hmid.saveCheckpoint job hcall.1) ⟨hcall.1, trivial⟩
  | @vanished x x' c ref rows full status message hx hb =>
    have hfail : (db.recordFailure (.followup ref) status message x.now).Timed clock :=
      h.recordCoverage _ _ (by simp)
    exact go (hfail.saveCheckpoint job hcall.1) ⟨hcall.1, trivial⟩
  | fail hunit => exact stop (h.recordCoverage _ _ hunit)
  | record hp hr => exact go (h.recordPage hr) ⟨hcall.1, trivial⟩
  | judge hp => exact go h ⟨hcall.1, trivial⟩
  | finish hp hd => exact stop (h.commitPage job _ _ _ _ _ hcall.1)
  | @saturate x c k raw p ts oldest limit done hp ht hd hlast =>
    have haim : Aims c k := hok.2.2.1
    have hin := (pageTimestamps_spec ht).inside oldest (List.mem_of_getLast? hlast)
    have hlt : oldest < k.upto := hin.2
    have hbound := hcall.1.2
    rw [← haim.2] at hbound
    exact stop (h.commitPage job _ _ _ _ _ ⟨hcall.1.1, by simp only; omega⟩)
  | overflow => exact stop (h.recordCoverage _ _ (by simp))

/-! ## Every run -/

structure TimedState (s : State) : Prop where
  db : s.db.Timed s.clock
  calls : ∀ job call, s.calls job = some call → call.Timed s.clock

theorem Call.Timed.tick {clock clock' : Int} {call : Call} (h : call.Timed clock) (hle : clock ≤ clock') :
    call.Timed clock' := by
  cases call with
  | creating x => exact ⟨le_trans h.1 hle, fun u hu => le_trans (h.2 u hu) hle⟩
  | pinning x since upto first => exact ⟨le_trans h.1 hle, le_trans h.2 hle⟩
  | saving x c => exact ⟨le_trans h.1 hle, le_trans h.2 hle⟩
  | running x c pc =>
    refine ⟨⟨le_trans h.1.1 hle, le_trans h.1.2 hle⟩, ?_⟩
    cases pc with
    | requested t requestedAt => exact ⟨le_trans h.2.1 hle, h.2.2⟩
    | _ => trivial

theorem enter_timed {limits : Limits} {env : Env} {s : State} (h : TimedState s) {job : Nat}
    {params : Params} {stop : Bool} {next : Option Call} (hok : PastCalls limits s (.enter job params stop))
    (he : enter env s job params stop = some next) : ∀ call, next = some call → call.Timed s.clock := by
  rintro call rfl
  rcases enter_cases he with ⟨c, x, hc, hx, hb, hfp, hdone, rfl⟩ | ⟨x, hx, hn, hb, rfl⟩
  · exact ⟨h.db.checkpoints job c hc, trivial⟩
  · refine ⟨?_, fun u hu => hok.2 u ?_⟩
    · rw [hn]
    · rw [hx] at hu
      exact orElse_of_milliseconds hu

theorem timed_step {limits : Limits} {env : Env} {s t : State} {e : Event} (hinv : Inv env s)
    (h : TimedState s) (hok : PastCalls limits s e) (hs : step env s e = some t) : TimedState t := by
  cases e with
  | tick ms =>
    cases hs
    have hle : s.clock ≤ s.clock + ms := by omega
    exact ⟨h.db.tick hle, fun job call hc => (h.calls job call hc).tick hle⟩
  | enter job params stop =>
    obtain ⟨next, he, rfl⟩ := Option.map_eq_some_iff.mp hs
    refine ⟨h.db, fun j call hc => ?_⟩
    rcases update_calls (enter_timed h hok he) j call hc with hold | hnew
    · exact h.calls j call hold
    · exact hnew
  | advance job i =>
    obtain ⟨call, hcall, hs⟩ := Option.bind_eq_some_iff.mp hs
    obtain ⟨⟨db, next⟩, hadv, hs⟩ := Option.bind_eq_some_iff.mp hs
    cases hs
    obtain ⟨hdb, hnext⟩ := (Call.advance_moves hadv).timed (hinv.calls job call hcall) h.db
      (h.calls job call hcall)
    refine ⟨hdb, fun j c hc => ?_⟩
    rcases update_calls hnext j c hc with hold | hnew
    · exact h.calls j c hold
    · exact hnew
  | crash job =>
    cases hs
    refine ⟨h.db, fun j c hc => ?_⟩
    rcases update_calls (P := Call.Timed s.clock) (fun _ hn => by cases hn) j c hc with hold | hnew
    · exact h.calls j c hold
    · exact hnew
  | child n e =>
    obtain ⟨db, hdb, rfl⟩ := Option.map_eq_some_iff.mp hs
    refine ⟨?_, h.calls⟩
    change db.Timed s.clock
    rw [processChild_frame hdb]
    exact h.db.frame rfl (fun _ hr => hr) rfl rfl

theorem timed_init {env : Env} {s : State} (h : (lichess env).init s) : TimedState s := by
  obtain ⟨hdb, hcalls⟩ := h
  refine ⟨?_, fun job call hc => ?_⟩
  · rw [hdb]
    refine ⟨fun p hp => absurd hp List.not_mem_nil, fun job c hc => ?_, fun u hu => ?_⟩
    · cases hc
    · cases hu
  · rw [hcalls job] at hc
    cases hc

theorem reach_timed {limits : Limits} {env : Env} {s : State}
    (h : Reach (lichess env) (PastCalls limits) s) : TimedState s :=
  Reach.invariant (fun _ h0 => timed_init h0)
    (fun _ _ _ hr hi hok hs => timed_step (reachable_inv hr.reachable) hi hok hs) h

/-- A range ends no later than the request of the page that proves it. -/
theorem range_within_request {env : Env} {s : State} (hinv : Inv env s) (h : TimedState s)
    {r : SourceRange} (hr : r ∈ s.db.sourceRanges) :
    ∃ p ∈ s.db.rawPayloads, p.id = r.rawPayloadId ∧ r.coveredUntil ≤ p.requestedAt ∧
      p.requestedAt ≤ s.clock := by
  obtain ⟨p, hp, k, ts, hid, hsrc, _, hspan⟩ := hinv.sound.ranges r hr
  have hup : r.coveredUntil = k.upto := provenSpan_upper hspan
  have hraw := h.db.raws p hp
  exact ⟨p, hp, hid, by rw [hup]; exact hraw.2 k hsrc, hraw.1⟩

/-- No range and no watermark ends after the request of the page it comes from, so what lies at or
after the clock is still missing for every later window. -/
theorem coverage_never_certifies_the_future (limits : Limits) (env : Env) (s : State)
    (h : Reach (lichess env) (PastCalls limits) s) :
    (∀ r ∈ s.db.sourceRanges, ∃ p ∈ s.db.rawPayloads, p.id = r.rawPayloadId ∧
        r.coveredUntil ≤ p.requestedAt) ∧
      (∀ u, s.db.historyWatermark = some u → ∃ r ∈ s.db.sourceRanges, r.coveredUntil = u ∧
        ∃ p ∈ s.db.rawPayloads, p.id = r.rawPayloadId ∧ u ≤ p.requestedAt) ∧
      ∀ since upto t, t ∈ (⟨since, upto⟩ : Span) → s.clock ≤ t →
        Covered (s.db.missingWindows since upto) t := by
  have hinv := reachable_inv h.reachable
  have htimed := reach_timed h
  refine ⟨fun r hr => ?_, fun u hu => ?_, fun since upto t ht hle => ?_⟩
  · obtain ⟨p, hp, hid, hreq, _⟩ := range_within_request hinv htimed hr
    exact ⟨p, hp, hid, hreq⟩
  · obtain ⟨r, hr, rfl⟩ := htimed.db.history u hu
    obtain ⟨p, hp, hid, hreq, _⟩ := range_within_request hinv htimed hr
    exact ⟨r, hr, rfl, p, hp, hid, hreq⟩
  · refine (covered_missing ⟨since, upto⟩ s.db.coveredSpans t).mpr ⟨ht, ?_⟩
    have hpast : ¬ s.db.CoveredAt t := by
      rintro ⟨sp, hsp, hin⟩
      obtain ⟨r, hr, rfl⟩ := List.mem_map.mp hsp
      obtain ⟨p, _, _, hreq, hclock⟩ := range_within_request hinv htimed hr
      have hlt : t < r.coveredUntil := hin.2
      omega
    rintro ⟨sp, hsp, hin⟩
    rcases List.mem_append.mp hsp with hrange | hmark
    · exact hpast ⟨sp, hrange, hin⟩
    · obtain ⟨u, hu, rfl⟩ := List.mem_map.mp hmark
      exact hpast (hinv.sound.history u (Option.mem_toList.mp hu) t hin.2)

/-! An import of everything up to second 20, started at second 10 and, the same, at second 30. -/

def futureImport : ImportRequest := ⟨.full, none, some 20, 10, 1⟩

def importLimits : Limits := ⟨1000, 200⟩

/-- No game exists yet. -/
def futureEnv : Env := ⟨fun _ body => body.isEmpty, fun _ => some 1, fun _ => importParams futureImport⟩

def futureTrace (start : Nat) : List Event :=
  List.flatten [
    [.tick start, .enter 1 (importParams futureImport) false], List.replicate 5 (.advance 1 quiet),
    pageTrace 1 []]

/-- Every call is the one import's, not started before `earliest`. -/
def FutureCalls (earliest : Int) (s : State) : Event → Prop
  | .enter _ params _ => params = importParams futureImport ∧ earliest ≤ s.clock
  | _ => True

instance (earliest : Int) (s : State) : (e : Event) → Decidable (FutureCalls earliest s e)
  | .enter _ params _ => @instDecidableAnd _ _ (decEq params (importParams futureImport)) (Int.decLe earliest s.clock)
  | .tick _ | .advance _ _ | .crash _ | .child _ _ => .isTrue trivial

theorem futureImport_admitted : Admitted importLimits (importParams futureImport) :=
  ⟨futureImport, by decide, rfl⟩

theorem admittedCalls_of_futureCalls {s : State} {e : Event} (h : FutureCalls 0 s e) :
    AdmittedCalls importLimits s e := by
  cases e with
  | enter job params stop =>
    have hp : params = importParams futureImport := h.1
    subst hp
    exact futureImport_admitted
  | _ => trivial

theorem pastCalls_of_futureCalls {s : State} {e : Event} (h : FutureCalls 20000 s e) :
    PastCalls importLimits s e := by
  cases e with
  | enter job params stop =>
    obtain ⟨rfl, hclock⟩ : params = importParams futureImport ∧ 20000 ≤ s.clock := h
    refine ⟨futureImport_admitted, fun u hu => ?_⟩
    cases hu
    exact hclock
  | _ => trivial

/-- At second 10 the import leaves a range and a watermark that end at second 20, and nothing before
second 15 is missing any more. -/
theorem future_import_certifies_ahead : ∃ s, Reach (lichess futureEnv) (AdmittedCalls importLimits) s ∧
    s.clock = 10000 ∧ s.db.historyWatermark = some 20000 ∧ s.db.missingWindows none 15000 = [] ∧
    ∃ r ∈ s.db.sourceRanges, ∃ p ∈ s.db.rawPayloads, p.id = r.rawPayloadId ∧
      p.requestedAt = 10000 ∧ r.coveredUntil = 20000 := by
  obtain ⟨s, hreach, hs⟩ := Reach.of_exec (lichess futureEnv) (FutureCalls 0)
    (s := emptyState) ⟨rfl, fun _ => rfl⟩ (futureTrace 10000)
    (fun s => decide (s.clock = 10000 ∧ s.db.historyWatermark = some 20000 ∧
      s.db.missingWindows none 15000 = [] ∧ ∃ r ∈ s.db.sourceRanges, ∃ p ∈ s.db.rawPayloads,
        p.id = r.rawPayloadId ∧ p.requestedAt = 10000 ∧ r.coveredUntil = 20000)) (by decide)
  exact ⟨s, hreach.mono fun _ _ => admittedCalls_of_futureCalls, of_decide_eq_true hs⟩

theorem coverage_never_certifies_the_future_past_import :
    ∃ s, Reach (lichess futureEnv) (PastCalls importLimits) s ∧ s.db.historyWatermark = some 20000 ∧
      ∃ r ∈ s.db.sourceRanges, r.coveredUntil = 20000 ∧
        ∃ p ∈ s.db.rawPayloads, p.id = r.rawPayloadId ∧ 20000 ≤ p.requestedAt := by
  obtain ⟨s, hreach, hs⟩ := Reach.of_exec (lichess futureEnv) (FutureCalls 20000)
    (s := emptyState) ⟨rfl, fun _ => rfl⟩ (futureTrace 30000)
    (fun s => decide (s.db.historyWatermark = some 20000)) (by decide)
  have hmark := of_decide_eq_true hs
  have hpast := hreach.mono fun _ _ => pastCalls_of_futureCalls
  exact ⟨s, hpast, hmark, (coverage_never_certifies_the_future importLimits futureEnv s hpast).2.1 _ hmark⟩

end ChessCrawl.Collection
