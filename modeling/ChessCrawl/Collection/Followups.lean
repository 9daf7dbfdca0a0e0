import ChessCrawl.Collection.Soundness

/-! Unfinished games stay in `collection_followups` until a response of theirs reports an end. The runs carry the
payloads whose games have been tracked, in the order of the transactions. -/
namespace ChessCrawl.Collection
open ChessCrawl.Lib
set_option autoImplicit false

/-! ## Tracking games -/

/-- What `_track_game` refuses. -/
def GameObject.Malformed (g : GameObject) : Prop :=
  g.id = none ∨ g.status = none ∨ ∀ t, g.createdAt = some t → t < 0

/-- The object reports that the game is over. -/
def GameObject.Reports (ref : GameRef) (g : GameObject) : Prop :=
  g.id = some ref ∧ ∃ status, g.status = some status ∧ status.terminal = true

namespace Db

def Follows (db : Db) (ref : GameRef) : Prop := ref ∈ db.followups.map Prod.fst

theorem trackFollowup_follows (db : Db) (ref : GameRef) (created : Int) (finished : Bool) (r : GameRef) :
    (db.trackFollowup ref created finished).Follows r ↔
      if r = ref then finished = false else db.Follows r := by
  unfold trackFollowup Follows
  cases finished with
  | true =>
    simp only [if_true, List.mem_map, List.mem_filter, decide_eq_true_eq]
    split
    · next heq =>
      subst heq
      constructor
      · rintro ⟨f, ⟨_, hne⟩, heq⟩
        exact absurd heq hne
      · exact nofun
    · next hne =>
      constructor
      · rintro ⟨f, ⟨hf, _⟩, rfl⟩
        exact ⟨f, hf, rfl⟩
      · rintro ⟨f, hf, rfl⟩
        exact ⟨f, ⟨hf, hne⟩, rfl⟩
  | false =>
    simp only [Bool.false_eq_true, if_false]
    split
    · next hany =>
      obtain ⟨f, hf, heq⟩ := List.any_eq_true.mp hany
      split
      · next hr =>
        subst hr
        exact ⟨fun _ => trivial, fun _ => List.mem_map.mpr ⟨f, hf, of_decide_eq_true heq⟩⟩
      · exact Iff.rfl
    · rw [List.map_append, List.mem_append]
      split
      · next hr =>
        subst hr
        exact ⟨fun _ => trivial, fun _ => .inr (by simp)⟩
      · next hr => simp [hr]

/-- A tracked game is well formed; it is followed unless it is over, and nothing else changes. -/
theorem trackGame_follows {db db' : Db} {g : GameObject} (h : db.trackGame g = some db') :
    ¬ g.Malformed ∧ ∃ ref, g.id = some ref ∧ (db'.Follows ref ∨ g.Reports ref) ∧
      ∀ r, r ≠ ref → (db'.Follows r ↔ db.Follows r) := by
  unfold trackGame at h
  split at h
  · next ref created status hid hcreated hstatus =>
    split at h
    · cases h
    · next hpos =>
      cases h
      refine ⟨?_, ref, hid, ?_, fun r hr => ?_⟩
      · rintro (hc | hc | hc)
        · rw [hid] at hc
          cases hc
        · rw [hstatus] at hc
          cases hc
        · exact hpos (hc created hcreated)
      · rw [trackFollowup_follows, if_pos rfl]
        cases hterm : status.terminal with
        | true => exact .inr ⟨hid, status, hstatus, hterm⟩
        | false => exact .inl rfl
      · rw [trackFollowup_follows, if_neg hr]
  · cases h

/-- Tracking the games of a body: every one of them is followed or over by its own report, and another game that
was followed still is. -/
theorem trackGames_follows {db db' : Db} {body : List GameObject} (h : db.trackGames body = some db') :
    (∀ g ∈ body, ¬ g.Malformed ∧ ∃ ref, g.id = some ref ∧ (db'.Follows ref ∨ ∃ g' ∈ body, g'.Reports ref)) ∧
      ∀ r, db.Follows r → db'.Follows r ∨ ∃ g ∈ body, g.Reports r := by
  induction body generalizing db with
  | nil =>
    cases h
    exact ⟨by simp, fun r hr => .inl hr⟩
  | cons g gs ih =>
    obtain ⟨mid, hmid, hrest⟩ := Option.bind_eq_some_iff.mp (h : (db.trackGame g).bind _ = some db')
    obtain ⟨hwell, ref, hid, hnow, hothers⟩ := trackGame_follows hmid
    obtain ⟨hgames, hkept⟩ := ih hrest
    have hlater : ∀ r, mid.Follows r ∨ g.Reports r → db'.Follows r ∨ ∃ g' ∈ g :: gs, g'.Reports r := by
      rintro r (hr | hr)
      · rcases hkept r hr with hr | ⟨g', hg', hr⟩
        · exact .inl hr
        · exact .inr ⟨g', List.mem_cons_of_mem _ hg', hr⟩
      · exact .inr ⟨g, List.mem_cons_self, hr⟩
    refine ⟨fun g' hg' => ?_, fun r hr => hlater r ?_⟩
    · rcases List.mem_cons.mp hg' with rfl | hg'
      · exact ⟨hwell, ref, hid, hlater ref hnow⟩
      · obtain ⟨hwell', ref', hid', hor⟩ := hgames g' hg'
        refine ⟨hwell', ref', hid', hor.imp_right ?_⟩
        rintro ⟨g'', hg'', hr⟩
        exact ⟨g'', List.mem_cons_of_mem _ hg'', hr⟩
    · by_cases heq : r = ref
      · exact heq ▸ hnow
      · exact .inl ((hothers r heq).mpr hr)

end Db

/-! ## Processed responses -/

structure Tracked where
  state : State
  processed : List Nat

/-- The payload whose games the step has tracked: the call was about to, and goes on. -/
def processedBy (s : State) (e : Event) (t : State) : List Nat :=
  match e with
  | .advance job _ =>
    match s.calls job with
    | some (.running _ _ (.fetched _ raw)) => if (t.calls job).isSome then [raw] else []
    | _ => []
  | _ => []

def tracking (env : Env) : System Tracked Event where
  init w := (lichess env).init w.state ∧ w.processed = []
  step w e := (step env w.state e).map fun t => ⟨t, w.processed ++ processedBy w.state e t⟩

/-- A processed response reported the end of the game. -/
def Tracked.Settled (w : Tracked) (ref : GameRef) : Prop :=
  ∃ raw ∈ w.processed, ∃ p, w.state.db.rawPayload raw = some p ∧ ∃ g ∈ p.body, g.Reports ref

/-- The games of a recorded page. -/
def Tracked.Kept (w : Tracked) : Prop :=
  ∀ r ∈ w.state.db.sourceRanges, ∃ p, w.state.db.rawPayload r.rawPayloadId = some p ∧
    ∀ g ∈ p.body, ∃ ref, g.id = some ref ∧ (w.state.db.Follows ref ∨ w.Settled ref)

theorem tracking_reachable {env : Env} {w : Tracked} (h : Reachable (tracking env) w) :
    Reachable (lichess env) w.state := by
  refine Reachable.invariant (I := fun w : Tracked => Reachable (lichess env) w.state) ?_ ?_ h
  · exact fun w h0 => .start h0.1
  · intro w e w' hw hstep
    obtain ⟨t, ht, rfl⟩ := Option.map_eq_some_iff.mp hstep
    exact .next hw trivial ht

/-- Only a call that holds a response touches the follow-ups. -/
theorem Moves.followups {env : Env} {job : Nat} {clock : Int} {db db' : Db} {call : Call} {next : Option Call}
    (hm : Moves env job clock db call db' next) :
    db'.followups = db.followups ∨ ∃ x c t raw, call = .running x c (.fetched t raw) := by
  cases hm with
  | refresh ht hx hb => exact .inr ⟨_, _, _, _, rfl⟩
  | record hp hr => exact .inr ⟨_, _, _, _, rfl⟩
  | replay =>
    refine .inl ?_
    obtain ⟨cs, hcs⟩ := Db.enqueue_frame db _ _ none job (env.jobRun job)
    rw [hcs]
  | @reuse x c t raw fetch hl =>
    refine .inl ?_
    obtain ⟨cs, hcs⟩ := Db.enqueue_frame db raw fetch t.maxGames job (env.jobRun job)
    rw [hcs]
  | @queue x c t raw fetch =>
    refine .inl ?_
    obtain ⟨cs, hcs⟩ := Db.enqueue_frame db raw fetch t.maxGames job (env.jobRun job)
    rw [hcs]
  | @capture x c t requestedAt body ha =>
    refine .inl ?_
    obtain ⟨raws, heq⟩ := Db.storeRawPayload_frame db t.source body requestedAt
    rw [heq]
    rfl
  | @close x c =>
    refine .inl ?_
    obtain ⟨cov, heq⟩ := Db.commitCovered_frame db job c x.now
    rw [heq]
    rfl
  | @vanished x x' c ref rows full status message hx hb =>
    refine .inl ?_
    obtain ⟨cov, heq⟩ := Db.recordFailure_frame db (.followup ref) status message x.now
    rw [heq]
    rfl
  | @fail x c t unit status message hunit =>
    refine .inl ?_
    obtain ⟨cov, heq⟩ := Db.recordFailure_frame db unit status message x.now
    rw [heq]
  | @finish x c k raw p done hp hd =>
    refine .inl ?_
    obtain ⟨cov, heq⟩ := Db.commitPage_frame db job c k raw true done x.now
    rw [heq]
    rfl
  | @saturate x c k raw p ts oldest limit done hp ht hd hlast =>
    refine .inl ?_
    obtain ⟨cov, heq⟩ := Db.commitPage_frame db job { c with untilMs := oldest + 1, limit := limit } k raw
      false done x.now
    rw [heq]
    rfl
  | @overflow x c k raw done =>
    refine .inl ?_
    obtain ⟨cov, heq, _⟩ := Db.recordCoverage_frame db (.millis k)
      ⟨.error, some raw, x.now, some boundaryError, none, none, false⟩
    rw [heq]
  | _ => exact .inl rfl

/-- A step that tracks no games: payloads and processed responses only grow, ranges and follow-ups stay. -/
theorem Tracked.Kept.frame {w w' : Tracked} (h : w.Kept) (hraws : w.state.db.rawPayloads <+: w'.state.db.rawPayloads)
    (hranges : w'.state.db.sourceRanges = w.state.db.sourceRanges)
    (hfollow : w'.state.db.followups = w.state.db.followups) (hproc : ∀ raw ∈ w.processed, raw ∈ w'.processed) :
    w'.Kept := by
  intro r hr
  rw [hranges] at hr
  obtain ⟨p, hp, hgames⟩ := h r hr
  refine ⟨p, rawPayload_prefix hraws hp, fun g hg => ?_⟩
  obtain ⟨ref, hid, hf | ⟨raw, hraw, q, hq, hrep⟩⟩ := hgames g hg
  · exact ⟨ref, hid, .inl (by unfold Db.Follows; rw [hfollow]; exact hf)⟩
  · exact ⟨ref, hid, .inr ⟨raw, hproc raw hraw, q, rawPayload_prefix hraws hq, hrep⟩⟩

/-- A step that tracks the games of a payload. -/
theorem Tracked.Kept.track {w w' : Tracked} (h : w.Kept) {raw : Nat} {p : RawPayload}
    (hp : w.state.db.rawPayload raw = some p) (hraws : w'.state.db.rawPayloads = w.state.db.rawPayloads)
    (hranges : ∀ r ∈ w'.state.db.sourceRanges, r ∈ w.state.db.sourceRanges ∨ r.rawPayloadId = raw)
    (hproc : w'.processed = w.processed ++ [raw])
    (hgames : ∀ g ∈ p.body, ¬ g.Malformed ∧ ∃ ref, g.id = some ref ∧
      (w'.state.db.Follows ref ∨ ∃ g' ∈ p.body, g'.Reports ref))
    (hkept : ∀ r, w.state.db.Follows r → w'.state.db.Follows r ∨ ∃ g ∈ p.body, g.Reports r) : w'.Kept := by
  have hsame : ∀ n, w'.state.db.rawPayload n = w.state.db.rawPayload n := by
    intro n
    unfold Db.rawPayload
    rw [hraws]
  have hnow : ∀ ref, (w'.state.db.Follows ref ∨ ∃ g ∈ p.body, g.Reports ref) →
      w'.state.db.Follows ref ∨ w'.Settled ref := by
    rintro ref (hf | hrep)
    · exact .inl hf
    · exact .inr ⟨raw, by rw [hproc]; simp, p, (hsame raw).trans hp, hrep⟩
  intro r hr
  rcases hranges r hr with hold | rfl
  · obtain ⟨q, hq, hq'⟩ := h r hold
    refine ⟨q, (hsame _).trans hq, fun g hg => ?_⟩
    obtain ⟨ref, hid, hf | ⟨raw', hraw', p', hp', hrep⟩⟩ := hq' g hg
    · exact ⟨ref, hid, hnow ref (hkept ref hf)⟩
    · exact ⟨ref, hid, .inr ⟨raw', by rw [hproc]; exact List.mem_append_left _ hraw', p', (hsame _).trans hp', hrep⟩⟩
  · refine ⟨p, (hsame _).trans hp, fun g hg => ?_⟩
    obtain ⟨_, ref, hid, hor⟩ := hgames g hg
    exact ⟨ref, hid, hnow ref hor⟩

/-- What a call does with the response it holds: it tracks the games and goes on, or ends and changes nothing. -/
theorem fetched_tracks {env : Env} {job : Nat} {clock : Int} {db db' : Db} {i : Input} {x : Exec} {c : Cursor} {t : Target}
    {raw : Nat} {next : Option Call}
    (h : (Call.running x c (.fetched t raw)).advance env job clock db i = some (db', next)) :
    next = none ∧ db' = db ∨
      next.isSome ∧ ∃ p, db.rawPayload raw = some p ∧ db'.rawPayloads = db.rawPayloads ∧
        (∀ r ∈ db'.sourceRanges, r ∈ db.sourceRanges ∨ r.rawPayloadId = raw) ∧
        (∀ g ∈ p.body, ¬ g.Malformed ∧ ∃ ref, g.id = some ref ∧ (db'.Follows ref ∨ ∃ g' ∈ p.body, g'.Reports ref)) ∧
        ∀ r, db.Follows r → db'.Follows r ∨ ∃ g ∈ p.body, g.Reports r := by
  change (Pc.fetched t raw).advance env job clock db i x c = some (db', next) at h
  cases t with
  | followup ref rows full =>
    rw [Pc.advance] at h
    split at h
    · next g hbody =>
      obtain ⟨p, hp, hpg⟩ := Option.map_eq_some_iff.mp hbody
      split at h
      · split at h
        · next tracked ht =>
          cases h
          have hone : db.trackGames p.body = some tracked := by
            rw [hpg]
            change (db.trackGame g).bind some = some tracked
            rw [ht]
            rfl
          have hframe := Db.trackGame_frame ht
          obtain ⟨hgames, hkept⟩ := Db.trackGames_follows hone
          refine .inr ⟨rfl, p, hp, ?_, fun r hr => .inl ?_, hgames, hkept⟩
          · rw [hframe]
            rfl
          · rw [hframe] at hr
            exact hr
        · cases h
          exact .inl ⟨rfl, rfl⟩
      · cases h
        exact .inl ⟨rfl, rfl⟩
    · cases h
      exact .inl ⟨rfl, rfl⟩
  | page k =>
    rw [Pc.advance] at h
    split at h
    · next recorded hr =>
      obtain ⟨p, hp, hr⟩ := Option.bind_eq_some_iff.mp hr
      cases h
      have hframe := Db.recordPage_frame hr
      unfold Db.recordPage at hr
      obtain ⟨ts, _, hr⟩ := Option.bind_eq_some_iff.mp hr
      obtain ⟨span, _, hr⟩ := Option.bind_eq_some_iff.mp hr
      obtain ⟨hgames, hkept⟩ := Db.trackGames_follows hr
      have hbefore : (db.recordSourceRange raw span.lower span.upper).followups = db.followups := by
        rcases Db.recordSourceRange_cases db raw span.lower span.upper with ⟨_, heq⟩ | heq <;> rw [heq]
      refine .inr ⟨rfl, p, hp, ?_, fun r hmem => ?_, hgames, fun r hrf => hkept r ?_⟩
      · rw [hframe]
      · rw [Db.trackGames_frame hr] at hmem
        rcases Db.recordSourceRange_cases db raw span.lower span.upper with ⟨_, heq⟩ | heq
        · rw [heq] at hmem
          exact .inl hmem
        · rw [heq] at hmem
          rcases List.mem_append.mp hmem with hmem | hmem
          · exact .inl hmem
          · rw [List.mem_singleton.mp hmem]
            exact .inr rfl
      · unfold Db.Follows
        rw [hbefore]
        exact hrf
    · cases h
      exact .inl ⟨rfl, rfl⟩

theorem kept_step {env : Env} {w w' : Tracked} {e : Event} (hinv : Inv env w.state) (h : w.Kept)
    (hs : (tracking env).step w e = some w') : w'.Kept := by
  obtain ⟨t, ht, rfl⟩ := Option.map_eq_some_iff.mp hs
  have hgrow : ∀ raw ∈ w.processed, raw ∈ w.processed ++ processedBy w.state e t :=
    fun raw hraw => List.mem_append_left _ hraw
  cases e with
  | tick ms =>
    cases ht
    exact h.frame (List.prefix_refl _) rfl rfl hgrow
  | enter job params stop =>
    obtain ⟨next, _, rfl⟩ := Option.map_eq_some_iff.mp ht
    exact h.frame (List.prefix_refl _) rfl rfl hgrow
  | crash job =>
    cases ht
    exact h.frame (List.prefix_refl _) rfl rfl hgrow
  | child n e =>
    obtain ⟨db, hdb, rfl⟩ := Option.map_eq_some_iff.mp ht
    have hframe := processChild_frame hdb
    refine h.frame ?_ ?_ ?_ hgrow
    · rw [hframe]
    · rw [hframe]
    · rw [hframe]
  | advance job i =>
    obtain ⟨call, hcall, ht⟩ := Option.bind_eq_some_iff.mp ht
    obtain ⟨⟨db, next⟩, hadv, ht⟩ := Option.bind_eq_some_iff.mp ht
    cases ht
    have hmoves := Call.advance_moves hadv
    obtain ⟨hext, _⟩ := hmoves.extends hinv.sound (hinv.calls job call hcall)
    by_cases hheld : ∃ x c t raw, call = .running x c (.fetched t raw)
    · obtain ⟨x, c, t, raw, rfl⟩ := hheld
      rcases fetched_tracks hadv with ⟨rfl, rfl⟩ | ⟨hsome, q, hq, hraws, hranges, hgames, hkept⟩
      · exact h.frame hext.raws rfl rfl hgrow
      · refine h.track hq hraws hranges ?_ hgames hkept
        simp [processedBy, hcall, hsome]
    · have hfollow := hmoves.followups.resolve_right hheld
      have hranges := hmoves.effect.sourceRanges.resolve_right
        fun ⟨x, c, k, raw, _, heq, _⟩ => hheld ⟨x, c, _, raw, heq⟩
      exact h.frame hext.raws hranges hfollow hgrow

/-! ## Follow-ups are kept -/

/-- In every state that any interleaving of collection calls, crashes and payload children reaches, every game of a
page whose range is recorded is followed or some processed response of the game reported its end. A page with a
malformed game changes nothing at all, and a follow-up that the provider no longer has stays in the table while the
cursor of the job moves past it. -/
theorem unfinished_games_followed (env : Env) {w : Tracked} (h : Reachable (tracking env) w) :
    (∀ r ∈ w.state.db.sourceRanges, ∃ p, w.state.db.rawPayload r.rawPayloadId = some p ∧
      ∀ g ∈ p.body, ∃ ref, g.id = some ref ∧ (w.state.db.Follows ref ∨ w.Settled ref)) ∧
    (∀ job i x c k raw p t, w.state.calls job = some (.running x c (.fetched (.page k) raw)) →
      w.state.db.rawPayload raw = some p → (∃ g ∈ p.body, g.Malformed) →
      step env w.state (.advance job i) = some t → t.db = w.state.db) ∧
    ∀ job i x c ref rows full status message t,
      w.state.calls job = some (.running x c (.refused (.followup ref rows full) status message)) →
      status = 404 ∨ status = 410 → step env w.state (.advance job i) = some t →
      t.db.followups = w.state.db.followups ∧
        t.db.checkpoints job = some { c with followupAfter := some ref } := by
  refine ⟨?_, ?_, ?_⟩
  · have hkept : Reachable (lichess env) w.state ∧ w.Kept := by
      refine ⟨tracking_reachable h, ?_⟩
      refine Reach.invariant (I := Tracked.Kept) ?_ ?_ h
      · intro w h0 r hr
        rw [h0.1.1] at hr
        cases hr
      · exact fun w e w' hw hk _ hs => kept_step (reachable_inv (tracking_reachable hw)) hk hs
    exact hkept.2
  · rintro job i x c k raw p t hcall hp ⟨g, hg, hm⟩ ht
    obtain ⟨call, hcall', ht⟩ := Option.bind_eq_some_iff.mp ht
    obtain ⟨⟨db, next⟩, hadv, ht⟩ := Option.bind_eq_some_iff.mp ht
    cases ht
    rw [hcall] at hcall'
    cases hcall'
    rcases fetched_tracks hadv with ⟨_, heq⟩ | ⟨_, q, hq, _, _, hgames, _⟩
    · exact heq
    · rw [hp] at hq
      cases hq
      exact absurd hm (hgames g hg).1
  · intro job i x c ref rows full status message t hcall hgone ht
    obtain ⟨call, hcall', ht⟩ := Option.bind_eq_some_iff.mp ht
    obtain ⟨⟨db, next⟩, hadv, ht⟩ := Option.bind_eq_some_iff.mp ht
    cases ht
    rw [hcall] at hcall'
    cases hcall'
    change (Pc.refused (.followup ref rows full) status message).advance env job w.state.clock w.state.db i x c =
      some (db, next) at hadv
    rw [Pc.advance] at hadv
    dsimp only at hadv
    rw [if_pos hgone] at hadv
    cases hadv
    obtain ⟨cov, heq⟩ := Db.recordFailure_frame w.state.db (.followup ref) status message x.now
    rw [heq]
    exact ⟨rfl, Function.update_self _ _ _⟩

/-! Job 7 records a page with a game that is still played; job 8 asks for the game and is told that it is gone. -/

def ongoingEnv : Env := serving { ⟨1, 5⟩ } (fun _ => none) fun _ => tiedParams

def ongoingParams : Params := ⟨.incremental, none, none, none, none, none, none, none, none⟩

def ongoingTrace : List Event :=
  List.flatten [
    [.tick 10, .enter 7 ongoingParams false], List.replicate 5 (.advance 7 quiet),
    pageTrace 7 [⟨some 1, some 5, some .started, 0⟩], [.enter 8 ongoingParams false],
    List.replicate 6 (.advance 8 quiet), [.advance 8 { quiet with response := .failed 404 "gone" }]]

/-- The call of job 8 has been told that game 1 is gone. -/
def Tracked.toldGone (w : Tracked) : Bool :=
  match w.state.calls 8 with
  | some (.running _ _ (.refused (.followup 1 _ _) 404 _)) => true
  | _ => false

theorem unfinished_games_followed_ongoing : ∃ w, Reachable (tracking ongoingEnv) w ∧
    w.state.db.sourceRanges.length = 1 ∧ w.state.db.followups = [(1, 5)] ∧
    (∀ r ∈ w.state.db.sourceRanges, ∃ p, w.state.db.rawPayload r.rawPayloadId = some p ∧
      ∀ g ∈ p.body, ∃ ref, g.id = some ref ∧ (w.state.db.Follows ref ∨ w.Settled ref)) ∧
    ∀ i t, step ongoingEnv w.state (.advance 8 i) = some t → t.db.followups = [(1, 5)] := by
  obtain ⟨w, hreach, hw⟩ := Reach.of_exec (tracking ongoingEnv) (fun _ _ => True) (s := ⟨emptyState, []⟩)
    ⟨⟨rfl, fun _ => rfl⟩, rfl⟩ ongoingTrace
    (fun w => w.toldGone && decide (w.state.db.sourceRanges.length = 1) && decide (w.state.db.followups = [(1, 5)]))
    (by decide +kernel)
  simp only [Bool.and_eq_true, decide_eq_true_eq] at hw
  obtain ⟨⟨hgone, hone⟩, hfollow⟩ := hw
  obtain ⟨hgames, _, hpassed⟩ := unfinished_games_followed ongoingEnv hreach
  refine ⟨w, hreach, hone, hfollow, hgames, fun i t ht => ?_⟩
  unfold Tracked.toldGone at hgone
  split at hgone
  · next x c rows full message hcall =>
    rw [← hfollow]
    exact (hpassed 8 i x c 1 rows full 404 message t hcall (.inl rfl) ht).1
  · cases hgone

end ChessCrawl.Collection
