import ChessCrawl.Collection.Writes

/-! Coverage is sound and complete. Ranges only grow and each is the proven part of a preserved page,
the watermark never leaves their union, and a cursor carries what it has already covered; so a done
checkpoint has its whole window in preserved pages. -/
namespace ChessCrawl.Collection
open ChessCrawl.Lib
set_option autoImplicit false

/-- A recorded range holds the millisecond. -/
def Db.CoveredAt (db : Db) (t : Int) : Prop := Covered (db.sourceRanges.map SourceRange.span) t

/-- The row is the part of its page that the page proves. -/
def Db.Proven (db : Db) (r : SourceRange) : Prop :=
  ∃ p ∈ db.rawPayloads, ∃ k ts, p.id = r.rawPayloadId ∧ p.source = .page k ∧
    pageTimestamps k p.body = some ts ∧ provenSpan k p.body ts = some r.span

structure Db.Sound (env : Env) (db : Db) : Prop where
  numbered : db.Numbered
  pages : ∀ p ∈ db.rawPayloads, ∀ k, p.source = .page k → env.answers k p.body = true
  ranges : ∀ r ∈ db.sourceRanges, db.Proven r
  history : ∀ u, db.historyWatermark = some u → ∀ t, t < u → db.CoveredAt t

/-- What a cursor promises: a done one its window, a backfill one everything from `untilMs` up. -/
structure CursorOk (db : Db) (c : Cursor) : Prop where
  finished : c.done = true → ∀ t ∈ (⟨c.requestedSinceMs, c.upperMs⟩ : Span), db.CoveredAt t
  since : c.requestFingerprint.mode = .backfill → c.sinceMs = c.requestedSinceMs
  above : c.requestFingerprint.mode = .backfill → ∀ t, c.untilMs ≤ t → t < c.upperMs → db.CoveredAt t

/-! ## Growth -/

structure Db.Extends (env : Env) (db db' : Db) : Prop where
  raws : db.rawPayloads <+: db'.rawPayloads
  ranges : ∀ r ∈ db.sourceRanges, r ∈ db'.sourceRanges
  sound : db'.Sound env
  checkpoints : ∀ job c, db'.checkpoints job = some c → db.checkpoints job = some c ∨ CursorOk db' c

theorem coveredAt_mono {db db' : Db} (h : ∀ r ∈ db.sourceRanges, r ∈ db'.sourceRanges) {t : Int}
    (ht : db.CoveredAt t) : db'.CoveredAt t := by
  refine ht.mono fun s hs => ?_
  obtain ⟨r, hr, rfl⟩ := List.mem_map.mp hs
  exact List.mem_map_of_mem (h r hr)

theorem CursorOk.mono {db db' : Db} (h : ∀ r ∈ db.sourceRanges, r ∈ db'.sourceRanges) {c : Cursor}
    (hc : CursorOk db c) : CursorOk db' c where
  finished hd t ht := coveredAt_mono h (hc.finished hd t ht)
  since := hc.since
  above hb t h1 h2 := coveredAt_mono h (hc.above hb t h1 h2)

theorem Db.Proven.mono {db db' : Db} (h : db.rawPayloads <+: db'.rawPayloads) {r : SourceRange}
    (hr : db.Proven r) : db'.Proven r := by
  obtain ⟨p, hp, rest⟩ := hr
  exact ⟨p, h.subset hp, rest⟩

theorem rawPayload_prefix {db db' : Db} (h : db.rawPayloads <+: db'.rawPayloads) {raw : Nat}
    {p : RawPayload} (hp : db.rawPayload raw = some p) : db'.rawPayload raw = some p := by
  obtain ⟨more, hmore⟩ := h
  unfold Db.rawPayload at hp ⊢
  rw [← hmore, List.find?_append, hp]
  rfl

namespace Db.Extends

theorem refl {env : Env} {db : Db} (h : db.Sound env) : db.Extends env db :=
  ⟨List.prefix_refl _, fun _ hr => hr, h, fun _ _ hc => .inl hc⟩

theorem trans {env : Env} {a b c : Db} (h1 : a.Extends env b) (h2 : b.Extends env c) :
    a.Extends env c := by
  refine ⟨h1.raws.trans h2.raws, fun r hr => h2.ranges r (h1.ranges r hr), h2.sound, ?_⟩
  intro job cur hcur
  rcases h2.checkpoints job cur hcur with hb | hok
  · rcases h1.checkpoints job cur hb with ha | hok
    · exact .inl ha
    · exact .inr (hok.mono h2.ranges)
  · exact .inr hok

/-- A write outside payloads, ranges, checkpoints and the watermark. -/
theorem frame {env : Env} {db db' : Db} (h : db.Sound env) (hraw : db'.rawPayloads = db.rawPayloads)
    (hrange : db'.sourceRanges = db.sourceRanges) (hcp : db'.checkpoints = db.checkpoints)
    (hw : db'.historyWatermark = db.historyWatermark) : db.Extends env db' := by
  refine ⟨by rw [hraw], by rw [hrange]; exact fun _ hr => hr, ⟨?_, ?_, ?_, ?_⟩, ?_⟩
  · unfold Db.Numbered
    rw [hraw]
    exact h.numbered
  · rw [hraw]
    exact h.pages
  · intro r hr
    rw [hrange] at hr
    exact (h.ranges r hr).mono (by rw [hraw])
  · intro u hu t ht
    rw [hw] at hu
    unfold Db.CoveredAt
    rw [hrange]
    exact h.history u hu t ht
  · intro job c hc
    rw [hcp] at hc
    exact .inl hc

theorem saveCheckpoint {env : Env} {db : Db} (h : db.Sound env) (job : Nat) {c : Cursor}
    (hc : CursorOk db c) : db.Extends env (db.saveCheckpoint job c) := by
  refine ⟨List.prefix_refl _, fun _ hr => hr, ⟨h.numbered, h.pages, h.ranges, h.history⟩, ?_⟩
  intro job' c' hc'
  change Function.update db.checkpoints job (some c) job' = some c' at hc'
  rw [Function.update_apply] at hc'
  split at hc'
  · cases hc'
    exact .inr ⟨hc.finished, hc.since, hc.above⟩
  · exact .inl hc'

theorem enqueue {env : Env} {db : Db} (h : db.Sound env) (raw fetch : Nat) (mg : Option Nat) (job : Nat)
    (run : Option Nat) : db.Extends env (db.enqueuePayloadNormalization raw fetch mg job run) := by
  obtain ⟨cs, hcs⟩ := Db.enqueue_frame db raw fetch mg job run
  rw [hcs]
  exact frame h rfl rfl rfl rfl

theorem trackGame {env : Env} {db db' : Db} (h : db.Sound env) {g : GameObject}
    (ht : db.trackGame g = some db') : db.Extends env db' := by
  rw [Db.trackGame_frame ht]
  exact frame h rfl rfl rfl rfl

theorem capture {env : Env} {db : Db} (h : db.Sound env) (src : Source) (body : List GameObject)
    (now : Int) (ha : ∀ k, src = .page k → env.answers k body = true) :
    db.Extends env (db.storeRawPayload src body now).1 := by
  rcases Db.storeRawPayload_cases db src body now with ⟨p, _, _, _, heq⟩ | heq
  · rw [heq]
    exact refl h
  · rw [heq]
    refine ⟨List.prefix_append _ _, fun _ hr => hr, ⟨Db.numbered_append h.numbered src body now, ?_, ?_, ?_⟩,
      fun _ _ hc => .inl hc⟩
    · intro p hp k hk
      rcases List.mem_append.mp hp with hp | hp
      · exact h.pages p hp k hk
      · rw [List.mem_singleton.mp hp] at hk ⊢
        exact ha k hk
    · intro r hr
      exact (h.ranges r hr).mono (List.prefix_append _ _)
    · exact h.history

theorem coverage {env : Env} {db : Db} (h : db.Sound env) {cov : UnitKey → Option CoverageRow}
    (hc : cov .history = db.coverage .history) : db.Extends env { db with coverage := cov } :=
  frame h rfl rfl rfl (Db.historyWatermark_congr hc)

theorem recordCoverage {env : Env} {db : Db} (h : db.Sound env) (unit : UnitKey) (row : CoverageRow)
    (hunit : unit ≠ .history) : db.Extends env (db.recordCoverage unit row) := by
  obtain ⟨cov, heq, hframe⟩ := Db.recordCoverage_frame db unit row
  rw [heq]
  exact coverage h (hframe _ hunit.symm)

theorem recordUnless {env : Env} {db : Db} (h : db.Sound env) (b : Bool) (unit : UnitKey)
    (row : CoverageRow) (hunit : unit ≠ .history) :
    db.Extends env (if b then db.recordCoverage unit row else db) := by
  cases b with
  | true => exact recordCoverage h unit row hunit
  | false => exact refl h

/-- The union's open fragment is covered by ranges, because the old watermark already was. -/
theorem recordHistory {env : Env} {db : Db} (h : db.Sound env) (raw : Option Nat) (now : Int) :
    db.Extends env (db.recordHistory raw now) := by
  obtain ⟨cov, heq⟩ := Db.recordHistory_frame db raw now
  have hmark : ∀ u, (db.recordHistory raw now).historyWatermark = some u →
      ∀ t, t < u → db.CoveredAt t := by
    intro u hu t ht
    rcases Db.historyWatermark_recordHistory hu with hold | hnew
    · exact h.history u hold t ht
    · obtain ⟨s, hs, hts⟩ := covered_of_openUpper hnew ht
      rcases List.mem_append.mp hs with hrange | hmark
      · exact ⟨s, hrange, hts⟩
      · obtain ⟨v, hv, rfl⟩ := List.mem_map.mp hmark
        exact h.history v (Option.mem_toList.mp hv) t hts.2
  rw [heq] at hmark ⊢
  exact ⟨List.prefix_refl _, fun _ hr => hr, ⟨h.numbered, h.pages, h.ranges, hmark⟩,
    fun _ _ hc => .inl hc⟩

end Db.Extends

/-- Recording a checked page keeps soundness and covers what the page proves, also when the payload
already had its row. -/
theorem recordPage_extends {env : Env} {db db' : Db} (h : db.Sound env) {k : PageKey} {raw : Nat}
    {p : RawPayload} (hp : db.rawPayload raw = some p) (hsrc : p.source = .page k)
    (hr : db.recordPage k raw p.body = some db') :
    db.Extends env db' ∧ ∃ ts r, pageTimestamps k p.body = some ts ∧
      provenSpan k p.body ts = some r ∧ ∀ t ∈ r, db'.CoveredAt t := by
  obtain ⟨ts, r, hts, hspan, heq⟩ := Db.recordPage_spec hr
  obtain ⟨hmem, hid⟩ := Db.rawPayload_mem hp
  rcases Db.recordSourceRange_cases db raw r.lower r.upper with ⟨⟨old, hold, holdraw⟩, hsame⟩ | hnew
  · rw [hsame] at heq
    have hext : db.Extends env db' := by
      rw [heq]
      exact .frame h rfl rfl rfl rfl
    refine ⟨hext, ts, r, hts, hspan, fun t ht => coveredAt_mono hext.ranges ?_⟩
    obtain ⟨q, hq, k', ts', hqid, hqsrc, hqts, hqspan⟩ := h.ranges old hold
    have hqp : q = p := h.numbered.eq_of_id hq hmem (by rw [hqid, holdraw, hid])
    subst hqp
    rw [hsrc] at hqsrc
    cases hqsrc
    rw [hts] at hqts
    cases hqts
    rw [hspan] at hqspan
    cases hqspan
    exact ⟨old.span, List.mem_map_of_mem hold, ht⟩
  · rw [hnew] at heq
    have hsound : Db.Sound env { db with sourceRanges := db.sourceRanges ++ [⟨raw, r.lower, r.upper⟩] } := by
      refine ⟨h.numbered, h.pages, ?_, ?_⟩
      · intro s hs
        rcases List.mem_append.mp hs with hs | hs
        · exact h.ranges s hs
        · rw [List.mem_singleton.mp hs]
          exact ⟨p, hmem, k, ts, hid, hsrc, hts, hspan⟩
      · intro u hu t ht
        exact coveredAt_mono (fun s hs => List.mem_append_left _ hs) (h.history u hu t ht)
    have hext : Db.Extends env { db with sourceRanges := db.sourceRanges ++ [⟨raw, r.lower, r.upper⟩] } db' := by
      rw [heq]
      exact .frame hsound rfl rfl rfl rfl
    have hgrow : db.Extends env { db with sourceRanges := db.sourceRanges ++ [⟨raw, r.lower, r.upper⟩] } :=
      ⟨List.prefix_refl _, fun s hs => List.mem_append_left _ hs, hsound, fun _ _ hc => .inl hc⟩
    refine ⟨hgrow.trans hext, ts, r, hts, hspan, fun t ht => coveredAt_mono hext.ranges ?_⟩
    exact ⟨r, by simp [SourceRange.span], ht⟩

theorem commitPage_extends {env : Env} {db : Db} (h : db.Sound env) (job : Nat) {c : Cursor}
    (k : PageKey) (raw : Nat) (whole done : Bool) (now : Int) (hc : CursorOk db c)
    (hd : done = true → ∀ t ∈ (⟨c.requestedSinceMs, c.upperMs⟩ : Span), db.CoveredAt t) :
    db.Extends env (db.commitPage job c k raw whole done now) := by
  have h1 := Db.Extends.recordCoverage h (.millis k)
    (Db.completeRow (some raw) k.since k.upto now) (by simp)
  have h2 := h1.trans (.recordUnless h1.sound whole (.window k.since k.upto)
    (Db.completeRow (some raw) k.since k.upto now) (by simp))
  have h3 := h2.trans (.recordHistory h2.sound (some raw) now)
  have h4 := h3.trans (.recordUnless h3.sound done (.window c.requestedSinceMs c.upperMs)
    (Db.completeRow (some raw) c.requestedSinceMs c.upperMs now) (by simp))
  refine h4.trans (.saveCheckpoint h4.sound job ?_)
  refine CursorOk.mono h4.ranges ?_
  cases done with
  | true => exact ⟨fun _ => hd rfl, hc.since, hc.above⟩
  | false => exact hc

theorem commitCovered_extends {env : Env} {db : Db} (h : db.Sound env) (job : Nat) {c : Cursor}
    (now : Int) (hc : CursorOk db c)
    (hd : ∀ t ∈ (⟨c.requestedSinceMs, c.upperMs⟩ : Span), db.CoveredAt t) :
    db.Extends env (db.commitCovered job c now) := by
  have h1 := Db.Extends.recordCoverage h (.window c.requestedSinceMs c.upperMs)
    (Db.completeRow none c.requestedSinceMs c.upperMs now) (by simp)
  have h2 := h1.trans (.recordHistory h1.sound none now)
  refine h2.trans (.saveCheckpoint h2.sound job ?_)
  exact CursorOk.mono h2.ranges ⟨fun _ => hd, hc.since, hc.above⟩

/-! ## Calls -/

/-- The payload a call holds for its page. -/
def Held (db : Db) (k : PageKey) (raw : Nat) : Prop := ∃ p, db.rawPayload raw = some p ∧ p.source = .page k

/-- The range of the page has been committed. -/
def Recorded (db : Db) (k : PageKey) (raw : Nat) : Prop :=
  ∃ p ts r, db.rawPayload raw = some p ∧ pageTimestamps k p.body = some ts ∧
    provenSpan k p.body ts = some r ∧ ∀ t ∈ r, db.CoveredAt t

def Aims (c : Cursor) (k : PageKey) : Prop := k.since = c.sinceMs ∧ k.upto = c.untilMs

/-- What a call knows at its program point. -/
def PcOk (db : Db) (x : Exec) (c : Cursor) : Pc → Prop
  | .closing => ∀ t ∈ (⟨c.requestedSinceMs, c.upperMs⟩ : Span), db.CoveredAt t
  | .fetching (.page k) | .requested (.page k) _ => Aims c k
  | .captured (.page k) raw _ | .fetched (.page k) raw => Aims c k ∧ Held db k raw
  | .recorded k raw => Aims c k ∧ Recorded db k raw
  | .judged k raw done => Aims c k ∧ Recorded db k raw ∧
      (x.params.mode ≠ .backfill → done = true →
        ∀ t ∈ (⟨c.requestedSinceMs, c.upperMs⟩ : Span), db.CoveredAt t) ∧
      (x.params.mode = .backfill → ∃ p, db.rawPayload raw = some p ∧ done = rangeDone k p.body)
  | _ => True

def CallOk (db : Db) : Call → Prop
  | .creating _ => True
  | .pinning x since upto first => x.params.mode = .backfill → first = ⟨since, upto⟩
  | .saving x c => CursorOk db c ∧ x.params.mode = c.requestFingerprint.mode
  | .running x c pc => CursorOk db c ∧ x.params.mode = c.requestFingerprint.mode ∧ PcOk db x c pc

theorem Held.mono {db db' : Db} (h : db.rawPayloads <+: db'.rawPayloads) {k : PageKey} {raw : Nat}
    (hk : Held db k raw) : Held db' k raw := by
  obtain ⟨p, hp, hsrc⟩ := hk
  exact ⟨p, rawPayload_prefix h hp, hsrc⟩

theorem Recorded.mono {env : Env} {db db' : Db} (h : db.Extends env db') {k : PageKey} {raw : Nat}
    (hk : Recorded db k raw) : Recorded db' k raw := by
  obtain ⟨p, ts, r, hp, hts, hr, hcov⟩ := hk
  exact ⟨p, ts, r, rawPayload_prefix h.raws hp, hts, hr, fun t ht => coveredAt_mono h.ranges (hcov t ht)⟩

theorem PcOk.mono {env : Env} {db db' : Db} (h : db.Extends env db') {x : Exec} {c : Cursor} {pc : Pc}
    (hpc : PcOk db x c pc) : PcOk db' x c pc := by
  cases pc with
  | closing => exact fun t ht => coveredAt_mono h.ranges (hpc t ht)
  | captured t raw fetch =>
    cases t with
    | followup ref rows full => trivial
    | page k => exact ⟨hpc.1, hpc.2.mono h.raws⟩
  | fetched t raw =>
    cases t with
    | followup ref rows full => trivial
    | page k => exact ⟨hpc.1, hpc.2.mono h.raws⟩
  | recorded k raw => exact ⟨hpc.1, hpc.2.mono h⟩
  | judged k raw done =>
    obtain ⟨haim, hrec, hwin, hback⟩ := hpc
    refine ⟨haim, hrec.mono h, fun hm hd t ht => coveredAt_mono h.ranges (hwin hm hd t ht), fun hm => ?_⟩
    obtain ⟨p, hp, hdone⟩ := hback hm
    exact ⟨p, rawPayload_prefix h.raws hp, hdone⟩
  | fetching t =>
    cases t with
    | followup ref rows full => trivial
    | page k => exact hpc
  | requested t requestedAt =>
    cases t with
    | followup ref rows full => trivial
    | page k => exact hpc
  | _ => trivial

theorem CallOk.mono {env : Env} {db db' : Db} (h : db.Extends env db') {call : Call}
    (hc : CallOk db call) : CallOk db' call := by
  cases call with
  | creating x => trivial
  | pinning x since upto first => exact hc
  | saving x c => exact ⟨hc.1.mono h.ranges, hc.2⟩
  | running x c pc => exact ⟨hc.1.mono h.ranges, hc.2.1, hc.2.2.mono h⟩

/-! ## One move -/

theorem replan_fields (db : Db) (x : Exec) (c : Cursor) :
    (replan db x c).requestFingerprint = c.requestFingerprint ∧ (replan db x c).upperMs = c.upperMs ∧
      (replan db x c).requestedSinceMs = c.requestedSinceMs ∧ (replan db x c).done = c.done := by
  unfold replan
  split
  · exact ⟨rfl, rfl, rfl, rfl⟩
  · exact ⟨rfl, rfl, rfl, rfl⟩

theorem replan_ok {db : Db} {x : Exec} {c : Cursor} (hc : CursorOk db c)
    (hm : x.params.mode = c.requestFingerprint.mode) : CursorOk db (replan db x c) := by
  by_cases hb : x.params.mode = .backfill
  · rw [replan, if_pos hb]
    exact hc
  · obtain ⟨hf, hu, hs, hd⟩ := replan_fields db x c
    refine ⟨?_, fun h => absurd (by rw [hm, ← hf]; exact h) hb, fun h => absurd (by rw [hm, ← hf]; exact h) hb⟩
    rw [hu, hs, hd]
    exact hc.finished

theorem covered_of_missing {env : Env} {db : Db} (h : db.Sound env) {since : Option Int} {upto : Int}
    (hm : db.missingWindows since upto = []) : ∀ t ∈ (⟨since, upto⟩ : Span), db.CoveredAt t := by
  intro t ht
  obtain ⟨s, hs, hts⟩ := covered_of_missing_nil hm ht
  rcases List.mem_append.mp hs with hrange | hmark
  · exact ⟨s, hrange, hts⟩
  · obtain ⟨u, hu, rfl⟩ := List.mem_map.mp hmark
    exact h.history u (Option.mem_toList.mp hu) t hts.2

/-- A plan with an empty window: either nothing is missing, or a backfill reached its lower end. -/
theorem replan_covered {env : Env} {db : Db} (h : db.Sound env) {x : Exec} {c : Cursor}
    (hc : CursorOk db c) (hm : x.params.mode = c.requestFingerprint.mode)
    (heq : (replan db x c).sinceMs = some (replan db x c).untilMs) :
    ∀ t ∈ (⟨c.requestedSinceMs, c.upperMs⟩ : Span), db.CoveredAt t := by
  unfold replan at heq
  split at heq
  · next hb =>
    rw [hm] at hb
    intro t ht
    have hsince := hc.since hb
    rw [heq] at hsince
    have hlow : Span.AboveLower c.requestedSinceMs t := ht.1
    rw [← hsince, Span.aboveLower_some] at hlow
    exact hc.above hb t hlow ht.2
  · cases hmiss : db.missingWindows c.requestedSinceMs c.upperMs with
    | nil => exact covered_of_missing h hmiss
    | cons f fs =>
      rw [hmiss] at heq
      simp only [List.headD_cons] at heq
      have hne : f.isEmpty = false := by
        refine missing_nonempty ⟨c.requestedSinceMs, c.upperMs⟩ db.coveredSpans f ?_
        have hin : f ∈ db.missingWindows c.requestedSinceMs c.upperMs := by
          rw [hmiss]
          exact List.mem_cons_self
        exact hin
      rw [Span.isEmpty, heq] at hne
      simp at hne

/-- A saturated page leaves a backfill cursor at its oldest millisecond. -/
theorem saturated_ok {db : Db} {c : Cursor} (hc : CursorOk db c) {k : PageKey} (haim : Aims c k)
    {body : List GameObject} {ts : List Int} {r : Span} {oldest : Int} (limit : Nat)
    (hd : rangeDone k body = false) (hlast : ts.getLast? = some oldest)
    (hr : provenSpan k body ts = some r) (hcov : ∀ t ∈ r, db.CoveredAt t) :
    CursorOk db { c with untilMs := oldest + 1, limit := limit } := by
  refine ⟨hc.finished, hc.since, fun hb t h1 h2 => ?_⟩
  change oldest + 1 ≤ t at h1
  rw [provenSpan, hd, hlast] at hr
  simp only [Bool.false_eq_true, if_false, Option.map_some, Option.some.injEq] at hr
  by_cases ht : c.untilMs ≤ t
  · exact hc.above hb t ht h2
  · refine hcov t ?_
    rw [← hr]
    have hup := haim.2
    exact ⟨h1, by simp only; omega⟩

/-- An unsaturated backfill page ends the window. -/
theorem whole_covered {db : Db} {c : Cursor} (hc : CursorOk db c) {k : PageKey} (haim : Aims c k)
    (hb : c.requestFingerprint.mode = .backfill) {body : List GameObject} {ts : List Int} {r : Span}
    (hd : rangeDone k body = true) (hr : provenSpan k body ts = some r) (hcov : ∀ t ∈ r, db.CoveredAt t) :
    ∀ t ∈ (⟨c.requestedSinceMs, c.upperMs⟩ : Span), db.CoveredAt t := by
  rw [provenSpan, hd] at hr
  simp only [if_true, Option.some.injEq] at hr
  intro t ht
  by_cases hu : c.untilMs ≤ t
  · exact hc.above hb t hu ht.2
  · refine hcov t ?_
    rw [← hr]
    refine ⟨?_, ?_⟩
    · change Span.AboveLower k.since t
      rw [haim.1, hc.since hb]
      exact ht.1
    · change t < k.upto
      rw [haim.2]
      omega

theorem held_capture {db : Db} (h : db.Numbered) (src : Source) (body : List GameObject) (now : Int) :
    ∃ p, (db.storeRawPayload src body now).1.rawPayload (db.storeRawPayload src body now).2 = some p ∧
      p.source = src ∧ p.body = body := by
  rcases Db.storeRawPayload_cases db src body now with ⟨p, hp, hsrc, hbody, heq⟩ | heq
  · rw [heq]
    exact ⟨p, h.rawPayload_eq hp, hsrc, hbody⟩
  · rw [heq]
    have hnum := Db.numbered_append h src body now
    refine ⟨⟨db.rawPayloads.length + 1, src, body, now⟩, ?_, rfl, rfl⟩
    exact hnum.rawPayload_eq (p := ⟨db.rawPayloads.length + 1, src, body, now⟩) (by simp)

theorem Db.Extends.go {env : Env} {db db' : Db} (h : db.Extends env db') {call : Call}
    (hc : CallOk db' call) :
    db.Extends env db' ∧ ∀ call', some call = some call' → CallOk db' call' := by
  refine ⟨h, fun _ hn => ?_⟩
  cases hn
  exact hc

theorem Db.Extends.stop {env : Env} {db db' : Db} (h : db.Extends env db') :
    db.Extends env db' ∧ ∀ call', (none : Option Call) = some call' → CallOk db' call' :=
  ⟨h, fun _ hn => nomatch hn⟩

/-- The step lemma: a move keeps the archive sound, extends it, and leaves a call that knows what its
program point requires. -/
theorem Moves.extends {env : Env} {job : Nat} {clock : Int} {db db' : Db} {call : Call}
    {next : Option Call} (h : db.Sound env) (hcall : CallOk db call)
    (hm : Moves env job clock db call db' next) :
    db.Extends env db' ∧ ∀ call', next = some call' → CallOk db' call' := by
  cases hm with
  | drop => exact (Db.Extends.refl h).stop
  | create hs hu hle hfirst hback => exact (Db.Extends.refl h).go hback
  | pin hw =>
    refine (Db.Extends.refl h).go ⟨⟨fun hd => absurd hd Bool.false_ne_true, fun hb => ?_,
      fun hb t h1 h2 => ?_⟩, rfl⟩
    · rw [hcall hb]
    · rw [hcall hb] at h1
      exact absurd h2 (not_lt.mpr h1)
  | save =>
    have hext := Db.Extends.saveCheckpoint h job hcall.1
    exact hext.go ⟨hcall.1.mono hext.ranges, hcall.2, trivial⟩
  | readStored hphase hsources => exact (Db.Extends.refl h).go ⟨hcall.1, hcall.2.1, trivial⟩
  | readFollowups hphase => exact (Db.Extends.refl h).go ⟨hcall.1, hcall.2.1, trivial⟩
  | resume hphase => exact (Db.Extends.refl h).go ⟨hcall.1, hcall.2.1, trivial⟩
  | @replay x c raw fetch sources short =>
    have hext := Db.Extends.enqueue h raw fetch none job (env.jobRun job)
    exact hext.go ⟨hcall.1.mono hext.ranges, hcall.2.1, trivial⟩
  | replayLocal hrun => exact (Db.Extends.refl h).go ⟨hcall.1, hcall.2.1, trivial⟩
  | @replayed x x' c raw sources short hx hb hpos =>
    have hc : CursorOk db { c with localAfter := raw } := ⟨hcall.1.finished, hcall.1.since, hcall.1.above⟩
    have hext := Db.Extends.saveCheckpoint h job hc
    exact hext.go ⟨hc.mono hext.ranges, by rw [hx]; exact hcall.2.1, trivial⟩
  | @storedShort x c next hnext =>
    have hc : CursorOk db { c with phase := .followups } := ⟨hcall.1.finished, hcall.1.since, hcall.1.above⟩
    have hext := Db.Extends.saveCheckpoint h job hc
    rcases hnext with rfl | rfl
    · exact hext.stop
    · exact hext.go ⟨hc.mono hext.ranges, hcall.2.1, trivial⟩
  | storedFull hpc hx =>
    rcases hpc with rfl | rfl
    · exact (Db.Extends.refl h).go ⟨hcall.1, hcall.2.1, trivial⟩
    · exact (Db.Extends.refl h).go ⟨hcall.1, hcall.2.1, trivial⟩
  | followup => exact (Db.Extends.refl h).go ⟨hcall.1, hcall.2.1, trivial⟩
  | @followed x c next hnext =>
    have hc : CursorOk db { c with phase := .pages } := ⟨hcall.1.finished, hcall.1.since, hcall.1.above⟩
    have hext := Db.Extends.saveCheckpoint h job hc
    rcases hnext with rfl | rfl
    · exact hext.stop
    · exact hext.go ⟨hc.mono hext.ranges, hcall.2.1, trivial⟩
  | @planCovered x c heq =>
    have hcov := replan_covered h hcall.1 hcall.2.1 heq
    obtain ⟨hf, hu, hs, hd⟩ := replan_fields db x c
    refine (Db.Extends.refl h).go ⟨replan_ok hcall.1 hcall.2.1, by rw [hf]; exact hcall.2.1, ?_⟩
    rw [PcOk, hu, hs]
    exact hcov
  | @plan x c hne =>
    obtain ⟨hf, hu, hs, hd⟩ := replan_fields db x c
    exact (Db.Extends.refl h).go
      ⟨replan_ok hcall.1 hcall.2.1, by rw [hf]; exact hcall.2.1, rfl, rfl⟩
  | close => exact (commitCovered_extends h job _ hcall.1 hcall.2.2).stop
  | @reuse x c t raw fetch hl =>
    have hext := Db.Extends.enqueue h raw fetch t.maxGames job (env.jobRun job)
    refine hext.go ⟨hcall.1.mono hext.ranges, hcall.2.1, ?_⟩
    cases t with
    | followup ref rows full => trivial
    | page k => exact ⟨hcall.2.2, Held.mono hext.raws (Db.latestJobPayload_spec hl)⟩
  | @request x c t =>
    refine (Db.Extends.refl h).go ⟨hcall.1, hcall.2.1, ?_⟩
    cases t with
    | followup ref rows full => trivial
    | page k => exact hcall.2.2
  | refuse => exact (Db.Extends.refl h).go ⟨hcall.1, hcall.2.1, trivial⟩
  | @capture x c t requestedAt body ha =>
    have hext := Db.Extends.capture h t.source body requestedAt fun k hk => by
      cases t with
      | followup ref rows full => cases hk
      | page k' =>
        cases hk
        exact ha k rfl
    have hlog : db.Extends env ((db.storeRawPayload t.source body requestedAt).1.insertFetchLog job
        (db.storeRawPayload t.source body requestedAt).2 clock).1 :=
      hext.trans (.frame hext.sound rfl rfl rfl rfl)
    refine hlog.go ⟨hcall.1.mono hlog.ranges, hcall.2.1, ?_⟩
    cases t with
    | followup ref rows full => trivial
    | page k =>
      obtain ⟨p, hp, hsrc, _⟩ := held_capture h.numbered (.page k) body requestedAt
      exact ⟨hcall.2.2, p, hp, hsrc⟩
  | @queue x c t raw fetch =>
    have hext := Db.Extends.enqueue h raw fetch t.maxGames job (env.jobRun job)
    refine hext.go ⟨hcall.1.mono hext.ranges, hcall.2.1, ?_⟩
    cases t with
    | followup ref rows full => trivial
    | page k => exact ⟨hcall.2.2.1, hcall.2.2.2.mono hext.raws⟩
  | @refresh x x' c ref rows full raw g mid ht hx hb =>
    have hext := Db.Extends.trackGame h ht
    have hc : CursorOk mid { c with followupAfter := some ref } :=
      CursorOk.mono hext.ranges ⟨hcall.1.finished, hcall.1.since, hcall.1.above⟩
    have hsave := hext.trans (.saveCheckpoint hext.sound job hc)
    exact hsave.go ⟨⟨hc.finished, hc.since, hc.above⟩, by rw [hx]; exact hcall.2.1, trivial⟩
  | @vanished x x' c ref rows full status message hx hb =>
    have hext : db.Extends env (db.recordFailure (.followup ref) status message x.now) :=
      .recordCoverage h _ _ (by simp)
    have hc : CursorOk (db.recordFailure (.followup ref) status message x.now)
        { c with followupAfter := some ref } :=
      CursorOk.mono hext.ranges ⟨hcall.1.finished, hcall.1.since, hcall.1.above⟩
    have hsave := hext.trans (.saveCheckpoint hext.sound job hc)
    exact hsave.go ⟨⟨hc.finished, hc.since, hc.above⟩, by rw [hx]; exact hcall.2.1, trivial⟩
  | fail hunit =>
    exact Db.Extends.stop (.recordCoverage h _ _ hunit)
  | @record x c k raw p _ hp hr =>
    obtain ⟨q, hq, hsrc⟩ := hcall.2.2.2
    rw [hp] at hq
    cases hq
    obtain ⟨hext, ts, r, hts, hspan, hcov⟩ := recordPage_extends h hp hsrc hr
    exact hext.go ⟨hcall.1.mono hext.ranges, hcall.2.1, hcall.2.2.1,
      p, ts, r, rawPayload_prefix hext.raws hp, hts, hspan, hcov⟩
  | @judge x c k raw p hp =>
    refine (Db.Extends.refl h).go ⟨hcall.1, hcall.2.1, hcall.2.2.1, hcall.2.2.2, ?_, ?_⟩
    · intro hmode hdone
      rw [if_neg hmode] at hdone
      exact covered_of_missing h (List.isEmpty_iff.mp hdone)
    · intro hmode
      exact ⟨p, hp, by rw [if_pos hmode]⟩
  | @finish x c k raw p done hp hd =>
    obtain ⟨hc, hmode, haim, ⟨q, ts, r, hq, hts, hspan, hcov⟩, hwin, hback⟩ := hcall
    rw [hp] at hq
    cases hq
    refine (commitPage_extends h job k raw true done x.now hc fun hdone => ?_).stop
    by_cases hb : x.params.mode = .backfill
    · rw [hmode] at hb
      exact whole_covered hc haim hb hd hspan hcov
    · exact hwin hb hdone
  | @saturate x c k raw p ts oldest limit done hp ht hd hlast =>
    obtain ⟨hc, hmode, haim, ⟨q, ts', r, hq, hts, hspan, hcov⟩, hwin, hback⟩ := hcall
    rw [hp] at hq
    cases hq
    rw [ht] at hts
    cases hts
    have hnext := saturated_ok hc haim limit hd hlast hspan hcov
    refine (commitPage_extends h job k raw false done x.now hnext fun hdone => ?_).stop
    by_cases hb : x.params.mode = .backfill
    · obtain ⟨q, hq, hdq⟩ := hback hb
      rw [hp] at hq
      cases hq
      rw [hd, hdone] at hdq
      cases hdq
    · exact hwin hb hdone
  | overflow => exact Db.Extends.stop (.recordCoverage h _ _ (by simp))

/-! ## Every run -/

structure Inv (env : Env) (s : State) : Prop where
  sound : s.db.Sound env
  checkpoints : ∀ job c, s.db.checkpoints job = some c → CursorOk s.db c
  calls : ∀ job call, s.calls job = some call → CallOk s.db call

theorem Inv.extend {env : Env} {s : State} (h : Inv env s) {db : Db} (hext : s.db.Extends env db)
    {calls : Nat → Option Call}
    (hcalls : ∀ job call, calls job = some call → s.calls job = some call ∨ CallOk db call) (clock : Int) :
    Inv env ⟨db, clock, calls⟩ := by
  refine ⟨hext.sound, ?_, ?_⟩
  · intro job c hc
    rcases hext.checkpoints job c hc with hold | hok
    · exact (h.checkpoints job c hold).mono hext.ranges
    · exact hok
  · intro job call hcall
    rcases hcalls job call hcall with hold | hok
    · exact (h.calls job call hold).mono hext
    · exact hok

theorem update_calls {calls : Nat → Option Call} {job : Nat} {next : Option Call} {P : Call → Prop}
    (hnext : ∀ call, next = some call → P call) :
    ∀ j call, Function.update calls job next j = some call → calls j = some call ∨ P call := by
  intro j call hj
  rw [Function.update_apply] at hj
  split at hj
  · exact .inr (hnext call hj)
  · exact .inl hj

theorem enter_ok {env : Env} {s : State} (h : Inv env s) {job : Nat} {params : Params} {stop : Bool}
    {next : Option Call} (he : enter env s job params stop = some next) :
    ∀ call, next = some call → CallOk s.db call := by
  rintro call rfl
  rcases enter_cases he with ⟨c, x, hc, hx, hb, hfp, hdone, rfl⟩ | ⟨x, hx, hn, hb, rfl⟩
  · refine ⟨h.checkpoints job c hc, ?_, trivial⟩
    rw [hfp, hx]
    rfl
  · trivial

theorem processChild_frame {env : Env} {db db' : Db} {n : Nat} {e : ChildEvent}
    (h : db.processChild env n e = some db') :
    db' = { db with children := db'.children, runGames := db'.runGames } := by
  unfold Db.processChild at h
  obtain ⟨c, _, h⟩ := Option.bind_eq_some_iff.mp h
  obtain ⟨p, _, h⟩ := Option.bind_eq_some_iff.mp h
  split at h
  · cases h
    rfl
  · obtain ⟨g, _, h⟩ := Option.bind_eq_some_iff.mp h
    cases h
    rfl
  · split at h
    · cases h
      rfl
    · cases h
  · cases h
    rfl
  · cases h
    rfl
  · cases h
    rfl
  · cases h

theorem inv_step {env : Env} {s t : State} {e : Event} (h : Inv env s) (hs : step env s e = some t) :
    Inv env t := by
  cases e with
  | tick ms =>
    cases hs
    exact h.extend (.refl h.sound) (fun _ _ hc => .inl hc) _
  | enter job params stop =>
    obtain ⟨next, he, rfl⟩ := Option.map_eq_some_iff.mp hs
    exact h.extend (.refl h.sound) (update_calls (enter_ok h he)) _
  | advance job i =>
    obtain ⟨call, hcall, hs⟩ := Option.bind_eq_some_iff.mp hs
    obtain ⟨⟨db, next⟩, hadv, hs⟩ := Option.bind_eq_some_iff.mp hs
    cases hs
    obtain ⟨hext, hnext⟩ := (Call.advance_moves hadv).extends h.sound (h.calls job call hcall)
    exact h.extend hext (update_calls hnext) _
  | crash job =>
    cases hs
    exact h.extend (.refl h.sound) (update_calls fun _ hn => by cases hn) _
  | child n e =>
    obtain ⟨db, hdb, rfl⟩ := Option.map_eq_some_iff.mp hs
    refine h.extend ?_ (fun _ _ hc => .inl hc) _
    rw [processChild_frame hdb]
    exact .frame h.sound rfl rfl rfl rfl

theorem inv_init {env : Env} {s : State} (h : (lichess env).init s) : Inv env s := by
  obtain ⟨hdb, hcalls⟩ := h
  refine ⟨?_, ?_, ?_⟩
  · rw [hdb]
    exact ⟨fun n p hp => by simp [Db.empty] at hp, fun p hp => absurd hp List.not_mem_nil,
      fun r hr => absurd hr List.not_mem_nil, fun u hu => by simp [Db.empty, Db.historyWatermark] at hu⟩
  · intro job c hc
    rw [hdb] at hc
    cases hc
  · intro job call hc
    rw [hcalls job] at hc
    cases hc

theorem reachable_inv {env : Env} {s : State} (h : Reachable (lichess env) s) : Inv env s :=
  Reachable.invariant (fun _ h0 => inv_init h0) (fun _ _ _ hi hs => inv_step hi hs) h

/-! ## Coverage -/

/-- The provider game is an object of a preserved page. -/
def Preserved (db : Db) (g : ProviderGame) : Prop :=
  ∃ p ∈ db.rawPayloads, (∃ k, p.source = .page k) ∧ g ∈ presented p.body

theorem preserved_of_coveredAt {env : Env} {P : Finset ProviderGame}
    (hlegal : ∀ k body, env.answers k body = true → IsPage P k body) {db : Db} (h : db.Sound env)
    {g : ProviderGame} (hg : g ∈ P) (hc : db.CoveredAt g.createdAt) : Preserved db g := by
  obtain ⟨s, hs, hin⟩ := hc
  obtain ⟨r, hr, rfl⟩ := List.mem_map.mp hs
  obtain ⟨p, hp, k, ts, _, hsrc, hts, hspan⟩ := h.ranges r hr
  have hpage := hlegal k p.body (h.pages p hp k hsrc)
  exact ⟨p, hp, ⟨k, hsrc⟩, hpage.mem_of_provenSpan (pageTimestamps_spec hts) hspan hg hin⟩

/-- A provider whose games are the fixed set `P`. -/
def serving (P : Finset ProviderGame) (jobRun : Nat → Option Nat) (runParams : Nat → Params) : Env :=
  ⟨fun k body => decide (IsPage P k body), jobRun, runParams⟩

theorem coverage_sound_and_complete (P : Finset ProviderGame) (jobRun : Nat → Option Nat)
    (runParams : Nat → Params) (s : State) (h : Reachable (lichess (serving P jobRun runParams)) s) :
    (∀ g ∈ P, (∃ r ∈ s.db.sourceRanges, g.createdAt ∈ r.span) ∨
        (∃ u, s.db.historyWatermark = some u ∧ g.createdAt < u) → Preserved s.db g) ∧
      ∀ job c, s.db.checkpoints job = some c → c.done = true →
        ∀ g ∈ P, g.createdAt ∈ (⟨c.requestedSinceMs, c.upperMs⟩ : Span) → Preserved s.db g := by
  have hinv := reachable_inv h
  have hlegal : ∀ k body, (serving P jobRun runParams).answers k body = true → IsPage P k body :=
    fun k body hb => of_decide_eq_true hb
  constructor
  · rintro g hg (⟨r, hr, hin⟩ | ⟨u, hu, hlt⟩)
    · exact preserved_of_coveredAt hlegal hinv.sound hg ⟨r.span, List.mem_map_of_mem hr, hin⟩
    · exact preserved_of_coveredAt hlegal hinv.sound hg (hinv.sound.history u hu _ hlt)
  · intro job c hc hdone g hg hin
    exact preserved_of_coveredAt hlegal hinv.sound hg ((hinv.checkpoints job c hc).finished hdone _ hin)

/-! A full job with one game a page meets two games of one millisecond. -/

def tiedGames : Finset ProviderGame := {⟨1, 5⟩, ⟨2, 5⟩, ⟨3, 3⟩}

def tiedParams : Params := ⟨.full, none, none, none, none, none, some 1, none, none⟩

def tiedObject (ref : GameRef) (created : Int) : GameObject := ⟨some ref, some created, some .mate, 0⟩

def quiet : Input := ⟨false, false, true, .failed 0 ""⟩

/-- Fetch one page and commit it, from the program point before the plan. -/
def pageTrace (job : Nat) (body : List GameObject) : List Event :=
  [.advance job quiet, .advance job quiet, .advance job { quiet with response := .ok body },
    .advance job quiet, .advance job quiet, .advance job quiet, .advance job quiet]

def tiedTrace : List Event :=
  List.flatten [
    [.tick 10, .enter 7 tiedParams false], List.replicate 5 (.advance 7 quiet),
    pageTrace 7 [tiedObject 1 5], [.enter 7 tiedParams false, .advance 7 quiet],
    pageTrace 7 [tiedObject 1 5, tiedObject 2 5], [.enter 7 tiedParams false, .advance 7 quiet],
    pageTrace 7 [tiedObject 2 5, tiedObject 1 5, tiedObject 3 3]]

def emptyState : State := ⟨Db.empty, 0, fun _ => none⟩

def tiedEnv : Env := serving tiedGames (fun _ => none) fun _ => tiedParams

def Db.finishedWindow (db : Db) (job : Nat) : Option (Option Int × Int) :=
  ((db.checkpoints job).filter Cursor.done).map fun c => (c.requestedSinceMs, c.upperMs)

theorem coverage_sound_and_complete_tied : ∃ s, Reachable (lichess tiedEnv) s ∧
    s.db.finishedWindow 7 = some (none, 10) ∧ ∀ g ∈ tiedGames, Preserved s.db g := by
  obtain ⟨s, hreach, hs⟩ := Reach.of_exec (lichess tiedEnv) (fun _ _ => True)
    (s := emptyState) ⟨rfl, fun _ => rfl⟩ tiedTrace (fun s => s.db.finishedWindow 7 = some (none, 10))
    (by decide)
  have hwin := of_decide_eq_true hs
  refine ⟨s, hreach, hwin, fun g hg => ?_⟩
  obtain ⟨c, hc, heq⟩ := Option.map_eq_some_iff.mp hwin
  obtain ⟨hcp, hd⟩ := Option.filter_eq_some_iff.mp hc
  simp only [Prod.mk.injEq] at heq
  refine (coverage_sound_and_complete tiedGames _ _ s hreach).2 7 c hcp hd g hg ?_
  rw [heq.1, heq.2]
  have hlt : ∀ g ∈ tiedGames, g.createdAt < 10 := by decide
  exact ⟨trivial, hlt g hg⟩

end ChessCrawl.Collection
