import ChessCrawl.Collection.Moves

/-! What each store operation leaves alone, and what it returns. -/
namespace ChessCrawl.Collection
open ChessCrawl.Lib
set_option autoImplicit false
namespace Db

/-! ## Raw payloads -/

/-- Payload ids count the rows. -/
def Numbered (db : Db) : Prop := ∀ (n : Nat) (p : RawPayload), db.rawPayloads[n]? = some p → p.id = n + 1

theorem rawPayload_mem {db : Db} {raw : Nat} {p : RawPayload} (h : db.rawPayload raw = some p) :
    p ∈ db.rawPayloads ∧ p.id = raw :=
  ⟨List.mem_of_find?_eq_some h, by simpa using List.find?_some h⟩

theorem Numbered.eq_of_id {db : Db} (h : db.Numbered) {p q : RawPayload} (hp : p ∈ db.rawPayloads)
    (hq : q ∈ db.rawPayloads) (hid : p.id = q.id) : p = q := by
  obtain ⟨n, hn⟩ := List.mem_iff_getElem?.mp hp
  obtain ⟨m, hm⟩ := List.mem_iff_getElem?.mp hq
  have hpn := h n p hn
  have hqm := h m q hm
  have hnm : n = m := by omega
  rw [hnm, hm] at hn
  exact (Option.some.inj hn).symm

theorem Numbered.rawPayload_eq {db : Db} (h : db.Numbered) {p : RawPayload} (hp : p ∈ db.rawPayloads) :
    db.rawPayload p.id = some p := by
  cases hf : db.rawPayload p.id with
  | none =>
    have hnone := List.find?_eq_none.mp hf p hp
    simp at hnone
  | some q =>
    obtain ⟨hq, hid⟩ := rawPayload_mem hf
    rw [h.eq_of_id hq hp hid]

theorem storeRawPayload_cases (db : Db) (src : Source) (body : List GameObject) (now : Int) :
    (∃ p ∈ db.rawPayloads, p.source = src ∧ p.body = body ∧ db.storeRawPayload src body now = (db, p.id)) ∨
    db.storeRawPayload src body now =
      ({ db with rawPayloads := db.rawPayloads ++ [⟨db.rawPayloads.length + 1, src, body, now⟩] },
        db.rawPayloads.length + 1) := by
  unfold storeRawPayload
  split
  · next p hp =>
    have hspec := List.find?_some hp
    simp only [decide_eq_true_eq] at hspec
    exact .inl ⟨p, List.mem_of_find?_eq_some hp, hspec.1, hspec.2, rfl⟩
  · exact .inr rfl

theorem numbered_append {db : Db} (h : db.Numbered) (src : Source) (body : List GameObject) (now : Int) :
    Numbered { db with rawPayloads := db.rawPayloads ++ [⟨db.rawPayloads.length + 1, src, body, now⟩] } := by
  intro n p hn
  change (db.rawPayloads ++ [_])[n]? = some p at hn
  rw [List.getElem?_append] at hn
  split at hn
  · exact h n p hn
  · next hge =>
    have hlt := (List.getElem?_eq_some_iff.mp hn).1
    simp only [List.length_singleton] at hlt
    have hn0 : n - db.rawPayloads.length = 0 := by omega
    rw [hn0] at hn
    cases hn
    change db.rawPayloads.length + 1 = n + 1
    omega

theorem latestLog_mem {fs : List FetchLog} {f : FetchLog} (h : latestLog fs = some f) : f ∈ fs := by
  induction fs with
  | nil => cases h
  | cons g gs ih =>
    rw [latestLog] at h
    split at h
    · cases h
      exact List.mem_cons_self
    · next f' hf' =>
      split at h
      · cases h
        exact List.mem_cons_self
      · cases h
        exact List.mem_cons_of_mem g (ih hf')

/-- A reused acquisition is a payload of the same source. -/
theorem latestJobPayload_spec {db : Db} {job : Nat} {src : Source} {raw fetch : Nat}
    (h : db.latestJobPayload job src = some (raw, fetch)) :
    ∃ p, db.rawPayload raw = some p ∧ p.source = src := by
  unfold latestJobPayload at h
  obtain ⟨f, hf, heq⟩ := Option.map_eq_some_iff.mp h
  cases heq
  have hspec := (List.mem_filter.mp (latestLog_mem hf)).2
  simp only [decide_eq_true_eq] at hspec
  exact Option.map_eq_some_iff.mp hspec.2

/-! ## Children, follow-ups and ranges -/

theorem enqueue_frame (db : Db) (raw fetch : Nat) (mg : Option Nat) (job : Nat) (run : Option Nat) :
    ∃ cs, db.enqueuePayloadNormalization raw fetch mg job run = { db with children := db.children ++ cs } := by
  unfold enqueuePayloadNormalization
  split
  · exact ⟨[], by rw [List.append_nil]⟩
  · exact ⟨_, rfl⟩

theorem trackGame_frame {db db' : Db} {g : GameObject} (h : db.trackGame g = some db') :
    db' = { db with followups := db'.followups } := by
  unfold trackGame at h
  split at h
  · split at h
    · cases h
    · cases h
      unfold trackFollowup
      split
      · rfl
      · split
        · rfl
        · rfl
  · cases h

theorem trackGames_frame {db db' : Db} {body : List GameObject} (h : db.trackGames body = some db') :
    db' = { db with followups := db'.followups } := by
  induction body generalizing db with
  | nil =>
    cases h
    rfl
  | cons g gs ih =>
    obtain ⟨mid, hm, hrest⟩ := Option.bind_eq_some_iff.mp (h : (db.trackGame g).bind _ = some db')
    have h1 := trackGame_frame hm
    have h2 := ih hrest
    rw [h1] at h2
    exact h2

/-- A conflicting insert leaves the rows as they are. -/
theorem recordSourceRange_cases (db : Db) (raw : Nat) (since : Option Int) (upto : Int) :
    ((∃ r ∈ db.sourceRanges, r.rawPayloadId = raw) ∧ db.recordSourceRange raw since upto = db) ∨
    db.recordSourceRange raw since upto =
      { db with sourceRanges := db.sourceRanges ++ [⟨raw, since, upto⟩] } := by
  unfold recordSourceRange
  split
  · next h =>
    obtain ⟨r, hr, hraw⟩ := List.any_eq_true.mp h
    exact .inl ⟨⟨r, hr, of_decide_eq_true hraw⟩, rfl⟩
  · exact .inr rfl

/-- The page's times, its proven span and the row written for it. -/
theorem recordPage_spec {db db' : Db} {k : PageKey} {raw : Nat} {body : List GameObject}
    (h : db.recordPage k raw body = some db') :
    ∃ ts r, pageTimestamps k body = some ts ∧ provenSpan k body ts = some r ∧
      db' = { db.recordSourceRange raw r.lower r.upper with followups := db'.followups } := by
  unfold recordPage at h
  obtain ⟨ts, hts, h⟩ := Option.bind_eq_some_iff.mp h
  obtain ⟨r, hr, h⟩ := Option.bind_eq_some_iff.mp h
  exact ⟨ts, r, hts, hr, trackGames_frame h⟩

theorem recordPage_frame {db db' : Db} {k : PageKey} {raw : Nat} {body : List GameObject}
    (h : db.recordPage k raw body = some db') :
    db' = { db with sourceRanges := db'.sourceRanges, followups := db'.followups } := by
  obtain ⟨ts, r, _, _, heq⟩ := recordPage_spec h
  rcases recordSourceRange_cases db raw r.lower r.upper with ⟨_, hsame⟩ | hnew
  · rw [heq, hsame]
  · rw [heq, hnew]

/-! ## Coverage rows -/

theorem recordCoverage_frame (db : Db) (unit : UnitKey) (row : CoverageRow) :
    ∃ cov, db.recordCoverage unit row = { db with coverage := cov } ∧
      ∀ u, u ≠ unit → cov u = db.coverage u := by
  unfold recordCoverage
  split
  · exact ⟨_, rfl, fun u hu => Function.update_of_ne hu _ _⟩
  · split
    · exact ⟨_, rfl, fun u hu => Function.update_of_ne hu _ _⟩
    · exact ⟨_, rfl, fun u _ => rfl⟩

theorem historyWatermark_congr {db db' : Db} (h : db'.coverage .history = db.coverage .history) :
    db'.historyWatermark = db.historyWatermark := by
  unfold historyWatermark
  rw [h]

theorem recordHistory_frame (db : Db) (raw : Option Nat) (now : Int) :
    ∃ cov, db.recordHistory raw now = { db with coverage := cov } := by
  unfold recordHistory
  split
  · exact ⟨_, rfl⟩
  · obtain ⟨cov, h, _⟩ := recordCoverage_frame db .history (completeRow raw none ‹Int› now)
    exact ⟨cov, h⟩

theorem historyWatermark_recordCoverage {db : Db} {raw : Option Nat} {highWater now u : Int}
    (h : (db.recordCoverage .history (completeRow raw none highWater now)).historyWatermark = some u) :
    db.historyWatermark = some u ∨ u = highWater := by
  unfold recordCoverage at h
  split at h
  · simp [historyWatermark, completeRow] at h
    exact .inr h.symm
  · split at h
    · simp [historyWatermark, completeRow] at h
      exact .inr h.symm
    · exact .inl h

/-- The watermark is the old one or the upper end of the union's open fragment. -/
theorem historyWatermark_recordHistory {db : Db} {raw : Option Nat} {now u : Int}
    (h : (db.recordHistory raw now).historyWatermark = some u) :
    db.historyWatermark = some u ∨ db.historyHighWater = some u := by
  unfold recordHistory at h
  split at h
  · exact .inl h
  · next highWater hw =>
    rcases historyWatermark_recordCoverage h with hold | rfl
    · exact .inl hold
    · exact .inr hw

/-! ## Page transactions -/

theorem recordIf_frame (db : Db) (b : Bool) (unit : UnitKey) (row : CoverageRow) :
    ∃ cov, (if b then db.recordCoverage unit row else db) = { db with coverage := cov } := by
  cases b with
  | true =>
    obtain ⟨cov, h, _⟩ := recordCoverage_frame db unit row
    exact ⟨cov, h⟩
  | false => exact ⟨_, rfl⟩

theorem commitPage_frame (db : Db) (job : Nat) (c : Cursor) (k : PageKey) (raw : Nat)
    (whole done : Bool) (now : Int) :
    ∃ cov, db.commitPage job c k raw whole done now =
      Db.saveCheckpoint { db with coverage := cov } job (if done then { c with done := true } else c) := by
  unfold commitPage
  obtain ⟨cov1, h1, _⟩ := recordCoverage_frame db (.millis k) (completeRow (some raw) k.since k.upto now)
  rw [h1]
  obtain ⟨cov2, h2⟩ := recordIf_frame { db with coverage := cov1 } whole (.window k.since k.upto)
    (completeRow (some raw) k.since k.upto now)
  simp only [h2]
  obtain ⟨cov3, h3⟩ := recordHistory_frame { db with coverage := cov2 } (some raw) now
  simp only [h3]
  obtain ⟨cov4, h4⟩ := recordIf_frame { db with coverage := cov3 } done
    (.window c.requestedSinceMs c.upperMs) (completeRow (some raw) c.requestedSinceMs c.upperMs now)
  rw [h4]
  exact ⟨cov4, rfl⟩

theorem commitCovered_frame (db : Db) (job : Nat) (c : Cursor) (now : Int) :
    ∃ cov, db.commitCovered job c now =
      Db.saveCheckpoint { db with coverage := cov } job { c with done := true } := by
  unfold commitCovered
  obtain ⟨cov1, h1, _⟩ := recordCoverage_frame db (.window c.requestedSinceMs c.upperMs)
    (completeRow none c.requestedSinceMs c.upperMs now)
  rw [h1]
  obtain ⟨cov2, h2⟩ := recordHistory_frame { db with coverage := cov1 } none now
  simp only [h2]
  exact ⟨cov2, rfl⟩

theorem recordFailure_frame (db : Db) (unit : UnitKey) (status : Nat) (message : String) (now : Int) :
    ∃ cov, db.recordFailure unit status message now = { db with coverage := cov } := by
  obtain ⟨cov, h, _⟩ := recordCoverage_frame db unit _
  exact ⟨cov, h⟩

theorem storeRawPayload_frame (db : Db) (src : Source) (body : List GameObject) (now : Int) :
    ∃ raws, (db.storeRawPayload src body now).1 = { db with rawPayloads := raws } := by
  rcases storeRawPayload_cases db src body now with ⟨p, _, _, _, heq⟩ | heq
  · rw [heq]
    exact ⟨_, rfl⟩
  · rw [heq]
    exact ⟨_, rfl⟩

theorem enqueue_children (db : Db) (raw fetch : Nat) (mg : Option Nat) (job : Nat) (run : Option Nat) :
    (∃ c ∈ db.children, c.rawPayloadId = raw ∧ c.parentJobId = job ∧ c.crawlRunId = run ∧
      db.enqueuePayloadNormalization raw fetch mg job run = db) ∨
    db.enqueuePayloadNormalization raw fetch mg job run =
      { db with children := db.children ++ [⟨raw, fetch, mg, job, run, .pending⟩] } := by
  unfold enqueuePayloadNormalization
  split
  · next h =>
    obtain ⟨c, hc, hspec⟩ := List.any_eq_true.mp h
    obtain ⟨h1, _, h3, h4⟩ := of_decide_eq_true hspec
    exact .inl ⟨c, hc, h1, h3, h4, rfl⟩
  · exact .inr rfl

end Db

/-! ## What a move writes -/

/-- The call is about to queue a child for the payload. -/
inductive Queues (job : Nat) (db : Db) (raw fetch : Nat) (mg : Option Nat) : Call → Prop
  | stored (x : Exec) (c : Cursor) (sources : List Nat) (short : Bool) (hmg : mg = none) :
      Queues job db raw fetch mg (.running x c (.stored (raw :: sources) short))
  | reuse (x : Exec) (c : Cursor) (t : Target) (hmg : mg = t.maxGames)
      (hl : db.latestJobPayload job t.source = some (raw, fetch)) :
      Queues job db raw fetch mg (.running x c (.fetching t))
  | captured (x : Exec) (c : Cursor) (t : Target) (hmg : mg = t.maxGames) :
      Queues job db raw fetch mg (.running x c (.captured t raw fetch))

/-- The five kinds of write: coverage rows alone, a checkpoint with coverage rows or follow-ups, a
child, a payload with its fetch log, and a page's range. -/
inductive Effect (env : Env) (job : Nat) (clock : Int) (db : Db) (call : Call) : Db → Prop
  | note (cov : UnitKey → Option CoverageRow) : Effect env job clock db call { db with coverage := cov }
  | save (cov : UnitKey → Option CoverageRow) (fol : List (GameRef × Int)) (c : Cursor) :
      Effect env job clock db call (Db.saveCheckpoint { db with coverage := cov, followups := fol } job c)
  | queue {raw fetch : Nat} {mg : Option Nat} (hq : Queues job db raw fetch mg call) :
      Effect env job clock db call (db.enqueuePayloadNormalization raw fetch mg job (env.jobRun job))
  | capture {x : Exec} {c : Cursor} {t : Target} {requestedAt : Int} (body : List GameObject)
      (hcall : call = .running x c (.requested t requestedAt)) :
      Effect env job clock db call ((db.storeRawPayload t.source body requestedAt).1.insertFetchLog job
        (db.storeRawPayload t.source body requestedAt).2 clock).1
  | record {x : Exec} {c : Cursor} {k : PageKey} {raw : Nat} {p : RawPayload} {db' : Db}
      (hcall : call = .running x c (.fetched (.page k) raw)) (hp : db.rawPayload raw = some p)
      (hr : db.recordPage k raw p.body = some db') : Effect env job clock db call db'

theorem Moves.effect {env : Env} {job : Nat} {clock : Int} {db db' : Db} {call : Call}
    {next : Option Call} (hm : Moves env job clock db call db' next) :
    Effect env job clock db call db' := by
  cases hm with
  | save => exact .save db.coverage db.followups _
  | replay => exact .queue (.stored _ _ _ _ rfl)
  | replayed hx hb hpos => exact .save db.coverage db.followups _
  | storedShort hnext => exact .save db.coverage db.followups _
  | followed hnext => exact .save db.coverage db.followups _
  | @close x c =>
    obtain ⟨cov, heq⟩ := Db.commitCovered_frame db job c x.now
    rw [heq]
    exact .save cov db.followups _
  | reuse hl => exact .queue (.reuse _ _ _ rfl hl)
  | capture ha => exact .capture _ rfl
  | queue => exact .queue (.captured _ _ _ rfl)
  | refresh ht hx hb =>
    rw [Db.trackGame_frame ht]
    exact .save db.coverage _ _
  | @vanished x x' c ref rows full status message hx hb =>
    obtain ⟨cov, heq⟩ := Db.recordFailure_frame db (.followup ref) status message x.now
    rw [heq]
    exact .save cov db.followups _
  | @fail x c t unit status message hunit =>
    obtain ⟨cov, heq⟩ := Db.recordFailure_frame db unit status message x.now
    rw [heq]
    exact .note cov
  | record hp hr => exact .record rfl hp hr
  | @finish x c k raw p done hp hd =>
    obtain ⟨cov, heq⟩ := Db.commitPage_frame db job c k raw true done x.now
    rw [heq]
    exact .save cov db.followups _
  | @saturate x c k raw p ts oldest limit done hp ht hd hlast =>
    obtain ⟨cov, heq⟩ := Db.commitPage_frame db job { c with untilMs := oldest + 1, limit := limit } k raw
      false done x.now
    rw [heq]
    exact .save cov db.followups _
  | @overflow x c k raw done =>
    obtain ⟨cov, heq, _⟩ := Db.recordCoverage_frame db (.millis k)
      ⟨.error, some raw, x.now, some boundaryError, none, none, false⟩
    rw [heq]
    exact .note cov
  | _ => exact .note db.coverage

namespace Effect
variable {env : Env} {job : Nat} {clock : Int} {db db' : Db} {call : Call}

/-- A move writes no other job's checkpoint. -/
theorem others (h : Effect env job clock db call db') {j : Nat} (hj : j ≠ job) :
    db'.checkpoints j = db.checkpoints j := by
  cases h with
  | note cov => rfl
  | save cov fol c => exact Function.update_of_ne hj _ _
  | @queue raw fetch mg hq =>
    obtain ⟨cs, hcs⟩ := Db.enqueue_frame db raw fetch mg job (env.jobRun job)
    rw [hcs]
  | @capture x c t requestedAt body hcall =>
    obtain ⟨raws, heq⟩ := Db.storeRawPayload_frame db t.source body requestedAt
    rw [heq]
    rfl
  | @record x c k raw p _ hcall hp hr => rw [Db.recordPage_frame hr]

theorem runGames (h : Effect env job clock db call db') : db'.runGames = db.runGames := by
  cases h with
  | note cov => rfl
  | save cov fol c => rfl
  | @queue raw fetch mg hq =>
    obtain ⟨cs, hcs⟩ := Db.enqueue_frame db raw fetch mg job (env.jobRun job)
    rw [hcs]
  | @capture x c t requestedAt body hcall =>
    obtain ⟨raws, heq⟩ := Db.storeRawPayload_frame db t.source body requestedAt
    rw [heq]
    rfl
  | @record x c k raw p _ hcall hp hr => rw [Db.recordPage_frame hr]

theorem children (h : Effect env job clock db call db') :
    db'.children = db.children ∨ ∃ raw fetch mg, Queues job db raw fetch mg call ∧
      db' = db.enqueuePayloadNormalization raw fetch mg job (env.jobRun job) := by
  cases h with
  | note cov => exact .inl rfl
  | save cov fol c => exact .inl rfl
  | @queue raw fetch mg hq => exact .inr ⟨raw, fetch, mg, hq, rfl⟩
  | @capture x c t requestedAt body hcall =>
    obtain ⟨raws, heq⟩ := Db.storeRawPayload_frame db t.source body requestedAt
    rw [heq]
    exact .inl rfl
  | @record x c k raw p _ hcall hp hr =>
    rw [Db.recordPage_frame hr]
    exact .inl rfl

theorem sourceRanges (h : Effect env job clock db call db') :
    db'.sourceRanges = db.sourceRanges ∨ ∃ x c k raw p, call = .running x c (.fetched (.page k) raw) ∧
      db.rawPayload raw = some p ∧ db.recordPage k raw p.body = some db' := by
  cases h with
  | note cov => exact .inl rfl
  | save cov fol c => exact .inl rfl
  | @queue raw fetch mg hq =>
    obtain ⟨cs, hcs⟩ := Db.enqueue_frame db raw fetch mg job (env.jobRun job)
    rw [hcs]
    exact .inl rfl
  | @capture x c t requestedAt body hcall =>
    obtain ⟨raws, heq⟩ := Db.storeRawPayload_frame db t.source body requestedAt
    rw [heq]
    exact .inl rfl
  | @record x c k raw p _ hcall hp hr => exact .inr ⟨x, c, k, raw, p, hcall, hp, hr⟩

end Effect
end ChessCrawl.Collection
