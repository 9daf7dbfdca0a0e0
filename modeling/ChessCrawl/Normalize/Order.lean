import ChessCrawl.Normalize.Supply

/-! The order of normalizations does not matter. A checkpoint of the current observation stands for a
write that came after it; so once every payload has been normalized after its last observation, each of
them has given the game what it had to give, and the row is that of the payload that leads. -/
namespace ChessCrawl.Normalize
open ChessCrawl.Lib
set_option autoImplicit false

/-! ## Checkpoints stand for writes -/

/-- Items and checkpoints of the current observation of a payload were fed to their games. -/
structure FedOk (s : World) : Prop where
  observed : ∀ r ∈ s.db.archive.raws, s.db.archive.Observed r.id
  items : ∀ i ∈ s.db.items, i.observationId = s.db.archive.observationId i.rawPayloadId →
    s.db.archive.Fed i.gameId i.rawPayloadId i.jsonPointer
  calls : ∀ w c, s.calls w = some c → c.phase ≠ .returned →
    c.observed = s.db.archive.observationId c.request.rawId →
    ∀ entry ∈ c.checkpoints, s.db.archive.Fed entry.2 c.request.rawId entry.1

theorem observationId_other {a : Archive} {log : FetchLog} {p : Nat} (h : log.rawPayloadId ≠ p) :
    Archive.observationId { a with logs := a.logs ++ [log] } p = a.observationId p := by
  unfold Archive.observationId
  dsimp only
  rw [List.filter_append, List.filter_cons_of_neg, List.filter_nil, List.append_nil]
  rw [Bool.and_eq_true, decide_eq_true_eq]
  exact fun hlog => h hlog.1

theorem observationId_not {a : Archive} {log : FetchLog} {p : Nat} (h : log.observation = false) :
    Archive.observationId { a with logs := a.logs ++ [log] } p = a.observationId p := by
  unfold Archive.observationId
  dsimp only
  rw [List.filter_append, List.filter_cons_of_neg, List.filter_nil, List.append_nil]
  rw [h, Bool.and_false]
  exact Bool.false_ne_true

theorem foldr_max_lt {xs : List Nat} {n : Nat} (hn : 0 < n) (h : ∀ x ∈ xs, x < n) : xs.foldr max 0 < n := by
  induction xs with
  | nil => exact hn
  | cons x xs ih =>
    rw [List.foldr_cons]
    exact max_lt (h x List.mem_cons_self) (ih fun y hy => h y (List.mem_cons_of_mem _ hy))

/-- A serial log starts a new observation of its payload. -/
theorem observationId_serial {a : Archive} {log : FetchLog} (hobs : log.observation = true) (hpos : 0 < log.id)
    (hserial : ∀ l ∈ a.logs, l.rawPayloadId = log.rawPayloadId → l.id < log.id) : a.observationId log.rawPayloadId <
      Archive.observationId { a with logs := a.logs ++ [log] } log.rawPayloadId := by
  have hlt : a.observationId log.rawPayloadId < log.id := by
    unfold Archive.observationId
    refine foldr_max_lt hpos fun n hn => ?_
    obtain ⟨l, hl, rfl⟩ := List.mem_map.mp hn
    obtain ⟨hmem, hkey⟩ := List.mem_filter.mp hl
    rw [Bool.and_eq_true, decide_eq_true_eq] at hkey
    exact hserial l hmem hkey.1
  refine lt_of_lt_of_le hlt ?_
  unfold Archive.observationId
  dsimp only
  rw [List.filter_append, List.filter_cons_of_pos (by simp [hobs]), List.map_append, foldr_max_append]
  simp

/-- Observing a payload leaves what is fed to others, and dates all checkpoints of its own. -/
theorem fed_observe {a : Archive} {log : FetchLog} {gid p : Nat} {ptr : String} (hlog : a.Observed log.rawPayloadId)
    (hne : log.rawPayloadId ≠ p ∨ log.observation = false) (h : a.Fed gid p ptr) :
    Archive.Fed { a with logs := a.logs ++ [log] } gid p ptr := by
  have hk : KeepsTables a { a with logs := a.logs ++ [log] } :=
    ⟨⟨fun _ _ _ hl => hl, fun hs => hs⟩, rfl, rfl, rfl, rfl, rfl, rfl⟩
  refine hk.fed (fun hl => ?_) h
  rcases hne with hne | hnot
  · exact observe_leads hlog hne hl
  · -- a failed attempt is no observation
    have hsight : ∀ r, Archive.sightings { a with logs := a.logs ++ [log] } 0 r = a.sightings 0 r := by
      intro r
      unfold Archive.sightings
      dsimp only
      rw [List.filter_append, List.filter_cons_of_neg, List.filter_nil, List.append_nil]
      rw [hnot, Bool.and_false]
      exact Bool.false_ne_true
    unfold Archive.Leads Archive.Seen at hl ⊢
    simpa only [hsight] using hl

theorem raw_mem {a : Archive} {rawId : Nat} {r : RawPayload} (h : a.raw rawId = some r) : r ∈ a.raws ∧ r.id = rawId :=
  ⟨List.mem_of_find?_eq_some h, by simpa using List.find?_some h⟩

theorem Archive.Fed.stored {a : Archive} {gid p : Nat} {ptr : String} (h : a.Fed gid p ptr) : ∃ r, a.raw p = some r := by
  obtain ⟨_, _, _, _, ⟨r, hr, _⟩, _⟩ := h
  exact ⟨r, hr⟩

/-- What a new log of a payload leaves: marks of an observation of that payload are out of date, and the
rest stays. -/
theorem fedOk_log {s : World} {a' : Archive} (log : FetchLog) (hs : FedOk s) (hc : CheckpointsOk s)
    (hobserved : ∀ r ∈ a'.raws, a'.Observed r.id)
    (hdate : log.observation = true → s.db.archive.observationId log.rawPayloadId < a'.observationId log.rawPayloadId)
    (hsame : ∀ p, log.rawPayloadId ≠ p ∨ log.observation = false →
      a'.observationId p = s.db.archive.observationId p)
    (hfed : ∀ gid p ptr, log.rawPayloadId ≠ p ∨ log.observation = false → s.db.archive.Fed gid p ptr →
      a'.Fed gid p ptr) : FedOk (s.withArchive a') := by
  have hkeep : ∀ p n gid ptr, n ≤ s.db.archive.observationId p → n = a'.observationId p →
      (n = s.db.archive.observationId p → s.db.archive.Fed gid p ptr) → a'.Fed gid p ptr := by
    intro p n gid ptr hle hn hf
    by_cases hp : log.rawPayloadId ≠ p ∨ log.observation = false
    · exact hfed gid p ptr hp (hf (hn.trans (hsame p hp)))
    · obtain ⟨rfl, hobs⟩ : log.rawPayloadId = p ∧ log.observation = true := by
        simpa using hp
      have hlt := hdate hobs
      omega
  refine ⟨hobserved, fun i hi hobs => ?_, fun w c hcall hrun hobs entry he => ?_⟩
  · exact hkeep _ _ _ _ (hc.items.observed i hi) hobs (hs.items i hi)
  · exact hkeep _ _ _ _ (hc.calls w c hcall hrun).observed hobs fun hn => hs.calls w c hcall hrun hn entry he

theorem fedOk_observe {s : World} {log : FetchLog} {a : Archive} (hs : FedOk s) (hc : CheckpointsOk s)
    (hserial : s.db.archive.serial log = true) (h : s.db.archive.observe log = some a) :
    FedOk (s.withArchive a) := by
  obtain ⟨rfl, ⟨r, hr⟩, _, hpos⟩ := observe_eq h
  have hlog : s.db.archive.Observed log.rawPayloadId := by
    obtain ⟨hmem, hid⟩ := raw_mem hr
    rw [← hid]
    exact hs.observed r hmem
  refine fedOk_log log hs hc (fun r hr => ?_) (fun hobs => observationId_serial hobs hpos (serial_lt hserial)) ?_
    fun gid p ptr hp hf => fed_observe hlog hp hf
  · obtain ⟨l, hl, hraw⟩ := hs.observed r hr
    exact ⟨l, List.mem_append_left _ hl, hraw⟩
  · rintro p (hp | hobs)
    · exact observationId_other hp
    · exact observationId_not hobs

theorem persistResponse_tables {a a' : Archive} {raw : RawPayload} {log : FetchLog}
    (h : a.persistResponse raw log = some a') : KeepsTables a a' := by
  unfold Archive.persistResponse at h
  split at h
  · obtain ⟨mid, hstore, hobserve⟩ := Option.bind_eq_some_iff.mp h
    exact (storePayload_tables hstore).trans (observe_tables hobserve)
  · cases h

theorem fedOk_persist {s : World} {raw : RawPayload} {log : FetchLog} {a : Archive} (hs : FedOk s)
    (hc : CheckpointsOk s) (h : s.db.archive.persistResponse raw log = some a) : FedOk (s.withArchive a) := by
  have hk := persistResponse_tables h
  obtain ⟨rfl, hnew, hraw, hobs, hids, hpos⟩ := persistResponse_eq h
  refine fedOk_log log hs hc (fun r hr => ?_) (fun _ => ?_) ?_ fun gid p ptr hp hf => ?_
  · rcases List.mem_append.mp hr with hold | hlast
    · obtain ⟨l, hl, hlraw⟩ := hs.observed r hold
      exact ⟨l, List.mem_append_left _ hl, hlraw⟩
    · rw [List.mem_singleton.mp hlast]
      exact ⟨log, List.mem_append_right _ List.mem_cons_self, hraw, hobs⟩
  · exact observationId_serial (a := { s.db.archive with raws := s.db.archive.raws ++ [raw] }) hobs hpos hids
  · rintro p (hp | hnot)
    · exact observationId_other (a := { s.db.archive with raws := s.db.archive.raws ++ [raw] }) hp
    · rw [hobs] at hnot
      cases hnot
  · refine hk.fed (persist_leads hnew hraw ?_) hf
    -- nothing was fed from a payload that is only now stored
    rintro rfl
    obtain ⟨r, hr⟩ := hf.stored
    rw [hnew] at hr
    cases hr

theorem mem_processedItems {db : Db} {rawId observed : Nat} {parserVersion : String} {entry : String × Nat}
    (h : entry ∈ db.processedItems rawId parserVersion observed) :
    ∃ i ∈ db.items, i.rawPayloadId = rawId ∧ i.observationId = observed ∧ i.jsonPointer = entry.1 ∧
      i.gameId = entry.2 := by
  obtain ⟨i, hi, rfl⟩ := List.mem_map.mp h
  obtain ⟨hmem, hkey⟩ := List.mem_filter.mp hi
  obtain ⟨hraw, _, hobs⟩ := of_decide_eq_true hkey
  exact ⟨i, hmem, hraw, hobs, rfl, rfl⟩

theorem mem_of_lookup {entries : List (String × Nat)} {pointer : String} {gameId : Nat}
    (h : entries.lookup pointer = some gameId) : (pointer, gameId) ∈ entries := by
  induction entries with
  | nil => cases h
  | cons entry entries ih =>
    rw [List.lookup_cons] at h
    split at h
    · next heq =>
      cases h
      rw [eq_of_beq heq]
      exact List.mem_cons_self
    · exact List.mem_cons_of_mem _ (ih h)

theorem mem_of_reusable {c : Call} {pointer : String} {gameId : Nat} (h : c.reusable pointer = some gameId) :
    (pointer, gameId) ∈ c.checkpoints := by
  unfold Call.reusable at h
  split at h
  · exact mem_of_lookup h
  · cases h

/-! ## Steps that leave the game tables -/

structure Quiet (db db' : Db) : Prop where
  tables : KeepsTables db.archive db'.archive
  logs : db'.archive.logs = db.archive.logs
  raws : ∀ r ∈ db'.archive.raws, ∃ old ∈ db.archive.raws, old.id = r.id ∧ old.games = r.games
  leads : ∀ S p, db'.archive.Leads S p ↔ db.archive.Leads S p
  items : ∀ i ∈ db'.items, i ∈ db.items

theorem Quiet.same {db db' : Db} (ha : db'.archive = db.archive) (hi : db'.items = db.items) : Quiet db db' := by
  refine ⟨?_, ?_, ?_, ?_, ?_⟩
  · rw [ha]
    exact .refl _
  · rw [ha]
  · rw [ha]
    exact fun r hr => ⟨r, hr, rfl, rfl⟩
  · rw [ha]
    exact fun _ _ => Iff.rfl
  · rw [hi]
    exact fun _ h => h

theorem mapRaws_games (a : Archive) (rawId : Nat) (mark : RawPayload → RawPayload) (hid : ∀ r, (mark r).id = r.id)
    (hgames : ∀ r, (mark r).games = r.games) :
    ∀ r ∈ a.raws.map (fun r => if r.id = rawId then mark r else r), ∃ old ∈ a.raws, old.id = r.id ∧
      old.games = r.games := by
  intro r hr
  obtain ⟨old, hold, rfl⟩ := List.mem_map.mp hr
  refine ⟨old, hold, ?_⟩
  split
  · exact ⟨(hid old).symm, (hgames old).symm⟩
  · exact ⟨rfl, rfl⟩

theorem startCall_quiet {db db' : Db} {q : Request} {c : Call} (h : db.startCall q = .ok (c, db')) :
    Quiet db db' := by
  refine ⟨startCall_tables h, ?_, ?_, fun S p => startCall_leads h S p, ?_⟩ <;>
    obtain ⟨_, _, _, _, raw, _, ⟨_, _, hbegin⟩ | ⟨_, rfl⟩⟩ := startCall_cases h
  · unfold Db.beginNormalization at hbegin
    split at hbegin
    · cases hbegin
    · obtain rfl := (Prod.mk.inj (Except.ok.inj hbegin)).2
      split <;> rfl
  · rfl
  · unfold Db.beginNormalization at hbegin
    split at hbegin
    · cases hbegin
    · obtain rfl := (Prod.mk.inj (Except.ok.inj hbegin)).2
      split
      · exact mapRaws_games db.archive q.rawId (fun r => { r with status := .pending }) (fun _ => rfl) fun _ => rfl
      · exact fun r hr => ⟨r, hr, rfl, rfl⟩
  · exact fun r hr => ⟨r, hr, rfl, rfl⟩
  · unfold Db.beginNormalization at hbegin
    split at hbegin
    · cases hbegin
    · obtain rfl := (Prod.mk.inj (Except.ok.inj hbegin)).2
      intro i hi
      split at hi
      · exact (List.mem_filter.mp hi).1
      · exact hi
  · exact fun i hi => hi

theorem certify_quiet (db : Db) (rawId : Nat) (parserVersion : String) (observed : Nat) (pointers : List String)
    (empty : Bool) : Quiet db (db.certify rawId parserVersion observed pointers empty) := by
  rcases certify_cases db rawId parserVersion observed pointers empty with hsame | ⟨_, _, hitems, harchive⟩
  · rw [hsame]
    exact .same rfl rfl
  · refine ⟨certify_tables _ _ _ _ _ _, ?_, ?_, fun S p => certify_leads _ _ _ _ _ _ S p, ?_⟩
    · rw [harchive]
      rfl
    · rw [harchive]
      exact mapRaws_games db.archive rawId (fun r => { r with status := _, parserVersion := some parserVersion })
        (fun _ => rfl) fun _ => rfl
    · rw [hitems]
      exact fun i hi => hi

/-- The checkpoints after a step that is not a write: those of before, or those that it read. -/
structure Call.Carries (c : Call) (db : Db) (d : Call) : Prop where
  request : d.request = c.request
  observed : d.observed = c.observed
  checkpoints : d.checkpoints = c.checkpoints ∨
    d.checkpoints = db.processedItems c.request.rawId c.request.parserVersion c.observed

/-- A step of a call is quiet, or it commits the transaction of the current game. -/
theorem act_quiet {c : Call} {db db' : Db} {a : Act} {c' : Option Call} (h : c.act db a = some (c', db')) :
    (Quiet db db' ∧ ∀ d, c' = some d → c.Carries db d) ∨
      ∃ now prepared pointer g rest written, a = .write now ∧ c.phase = .paid prepared ∧
        c.todo = (pointer, g) :: rest ∧ c' = some (c.wrote pointer written) ∧
        c.writeGame db pointer g prepared now = .ok (written, db') := by
  have hkeeps : ∀ d : Call, d.request = c.request → d.observed = c.observed → d.checkpoints = c.checkpoints →
      c.Carries db d := fun d hr ho hc => ⟨hr, ho, .inl hc⟩
  cases act_acted h with
  | checkpoint =>
    refine .inl ⟨.same rfl rfl, fun d hd => ?_⟩
    cases hd
    exact ⟨rfl, rfl, .inr rfl⟩
  | retain =>
    refine .inl ⟨.same rfl rfl, fun d hd => ?_⟩
    cases hd
    exact hkeeps _ rfl rfl rfl
  | preflight =>
    refine .inl ⟨.same rfl rfl, fun d hd => ?_⟩
    obtain ⟨_, _, ⟨_, rfl⟩ | ⟨_, rfl⟩ | rfl⟩ := preflight_cases hd <;> exact hkeeps _ rfl rfl rfl
  | select =>
    refine .inl ⟨.same rfl rfl, fun d hd => ?_⟩
    cases hd
    split <;> exact hkeeps _ rfl rfl rfl
  | @pay now pointer _ _ =>
    obtain ⟨L, hdb, hcall⟩ := pay_cases c db pointer now
    rw [hdb]
    refine .inl ⟨.same rfl rfl, fun d hd => ?_⟩
    rcases hcall with hnone | ⟨_, hpaid⟩
    · rw [hnone] at hd
      cases hd
    · cases hpaid.symm.trans hd
      exact hkeeps _ rfl rfl rfl
  | @write now prepared pointer g rest hphase htodo =>
    rcases write_cases c db pointer g prepared now with ⟨written, hwrite, hwrote⟩ | ⟨hdb, hcall⟩
    · exact .inr ⟨_, _, _, _, _, written, rfl, hphase, htodo, hwrote, hwrite⟩
    · rw [hdb]
      refine .inl ⟨.same rfl rfl, fun d hd => ?_⟩
      rcases hcall with hnone | hagain
      · rw [hnone] at hd
        cases hd
      · cases hagain.symm.trans hd
        exact hkeeps _ rfl rfl rfl
  | finish =>
    refine .inl ⟨certify_quiet _ _ _ _ _ _, fun d hd => ?_⟩
    cases hd
    exact hkeeps _ rfl rfl rfl

/-- A working step is quiet, apart from the transaction of a game. -/
inductive Worked (s : World) : Event → World → Prop
  | quiet {e : Event} {t : World} : Quiet s.db t.db →
      (∀ w d, t.calls w = some d → s.calls w = some d ∨ d.checkpoints = [] ∨
        ∃ c, s.calls w = some c ∧ c.phase ≠ .returned ∧ c.Carries s.db d) → Worked s e t
  | wrote {w : Nat} {now : Int} {c : Call} {prepared : Bool} {pointer : String} {g : NormalizedGame}
      {rest : List (String × NormalizedGame)} {written : Written} {db : Db} : s.calls w = some c →
      c.phase = .paid prepared → c.todo = (pointer, g) :: rest →
      WroteArchive c s.db pointer g prepared written db →
      Worked s (.act w (.write now)) (s.setCall w (some (c.wrote pointer written)) db)

theorem working_worked {s t : World} {e : Event} (hw : e.working = true) (h : Stepped s e t) : Worked s e t := by
  have hold : ∀ {db : Db}, Quiet s.db db → Worked s e { s with db := db } :=
    fun hq => .quiet hq fun w d hd => .inl hd
  cases h with
  | storePayload => cases hw
  | observe => cases hw
  | upsert => cases hw
  | createRun => exact hold (.same rfl rfl)
  | associate hall => exact hold (.same (associateAll_attributed hall).archive (associateAll_attributed hall).items)
  | ledger => exact hold (.same rfl rfl)
  | start _ hstart =>
    refine .quiet (startCall_quiet hstart) fun w d hd => ?_
    rcases setCall_calls hd with hold | ⟨_, hnew⟩
    · exact .inl hold
    · cases hnew
      exact .inr (.inl (startCall_reads hstart).2.1)
  | @act w a c c' db hcall hact =>
    rcases act_quiet hact with ⟨hq, hcarries⟩ | ⟨now, prepared, pointer, g, rest, written, rfl, hphase, htodo, rfl, hwrite⟩
    · refine .quiet hq fun w' d hd => ?_
      rcases setCall_calls hd with hold | ⟨rfl, hnew⟩
      · exact .inl hold
      · exact .inr (.inr ⟨c, hcall, act_running hact, hcarries d hnew⟩)
    · exact .wrote hcall hphase htodo (writeGame_archive hwrite)
  | abandon =>
    refine .quiet (.same rfl rfl) fun w d hd => ?_
    rcases setCall_calls hd with hold | ⟨_, hnew⟩
    · exact .inl hold
    · cases hnew

/-! ## The transaction of a game -/

section Wrote
variable {evidence : String} {s : World} {w : Nat} {now : Int} {c : Call} {prepared : Bool} {pointer : String}
  {g : NormalizedGame} {rest : List (String × NormalizedGame)} {written : Written} {db : Db}

theorem wrote_bodies (h : WroteArchive c s.db pointer g prepared written db) : SameBodies s.db.archive db.archive := by
  cases h with
  | excluded => exact ⟨rfl, rfl⟩
  | reused _ _ _ harchive _ =>
    rw [harchive]
    exact ⟨rfl, rfl⟩
  | rewrote _ _ hnorm _ => exact normalizeGame_bodies hnorm

/-- A transaction of a game leaves what was fed before. -/
theorem wrote_fed (hs : SourcesOk evidence s) (hcoherent : db.archive.Coherent evidence)
    (hok : Ordinary evidence s (.act w (.write now))) (hcall : s.calls w = some c) (hphase : c.phase = .paid prepared)
    (htodo : c.todo = (pointer, g) :: rest) (h : WroteArchive c s.db pointer g prepared written db) {gid p : Nat}
    {ptr : String} (hfed : s.db.archive.Fed gid p ptr) : db.archive.Fed gid p ptr := by
  have hread := hs.calls w c hcall
  cases h with
  | excluded => exact hfed
  | reused _ _ _ harchive _ =>
    rw [harchive]
    exact hfed
  | rewrote _ _ hnorm _ =>
    rw [hread.version] at hnorm
    obtain ⟨mid, v, hfacts, hev⟩ := normalizeGame_cases hnorm
    have hlists : s.db.archive.Lists c.request.rawId pointer g :=
      hread.todo (pointer, g) (by rw [htodo]; exact List.mem_cons_self)
    exact fed_other hfacts hev hs.coherent hcoherent hlists (hok _ (writing_of hcall hphase htodo)) hfed

/-- It feeds the game of its current entry, or relies on a checkpoint that did. -/
theorem wrote_feeds (hs : SourcesOk evidence s) (hcoherent : db.archive.Coherent evidence)
    (hcall : s.calls w = some c) (htodo : c.todo = (pointer, g) :: rest)
    (h : WroteArchive c s.db pointer g prepared written db)
    (hcheckpoints : ∀ entry ∈ c.checkpoints, s.db.archive.Fed entry.2 c.request.rawId entry.1) {gid : Nat}
    (hid : written.gameId = some gid) : db.archive.Fed gid c.request.rawId pointer := by
  have hread := hs.calls w c hcall
  cases h with
  | excluded => cases hid
  | reused hgame _ hreuse harchive _ =>
    cases hgame.symm.trans hid
    rw [harchive]
    exact hcheckpoints _ (mem_of_reusable hreuse)
  | rewrote hgame _ hnorm _ =>
    cases hgame.symm.trans hid
    rw [hread.version] at hnorm
    obtain ⟨mid, v, hfacts, hev⟩ := normalizeGame_cases hnorm
    have hlists : s.db.archive.Lists c.request.rawId pointer g :=
      hread.todo (pointer, g) (by rw [htodo]; exact List.mem_cons_self)
    exact fed_self hfacts hev hs.coherent hcoherent hlists

theorem wrote_items (h : WroteArchive c s.db pointer g prepared written db) {i : NormalizationItem}
    (hi : i ∈ db.items) : i ∈ s.db.items ∨ ∃ gid, written.gameId = some gid ∧
      i = ⟨c.request.rawId, c.request.parserVersion, pointer, c.observed, gid⟩ := by
  cases h with
  | excluded => exact .inl hi
  | @reused _ gid _ hgame _ _ _ hitems =>
    rw [hitems] at hi
    exact (mem_markItem hi).imp_right fun heq => ⟨gid, hgame, heq⟩
  | @rewrote _ gid _ hgame _ _ hitems =>
    rw [hitems] at hi
    exact (mem_markItem hi).imp_right fun heq => ⟨gid, hgame, heq⟩

end Wrote

theorem mem_wrote_checkpoints {c : Call} {pointer : String} {written : Written} {entry : String × Nat}
    (h : entry ∈ (c.wrote pointer written).checkpoints) :
    entry ∈ c.checkpoints ∨ ∃ gid, written.gameId = some gid ∧ entry = (pointer, gid) := by
  cases written with
  | excluded => exact .inl h
  | refreshed gid => exact (List.mem_cons.mp h).symm.imp_right fun heq => ⟨gid, rfl, heq⟩
  | acquired gid => exact (List.mem_cons.mp h).symm.imp_right fun heq => ⟨gid, rfl, heq⟩

theorem wrote_request (c : Call) (pointer : String) (written : Written) :
    (c.wrote pointer written).request = c.request ∧ (c.wrote pointer written).observed = c.observed := by
  cases written <;> exact ⟨rfl, rfl⟩

/-! ## Working steps -/

theorem Quiet.observationId {db db' : Db} (h : Quiet db db') (p : Nat) :
    db'.archive.observationId p = db.archive.observationId p := by
  unfold Archive.observationId
  rw [h.logs]

theorem Quiet.fed {db db' : Db} (h : Quiet db db') {gid p : Nat} {ptr : String} (hfed : db.archive.Fed gid p ptr) :
    db'.archive.Fed gid p ptr :=
  h.tables.fed (h.leads _ _).mp hfed

theorem worked_logs {s t : World} {e : Event} (h : Worked s e t) : t.db.archive.logs = s.db.archive.logs := by
  cases h with
  | quiet hq => exact hq.logs
  | wrote _ _ _ hwrote => exact (wrote_bodies hwrote).logs

theorem worked_raws {s t : World} {e : Event} (h : Worked s e t) :
    ∀ r ∈ t.db.archive.raws, ∃ old ∈ s.db.archive.raws, old.id = r.id ∧ old.games = r.games := by
  cases h with
  | quiet hq => exact hq.raws
  | @wrote _ _ _ _ _ _ _ _ db _ _ _ hwrote =>
    intro r hr
    change r ∈ db.archive.raws at hr
    rw [(wrote_bodies hwrote).raws] at hr
    exact ⟨r, hr, rfl, rfl⟩

theorem worked_fed {evidence : String} {s t : World} {e : Event} (hs : SourcesOk evidence s)
    (ht : SourcesOk evidence t) (hok : Ordinary evidence s e) (h : Worked s e t) {gid p : Nat} {ptr : String}
    (hfed : s.db.archive.Fed gid p ptr) : t.db.archive.Fed gid p ptr := by
  cases h with
  | quiet hq => exact hq.fed hfed
  | wrote hcall hphase htodo hwrote => exact wrote_fed hs ht.coherent hok hcall hphase htodo hwrote hfed

theorem fedOk_worked {evidence : String} {s t : World} {e : Event} (hs : SourcesOk evidence s)
    (ht : SourcesOk evidence t) (hf : FedOk s) (hok : Ordinary evidence s e) (h : Worked s e t) : FedOk t := by
  have hid : ∀ p, t.db.archive.observationId p = s.db.archive.observationId p := by
    intro p
    unfold Archive.observationId
    rw [worked_logs h]
  have hfed : ∀ gid p ptr, s.db.archive.Fed gid p ptr → t.db.archive.Fed gid p ptr :=
    fun gid p ptr => worked_fed hs ht hok h
  have hobserved : ∀ r ∈ t.db.archive.raws, t.db.archive.Observed r.id := by
    intro r hr
    obtain ⟨old, hold, hrid, _⟩ := worked_raws h r hr
    obtain ⟨l, hl, hraw, hobs⟩ := hf.observed old hold
    exact ⟨l, by rw [worked_logs h]; exact hl, hraw.trans hrid, hobs⟩
  cases h with
  | quiet hq hcalls =>
    refine ⟨hobserved, fun i hi hobs => ?_, fun w d hd hrun hobs entry he => ?_⟩
    · rw [hid] at hobs
      exact hfed _ _ _ (hf.items i (hq.items i hi) hobs)
    · rw [hid] at hobs
      rcases hcalls w d hd with hold | hnil | ⟨c, hcall, hrunning, hcarries⟩
      · exact hfed _ _ _ (hf.calls w d hold hrun hobs entry he)
      · rw [hnil] at he
        exact absurd he List.not_mem_nil
      · rw [hcarries.request, hcarries.observed] at hobs
        rw [hcarries.request]
        rcases hcarries.checkpoints with hsame | hread
        · rw [hsame] at he
          exact hfed _ _ _ (hf.calls w c hcall hrunning hobs entry he)
        · rw [hread] at he
          obtain ⟨i, hi, hraw, hiobs, hptr, hgame⟩ := mem_processedItems he
          have hitem := hf.items i hi (by rw [hiobs, hraw]; exact hobs)
          rw [hraw, hptr, hgame] at hitem
          exact hfed _ _ _ hitem
  | @wrote w now c prepared pointer g rest written db hcall hphase htodo hwrote =>
    have hrunning : c.phase ≠ .returned := by
      rw [hphase]
      exact fun hp => nomatch hp
    have hnew : c.observed = s.db.archive.observationId c.request.rawId → ∀ gid, written.gameId = some gid →
        db.archive.Fed gid c.request.rawId pointer := fun hobs gid hgame =>
      wrote_feeds hs ht.coherent hcall htodo hwrote (hf.calls w c hcall hrunning hobs) hgame
    refine ⟨hobserved, fun i hi hobs => ?_, fun w' d hd hrun hobs entry he => ?_⟩
    · rw [hid] at hobs
      rcases wrote_items hwrote hi with hold | ⟨gid, hgame, rfl⟩
      · exact hfed _ _ _ (hf.items i hold hobs)
      · exact hnew hobs gid hgame
    · rw [hid] at hobs
      rcases setCall_calls hd with hold | ⟨_, heq⟩
      · exact hfed _ _ _ (hf.calls w' d hold hrun hobs entry he)
      · cases heq
        rw [(wrote_request c pointer written).1, (wrote_request c pointer written).2] at hobs
        rw [(wrote_request c pointer written).1]
        rcases mem_wrote_checkpoints he with hold | ⟨gid, hgame, rfl⟩
        · exact hfed _ _ _ (hf.calls w c hcall hrunning hobs entry hold)
        · exact hnew hobs gid hgame

end ChessCrawl.Normalize
