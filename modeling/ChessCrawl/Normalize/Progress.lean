import ChessCrawl.Normalize.Rows

/-! An uncapped call along a run of captures and normalizations. Nothing stops it at a game, so when it
reaches its end without its payload having been observed again, it has fed every listing of its body. -/
namespace ChessCrawl.Normalize
open ChessCrawl.Lib
set_option autoImplicit false

/-! ## Every run -/

structure ReplayOk (evidence : String) (G : GameIdentity) (s : World) : Prop where
  sources : SourcesOk evidence s
  checkpoints : CheckpointsOk s
  fed : FedOk s
  identified : s.db.archive.Identified G

/-- How an operation got through. -/
inductive Operated (s : World) : Op → World → Prop
  | capture {raw : RawPayload} {log : FetchLog} {a : Archive} : s.db.archive.persistResponse raw log = some a →
      Operated s (.capture raw log) (s.withArchive a)
  | observe {log : FetchLog} {a : Archive} : s.db.archive.serial log = true →
      s.db.archive.observe log = some a → Operated s (.observe log) (s.withArchive a)
  | worker {e : Event} {t : World} : Stepped s e t → Worked s e t → Operated s (.worker e) t

theorem operate_operated {s t : World} {o : Op} (h : s.operate o = some t) : Operated s o t := by
  cases o with
  | capture raw log =>
    obtain ⟨a, ha, rfl⟩ := Option.map_eq_some_iff.mp h
    exact .capture ha
  | observe log =>
    unfold World.operate at h
    dsimp only at h
    split at h
    · next hserial =>
      obtain ⟨a, ha, rfl⟩ := Option.map_eq_some_iff.mp h
      exact .observe hserial ha
    · cases h
  | worker e =>
    unfold World.operate at h
    dsimp only at h
    split at h
    · next hworking => exact .worker (step_stepped h) (working_worked hworking (step_stepped h))
    · cases h

variable {evidence : String} {G : GameIdentity} {s t : World} {o : Op}

/-- A response with a new body is two steps in one transaction. -/
theorem persistResponse_steps {raw : RawPayload} {log : FetchLog} {a : Archive}
    (h : s.db.archive.persistResponse raw log = some a) : ∃ mid, Stepped s (.storePayload raw) mid ∧
      Stepped mid (.observe log) (s.withArchive a) := by
  unfold Archive.persistResponse at h
  split at h
  · obtain ⟨mid, hstore, hobserve⟩ := Option.bind_eq_some_iff.mp h
    have hfirst : Stepped s (.storePayload raw) (s.withArchive mid) := .storePayload hstore
    have hsecond : Stepped (s.withArchive mid) (.observe log) ((s.withArchive mid).withArchive a) := .observe hobserve
    exact ⟨_, hfirst, hsecond⟩
  · cases h

theorem operated_sources (hs : SourcesOk evidence s) (hok : Faithful evidence G s o) (h : Operated s o t) :
    SourcesOk evidence t := by
  cases h with
  | @capture raw log _ hpersist =>
    obtain ⟨mid, hfirst, hsecond⟩ := persistResponse_steps hpersist
    have hmid := sourcesOk_step (e := .storePayload raw) hs trivial hfirst
    exact sourcesOk_step (e := .observe log) hmid trivial hsecond
  | @observe log a _ hobserve =>
    have hstep : Stepped s (.observe log) (s.withArchive a) := .observe hobserve
    exact sourcesOk_step (e := .observe log) hs trivial hstep
  | worker hstep _ => exact sourcesOk_step hs hok hstep

theorem operated_checkpoints (hs : CheckpointsOk s) (h : Operated s o t) : CheckpointsOk t := by
  cases h with
  | capture hpersist =>
    obtain ⟨mid, hfirst, hsecond⟩ := persistResponse_steps hpersist
    exact checkpointsOk_step (checkpointsOk_step hs hfirst) hsecond
  | @observe log a _ hobserve =>
    have hstep : Stepped s (.observe log) (s.withArchive a) := .observe hobserve
    exact checkpointsOk_step hs hstep
  | worker hstep _ => exact checkpointsOk_step hs hstep

/-- Tables that stay keep their rows apart. -/
theorem KeepsTables.identified {a a' : Archive} (hk : KeepsTables a a') (hc : a.Coherent evidence)
    (ha : a.Identified G) (htells : ∀ r ∈ a'.raws, ∀ g ∈ r.games, G.Tells g) : a'.Identified G := by
  refine ⟨htells, ?_, ?_, fun s hs v hv hvs row hrow hrv g hg => ?_⟩
  · rw [hk.games]
    exact ha.rows
  · rw [hk.games]
    exact ha.one
  · rw [hk.sources] at hs
    rw [hk.versions] at hv
    rw [hk.games] at hrow
    obtain ⟨_, _, _, g', hg', _⟩ := hc.sources s hs
    have hgg : g = g' := hg.unique (hk.bodies.single hc.single) (hk.bodies.lists _ _ _ hg')
    rw [hgg]
    exact ha.sources s hs v hv hvs row hrow hrv g' hg'

theorem worked_identified {e : Event} (hs : SourcesOk evidence s) (ha : s.db.archive.Identified G)
    (h : Worked s e t) : t.db.archive.Identified G := by
  cases h with
  | quiet hq _ =>
    refine hq.tables.identified hs.coherent ha fun r hr g hg => ?_
    obtain ⟨old, hold, _, hgames⟩ := hq.raws r hr
    exact ha.tells old hold g (hgames ▸ hg)
  | @wrote w now c prepared pointer g rest written db hcall _ htodo hwrote =>
    change db.archive.Identified G
    cases hwrote with
    | excluded => exact ha
    | reused _ _ _ harchive _ =>
      rw [harchive]
      exact ha
    | rewrote _ _ hnorm _ =>
      have hread := hs.calls w c hcall
      rw [hread.version] at hnorm
      exact normalizeGame_identified ha hs.coherent
        (hread.todo (pointer, g) (by rw [htodo]; exact List.mem_cons_self)) hnorm

theorem replayOk_step (hs : ReplayOk evidence G s) (hok : Faithful evidence G s o) (h : Operated s o t) :
    ReplayOk evidence G t := by
  refine ⟨operated_sources hs.sources hok h, operated_checkpoints hs.checkpoints h, ?_, ?_⟩
  · have ht := operated_sources hs.sources hok h
    cases h with
    | capture hpersist => exact fedOk_persist hs.fed hs.checkpoints hpersist
    | observe hserial hobserve => exact fedOk_observe hs.fed hs.checkpoints hserial hobserve
    | worker _ hworked => exact fedOk_worked hs.sources ht hs.fed hok hworked
  · cases h with
    | @capture raw log a hpersist =>
      refine (persistResponse_tables hpersist).identified hs.sources.coherent hs.identified fun r hr => ?_
      obtain ⟨rfl, _⟩ := persistResponse_eq hpersist
      rcases List.mem_append.mp hr with hold | hlast
      · exact hs.identified.tells r hold
      · rw [List.mem_singleton.mp hlast]
        exact hok
    | observe _ hobserve =>
      refine (observe_tables hobserve).identified hs.sources.coherent hs.identified fun r hr => ?_
      obtain ⟨rfl, _⟩ := observe_eq hobserve
      exact hs.identified.tells r hr
    | worker _ hworked => exact worked_identified hs.sources hs.identified hworked

theorem replayOk_initial (evidence : String) (G : GameIdentity) : ReplayOk evidence G World.initial := by
  refine ⟨sourcesOk_initial evidence, ?_, ?_, Archive.identified_empty G⟩
  · exact ⟨⟨List.nodup_nil, fun i hi => absurd hi List.not_mem_nil⟩, fun w c hc => nomatch hc⟩
  · exact ⟨fun r hr => absurd hr List.not_mem_nil, fun i hi => absurd hi List.not_mem_nil, fun w c hc => nomatch hc⟩

theorem replayOk_trace {ops : List Op} (h : Trace replays (Faithful evidence G) s ops t)
    (hs : ReplayOk evidence G s) : ReplayOk evidence G t :=
  h.keeps (fun _ _ _ _ hI hok hstep => replayOk_step hI hok (operate_operated hstep)) hs

/-- What a payload has fed stays until it is observed again. -/
theorem operated_fed (hs : ReplayOk evidence G s) (hok : Faithful evidence G s o) (h : Operated s o t) {gid p : Nat}
    {ptr : String} (hne : ¬ o.observes p) (hfed : s.db.archive.Fed gid p ptr) : t.db.archive.Fed gid p ptr := by
  have ht := operated_sources hs.sources hok h
  cases h with
  | capture hpersist =>
    refine (persistResponse_tables hpersist).fed ?_ hfed
    obtain ⟨rfl, hnew, hraw, _⟩ := persistResponse_eq hpersist
    exact persist_leads hnew hraw hne
  | observe _ hobserve =>
    obtain ⟨rfl, ⟨r, hr⟩, _⟩ := observe_eq hobserve
    refine fed_observe ?_ (.inl hne) hfed
    obtain ⟨hmem, hid⟩ := raw_mem hr
    rw [← hid]
    exact hs.fed.observed r hmem
  | worker _ hworked => exact worked_fed hs.sources ht hok hworked hfed

/-! ## One call -/

/-- No run that the request can name has a cap or a window. -/
def Request.Free (q : Request) (db : Db) : Prop :=
  q.maxGames = none ∧ ∀ runId, q.crawlRunId = some runId → ∀ run ∈ db.runs, run.id = runId → run.params.Unbounded

theorem bounds_free {c : Call} {db : Db} {bounds : Option RunGameBounds} (hfree : c.request.Free db)
    (hrem : c.remaining = none) (h : c.bounds db = .ok bounds) (g : NormalizedGame) :
    admits bounds g = true ∧ c.allowance bounds = none := by
  unfold Call.bounds at h
  split at h
  · cases h
    exact ⟨rfl, hrem⟩
  · next runId hrun =>
    obtain ⟨b, hb, rfl⟩ : ∃ b, db.runGameBounds runId c.provider c.remaining = .ok b ∧ bounds = some b := by
      cases hb : db.runGameBounds runId c.provider c.remaining with
      | error e =>
        rw [hb] at h
        cases h
      | ok b =>
        rw [hb] at h
        cases h
        exact ⟨b, rfl, rfl⟩
    unfold Db.runGameBounds at hb
    split at hb
    · cases hb
    next run hfound =>
    split at hb
    · cases hb
    cases hb
    have hid : run.id = runId := by simpa using List.find?_some hfound
    obtain ⟨hcap, hsince, hstop, hsinceMs, hstopMs⟩ :=
      hfree.2 runId hrun run (List.mem_of_find?_eq_some hfound) hid
    refine ⟨?_, ?_⟩
    · simp [admits, RunGameBounds.includes, RunParams.createdBound, hsince, hstop, hsinceMs, hstopMs]
    · change run.params.remaining _ c.remaining = none
      unfold RunParams.remaining
      rcases hcap with hmode | hmax
      · rw [hmode, if_pos rfl]
        exact hrem
      · have hnone : (if run.params.collection then none else run.params.maxGames) = none := by
          rw [hmax, ite_self]
        rw [hnone]
        exact hrem

theorem writeGame_admits {c : Call} {db db' : Db} {pointer : String} {g : NormalizedGame} {prepared : Bool} {now : Int}
    (hfree : c.request.Free db) (hrem : c.remaining = none) :
    c.writeGame db pointer g prepared now ≠ .ok (.excluded, db') := by
  intro h
  unfold Call.writeGame at h
  obtain ⟨bounds, hbounds, h⟩ := bind_ok h
  obtain ⟨hadmits, hallow⟩ := bounds_free hfree hrem hbounds g
  rw [if_neg (not_not.mpr hadmits), if_neg (fun hz => by rw [hallow] at hz; exact nomatch hz.2)] at h
  unfold Call.writeAdmitted at h
  obtain ⟨⟨acquired, charged⟩, _, h₁⟩ := bind_ok h
  obtain ⟨⟨gameId, stored⟩, _, h₂⟩ := bind_ok h₁
  cases acquired with
  | true => cases h₂
  | false => cases attribute_acquired h₂

/-- A call that has yet to reach its end, with the entries of its body: each is still to do or was fed. -/
structure Call.Under (c : Call) (q : Request) (entries : List (String × NormalizedGame)) (a : Archive) : Prop where
  request : c.request = q
  remaining : c.remaining = none
  phase : c.phase ≠ .exhausted
  observed : c.observed = a.observationId q.rawId
  entries : ∀ entry ∈ entries, entry ∈ c.todo ∨ ∃ gid, a.Fed gid q.rawId entry.1

theorem Call.Under.keeps {c : Call} {q : Request} {entries : List (String × NormalizedGame)} {a a' : Archive}
    (h : c.Under q entries a) (hobs : a'.observationId q.rawId = a.observationId q.rawId)
    (hfed : ∀ gid ptr, a.Fed gid q.rawId ptr → a'.Fed gid q.rawId ptr) : c.Under q entries a' := by
  refine ⟨h.request, h.remaining, h.phase, h.observed.trans hobs.symm, fun entry he => ?_⟩
  rcases h.entries entry he with htodo | ⟨gid, hf⟩
  · exact .inl htodo
  · exact .inr ⟨gid, hfed gid _ hf⟩

/-- What a step that leaves the current entry of an uncapped call must have done. -/
theorem Call.Under.act {c d : Call} {q : Request} {entries : List (String × NormalizedGame)} {db db' : Db} {a : Act}
    (h : c.Under q entries db.archive) (hfree : q.Free db) (hact : c.act db a = some (some d, db'))
    (hobs : db'.archive.observationId q.rawId = db.archive.observationId q.rawId)
    (hfed : ∀ gid ptr, db.archive.Fed gid q.rawId ptr → db'.archive.Fed gid q.rawId ptr)
    (hwrote : ∀ pointer g rest prepared now written, c.todo = (pointer, g) :: rest →
      c.writeGame db pointer g prepared now = .ok (written, db') → ∀ gid, written.gameId = some gid →
        db'.archive.Fed gid q.rawId pointer) : d.phase = .returned ∨ d.Under q entries db'.archive := by
  have hfree' : c.request.Free db := by
    rw [h.request]
    exact hfree
  have hkeep := h.keeps hobs hfed
  generalize hd : some d = c' at hact
  cases act_acted hact with
  | checkpoint =>
    cases hd
    exact .inr ⟨hkeep.request, hkeep.remaining, fun hp => (nomatch hp), hkeep.observed, hkeep.entries⟩
  | retain =>
    cases hd
    exact .inr ⟨hkeep.request, hkeep.remaining, fun hp => (nomatch hp), hkeep.observed, hkeep.entries⟩
  | @preflight _ g _ _ _ =>
    obtain ⟨bounds, hbounds, hcases⟩ := preflight_cases hd.symm
    obtain ⟨hadmits, hallow⟩ := bounds_free hfree' h.remaining hbounds g
    rcases hcases with ⟨hnot, _⟩ | ⟨hzero, _⟩ | rfl
    · rw [hadmits] at hnot
      cases hnot
    · rw [hallow] at hzero
      cases hzero
    · exact .inr ⟨hkeep.request, hkeep.remaining, fun hp => (nomatch hp), hkeep.observed, hkeep.entries⟩
  | select hphase _ => exact absurd hphase h.phase
  | @pay now pointer _ _ =>
    obtain ⟨_, _, hnone | ⟨_, hpaid⟩⟩ := pay_cases c db pointer now
    · rw [hnone] at hd
      cases hd
    · cases hd.trans hpaid
      exact .inr ⟨hkeep.request, hkeep.remaining, fun hp => (nomatch hp), hkeep.observed, hkeep.entries⟩
  | @write now prepared pointer g rest _ htodo =>
    rcases write_cases c db pointer g prepared now with ⟨written, hwrite, hcall⟩ | ⟨hdb, hnone | hagain⟩
    · cases hd.trans hcall
      -- an uncapped call excludes nothing, so the entry that it leaves was fed
      obtain ⟨gid, hgid⟩ : ∃ gid, written.gameId = some gid := by
        cases written with
        | excluded => exact absurd hwrite (writeGame_admits hfree' h.remaining)
        | refreshed gid => exact ⟨gid, rfl⟩
        | acquired gid => exact ⟨gid, rfl⟩
      have hf := hwrote pointer g rest prepared now written htodo hwrite gid hgid
      right
      refine ⟨?_, ?_, ?_, ?_, fun entry he => ?_⟩
      · rw [(wrote_request c pointer written).1]
        exact h.request
      · cases written with
        | excluded => exact h.remaining
        | refreshed => exact h.remaining
        | acquired =>
          change c.remaining.map _ = none
          rw [h.remaining]
          rfl
      · cases written <;> exact fun hp => nomatch hp
      · rw [(wrote_request c pointer written).2]
        exact hkeep.observed
      · have htail : (c.wrote pointer written).todo = rest := by
          cases written <;> exact congrArg List.tail htodo
        rw [htail]
        rcases hkeep.entries entry he with hin | hold
        · rw [htodo] at hin
          rcases List.mem_cons.mp hin with rfl | hin
          · exact .inr ⟨gid, hf⟩
          · exact .inl hin
        · exact .inr hold
    · rw [hnone] at hd
      cases hd
    · cases hd.trans hagain
      exact .inr ⟨hkeep.request, hkeep.remaining, fun hp => (nomatch hp), hkeep.observed, hkeep.entries⟩
  | finish =>
    cases hd
    exact .inl rfl

/-! ## One call in a run -/

/-- The worker's call is gone, or over, or under way. -/
def World.Going (s : World) (q : Request) (entries : List (String × NormalizedGame)) (w : Nat) : Prop :=
  ∀ c, s.calls w = some c → c.phase = .returned ∨ c.Under q entries s.db.archive

theorem operated_runs (h : Operated s o t) {run : CrawlRun} (hrun : run ∈ t.db.runs) :
    run ∈ s.db.runs ∨ o = .worker (.createRun run) := by
  cases h with
  | capture => exact .inl hrun
  | observe => exact .inl hrun
  | worker hstep _ =>
    cases hstep with
    | storePayload => exact .inl hrun
    | observe => exact .inl hrun
    | upsert => exact .inl hrun
    | ledger => exact .inl hrun
    | abandon => exact .inl hrun
    | createRun =>
      rcases List.mem_append.mp hrun with hold | hlast
      · exact .inl hold
      · rw [List.mem_singleton.mp hlast]
        exact .inr rfl
    | associate hall =>
      left
      rw [← (associateAll_attributed hall).runs]
      exact hrun
    | start _ hstart =>
      left
      rw [← (startCall_runs hstart).1]
      exact hrun
    | act _ hact =>
      left
      obtain ⟨mid, hruns, _, hattr⟩ := moved_attributes (act_moved hact)
      rw [← hruns, ← hattr.runs]
      exact hrun

theorem operated_observationId (h : Operated s o t) {p : Nat} (hne : ¬ o.observes p) :
    t.db.archive.observationId p = s.db.archive.observationId p := by
  cases h with
  | capture hpersist =>
    obtain ⟨rfl, _, hraw, _⟩ := persistResponse_eq hpersist
    exact observationId_other (a := { s.db.archive with raws := s.db.archive.raws ++ [_] }) (hraw ▸ hne)
  | observe _ hobserve =>
    obtain ⟨rfl, _⟩ := observe_eq hobserve
    exact observationId_other hne
  | worker _ hworked =>
    unfold Archive.observationId
    rw [worked_logs hworked]

theorem setCall_other {w w' : Nat} {c : Option Call} {db : Db} (hne : w' ≠ w) :
    (s.setCall w c db).calls w' = s.calls w' := by
  simp [World.setCall, hne]

variable {q : Request} {entries : List (String × NormalizedGame)} {w : Nat}

theorem going_step (hs : ReplayOk evidence G s) (hfree : q.Free s.db) (hg : s.Going q entries w)
    (hok : Faithful evidence G s o) (hstart : ¬ o.starts w) (hobs : ¬ o.observes q.rawId) (h : Operated s o t) :
    t.Going q entries w := by
  have hid := operated_observationId h hobs
  have hfed : ∀ gid ptr, s.db.archive.Fed gid q.rawId ptr → t.db.archive.Fed gid q.rawId ptr :=
    fun gid ptr => operated_fed hs hok h hobs
  have hold : ∀ c, s.calls w = some c → c.phase = .returned ∨ c.Under q entries t.db.archive :=
    fun c hc => (hg c hc).imp_right fun hu => hu.keeps hid hfed
  have ht := operated_sources hs.sources hok h
  cases h with
  | capture => exact hold
  | observe => exact hold
  | worker hstep _ =>
    cases hstep with
    | storePayload => exact hold
    | observe => exact hold
    | createRun => exact hold
    | upsert => exact hold
    | associate => exact hold
    | ledger => exact hold
    | @start w' _ _ _ _ _ =>
      intro c hc
      rw [setCall_other fun heq => hstart heq.symm] at hc
      exact hold c hc
    | @act w' a c c' db hcall hact =>
      intro d hd
      by_cases hw : w = w'
      · subst hw
        rw [setCall_self] at hd
        subst hd
        have hunder := (hg c hcall).resolve_left (act_running hact)
        refine hunder.act hfree hact hid hfed fun pointer g rest prepared now written htodo hwrite gid hgid => ?_
        rw [← hunder.request]
        refine wrote_feeds hs.sources ht.coherent hcall htodo (writeGame_archive hwrite) ?_ hgid
        refine hs.fed.calls w c hcall (act_running hact) ?_
        rw [hunder.request]
        exact hunder.observed
      · rw [setCall_other hw] at hd
        exact hold d hd
    | @abandon w' =>
      intro d hd
      by_cases hw : w = w'
      · subst hw
        rw [setCall_self] at hd
        cases hd
      · rw [setCall_other hw] at hd
        exact hold d hd

theorem going_start {ptr : String} {g : NormalizedGame} (hq : q.maxGames = none)
    (hlists : s.db.archive.Lists q.rawId ptr g) (h : Operated s (.worker (.start w q)) t) :
    t.Going q [(ptr, g)] w := by
  cases h with
  | worker hstep _ =>
    cases hstep with
    | @start _ _ c db _ hstart =>
      intro d hd
      rw [setCall_self] at hd
      cases hd
      obtain ⟨_, hrequest, _, hrem, raw, hraw, hphase⟩ := startCall_cases hstart
      rcases hphase with ⟨hphase, _, hbegin⟩ | ⟨hphase, _⟩
      · right
        obtain ⟨hobserved, hext, _⟩ := beginNormalization_cases hbegin
        obtain ⟨raw', hraw', htodo⟩ := (startCall_reads hstart).1 hphase
        refine ⟨hrequest, hrem.trans hq, ?_, ?_, fun entry he => ?_⟩
        · rw [hphase]
          exact fun hp => nomatch hp
        · rw [hobserved]
          exact ((startCall_quiet hstart).observationId q.rawId).symm
        · left
          obtain ⟨r, hr, hmem⟩ := hlists
          cases hr.symm.trans hraw'
          rw [List.mem_singleton.mp he, htodo]
          exact hmem
      · exact .inl hphase

/-- A call under way that finishes has fed every entry. -/
theorem going_finish (hs : ReplayOk evidence G s) (hg : s.Going q entries w)
    (hok : Faithful evidence G s (.worker (.act w .finish))) (h : Operated s (.worker (.act w .finish)) t)
    {entry : String × NormalizedGame} (he : entry ∈ entries) : ∃ gid, t.db.archive.Fed gid q.rawId entry.1 := by
  have hfed : ∀ gid ptr, s.db.archive.Fed gid q.rawId ptr → t.db.archive.Fed gid q.rawId ptr :=
    fun gid ptr => operated_fed hs hok h id
  cases h with
  | worker hstep _ =>
    cases hstep with
    | @act _ _ c _ _ hcall hact =>
      cases act_acted hact with
      | finish hphase htodo =>
        have hrunning : c.phase ≠ .returned := by
          rw [hphase]
          exact fun hp => nomatch hp
        rcases ((hg c hcall).resolve_left hrunning).entries entry he with hin | ⟨gid, hf⟩
        · rw [htodo] at hin
          exact absurd hin List.not_mem_nil
        · exact ⟨gid, hfed gid _ hf⟩

end ChessCrawl.Normalize
