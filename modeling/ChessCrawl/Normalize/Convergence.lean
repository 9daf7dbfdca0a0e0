import ChessCrawl.Normalize.Progress
import Mathlib.Data.Finset.Max

/-! The order of normalizations does not matter: however the calls come, once every payload of a game has
been normalized after its last observation, the game shows the listing of the payload whose observation
is the greatest. -/
namespace ChessCrawl.Normalize
open ChessCrawl.Lib
set_option autoImplicit false

/-! ## What the operations say about the archive -/

/-- The fetch log that an operation commits. -/
def Op.log : Op → Option FetchLog
  | .capture _ log => some log
  | .observe log => some log
  | .worker _ => none

/-- Two sequences of operations capture the same bodies and make the same observations. -/
def SameCaptures (ops ops' : List Op) : Prop := ∀ o, o.log.isSome → (o ∈ ops ↔ o ∈ ops')

/-- The order of observations. -/
def FetchLog.rank (l : FetchLog) : Int ×ₗ Nat ×ₗ Nat := toLex (l.attemptedAt, toLex (l.id, l.rawPayloadId))

/-- The operations capture a body with the id that lists the game. -/
def GameIdentity.Listed (G : GameIdentity) (ops : List Op) (rawId : Nat) : Prop :=
  ∃ raw log, Op.capture raw log ∈ ops ∧ raw.id = rawId ∧ ∃ g ∈ raw.games, G.Is g

/-- An observation of a payload of the game. -/
structure GameIdentity.Sees (G : GameIdentity) (ops : List Op) (log : FetchLog) : Prop where
  logged : ∃ o ∈ ops, o.log = some log
  observation : log.observation = true
  listed : G.Listed ops log.rawPayloadId

/-- The observation is the greatest one of the game's payloads. -/
structure GameIdentity.Leading (G : GameIdentity) (ops : List Op) (log : FetchLog) : Prop where
  sees : G.Sees ops log
  greatest : ∀ other, G.Sees ops other → other.rank ≤ log.rank

variable {evidence : String} {G : GameIdentity} {ops ops' : List Op} {s t : World}

theorem SameCaptures.listed (h : SameCaptures ops ops') {rawId : Nat} (hl : G.Listed ops rawId) :
    G.Listed ops' rawId := by
  obtain ⟨raw, log, hmem, hid, hg⟩ := hl
  exact ⟨raw, log, (h _ rfl).mp hmem, hid, hg⟩

theorem SameCaptures.sees (h : SameCaptures ops ops') {log : FetchLog} (hs : G.Sees ops log) : G.Sees ops' log := by
  obtain ⟨o, ho, hlog⟩ := hs.logged
  exact ⟨⟨o, (h o (by rw [hlog]; rfl)).mp ho, hlog⟩, hs.observation, h.listed hs.listed⟩

theorem SameCaptures.leading (h : SameCaptures ops ops') {log : FetchLog} (hl : G.Leading ops log) :
    G.Leading ops' log :=
  ⟨h.sees hl.sees, fun other ho => hl.greatest other
    (SameCaptures.sees (fun o hlog => (h o hlog).symm) ho)⟩

theorem operated_bodies {o : Op} (h : Operated s o t) : s.db.archive.KeepsBodies t.db.archive := by
  cases h with
  | capture hpersist => exact (persistResponse_tables hpersist).bodies
  | observe _ hobserve => exact (observe_tables hobserve).bodies
  | worker _ hworked =>
    cases hworked with
    | quiet hq _ => exact hq.tables.bodies
    | wrote _ _ _ hwrote => exact (wrote_bodies hwrote).keeps

theorem operated_logs {o : Op} (h : Operated s o t) {l : FetchLog} :
    l ∈ t.db.archive.logs ↔ l ∈ s.db.archive.logs ∨ o.log = some l := by
  cases h with
  | capture hpersist =>
    obtain ⟨rfl, _⟩ := persistResponse_eq hpersist
    change l ∈ s.db.archive.logs ++ [_] ↔ _
    rw [List.mem_append, List.mem_singleton]
    exact or_congr_right ⟨fun heq => congrArg some heq.symm, fun heq => (Option.some.inj heq).symm⟩
  | observe _ hobserve =>
    obtain ⟨rfl, _⟩ := observe_eq hobserve
    change l ∈ s.db.archive.logs ++ [_] ↔ _
    rw [List.mem_append, List.mem_singleton]
    exact or_congr_right ⟨fun heq => congrArg some heq.symm, fun heq => (Option.some.inj heq).symm⟩
  | worker _ hworked =>
    rw [worked_logs hworked]
    exact ⟨.inl, fun h => h.resolve_right fun hlog => nomatch hlog⟩

theorem operated_raws {o : Op} (h : Operated s o t) {r : RawPayload} (hr : r ∈ t.db.archive.raws) :
    (∃ old ∈ s.db.archive.raws, old.id = r.id ∧ old.games = r.games) ∨ ∃ log, o = .capture r log := by
  cases h with
  | @capture raw log _ hpersist =>
    obtain ⟨rfl, _⟩ := persistResponse_eq hpersist
    rcases List.mem_append.mp hr with hold | hlast
    · exact .inl ⟨r, hold, rfl, rfl⟩
    · rw [List.mem_singleton.mp hlast]
      exact .inr ⟨log, rfl⟩
  | observe _ hobserve =>
    obtain ⟨rfl, _⟩ := observe_eq hobserve
    exact .inl ⟨r, hr, rfl, rfl⟩
  | worker _ hworked => exact .inl (worked_raws hworked r hr)

/-- Every stored log was committed by an operation, and the other way round. -/
theorem trace_logs (h : Trace replays (Faithful evidence G) World.initial ops s) {l : FetchLog} :
    l ∈ s.db.archive.logs ↔ ∃ o ∈ ops, o.log = some l := by
  constructor
  · refine h.keeps (I := fun s => l ∈ s.db.archive.logs → _) (fun s o t ho hI _ hstep hl => ?_)
      (fun hl => absurd hl List.not_mem_nil)
    rcases (operated_logs (operate_operated hstep)).mp hl with hold | hlog
    · exact hI hold
    · exact ⟨o, ho, hlog⟩
  · rintro ⟨o, ho, hlog⟩
    obtain ⟨pre, post, rfl⟩ := List.append_of_mem ho
    obtain ⟨u, _, hrest⟩ := h.split
    cases hrest with
    | cons _ hstep hpost =>
      refine hpost.keeps (I := fun s => l ∈ s.db.archive.logs) (fun s o t _ hI _ he => ?_) ?_
      · exact (operated_logs (operate_operated he)).mpr (.inl hI)
      · exact (operated_logs (operate_operated hstep)).mpr (.inr hlog)

theorem trace_raws (h : Trace replays (Faithful evidence G) World.initial ops s) {r : RawPayload}
    (hr : r ∈ s.db.archive.raws) : ∃ raw log, Op.capture raw log ∈ ops ∧ raw.id = r.id ∧ raw.games = r.games := by
  refine h.keeps (I := fun s => ∀ r ∈ s.db.archive.raws, ∃ raw log, Op.capture raw log ∈ ops ∧ raw.id = r.id ∧
    raw.games = r.games) (fun s o t ho hI _ hstep r hr => ?_) (fun r hr => absurd hr List.not_mem_nil) r hr
  rcases operated_raws (operate_operated hstep) hr with ⟨old, hold, hid, hgames⟩ | ⟨log, rfl⟩
  · obtain ⟨raw, log, hmem, hraw, hrgames⟩ := hI old hold
    exact ⟨raw, log, hmem, hraw.trans hid, hrgames.trans hgames⟩
  · exact ⟨r, log, ho, rfl, rfl⟩

theorem trace_lists {rawId : Nat} {ptr : String} {g : NormalizedGame}
    (h : Trace replays (Faithful evidence G) s ops t) (hl : s.db.archive.Lists rawId ptr g) :
    t.db.archive.Lists rawId ptr g :=
  h.keeps (I := fun s => s.db.archive.Lists rawId ptr g)
    (fun _ _ _ _ hI _ hstep => (operated_bodies (operate_operated hstep)).lists _ _ _ hI) hl

theorem exists_pointer {raw : RawPayload} {g : NormalizedGame} (hg : g ∈ raw.games) :
    ∃ ptr, (ptr, g) ∈ raw.pointers.zip raw.games := by
  obtain ⟨i, hi, rfl⟩ := List.getElem_of_mem hg
  have hlen : i < (raw.pointers.zip raw.games).length := by
    rw [List.length_zip, RawPayload.pointers, List.length_map, List.length_range, Nat.min_self]
    exact hi
  have hmem := List.getElem_mem hlen
  rw [List.getElem_zip] at hmem
  exact ⟨_, hmem⟩

/-- A captured body is listed from then on. -/
theorem captured_lists {raw : RawPayload} {log : FetchLog} (h : Operated s (.capture raw log) t) {ptr : String}
    {g : NormalizedGame} (hg : (ptr, g) ∈ raw.pointers.zip raw.games) : t.db.archive.Lists raw.id ptr g := by
  cases h with
  | capture hpersist =>
    obtain ⟨rfl, hnew, _⟩ := persistResponse_eq hpersist
    refine ⟨raw, ?_, hg⟩
    change (s.db.archive.raws ++ [raw]).find? _ = some raw
    rw [List.find?_append, show s.db.archive.raws.find? _ = none from hnew, Option.none_or]
    simp

theorem trace_captured {raw : RawPayload} {log : FetchLog} (h : Trace replays (Faithful evidence G) s ops t)
    (hmem : Op.capture raw log ∈ ops) {ptr : String} {g : NormalizedGame}
    (hg : (ptr, g) ∈ raw.pointers.zip raw.games) : t.db.archive.Lists raw.id ptr g := by
  obtain ⟨pre, post, rfl⟩ := List.append_of_mem hmem
  obtain ⟨u, _, hrest⟩ := h.split
  cases hrest with
  | cons _ hstep hpost => exact trace_lists hpost (captured_lists (operate_operated hstep) hg)

/-! ## Normalized payloads -/

/-- The runs are those that the operations create. -/
def World.RunsOf (s : World) (ops : List Op) : Prop := ∀ run ∈ s.db.runs, Op.worker (.createRun run) ∈ ops

theorem runsOf_step {o : Op} (hs : s.RunsOf ops) (ho : o ∈ ops) (h : Operated s o t) : t.RunsOf ops := by
  intro run hrun
  rcases operated_runs h hrun with hold | rfl
  · exact hs run hold
  · exact ho

theorem Request.Uncapped.free {q : Request} (h : q.Uncapped ops) (hs : s.RunsOf ops) : q.Free s.db :=
  ⟨h.maxGames, fun runId hrun run hin hid => h.run runId hrun run (hs run hin) hid⟩

/-- A call that nothing observes its payload under is still going at the end. -/
theorem going_trace {q : Request} {entries : List (String × NormalizedGame)} {w : Nat} {mid : List Op}
    (h : Trace replays (Faithful evidence G) s mid t) (hs : ReplayOk evidence G s) (hr : s.RunsOf ops)
    (hg : s.Going q entries w) (hunc : q.Uncapped ops) (hmem : ∀ o ∈ mid, o ∈ ops)
    (hstarts : ∀ o ∈ mid, ¬ o.starts w) (hobs : ∀ o ∈ mid, ¬ o.observes q.rawId) :
    ReplayOk evidence G t ∧ t.Going q entries w := by
  have hend := h.keeps (I := fun s => ReplayOk evidence G s ∧ s.RunsOf ops ∧ s.Going q entries w)
    (fun u o v ho hI hok hstep => ?_) ⟨hs, hr, hg⟩
  · exact ⟨hend.1, hend.2.2⟩
  · have hop := operate_operated hstep
    exact ⟨replayOk_step hI.1 hok hop, runsOf_step hI.2.1 (hmem o ho) hop,
      going_step hI.1 (hunc.free hI.2.1) hI.2.2 hok (hstarts o ho) (hobs o ho) hop⟩

/-- What a payload has fed stays while it is not observed. -/
theorem fed_trace {gid p : Nat} {ptr : String} {post : List Op} (h : Trace replays (Faithful evidence G) s post t)
    (hs : ReplayOk evidence G s) (hf : s.db.archive.Fed gid p ptr) (hobs : ∀ o ∈ post, ¬ o.observes p) :
    t.db.archive.Fed gid p ptr := by
  refine (h.keeps (I := fun s => ReplayOk evidence G s ∧ s.db.archive.Fed gid p ptr)
    (fun u o v ho hI hok hstep => ?_) ⟨hs, hf⟩).2
  have hop := operate_operated hstep
  exact ⟨replayOk_step hI.1 hok hop, operated_fed hI.1 hok hop (hobs o ho) hI.2⟩

/-- A payload that was normalized after its last observation has fed each of its listings. -/
theorem normalized_fed (h : Trace replays (Faithful evidence G) World.initial ops s) {raw : RawPayload}
    {log : FetchLog} (hmem : Op.capture raw log ∈ ops) (hn : NormalizedAfter ops raw.id) {ptr : String}
    {g : NormalizedGame} (hg : (ptr, g) ∈ raw.pointers.zip raw.games) : ∃ gid, s.db.archive.Fed gid raw.id ptr := by
  obtain ⟨pre, w, q, mid, post, hops, hraw, hunc, hstarts, hmid, hpost⟩ := hn
  have hin : ∀ o, o ∈ pre ∨ o = .worker (.start w q) ∨ o ∈ mid ∨ o = .worker (.act w .finish) ∨ o ∈ post ↔ o ∈ ops := by
    intro o
    rw [hops, List.mem_append, List.mem_cons, List.mem_append, List.mem_cons]
  -- the capture is an observation, so it comes before the call
  have hpre : Op.capture raw log ∈ pre := by
    rcases (hin _).mpr hmem with hpre | heq | hm | heq | hp
    · exact hpre
    · cases heq
    · exact absurd rfl (hmid _ hm)
    · cases heq
    · exact absurd rfl (hpost _ hp)
  rw [hops] at h
  obtain ⟨s₁, h₁, hrest⟩ := h.split
  cases hrest with
  | @cons _ s₂ _ _ _ hok hstart hrest =>
    obtain ⟨s₃, h₃, hrest⟩ := hrest.split
    cases hrest with
    | @cons _ s₄ _ _ _ hokf hfinish hrest =>
      have hr₁ := replayOk_trace h₁ (replayOk_initial evidence G)
      have hr₂ := replayOk_step hr₁ hok (operate_operated hstart)
      have hruns₁ : s₁.RunsOf ops := h₁.keeps (I := fun s => s.RunsOf ops)
        (fun u o v ho hI _ hstep => runsOf_step hI ((hin o).mp (.inl ho)) (operate_operated hstep))
        (fun run hrun => absurd hrun List.not_mem_nil)
      have hruns₂ := runsOf_step hruns₁ ((hin _).mp (.inr (.inl rfl))) (operate_operated hstart)
      have hlists := trace_captured h₁ hpre hg
      rw [← hraw] at hlists hmid hpost ⊢
      have hgoing := going_start hunc.maxGames hlists (operate_operated hstart)
      obtain ⟨hr₃, hgoing₃⟩ := going_trace h₃ hr₂ hruns₂ hgoing hunc
        (fun o ho => (hin o).mp (.inr (.inr (.inl ho)))) hstarts hmid
      obtain ⟨gid, hfed⟩ := going_finish hr₃ hgoing₃ hokf (operate_operated hfinish) List.mem_cons_self
      exact ⟨gid, fed_trace hrest (replayOk_step hr₃ hokf (operate_operated hfinish)) hfed hpost⟩

/-! ## The game -/

/-- The game has a row, and its rows show the listing: the replaced facts and the current revision. -/
def World.Shows (s : World) (G : GameIdentity) (g : NormalizedGame) : Prop :=
  (∃ row ∈ s.db.archive.games, row.provider = G.provider ∧ row.providerGameId = some G.id) ∧
    ∀ row ∈ s.db.archive.games, row.provider = G.provider → row.providerGameId = some G.id →
      row.facts = g.facts ∧ row.contentHash = g.contentHash ∧
      ∃ v ∈ s.db.archive.versions, row.currentVersionId = some v.id ∧ v.contentHash = g.revisionHash

/-- The sources of the game's row are its captured payloads. -/
theorem recorded_listed (h : Trace replays (Faithful evidence G) World.initial ops s) {row : GameRow}
    (hrow : row ∈ s.db.archive.games) (ho : G.Owns row) {p : Nat} (hp : p ∈ s.db.archive.recordedFor row.id) :
    G.Listed ops p := by
  have hs := replayOk_trace h (replayOk_initial evidence G)
  rw [hs.sources.coherent.records] at hp
  obtain ⟨version, ⟨v, hv, hvid, hgame⟩, src, hsrc, hsv, hsr⟩ := hp
  obtain ⟨_, _, _, g, hg, _⟩ := hs.sources.coherent.sources src hsrc
  have his := (hs.identified.sources src hsrc v hv (hvid.trans hsv.symm) row hrow hgame.symm g hg).mpr ho
  obtain ⟨r, hr, hid, hgr⟩ := hg.mem
  obtain ⟨raw, log, hmem, hraw, hgames⟩ := trace_raws h hr
  exact ⟨raw, log, hmem, hraw.trans (hid.trans hsr), g, by rw [hgames]; exact hgr, his⟩

theorem logRank_le {l l' : FetchLog} (h : l.rank ≤ l'.rank) :
    (⟨l.attemptedAt, some l.id, l.rawPayloadId, 0⟩ : Sighting).rank ≤
      (⟨l'.attemptedAt, some l'.id, l'.rawPayloadId, 0⟩ : Sighting).rank := by
  simp only [FetchLog.rank, Sighting.rank, logRank, Prod.Lex.toLex_le_toLex] at h ⊢
  omega

/-- The payload of the greatest observation leads the sources of the game's row. -/
theorem leading_leads (h : Trace replays (Faithful evidence G) World.initial ops s) {log : FetchLog}
    (hl : G.Leading ops log) {row : GameRow} (hrow : row ∈ s.db.archive.games) (ho : G.Owns row) :
    s.db.archive.Leads (s.db.archive.recordedFor row.id) log.rawPayloadId := by
  have hs := replayOk_trace h (replayOk_initial evidence G)
  have hlog : log ∈ s.db.archive.logs := (trace_logs h).mpr hl.sees.logged
  obtain ⟨raw, l, hmem, hraw, g, hg, _⟩ := hl.sees.listed
  obtain ⟨ptr, hin⟩ := exists_pointer hg
  obtain ⟨r, hr, _⟩ := trace_captured h hmem hin
  obtain ⟨hrmem, hrid⟩ := raw_mem hr
  refine ⟨(⟨log.attemptedAt, some log.id, log.rawPayloadId, 0⟩ : Sighting).rank,
    ⟨r, hrmem, hrid.trans hraw, _, mem_sightings_iff.mpr (.inr ⟨log, hlog, ?_, hl.sees.observation, rfl⟩), ?_⟩, ?_⟩
  · rw [hrid, hraw]
  · rw [hrid, hraw]
  · rintro p hp k ⟨r', hr', rfl, sighting, hsight, rfl⟩
    rcases mem_sightings_iff.mp hsight with ⟨hnone, _⟩ | ⟨l', hl', hlraw, hobs, rfl⟩
    · obtain ⟨l', hl', hlraw, hobs⟩ := hs.fed.observed r' hr'
      rw [hnone l' hl' hlraw] at hobs
      cases hobs
    · rw [← hlraw]
      refine logRank_le (hl.greatest l' ⟨(trace_logs h).mp hl', hobs, ?_⟩)
      rw [hlraw]
      exact recorded_listed h hrow ho hp

theorem leading_shows (h : Trace replays (Faithful evidence G) World.initial ops s) {log : FetchLog}
    (hl : G.Leading ops log) {raw : RawPayload} {l : FetchLog} (hmem : Op.capture raw l ∈ ops)
    (hraw : raw.id = log.rawPayloadId) (hn : NormalizedAfter ops raw.id) {ptr : String} {g : NormalizedGame}
    (hg : (ptr, g) ∈ raw.pointers.zip raw.games) (his : G.Is g) : s.Shows G g := by
  have hs := replayOk_trace h (replayOk_initial evidence G)
  obtain ⟨gid, version, g', hsrc, ⟨⟨v, hv, hvid, hgame⟩, _⟩, hlists, ⟨row, hrow, hid⟩, hleads⟩ :=
    normalized_fed h hmem hn hg
  have hgg : g' = g := hlists.unique hs.sources.coherent.single (trace_captured h hmem hg)
  subst hgg
  have howns : G.Owns row :=
    (hs.identified.sources _ hsrc v hv hvid row hrow (hid.trans hgame.symm) g' hlists).mp his
  have hlead := leading_leads h hl hrow howns
  rw [hid, ← hraw] at hlead
  obtain ⟨x, hx, hxid, g₂, hg₂, hxhash⟩ := hs.sources.coherent.sources _ hsrc
  have hcontent := hg₂.unique hs.sources.coherent.single hlists
  refine ⟨⟨row, hrow, howns.provider, howns.id⟩, fun row' hrow' _ hpid => ?_⟩
  have howns' : G.Owns row' := (hs.identified.rows row' hrow').resolve_right fun hf => hf.id hpid
  have heq := hs.identified.one row' hrow' row hrow howns' howns
  obtain ⟨hcur, hfacts, hhash⟩ := hleads hlead row' hrow' (heq.trans hid)
  exact ⟨hfacts, hhash, x, hx, by rw [hcur]; exact congrArg some hxid.symm, hxhash.trans (congrArg _ hcontent)⟩

/-- Some observation of the game's payloads is the greatest. -/
theorem exists_leading (h : Trace replays (Faithful evidence G) World.initial ops s) {rawId : Nat}
    (hl : G.Listed ops rawId) : ∃ log, G.Leading ops log := by
  classical
  have hs := replayOk_trace h (replayOk_initial evidence G)
  obtain ⟨raw, l, hmem, rfl, g, hg, his⟩ := hl
  obtain ⟨ptr, hin⟩ := exists_pointer hg
  obtain ⟨r, hr, _⟩ := trace_captured h hmem hin
  obtain ⟨hrmem, hrid⟩ := raw_mem hr
  obtain ⟨log, hlog, hraw, hobs⟩ := hs.fed.observed r hrmem
  have hsees : G.Sees ops log :=
    ⟨(trace_logs h).mp hlog, hobs, raw, l, hmem, (hrid.symm.trans hraw.symm), g, hg, his⟩
  obtain ⟨top, htop, hmax⟩ := Finset.exists_max_image
    (s.db.archive.logs.toFinset.filter fun l => G.Sees ops l) FetchLog.rank
    ⟨log, Finset.mem_filter.mpr ⟨List.mem_toFinset.mpr hlog, hsees⟩⟩
  refine ⟨top, (Finset.mem_filter.mp htop).2, fun other ho => hmax other (Finset.mem_filter.mpr ⟨?_, ho⟩)⟩
  exact List.mem_toFinset.mpr ((trace_logs h).mpr ho.logged)

/-- Two sequences of captures and normalizations with the same bodies and observations, each of which
normalizes every payload of the game after its last observation, show the same listing of the game: that
of the payload with the greatest observation. -/
theorem normalization_order_irrelevant {s₁ s₂ : World} {ops₁ ops₂ : List Op}
    (h₁ : Trace replays (Faithful evidence G) World.initial ops₁ s₁)
    (h₂ : Trace replays (Faithful evidence G) World.initial ops₂ s₂) (hsame : SameCaptures ops₁ ops₂)
    (hlisted : ∃ rawId, G.Listed ops₁ rawId)
    (hall₁ : ∀ rawId, G.Listed ops₁ rawId → NormalizedAfter ops₁ rawId)
    (hall₂ : ∀ rawId, G.Listed ops₂ rawId → NormalizedAfter ops₂ rawId) :
    ∃ log raw l g, G.Leading ops₁ log ∧ Op.capture raw l ∈ ops₁ ∧ raw.id = log.rawPayloadId ∧ g ∈ raw.games ∧
      G.Is g ∧ s₁.Shows G g ∧ s₂.Shows G g := by
  obtain ⟨rawId, hrawId⟩ := hlisted
  obtain ⟨log, hlog⟩ := exists_leading h₁ hrawId
  obtain ⟨raw, l, hmem, hraw, g, hg, his⟩ := hlog.sees.listed
  obtain ⟨ptr, hin⟩ := exists_pointer hg
  have hl₁ : G.Listed ops₁ raw.id := ⟨raw, l, hmem, rfl, g, hg, his⟩
  refine ⟨log, raw, l, g, hlog, hmem, hraw, hg, his, ?_, ?_⟩
  · exact leading_shows h₁ hlog hmem hraw (hall₁ _ hl₁) hin his
  · exact leading_shows h₂ (hsame.leading hlog) ((hsame _ rfl).mp hmem) hraw (hall₂ _ (hsame.listed hl₁)) hin his

/-! The two bodies of one game, with body 1 observed again at the end of the captures. -/

/-- The game of the two bodies, whose captures list nothing else. -/
def abcd : GameIdentity := ⟨.lichess, "abcd", Set.univ, Set.univ⟩

def listsAbcd (s : World) : Op → Prop
  | .capture raw _ => ∀ g ∈ raw.games, g.provider = .lichess ∧ g.providerGameId = some "abcd"
  | .observe _ => True
  | .worker e => Ordinary "e1" s e

instance (s : World) (o : Op) : Decidable (listsAbcd s o) := by
  unfold listsAbcd
  split <;> infer_instance

theorem faithful_abcd (s : World) (o : Op) (h : listsAbcd s o) : Faithful "e1" abcd s o := by
  cases o with
  | capture raw log =>
    intro g hg
    exact ⟨fun _ => ⟨fun _ _ => trivial, trivial⟩, fun hnot => absurd (h g hg) hnot⟩
  | observe log => trivial
  | worker e => exact h

def capturesOfBoth : List Op :=
  [.capture (bodyOf 1 overFacts "hash-1" "revision-1") ⟨1, 1, 200, 10⟩,
    .capture (bodyOf 2 liveFacts "hash-2" "revision-2") ⟨2, 2, 200, 20⟩, .observe ⟨3, 1, 304, 30⟩]

def bothCalls (first second : Nat) : List Op :=
  List.flatten [capturesOfBoth, (wholeCall first).map .worker, (wholeCall second).map .worker]

theorem bothCalls_normalized (first second rawId : Nat) (h : rawId = first ∨ rawId = second) :
    NormalizedAfter (bothCalls first second) rawId := by
  have hworker : ∀ es : List Event, ∀ o ∈ es.map Op.worker, ¬ o.observes rawId := by
    intro es o ho
    obtain ⟨e, _, rfl⟩ := List.mem_map.mp ho
    exact id
  -- the steps of a whole call between its start and its end
  let acts : List Event := [.act 0 .checkpoint, .act 0 .retain, .act 0 .preflight, .act 0 (.pay 0), .act 0 (.write 0)]
  have hacts : ∀ o ∈ acts.map Op.worker, ¬ o.starts 0 := by
    intro o ho
    obtain ⟨e, he, rfl⟩ := List.mem_map.mp ho
    simp only [acts, List.mem_cons, List.not_mem_nil, or_false] at he
    rcases he with rfl | rfl | rfl | rfl | rfl <;> exact id
  have huncapped : (replayOf rawId).Uncapped (bothCalls first second) := ⟨rfl, fun _ hrun => nomatch hrun⟩
  rcases h with rfl | rfl
  · exact ⟨capturesOfBoth, 0, replayOf rawId, acts.map .worker, (wholeCall second).map .worker, rfl, rfl,
      huncapped, hacts, hworker _, hworker _⟩
  · exact ⟨capturesOfBoth ++ (wholeCall first).map .worker, 0, replayOf rawId, acts.map .worker, [], rfl, rfl,
      huncapped, hacts, hworker _, fun o ho => absurd ho List.not_mem_nil⟩

theorem bothCalls_listed {first second rawId : Nat} (h : abcd.Listed (bothCalls first second) rawId) :
    rawId = 1 ∨ rawId = 2 := by
  obtain ⟨raw, log, hmem, rfl, _⟩ := h
  simp only [bothCalls, capturesOfBoth, List.flatten_cons, List.flatten_nil, List.append_nil, List.mem_append,
    List.mem_cons, List.not_mem_nil, or_false, List.mem_map] at hmem
  rcases hmem with (heq | heq | heq) | ⟨e, _, heq⟩ | ⟨e, _, heq⟩
  · cases heq
    exact .inl rfl
  · cases heq
    exact .inr rfl
  · cases heq
  · cases heq
  · cases heq

theorem normalization_order_irrelevant_recurring : ∃ s₁ s₂ : World,
    Trace replays (Faithful "e1" abcd) World.initial (bothCalls 1 2) s₁ ∧
    Trace replays (Faithful "e1" abcd) World.initial (bothCalls 2 1) s₂ ∧
    ∃ log raw l g, abcd.Leading (bothCalls 1 2) log ∧ Op.capture raw l ∈ bothCalls 1 2 ∧
      raw.id = log.rawPayloadId ∧ g ∈ raw.games ∧ abcd.Is g ∧ s₁.Shows abcd g ∧ s₂.Shows abcd g := by
  have hrun : ∀ first second, (exec replays listsAbcd World.initial (bothCalls first second)).isSome = true →
      ∃ s, Trace replays (Faithful "e1" abcd) World.initial (bothCalls first second) s := by
    intro first second hsome
    obtain ⟨s, hs⟩ := Option.isSome_iff_exists.mp hsome
    exact ⟨s, (Trace.of_exec _ hs).mono faithful_abcd⟩
  obtain ⟨s₁, h₁⟩ := hrun 1 2 (by decide +kernel)
  obtain ⟨s₂, h₂⟩ := hrun 2 1 (by decide +kernel)
  refine ⟨s₁, s₂, h₁, h₂, normalization_order_irrelevant h₁ h₂ ?_ ⟨1, ?_⟩ ?_ ?_⟩
  · intro o _
    simp only [bothCalls, List.flatten_cons, List.flatten_nil, List.append_nil, List.mem_append]
    exact or_congr_right or_comm
  · exact ⟨_, _, List.mem_cons_self, rfl, _, List.mem_cons_self, rfl, rfl⟩
  · exact fun rawId hl => bothCalls_normalized 1 2 rawId (bothCalls_listed hl)
  · exact fun rawId hl => bothCalls_normalized 2 1 rawId (bothCalls_listed hl).symm

end ChessCrawl.Normalize
