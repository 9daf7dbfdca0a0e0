import ChessCrawl.Collection.Demand

/-! The steps of a job by itself, one program point at a time. Every step takes away from what is left: payloads to
replay, follow-ups to refresh, gaps to cover, the extent of the newest gap, the room for a larger page, and the steps of
the call; and what the job demands of its page budget stays the same. -/
namespace ChessCrawl.Collection
open ChessCrawl.Lib
set_option autoImplicit false

variable {env : Env} {P : Finset ProviderGame} {Q : PageKey → List GameObject → Prop} {job : Nat} {x₀ x : Exec}
  {since : Option Int} {upto : Int} {db db' : Db} {c : Cursor}

/-! ## Tables that matter to the measure -/

structure Db.Alike (env : Env) (db db' : Db) : Prop where
  sound : db.Sound env
  sound' : db'.Sound env
  ranges : db'.sourceRanges = db.sourceRanges
  followups : db'.followups = db.followups

theorem Db.Alike.windows (h : db.Alike env db') (since : Option Int) (upto : Int) :
    db'.missingWindows since upto = db.missingWindows since upto := missingWindows_same h.sound h.sound' h.ranges since upto

theorem Db.Alike.aim (h : db.Alike env db') (mode : Mode) (c : Cursor) : db'.aim mode c = db.aim mode c := by
  unfold Db.aim
  rw [h.windows]

theorem Db.Alike.replayable (h : db.Alike env db') (c : Cursor) : db'.replayable c = db.replayable c := by
  unfold Db.replayable
  rw [h.ranges]

theorem Db.Alike.awaited (h : db.Alike env db') (c : Cursor) : db'.awaited c = db.awaited c := by
  unfold Db.awaited
  rw [h.followups]

theorem Db.Alike.work (h : db.Alike env db') (x₀ : Exec) (c : Cursor) (rank : Nat) :
    db'.work x₀ c rank = db.work x₀ c rank := by
  unfold Db.work
  rw [h.replayable, h.awaited, h.windows, h.aim]

theorem Db.Alike.aimed (h : db.Alike env db') {mode : Mode} {t : Target} (ha : Aimed mode db c t) : Aimed mode db' c t := by
  cases t with
  | followup ref rows full =>
    obtain ⟨hphase, hsorted, hrows⟩ := ha
    exact ⟨hphase, hsorted, fun r hr => by rw [h.awaited]; exact hrows r hr⟩
  | page k =>
    obtain ⟨hphase, hk, haim⟩ := ha
    exact ⟨hphase, hk, by rw [h.aim]; exact haim⟩

/-- The same work with fewer steps of the call ahead. -/
theorem before_rank {rank rank' : Nat} (h : rank' < rank) : Before (db.work x₀ c rank') (db.work x₀ c rank) := by
  unfold Db.work Before
  cases c.phase <;> simp only [Nat.lt_irrefl, true_and, false_or] <;> exact h

theorem Db.Alike.before (h : db.Alike env db') {rank rank' : Nat} (hr : rank' < rank) :
    Before (db'.work x₀ c rank') (db.work x₀ c rank) := by
  rw [h.work]
  exact before_rank hr

/-- What a step of the run has to give: the job is done and had no page ahead, or it is on track with less left and with
the same pages ahead, as long as its pages are the provider's. -/
def Progress (Q : PageKey → List GameObject → Prop) (P : Finset ProviderGame) (job : Nat) (x₀ : Exec) (since : Option Int)
    (upto : Int) (db : Db) (call : Option Call) (db' : Db) (next : Option Call) : Prop :=
  (next = none ∧ (∃ c, db'.checkpoints job = some c ∧ c.done = true) ∧ db.affords P job x₀ since upto call) ∨
    ((∀ k body, Q k body → IsPage P k body) →
        (db'.affords P job x₀ since upto next ↔ db.affords P job x₀ since upto call)) ∧ OwnLogs Q job db' ∧
      OnTrack Q job x₀ since upto db' next ∧ Before (db'.left job x₀ next) (db.left job x₀ call)

theorem affords_idle (h : db.checkpoints job = some c) :
    db.affords P job x₀ since upto none ↔ CursorFits P x₀ db c := by
  constructor
  · intro hall
    exact hall c h
  · intro hfits c' hc'
    rw [h] at hc'
    cases hc'
    exact hfits

theorem affords_saved : (db.saveCheckpoint job c).affords P job x₀ since upto none ↔ CursorFits P x₀ db c :=
  affords_idle (show (db.saveCheckpoint job c).checkpoints job = some c from Function.update_self _ _ _)

theorem Db.Alike.cursorFits (h : db.Alike env db') : CursorFits P x₀ db' c ↔ CursorFits P x₀ db c := by
  unfold CursorFits
  rw [h.windows]

theorem OwnLogs.frame (h : OwnLogs Q job db) (hlogs : db'.fetchLogs = db.fetchLogs)
    (hraws : db'.rawPayloads = db.rawPayloads) : OwnLogs Q job db' := by
  intro f hf hjob p hp
  rw [hlogs] at hf
  refine h f hf hjob p ?_
  unfold Db.rawPayload at hp ⊢
  rwa [hraws] at hp

theorem Obtained.frame {t : Target} {raw : Nat} (h : Obtained Q db t raw) (hraws : db'.rawPayloads = db.rawPayloads) :
    Obtained Q db' t raw := by
  obtain ⟨p, hp, hrest⟩ := h
  refine ⟨p, ?_, hrest⟩
  unfold Db.rawPayload at hp ⊢
  rwa [hraws]

/-- Queuing a child touches nothing that matters. -/
theorem enqueue_alike (hs : db.Sound env) (raw fetch : Nat) (mg : Option Nat) (run : Option Nat) :
    db.Alike env (db.enqueuePayloadNormalization raw fetch mg job run) ∧
      (db.enqueuePayloadNormalization raw fetch mg job run).checkpoints = db.checkpoints ∧
      (db.enqueuePayloadNormalization raw fetch mg job run).fetchLogs = db.fetchLogs ∧
      (db.enqueuePayloadNormalization raw fetch mg job run).rawPayloads = db.rawPayloads := by
  have hext := Db.Extends.enqueue hs raw fetch mg job run
  obtain ⟨cs, heq⟩ := Db.enqueue_frame db raw fetch mg job run
  refine ⟨⟨hs, hext.sound, ?_, ?_⟩, ?_, ?_, ?_⟩ <;> rw [heq]

/-! ## Starting -/

theorem creating_progress (hlogs : OwnLogs Q job db) (hx : x₀.Same x) (hnow : x.nowMs = x₀.nowMs)
    (ha : Accepted x₀ since upto) (clock : Int) (i : Input) :
    ∃ db' next, (Call.creating x).advance env job clock db i = some (db', next) ∧
      Progress Q P job x₀ since upto db (some (.creating x)) db' next := by
  obtain ⟨given, hs, hu, rfl, hle⟩ := ha
  refine ⟨db, some (.pinning x since (given.getD x₀.nowMs) (if x.params.mode = .backfill then ⟨since, given.getD x.nowMs⟩
    else (db.missingWindows since (given.getD x.nowMs)).headD ⟨some (given.getD x.nowMs), given.getD x.nowMs⟩)), ?_,
    .inr ⟨fun _ => Iff.rfl, hlogs, ⟨hx, rfl, rfl, fun hb => ?_⟩, .inl (Nat.lt_succ_self 4)⟩⟩
  · have hwindow : ¬ (since.any fun s => decide (given.getD x.nowMs < s)) = true := by
      rw [hnow]
      cases since with
      | none => simp
      | some a =>
        have := hle a rfl
        simpa using this
    rw [Call.advance, hx.params, hs, hu]
    dsimp only
    rw [if_neg hwindow, ← hnow]
  · rw [hx.params, if_pos hb, hnow]

theorem pinning_progress (hz : x₀.Sized) (hlogs : OwnLogs Q job db) (hx : x₀.Same x) {first : Span}
    (hfirst : x₀.params.mode = .backfill → first = ⟨since, upto⟩) (clock : Int) (i : Input) :
    ∃ db' next, (Call.pinning x since upto first).advance env job clock db i = some (db', next) ∧
      Progress Q P job x₀ since upto db (some (.pinning x since upto first)) db' next := by
  refine ⟨db, _, rfl, .inr ⟨fun _ => ?_, hlogs, ⟨hx, ⟨?_, rfl, rfl, ?_, rfl⟩⟩, .inl (Nat.lt_succ_self 3)⟩⟩
  · unfold Db.affords CursorFits Affordable
    dsimp only
    rw [hx.page]
    split
    · next hb =>
      rw [hfirst hb]
    · exact ahead_pageSize
  · change x.params.fingerprint = _
    rw [hx.params]
  · change 1 ≤ x.pageSize
    rw [hx.page]
    exact hz.page

theorem saving_progress (hlogs : OwnLogs Q job db) (hx : x₀.Same x) (hc : c.Open x₀ since upto) (clock : Int) (i : Input) :
    ∃ db' next, (Call.saving x c).advance env job clock db i = some (db', next) ∧
      Progress Q P job x₀ since upto db (some (.saving x c)) db' next := by
  refine ⟨db.saveCheckpoint job c, _, rfl,
    .inr ⟨fun _ => Iff.rfl, hlogs.frame rfl rfl, ⟨hx, hc, Function.update_self _ _ _⟩, .inl ?_⟩⟩
  change (Db.work _ x₀ c _).1 < 3
  unfold Db.work
  split <;> simp

/-- A call reads its first rows. -/
theorem start_progress (hz : x₀.Sized) (hk : db.Keyed) (hlogs : OwnLogs Q job db) (hx : x₀.Same x) (hc : c.Open x₀ since upto)
    (hsaved : db.checkpoints job = some c) (clock : Int) (i : Input) :
    ∃ db' next, (Call.running x c .start).advance env job clock db i = some (db', next) ∧
      Progress Q P job x₀ since upto db (some (.running x c .start)) db' next := by
  change ∃ db' next, Pc.advance env job clock db i x c .start = some (db', next) ∧ _
  have hbatch : 0 < x.batchSize := by
    rw [hx.batch]
    exact hz.batch
  rw [Pc.advance]
  cases hphase : c.phase with
  | stored =>
    dsimp only
    generalize hrows : db.coveredSources c.upperMs c.localAfter c.localHighWater x.batchSize c.requestedSinceMs = rows
    obtain ⟨hsorted, hin⟩ := coveredSources_sorted hk c x.batchSize
    rw [hrows] at hsorted hin
    refine ⟨_, _, rfl, .inr ⟨fun _ => Iff.rfl, hlogs,
      ⟨hx, hc, hsaved, hphase, hsorted, hin, fun hnil hlong => ?_⟩, before_rank ?_⟩⟩
    · rw [hnil] at hlong
      exact absurd hbatch (by simpa using hlong)
    · cases rows with
      | nil =>
        rw [List.length_nil, decide_eq_true hbatch]
        exact Nat.lt_succ_self 8
      | cons raw rows => exact Nat.lt_succ_self 8
  | followups =>
    dsimp only
    generalize hrows : db.followupRefs c.followupAfter x.batchSize = rows
    obtain ⟨hsorted, hin⟩ := followupRefs_sorted hk c x.batchSize
    rw [hrows] at hsorted hin
    refine ⟨_, _, rfl, .inr ⟨fun _ => Iff.rfl, hlogs, ⟨hx, hc, hsaved, hphase, hsorted, hin⟩, before_rank ?_⟩⟩
    cases rows with
    | nil =>
      have hshort : decide (([] : List GameRef).length = x.batchSize) = false := decide_eq_false hbatch.ne
      rw [hshort]
      exact Nat.lt_succ_self 8
    | cons ref rows => exact Nat.lt_succ_self 8
  | pages => exact ⟨_, _, rfl, .inr ⟨fun _ => Iff.rfl, hlogs, ⟨hx, hc, hphase⟩, before_rank (Nat.lt_succ_self 8)⟩⟩

/-! ## Replaying stored payloads -/

theorem stored_progress (hs : db.Sound env) (hlogs : OwnLogs Q job db) (hx : x₀.Same x) (hc : c.Open x₀ since upto)
    {raw : Nat} {sources : List Nat} {short : Bool}
    (ht : PcTrack Q job x₀.params.mode db x c (.stored (raw :: sources) short)) (clock : Int) {i : Input}
    (hstop : i.stop = false) :
    ∃ db' next, (Call.running x c (.stored (raw :: sources) short)).advance env job clock db i = some (db', next) ∧
      Progress Q P job x₀ since upto db (some (.running x c (.stored (raw :: sources) short))) db' next := by
  change ∃ db' next, Pc.advance env job clock db i x c (.stored (raw :: sources) short) = some (db', next) ∧ _
  obtain ⟨_, hphase, hsorted, hin, _⟩ := ht
  rw [Pc.advance, hstop]
  simp only [Bool.false_eq_true, if_false]
  refine ⟨_, _, rfl, .inr ?_⟩
  split
  · obtain ⟨halike, _, hfetch, hraws⟩ := @enqueue_alike env job db hs raw _ none (env.jobRun job)
    refine ⟨fun _ => halike.cursorFits, hlogs.frame hfetch hraws, ⟨hx, hc, hphase, hsorted, fun r hr => ?_⟩,
      halike.before (Nat.lt_succ_self 7)⟩
    have hold := hin r hr
    rw [← halike.replayable] at hold
    exact hold
  · exact ⟨fun _ => Iff.rfl, hlogs, ⟨hx, hc, hphase, hsorted, hin⟩, before_rank (Nat.lt_succ_self 7)⟩

theorem mem_replayable {r : Nat} : r ∈ db.replayable c ↔
    (∃ row ∈ db.sourceRanges, Db.overlaps row c.requestedSinceMs c.upperMs = true ∧ row.rawPayloadId = r) ∧
      c.localAfter < r ∧ r ≤ c.localHighWater := by
  unfold Db.replayable
  simp only [List.mem_map, List.mem_filter, Bool.and_eq_true, decide_eq_true_eq]
  constructor
  · rintro ⟨row, ⟨hrow, ⟨hover, hlow⟩, hhigh⟩, rfl⟩
    exact ⟨⟨row, hrow, hover, rfl⟩, hlow, hhigh⟩
  · rintro ⟨⟨row, hrow, hover, rfl⟩, hlow, hhigh⟩
    exact ⟨row, ⟨hrow, ⟨hover, hlow⟩, hhigh⟩, rfl⟩

/-- A list without repetitions that lacks an element of another is shorter. -/
theorem length_lt_of_missing {α : Type} {l l' : List α} {a : α} (hn : l.Nodup) (hsub : ∀ b ∈ l, b ∈ l') (ha : a ∈ l')
    (hout : a ∉ l) : l.length < l'.length := by
  have hcons : (a :: l).Nodup := List.nodup_cons.mpr ⟨hout, hn⟩
  have hall : (a :: l) ⊆ l' := by
    intro b hb
    rcases List.mem_cons.mp hb with rfl | hb
    · exact ha
    · exact hsub b hb
  exact (List.subperm_of_subset hcons hall).length_le

theorem replayed_progress (hk : db.Keyed) (hlogs : OwnLogs Q job db) (hx : x₀.Same x)
    (hc : c.Open x₀ since upto) {raw : Nat} {sources : List Nat} {short : Bool}
    (ht : PcTrack Q job x₀.params.mode db x c (.replayed raw sources short)) (clock : Int) (i : Input) :
    ∃ db' next, (Call.running x c (.replayed raw sources short)).advance env job clock db i = some (db', next) ∧
      Progress Q P job x₀ since upto db (some (.running x c (.replayed raw sources short))) db' next := by
  change ∃ db' next, Pc.advance env job clock db i x c (.replayed raw sources short) = some (db', next) ∧ _
  obtain ⟨hphase, hsorted, hin⟩ := ht
  obtain ⟨hlater, hrest⟩ := List.pairwise_cons.mp hsorted
  obtain ⟨⟨row, hrow, hover, hid⟩, hlow, hhigh⟩ := mem_replayable.mp (hin raw List.mem_cons_self)
  have hsub : ∀ r, r ∈ db.replayable { c with localAfter := raw } → r ∈ db.replayable c := by
    intro r hr
    obtain ⟨hrow, hr, hr'⟩ := mem_replayable.mp hr
    exact mem_replayable.mpr ⟨hrow, lt_trans hlow hr, hr'⟩
  rw [Pc.advance]
  refine ⟨_, _, rfl, .inr ⟨fun _ => Iff.rfl, hlogs.frame rfl rfl, ⟨⟨hx.params, hx.batch, hx.page, hx.most⟩,
    ⟨hc.fingerprint, hc.since, hc.upper, hc.limit, hc.unfinished⟩, Function.update_self _ _ _, hphase, hrest,
    fun r hr => ?_, fun _ _ => Nat.succ_pos _⟩, ?_⟩⟩
  · obtain ⟨hrow, _, hr'⟩ := mem_replayable.mp (hin r (List.mem_cons_of_mem _ hr))
    exact mem_replayable.mpr ⟨hrow, hlater r hr, hr'⟩
  · change Before (db.work x₀ { c with localAfter := raw } _) (db.work x₀ c _)
    unfold Db.work
    rw [hphase]
    refine .inr ⟨rfl, .inl ?_⟩
    refine length_lt_of_missing ?_ hsub (hin raw List.mem_cons_self) fun hmem => ?_
    · exact hk.ranges.sublist (List.filter_sublist.map _)
    · exact absurd (mem_replayable.mp hmem).2.1 (lt_irrefl raw)

theorem storedEnd_progress (hlogs : OwnLogs Q job db) (hx : x₀.Same x) (hc : c.Open x₀ since upto) {short : Bool}
    (ht : PcTrack Q job x₀.params.mode db x c (.stored [] short)) (clock : Int) (i : Input) :
    ∃ db' next, (Call.running x c (.stored [] short)).advance env job clock db i = some (db', next) ∧
      Progress Q P job x₀ since upto db (some (.running x c (.stored [] short))) db' next := by
  change ∃ db' next, Pc.advance env job clock db i x c (.stored [] short) = some (db', next) ∧ _
  obtain ⟨hsaved, hphase, _, _, hpos⟩ := ht
  rw [Pc.advance]
  cases short with
  | true =>
    have hc' : Cursor.Open x₀ since upto { c with phase := .followups } :=
      ⟨hc.fingerprint, hc.since, hc.upper, hc.limit, hc.unfinished⟩
    -- the phase is over
    have hless : ∀ rank rank' (db' : Db), Before (db'.work x₀ { c with phase := .followups } rank') (db.work x₀ c rank) := by
      intro rank rank' db'
      unfold Db.work
      rw [hphase]
      exact .inl (Nat.lt_succ_self 1)
    simp only [if_true]
    split
    · refine ⟨_, _, rfl, .inr ⟨fun _ => affords_saved, hlogs.frame rfl rfl, ⟨_, Function.update_self _ _ _, hc'⟩, ?_⟩⟩
      unfold Db.left
      rw [show (db.saveCheckpoint job { c with phase := .followups }).checkpoints job = _ from Function.update_self _ _ _]
      exact hless _ _ _
    · exact ⟨_, _, rfl, .inr ⟨fun _ => Iff.rfl, hlogs.frame rfl rfl, ⟨hx, hc', Function.update_self _ _ _⟩, hless _ _ _⟩⟩
  | false =>
    simp only [Bool.false_eq_true, if_false]
    rw [if_pos (hpos rfl rfl)]
    refine ⟨_, _, rfl, .inr ⟨fun _ => affords_idle hsaved, hlogs, ⟨c, hsaved, hc⟩, ?_⟩⟩
    unfold Db.left
    rw [hsaved]
    exact before_rank (Nat.lt_succ_self 10)

/-! ## Follow-ups -/

theorem followups_progress (hlogs : OwnLogs Q job db) (hx : x₀.Same x) (hc : c.Open x₀ since upto) {ref : GameRef}
    {rows : List GameRef} {full : Bool} (ht : PcTrack Q job x₀.params.mode db x c (.followups (ref :: rows) full))
    (clock : Int) {i : Input} (hstop : i.stop = false) :
    ∃ db' next, (Call.running x c (.followups (ref :: rows) full)).advance env job clock db i = some (db', next) ∧
      Progress Q P job x₀ since upto db (some (.running x c (.followups (ref :: rows) full))) db' next := by
  change ∃ db' next, Pc.advance env job clock db i x c (.followups (ref :: rows) full) = some (db', next) ∧ _
  obtain ⟨_, hphase, hsorted, hin⟩ := ht
  rw [Pc.advance, hstop]
  simp only [Bool.false_eq_true, if_false]
  exact ⟨_, _, rfl, .inr ⟨fun _ => Iff.rfl, hlogs, ⟨hx, hc, hphase, hsorted, hin⟩, before_rank (Nat.lt_succ_self 7)⟩⟩

theorem followupsEnd_progress (hlogs : OwnLogs Q job db) (hx : x₀.Same x) (hc : c.Open x₀ since upto) {full : Bool}
    (ht : PcTrack Q job x₀.params.mode db x c (.followups [] full)) (clock : Int) (i : Input) :
    ∃ db' next, (Call.running x c (.followups [] full)).advance env job clock db i = some (db', next) ∧
      Progress Q P job x₀ since upto db (some (.running x c (.followups [] full))) db' next := by
  change ∃ db' next, Pc.advance env job clock db i x c (.followups [] full) = some (db', next) ∧ _
  obtain ⟨hsaved, hphase, _, _⟩ := ht
  rw [Pc.advance]
  cases full with
  | true =>
    simp only [if_true]
    refine ⟨_, _, rfl, .inr ⟨fun _ => affords_idle hsaved, hlogs, ⟨c, hsaved, hc⟩, ?_⟩⟩
    unfold Db.left
    rw [hsaved]
    exact before_rank (Nat.lt_succ_self 10)
  | false =>
    have hc' : Cursor.Open x₀ since upto { c with phase := .pages } :=
      ⟨hc.fingerprint, hc.since, hc.upper, hc.limit, hc.unfinished⟩
    have hless : ∀ rank rank' (db' : Db), Before (db'.work x₀ { c with phase := .pages } rank') (db.work x₀ c rank) := by
      intro rank rank' db'
      unfold Db.work
      rw [hphase]
      exact .inl (Nat.lt_succ_self 0)
    simp only [Bool.false_eq_true, if_false]
    split
    · refine ⟨_, _, rfl, .inr ⟨fun _ => affords_saved, hlogs.frame rfl rfl, ⟨_, Function.update_self _ _ _, hc'⟩, ?_⟩⟩
      unfold Db.left
      rw [show (db.saveCheckpoint job { c with phase := .pages }).checkpoints job = _ from Function.update_self _ _ _]
      exact hless _ _ _
    · exact ⟨_, _, rfl, .inr ⟨fun _ => Iff.rfl, hlogs.frame rfl rfl, ⟨hx, hc', rfl⟩, hless _ _ _⟩⟩

theorem mem_awaited {r : GameRef} : r ∈ db.awaited c ↔
    r ∈ db.followups.map Prod.fst ∧ ∀ a, c.followupAfter = some a → a < r := by
  unfold Db.awaited
  rw [List.mem_filter]
  cases c.followupAfter <;> simp

theorem trackGame_others {g : GameObject} {ref : GameRef} (hg : g.id = some ref) (h : db.trackGame g = some db') {r : GameRef}
    (hr : r ≠ ref) : r ∈ db'.followups.map Prod.fst ↔ r ∈ db.followups.map Prod.fst := by
  unfold Db.trackGame at h
  rw [hg] at h
  split at h
  · next ref' created status hid _ _ =>
    cases hid
    split at h
    · cases h
    · cases h
      unfold Db.trackFollowup
      split
      · simp only [List.mem_map, List.mem_filter]
        constructor
        · rintro ⟨f, ⟨hf, _⟩, rfl⟩
          exact ⟨f, hf, rfl⟩
        · rintro ⟨f, hf, rfl⟩
          exact ⟨f, ⟨hf, decide_eq_true hr⟩, rfl⟩
      · split
        · rfl
        · simp [hr]
  · cases h

/-- A follow-up that has been refreshed or is gone: the others are left. -/
theorem passed_progress (hfits : CursorFits P x₀ db' c ↔ CursorFits P x₀ db c) (hk : db'.Keyed)
    (hlogs : OwnLogs Q job db') (hx : x₀.Same x) (hc : c.Open x₀ since upto)
    {ref : GameRef} {rows : List GameRef} {full : Bool} {pc : Pc} (ha : Aimed x₀.params.mode db c (.followup ref rows full))
    (hpc : db.affords P job x₀ since upto (some (.running x c pc)) ↔ CursorFits P x₀ db c)
    (hothers : ∀ r, r ≠ ref → (r ∈ db'.followups.map Prod.fst ↔ r ∈ db.followups.map Prod.fst)) :
    Progress Q P job x₀ since upto db (some (.running x c pc)) (db'.saveCheckpoint job { c with followupAfter := some ref })
      (some (.running { x with processed := x.processed + 1 } { c with followupAfter := some ref } (.followups rows full))) := by
  obtain ⟨hphase, hsorted, hin⟩ := ha
  obtain ⟨hlater, hrest⟩ := List.pairwise_cons.mp hsorted
  obtain ⟨_, hafter⟩ := mem_awaited.mp (hin ref List.mem_cons_self)
  refine .inr ⟨fun _ => hfits.trans hpc.symm, hlogs.frame rfl rfl, ⟨⟨hx.params, hx.batch, hx.page, hx.most⟩,
    ⟨hc.fingerprint, hc.since, hc.upper, hc.limit, hc.unfinished⟩, Function.update_self _ _ _, hphase, hrest,
    fun r hr => ?_⟩, ?_⟩
  · have hlt := hlater r hr
    obtain ⟨hold, _⟩ := mem_awaited.mp (hin r (List.mem_cons_of_mem _ hr))
    refine mem_awaited.mpr ⟨(hothers r hlt.ne').mpr hold, fun a ha => ?_⟩
    cases ha
    exact hlt
  · change Before (db'.work x₀ { c with followupAfter := some ref } _) (db.work x₀ c _)
    unfold Db.work
    rw [hphase]
    refine .inr ⟨rfl, .inl ?_⟩
    refine length_lt_of_missing (hk.followups.filter _) (fun r hr => ?_) (hin ref List.mem_cons_self) fun hmem => ?_
    · obtain ⟨hnew, hgt⟩ := mem_awaited.mp hr
      have hlt : ref < r := hgt ref rfl
      exact mem_awaited.mpr ⟨(hothers r hlt.ne').mp hnew, fun a ha => lt_trans (hafter a ha) hlt⟩
    · exact absurd ((mem_awaited.mp hmem).2 ref rfl) (lt_irrefl ref)

theorem refreshed_progress (hk : db.Keyed) (hlogs : OwnLogs Q job db) (hx : x₀.Same x) (hc : c.Open x₀ since upto)
    {ref : GameRef} {rows : List GameRef} {full : Bool} {raw : Nat}
    (ht : PcTrack Q job x₀.params.mode db x c (.fetched (.followup ref rows full) raw)) (clock : Int) (i : Input) :
    ∃ db' next, (Call.running x c (.fetched (.followup ref rows full) raw)).advance env job clock db i = some (db', next) ∧
      Progress Q P job x₀ since upto db (some (.running x c (.fetched (.followup ref rows full) raw))) db' next := by
  change ∃ db' next, Pc.advance env job clock db i x c (.fetched (.followup ref rows full) raw) = some (db', next) ∧ _
  obtain ⟨ha, p, hp, _, g, hbody, hid, hg⟩ := ht
  obtain ⟨mid, hmid⟩ : ∃ mid, db.trackGame g = some mid := by
    obtain ⟨mid, hmid⟩ := @trackGames_some [g] db (by simpa using hg)
    obtain ⟨mid', hmid', _⟩ := Option.bind_eq_some_iff.mp (hmid : (db.trackGame g).bind _ = some mid)
    exact ⟨mid', hmid'⟩
  have hframe := Db.trackGame_frame hmid
  rw [Pc.advance, hp, Option.map_some, hbody]
  simp only [hid, if_true, hmid]
  refine ⟨_, _, rfl, passed_progress ?_ ⟨?_, Db.trackGame_nodup hk.followups hmid⟩ (hlogs.frame ?_ ?_) hx hc ha Iff.rfl
    fun r hr => trackGame_others hid hmid hr⟩
  · rw [hframe]
    rfl
  · rw [hframe]
    exact hk.ranges
  · rw [hframe]
  · rw [hframe]

theorem vanished_progress (hs : db.Sound env) (hk : db.Keyed) (hlogs : OwnLogs Q job db) (hx : x₀.Same x) (hc : c.Open x₀ since upto)
    {ref : GameRef} {rows : List GameRef} {full : Bool} {status : Nat} {message : String}
    (ht : PcTrack Q job x₀.params.mode db x c (.refused (.followup ref rows full) status message)) (clock : Int) (i : Input) :
    ∃ db' next, (Call.running x c (.refused (.followup ref rows full) status message)).advance env job clock db i =
        some (db', next) ∧
      Progress Q P job x₀ since upto db (some (.running x c (.refused (.followup ref rows full) status message))) db' next := by
  change ∃ db' next, Pc.advance env job clock db i x c (.refused (.followup ref rows full) status message) =
    some (db', next) ∧ _
  obtain ⟨ha, hstatus⟩ := ht
  have hext : db.Extends env (db.recordFailure (.followup ref) status message x.now) := .recordCoverage hs _ _ (by simp)
  obtain ⟨cov, heq⟩ := Db.recordFailure_frame db (.followup ref) status message x.now
  rw [heq] at hext
  rw [Pc.advance, heq]
  simp only [hstatus, if_true]
  refine ⟨_, _, rfl, passed_progress ?_ ?_ ?_ hx hc ha Iff.rfl fun r _ => ?_⟩
  · exact Db.Alike.cursorFits ⟨hs, hext.sound, rfl, rfl⟩
  · exact ⟨hk.ranges, hk.followups⟩
  · exact hlogs.frame rfl rfl
  · rfl

/-! ## Responses -/

/-- A reused acquisition is one of the job's own. -/
theorem latestJobPayload_own {src : Source} {raw fetch : Nat} (h : db.latestJobPayload job src = some (raw, fetch)) :
    ∃ f ∈ db.fetchLogs, f.jobId = job ∧ f.rawPayloadId = raw := by
  unfold Db.latestJobPayload at h
  obtain ⟨f, hf, heq⟩ := Option.map_eq_some_iff.mp h
  cases heq
  obtain ⟨hmem, hspec⟩ := List.mem_filter.mp (Db.latestLog_mem hf)
  exact ⟨f, hmem, (of_decide_eq_true hspec).1, rfl⟩

theorem reused_obtained (hlogs : OwnLogs Q job db) {t : Target} {raw fetch : Nat}
    (h : db.latestJobPayload job t.source = some (raw, fetch)) : Obtained Q db t raw := by
  obtain ⟨p, hp, hsrc⟩ := Db.latestJobPayload_spec h
  obtain ⟨f, hf, hjob, hraw⟩ := latestJobPayload_own h
  refine ⟨p, hp, hsrc, ?_⟩
  rw [← hsrc]
  exact hlogs f hf hjob p (by rw [hraw]; exact hp)

theorem fetching_progress (hs : db.Sound env) (hlogs : OwnLogs Q job db) (hx : x₀.Same x) (hc : c.Open x₀ since upto)
    {t : Target} (ht : PcTrack Q job x₀.params.mode db x c (.fetching t)) (clock : Int) (i : Input) :
    ∃ db' next, (Call.running x c (.fetching t)).advance env job clock db i = some (db', next) ∧
      Progress Q P job x₀ since upto db (some (.running x c (.fetching t))) db' next := by
  change ∃ db' next, Pc.advance env job clock db i x c (.fetching t) = some (db', next) ∧ _
  rw [Pc.advance]
  split
  · next raw fetch hl =>
    have hfound : db.latestJobPayload job t.source = some (raw, fetch) := by
      split at hl
      · exact hl
      · cases hl
    obtain ⟨halike, _, hfetch, hraws⟩ := @enqueue_alike env job db hs raw fetch t.maxGames (env.jobRun job)
    refine ⟨_, _, rfl, .inr ⟨fun _ => halike.cursorFits, hlogs.frame hfetch hraws, ⟨hx, hc, halike.aimed ht, ?_⟩,
      halike.before ?_⟩⟩
    · exact (reused_obtained hlogs hfound).frame hraws
    · change 4 < 7
      decide
  · exact ⟨_, _, rfl, .inr ⟨fun _ => Iff.rfl, hlogs, ⟨hx, hc, ht⟩, before_rank (Nat.lt_succ_self 6)⟩⟩

theorem captured_progress (hs : db.Sound env) (hlogs : OwnLogs Q job db) (hx : x₀.Same x) (hc : c.Open x₀ since upto)
    {t : Target} {raw fetch : Nat} (ht : PcTrack Q job x₀.params.mode db x c (.captured t raw fetch)) (clock : Int)
    (i : Input) :
    ∃ db' next, (Call.running x c (.captured t raw fetch)).advance env job clock db i = some (db', next) ∧
      Progress Q P job x₀ since upto db (some (.running x c (.captured t raw fetch))) db' next := by
  change ∃ db' next, Pc.advance env job clock db i x c (.captured t raw fetch) = some (db', next) ∧ _
  obtain ⟨ha, hobtained⟩ := ht
  obtain ⟨halike, _, hfetch, hraws⟩ := @enqueue_alike env job db hs raw fetch t.maxGames (env.jobRun job)
  rw [Pc.advance]
  exact ⟨_, _, rfl, .inr ⟨fun _ => halike.cursorFits, hlogs.frame hfetch hraws,
    ⟨hx, hc, halike.aimed ha, hobtained.frame hraws⟩,
    halike.before (Nat.lt_succ_self 4)⟩⟩

/-- What the provider sends is a response that the job may store. -/
theorem Steady.admits (hS : Steady env P Q) {t : Target} {body : List GameObject} (hserved : Serves P t (.ok body)) :
    t.source.Admits Q body := by
  cases t with
  | page k => exact hS.kept k body hserved
  | followup ref rows full => exact hserved

/-- A payload with a new fetch log of the job. -/
theorem captured_own (hs : db.Sound env) (hlogs : OwnLogs Q job db) {t : Target} {body : List GameObject}
    (hown : t.source.Admits Q body) (requestedAt clock : Int) :
    OwnLogs Q job ((db.storeRawPayload t.source body requestedAt).1.insertFetchLog job
      (db.storeRawPayload t.source body requestedAt).2 clock).1 := by
  obtain ⟨q, hq, hqsrc, hqbody⟩ := held_capture hs.numbered t.source body requestedAt
  intro f hf hjob p hp
  change (db.storeRawPayload t.source body requestedAt).1.rawPayload f.rawPayloadId = some p at hp
  have hlogs' : (db.storeRawPayload t.source body requestedAt).1.fetchLogs = db.fetchLogs := by
    obtain ⟨raws, heq⟩ := Db.storeRawPayload_frame db t.source body requestedAt
    rw [heq]
  rcases List.mem_append.mp hf with hf | hf
  · rw [hlogs'] at hf
    rcases Db.storeRawPayload_cases db t.source body requestedAt with ⟨_, _, _, _, heq⟩ | heq
    · rw [heq] at hp
      exact hlogs f hf hjob p hp
    · rw [heq] at hp
      obtain ⟨hmem, hid⟩ := Db.rawPayload_mem hp
      rcases List.mem_append.mp hmem with hmem | hmem
      · refine hlogs f hf hjob p ?_
        rw [← hid]
        exact hs.numbered.rawPayload_eq hmem
      · rw [List.mem_singleton.mp hmem]
        exact hown
  · rw [List.mem_singleton.mp hf] at hp
    rw [hq] at hp
    cases hp
    rw [hqbody, hqsrc]
    exact hown

theorem requested_progress (hS : Steady env P Q) (hs : db.Sound env) (hlogs : OwnLogs Q job db) (hx : x₀.Same x)
    (hc : c.Open x₀ since upto) {t : Target} {requestedAt : Int} (ht : PcTrack Q job x₀.params.mode db x c (.requested t requestedAt)) (clock : Int)
    {i : Input} (hserved : Serves P t i.response) :
    ∃ db' next, (Call.running x c (.requested t requestedAt)).advance env job clock db i = some (db', next) ∧
      Progress Q P job x₀ since upto db (some (.running x c (.requested t requestedAt))) db' next := by
  change ∃ db' next, Pc.advance env job clock db i x c (.requested t requestedAt) = some (db', next) ∧ _
  rw [Pc.advance]
  cases hresponse : i.response with
  | failed status message =>
    rw [hresponse] at hserved
    cases t with
    | page k => exact absurd hserved id
    | followup ref rows full =>
      refine ⟨_, _, rfl, .inr ⟨fun _ => Iff.rfl, hlogs, ⟨hx, hc, ht, hserved⟩, before_rank ?_⟩⟩
      change 4 < 6
      decide
  | ok body =>
    rw [hresponse] at hserved
    have hanswered : t.answered env body = true := by
      cases t with
      | page k => exact hS.sent k body hserved
      | followup ref rows full => rfl
    have hpages : ∀ k, t.source = .page k → env.answers k body = true := by
      intro k hk
      cases t with
      | page k' =>
        cases hk
        exact hS.sent k body hserved
      | followup ref rows full => cases hk
    have hext := Db.Extends.capture hs t.source body requestedAt hpages
    obtain ⟨raws, heq⟩ := Db.storeRawPayload_frame db t.source body requestedAt
    have halike : db.Alike env ((db.storeRawPayload t.source body requestedAt).1.insertFetchLog job
        (db.storeRawPayload t.source body requestedAt).2 clock).1 := by
      refine ⟨hs, Db.Extends.sound (hext.trans (.frame hext.sound rfl rfl rfl rfl)), ?_, ?_⟩
      · change (db.storeRawPayload t.source body requestedAt).1.sourceRanges = _
        rw [heq]
      · change (db.storeRawPayload t.source body requestedAt).1.followups = _
        rw [heq]
    simp only [hanswered, if_true]
    refine ⟨_, _, rfl, .inr ⟨fun _ => halike.cursorFits,
      captured_own hs hlogs (hS.admits hserved) requestedAt clock, ⟨hx, hc, halike.aimed ht, ?_⟩,
      halike.before (Nat.lt_succ_self 5)⟩⟩
    obtain ⟨q, hq, hqsrc, hqbody⟩ := held_capture hs.numbered t.source body requestedAt
    refine ⟨q, hq, hqsrc, ?_⟩
    rw [hqbody]
    exact hS.admits hserved

/-! ## Planning a page -/

theorem replan_covered_window (hb : x.params.mode ≠ .backfill) (hm : db.missingWindows c.requestedSinceMs c.upperMs = []) :
    (replan db x c).sinceMs = some (replan db x c).untilMs := by
  rw [replan, if_neg hb, hm]
  rfl

theorem replan_gap (hb : x.params.mode ≠ .backfill) {g : Span} {gs : List Span}
    (hm : db.missingWindows c.requestedSinceMs c.upperMs = g :: gs) :
    replan db x c = { c with
      sinceMs := g.lower, untilMs := g.upper, limit := if g = ⟨c.sinceMs, c.untilMs⟩ then c.limit else x.pageSize } := by
  have hiff : (g.lower, g.upper) ≠ (c.sinceMs, c.untilMs) ↔ ¬ g = ⟨c.sinceMs, c.untilMs⟩ := by
    cases g
    simp
  rw [replan, if_neg hb, hm]
  simp only [List.headD_cons, hiff]
  rw [ite_not]

theorem work_pages (hphase : c.phase = .pages) (rank : Nat) : db.work x₀ c rank =
    (0, if x₀.params.mode = .backfill then 0 else (db.missingWindows c.requestedSinceMs c.upperMs).length,
      (((db.aim x₀.params.mode c).map Span.upper).getD 0).toNat,
      x₀.maxPageSize + 1 - (if db.aim x₀.params.mode c = some ⟨c.sinceMs, c.untilMs⟩ then c.limit else 0), rank) := by
  unfold Db.work
  rw [hphase]

/-- A call plans the newest gap, or finds nothing missing. -/
theorem paging_progress (hz : x₀.Sized) (hlogs : OwnLogs Q job db) (hx : x₀.Same x) (hc : c.Open x₀ since upto)
    (ht : PcTrack Q job x₀.params.mode db x c .paging) (clock : Int) {i : Input} (hstop : i.stop = false) :
    ∃ db' next, (Call.running x c .paging).advance env job clock db i = some (db', next) ∧
      Progress Q P job x₀ since upto db (some (.running x c .paging)) db' next := by
  change ∃ db' next, Pc.advance env job clock db i x c .paging = some (db', next) ∧ _
  have hphase : c.phase = .pages := ht
  have hmode : x.params.mode = x₀.params.mode := by rw [hx.params]
  rw [Pc.advance, hstop]
  simp only [Bool.false_eq_true, if_false]
  by_cases hb : x₀.params.mode = .backfill
  · have hsame : replan db x c = c := by rw [replan, if_pos (hmode.trans hb)]
    rw [hsame]
    split
    · next heq =>
      refine ⟨_, _, rfl, .inr ⟨fun _ => Iff.rfl, hlogs, ⟨hx, hc, hphase, ?_⟩, before_rank (Nat.lt_succ_self 7)⟩⟩
      rw [if_pos hb]
      exact heq
    · refine ⟨_, _, rfl, .inr ⟨fun _ => Iff.rfl, hlogs, ⟨hx, hc, hphase, rfl, ?_⟩, before_rank (Nat.lt_succ_self 7)⟩⟩
      rw [Db.aim, if_pos hb]
  · have hb' : x.params.mode ≠ .backfill := by rwa [hmode]
    have haim : db.aim x₀.params.mode c = (db.missingWindows c.requestedSinceMs c.upperMs).head? := by
      rw [Db.aim, if_neg hb]
    cases hm : db.missingWindows c.requestedSinceMs c.upperMs with
    | nil =>
      rw [if_pos (replan_covered_window hb' hm)]
      refine ⟨_, _, rfl, .inr ⟨fun _ => ?_, hlogs, ⟨hx, ?_, ?_⟩, ?_⟩⟩
      · rw [replan, if_neg hb', hm]
        unfold Db.affords CursorFits
        simp only [if_neg hb, hm, Ahead]
      · rw [replan, if_neg hb', hm]
        refine ⟨hc.fingerprint, hc.since, hc.upper, ?_, hc.unfinished⟩
        dsimp only
        split
        · rw [hx.page]
          exact hz.page
        · exact hc.limit
      · rw [replan, if_neg hb']
        refine ⟨hphase, ?_⟩
        rw [if_neg hb]
        exact hm
      · rw [replan, if_neg hb', hm]
        unfold Db.left Db.work
        simp only [hphase, Db.aim, if_neg hb, hm, List.head?_nil, Option.map_none, reduceCtorEq, if_false]
        exact .inr ⟨rfl, .inr ⟨rfl, .inr ⟨rfl, .inr ⟨rfl, Nat.lt_succ_self 7⟩⟩⟩⟩
    | cons g gs =>
      rw [replan_gap hb' hm]
      have hne : ¬ g.lower = some g.upper := by
        intro heq
        have hfull := missing_nonempty ⟨c.requestedSinceMs, c.upperMs⟩ db.coveredSpans g
          (by change g ∈ db.missingWindows _ _; rw [hm]; exact List.mem_cons_self)
        rw [Span.isEmpty, heq] at hfull
        simp at hfull
      rw [if_neg hne]
      rw [hm, List.head?_cons] at haim
      refine ⟨_, _, rfl, .inr ⟨fun _ => ?_, hlogs,
        ⟨hx, ⟨hc.fingerprint, hc.since, hc.upper, ?_, hc.unfinished⟩, hphase, rfl, ?_⟩, ?_⟩⟩
      · unfold Db.affords CursorFits
        simp only [if_neg hb, hm, Ahead, if_true, hx.page]
      · dsimp only
        split
        · exact hc.limit
        · rw [hx.page]
          exact hz.page
      · rw [Db.aim, if_neg hb, hm]
        rfl
      · by_cases hg : g = ⟨c.sinceMs, c.untilMs⟩
        · rw [if_pos hg, hg]
          exact before_rank (Nat.lt_succ_self 7)
        · unfold Db.left Db.work
          simp only [hphase, Db.aim, if_neg hb, hm, List.head?_cons, Option.map_some, Option.getD_some, if_true,
            Option.some.injEq, if_neg hg]
          refine .inr ⟨rfl, .inr ⟨rfl, .inr ⟨rfl, .inl ?_⟩⟩⟩
          have hpage := hz.page
          have hsame := hx.page
          dsimp only
          omega

theorem closing_progress (hc : c.Open x₀ since upto) (ht : PcTrack Q job x₀.params.mode db x c .closing) (clock : Int)
    (i : Input) :
    ∃ db' next, (Call.running x c .closing).advance env job clock db i = some (db', next) ∧
      Progress Q P job x₀ since upto db (some (.running x c .closing)) db' next := by
  obtain ⟨cov, heq⟩ := Db.commitCovered_frame db job c x.now
  obtain ⟨_, hempty⟩ := ht
  refine ⟨db.commitCovered job c x.now, none, rfl, .inl ⟨rfl, ⟨{ c with done := true }, ?_, rfl⟩, ?_⟩⟩
  · rw [heq]
    exact Function.update_self _ _ _
  · change CursorFits P x₀ db c
    unfold CursorFits
    split
    · next hb =>
      rw [if_pos hb] at hempty
      refine fits_empty (r := ⟨c.sinceMs, c.untilMs⟩) ?_ hc.limit
      rw [Span.isEmpty, hempty]
      simp
    · next hb =>
      rw [if_neg hb] at hempty
      rw [hempty]
      trivial

/-! ## Recording a page -/

/-- A recorded page covers what it proves and no more. -/
theorem recordPage_covers (hs : db.Sound env) {k : PageKey} {raw : Nat} {p : RawPayload} (hp : db.rawPayload raw = some p)
    (hsrc : p.source = .page k) {ts : List Int} {r : Span} (hts : pageTimestamps k p.body = some ts)
    (hr : provenSpan k p.body ts = some r) (hrec : db.recordPage k raw p.body = some db') (t : Int) :
    db'.CoveredAt t ↔ db.CoveredAt t ∨ t ∈ r := by
  obtain ⟨hext, ts', r', hts', hr', hcov⟩ := recordPage_extends hs hp hsrc hrec
  rw [hts] at hts'
  cases hts'
  rw [hr] at hr'
  cases hr'
  obtain ⟨ts', r', hts', hr', heq⟩ := Db.recordPage_spec hrec
  rw [hts] at hts'
  cases hts'
  rw [hr] at hr'
  cases hr'
  constructor
  · rintro ⟨span, hspan, ht⟩
    obtain ⟨row, hrow, rfl⟩ := List.mem_map.mp hspan
    rw [heq] at hrow
    rcases Db.recordSourceRange_cases db raw r.lower r.upper with ⟨_, hsame⟩ | hnew
    · rw [hsame] at hrow
      exact .inl ⟨_, List.mem_map_of_mem hrow, ht⟩
    · rw [hnew] at hrow
      rcases List.mem_append.mp hrow with hrow | hrow
      · exact .inl ⟨_, List.mem_map_of_mem hrow, ht⟩
      · rw [List.mem_singleton.mp hrow] at ht
        exact .inr ht
  · rintro (ht | ht)
    · exact coveredAt_mono hext.ranges ht
    · exact hcov t ht

/-- The gaps after a page for the newest of them. -/
theorem recordPage_gaps (hs : db.Sound env) (hs' : db'.Sound env) {k : PageKey} {raw : Nat} {p : RawPayload}
    (hp : db.rawPayload raw = some p) (hsrc : p.source = .page k) {ts : List Int} {r : Span}
    (hts : pageTimestamps k p.body = some ts) (hr : provenSpan k p.body ts = some r)
    (hrec : db.recordPage k raw p.body = some db') {gs : List Span} (hm : db.missingWindows since upto = k.span :: gs) :
    (rangeDone k p.body = true → db'.missingWindows since upto = gs) ∧
      ∀ oldest, rangeDone k p.body = false → ts.getLast? = some oldest →
        db'.missingWindows since upto = ⟨k.since, oldest + 1⟩ :: gs := by
  have hcovers := recordPage_covers hs hp hsrc hts hr hrec
  rw [missingWindows_ranges hs] at hm
  rw [missingWindows_ranges hs']
  refine ⟨fun hdone => ?_, fun oldest hfull hlast => ?_⟩
  · rw [provenSpan, if_pos hdone] at hr
    cases hr
    exact missing_head hm hcovers
  · rw [provenSpan, hfull, hlast] at hr
    simp only [Bool.false_eq_true, if_false, Option.map_some, Option.some.injEq] at hr
    obtain ⟨hlow, hup⟩ := (pageTimestamps_spec hts).inside oldest (List.mem_of_getLast? hlast)
    refine missing_head_part hm ?_ ?_ fun t => ?_
    · rw [Int.add_sub_cancel]
      exact hlow
    · exact hup
    · rw [← hr] at hcovers
      exact hcovers t

/-- What a page for the newest gap does to the gaps. -/
theorem aimed_gaps (hs : db.Sound env) (hs' : db'.Sound env) {k : PageKey} {raw : Nat} {p : RawPayload}
    (hb : x₀.params.mode ≠ .backfill) (ha : Aimed x₀.params.mode db c (.page k)) (hp : db.rawPayload raw = some p)
    (hsrc : p.source = .page k) {ts : List Int} {r : Span} (hts : pageTimestamps k p.body = some ts)
    (hr : provenSpan k p.body ts = some r) (hrec : db.recordPage k raw p.body = some db') :
    ∃ gs, db.missingWindows c.requestedSinceMs c.upperMs = ⟨c.sinceMs, c.untilMs⟩ :: gs ∧
      (rangeDone k p.body = true → db'.missingWindows c.requestedSinceMs c.upperMs = gs) ∧
      ∀ oldest, rangeDone k p.body = false → ts.getLast? = some oldest →
        db'.missingWindows c.requestedSinceMs c.upperMs = ⟨c.sinceMs, oldest + 1⟩ :: gs := by
  obtain ⟨_, hk, haim⟩ := ha
  rw [Db.aim, if_neg hb] at haim
  obtain ⟨gs, hm⟩ := List.head?_eq_some_iff.mp haim
  have hspan : k.span = ⟨c.sinceMs, c.untilMs⟩ := by
    rw [hk]
    rfl
  have hgaps := recordPage_gaps hs hs' hp hsrc hts hr hrec (hm.trans (by rw [hspan]))
  refine ⟨gs, hm, hgaps.1, fun oldest hfull hlast => ?_⟩
  rw [hgaps.2 oldest hfull hlast, hk]

/-- A full page has an oldest game. -/
theorem exists_oldest {k : PageKey} {body : List GameObject} {ts : List Int} (hlimit : 1 ≤ k.limit)
    (hlen : ts.length = body.length) (hfull : rangeDone k body = false) : ∃ oldest, ts.getLast? = some oldest := by
  have hge : ¬ body.length < k.limit := of_decide_eq_false hfull
  have hne : ts ≠ [] := by
    intro hnil
    rw [hnil, List.length_nil] at hlen
    omega
  exact ⟨_, List.getLast?_eq_some_getLast hne⟩

/-- Recording the page leaves the demand of the job as it was. -/
theorem recorded_fits {k : PageKey} {raw : Nat} {p : RawPayload} {ts : List Int} (hpage : IsPage P k p.body)
    (hk : k = ⟨c.sinceMs, c.untilMs, c.limit⟩) (hlimit : 1 ≤ k.limit)
    (hp : db'.rawPayload raw = some p) (hts : pageTimestamps k p.body = some ts)
    (hgaps : x₀.params.mode ≠ .backfill →
      ∃ gs, db.missingWindows c.requestedSinceMs c.upperMs = ⟨c.sinceMs, c.untilMs⟩ :: gs ∧
        (rangeDone k p.body = true → db'.missingWindows c.requestedSinceMs c.upperMs = gs) ∧
        ∀ oldest, rangeDone k p.body = false → ts.getLast? = some oldest →
          db'.missingWindows c.requestedSinceMs c.upperMs = ⟨c.sinceMs, oldest + 1⟩ :: gs) :
    PageFits P x₀ db' c k raw ↔ CursorFits P x₀ db c := by
  have htimes : ts = (gameTimes P k.span).take k.limit := by
    rw [hpage.timestamps, hpage.times_eq] at hts
    exact (Option.some.inj hts).symm
  have hlength := hpage.length_eq
  have hself : GapFits P x₀ c.limit ⟨c.sinceMs, c.untilMs⟩ ↔ Fits P x₀.pageSize x₀.maxPageSize k := by
    rw [hk]
    rfl
  cases hd : rangeDone k p.body with
  | true =>
    have hshort : p.body.length < k.limit := of_decide_eq_true hd
    have hwhole : GapFits P x₀ c.limit ⟨c.sinceMs, c.untilMs⟩ := hself.mpr (.whole (by omega))
    rw [pageFits_whole hp hts hd]
    unfold CursorFits
    split
    · next hb => exact iff_of_true (fun hne => absurd hb hne) hwhole
    · next hb =>
      obtain ⟨gs, hm, hdone, _⟩ := hgaps hb
      rw [hm, hdone hd, Ahead, if_pos rfl]
      exact ⟨fun h => ⟨hwhole, h hb⟩, fun h _ => h.2⟩
  | false =>
    have hlong : ¬ p.body.length < k.limit := of_decide_eq_false hd
    have hfull : k.limit ≤ (gameTimes P k.span).length := by omega
    obtain ⟨oldest, hlast⟩ := exists_oldest hlimit (pageTimestamps_spec hts).length_eq hd
    have hmore := hself.trans (fits_more hfull (htimes ▸ hlast))
    rw [← htimes] at hmore
    rw [pageFits_full hp hts hd hlast, ← and_assoc]
    have hnext : GapFits P x₀ (nextPage x₀.pageSize k ts oldest).2 ⟨c.sinceMs, oldest + 1⟩ ↔
        Fits P x₀.pageSize x₀.maxPageSize ⟨k.since, oldest + 1, (nextPage x₀.pageSize k ts oldest).2⟩ := by
      rw [hk]
      rfl
    rw [hnext, ← hmore]
    unfold CursorFits
    split
    · next hb => exact ⟨fun h => h.1, fun h => ⟨h, fun hne => absurd hb hne⟩⟩
    · next hb =>
      obtain ⟨gs, hm, _, hpart⟩ := hgaps hb
      rw [hm, hpart oldest hd hlast, Ahead, if_pos rfl]
      exact ⟨fun h => ⟨h.1, h.2 hb⟩, fun h => ⟨h.1, fun _ => h.2⟩⟩

theorem fetchedPage_progress (hS : Steady env P Q) (hs : db.Sound env) (hlogs : OwnLogs Q job db) (hx : x₀.Same x)
    (hc : c.Open x₀ since upto) {k : PageKey} {raw : Nat}
    (ht : PcTrack Q job x₀.params.mode db x c (.fetched (.page k) raw)) (clock : Int) (i : Input) :
    ∃ db' next, (Call.running x c (.fetched (.page k) raw)).advance env job clock db i = some (db', next) ∧
      Progress Q P job x₀ since upto db (some (.running x c (.fetched (.page k) raw))) db' next := by
  change ∃ db' next, Pc.advance env job clock db i x c (.fetched (.page k) raw) = some (db', next) ∧ _
  obtain ⟨ha, p, hp, hsrc, hbody⟩ := ht
  obtain ⟨hphase, hk, haim⟩ := ha
  have hlimit : 1 ≤ k.limit := by
    rw [hk]
    exact hc.limit
  obtain ⟨ts, r, db', hts, hlen, hpos, hr, hrec⟩ := (hS.legal k p.body hbody).recorded hlimit db raw
  have hs' := (recordPage_extends hs hp hsrc hrec).1.sound
  have hframe := Db.recordPage_frame hrec
  have hp' : db'.rawPayload raw = some p := by
    unfold Db.rawPayload at hp ⊢
    rw [hframe]
    exact hp
  have hgaps := fun hb => aimed_gaps hs hs' hb ⟨hphase, hk, haim⟩ hp hsrc hts hr hrec
  rw [Pc.advance, hp]
  simp only [Option.bind_some, hrec]
  have hfits := fun hQ : ∀ k body, Q k body → IsPage P k body =>
    @recorded_fits P x₀ db db' c k raw p ts (hQ k p.body hbody) hk hlimit hp' hts hgaps
  refine ⟨_, _, rfl, .inr ⟨hfits, hlogs.frame ?_ ?_, ⟨hx, hc, hphase, hk, p, ts, hp', hts, hlen, hpos, fun hb => ?_⟩, ?_⟩⟩
  · rw [hframe]
  · rw [hframe]
  · obtain ⟨gs, hm, hdone, hfull⟩ := hgaps hb
    have hfrag := missing_fragments ⟨c.requestedSinceMs, c.upperMs⟩ db.coveredSpans
    change Fragments (db.missingWindows _ _) at hfrag
    rw [hm] at hfrag
    exact ⟨gs, hfrag, hdone, hfull⟩
  · unfold Db.left
    simp only [work_pages hphase]
    by_cases hb : x₀.params.mode = .backfill
    · simp only [Pc.rank, Db.aim, if_pos hb, if_true]
      exact .inr ⟨rfl, .inr ⟨rfl, .inr ⟨rfl, .inr ⟨rfl, Nat.lt_succ_self 3⟩⟩⟩⟩
    · obtain ⟨gs, hm, hdone, hfull⟩ := hgaps hb
      by_cases hd : rangeDone k p.body = true
      · simp only [if_neg hb, hm, hdone hd]
        exact .inr ⟨rfl, .inl (Nat.lt_succ_self gs.length)⟩
      · have hd' : rangeDone k p.body = false := by simpa using hd
        obtain ⟨oldest, hlast⟩ := exists_oldest hlimit hlen hd'
        have hmem := List.mem_of_getLast? hlast
        have hnonneg := hpos oldest hmem
        have hbelow : oldest < k.upto := ((pageTimestamps_spec hts).inside oldest hmem).2
        have huntil : k.upto = c.untilMs := by rw [hk]
        simp only [if_neg hb, Pc.rank, Db.aim, hm, hfull oldest hd' hlast, List.head?_cons, Option.map_some, Option.getD_some]
        refine .inr ⟨rfl, .inr ⟨rfl, ?_⟩⟩
        by_cases heq : oldest + 1 = c.untilMs
        · rw [heq]
          simp only [if_true]
          exact .inr ⟨trivial, .inr ⟨trivial, Nat.lt_succ_self 3⟩⟩
        · refine .inl ?_
          dsimp only
          omega

theorem recorded_progress (hlogs : OwnLogs Q job db) (hx : x₀.Same x) (hc : c.Open x₀ since upto) {k : PageKey} {raw : Nat}
    (ht : PcTrack Q job x₀.params.mode db x c (.recorded k raw)) (clock : Int) (i : Input) :
    ∃ db' next, (Call.running x c (.recorded k raw)).advance env job clock db i = some (db', next) ∧
      Progress Q P job x₀ since upto db (some (.running x c (.recorded k raw))) db' next := by
  change ∃ db' next, Pc.advance env job clock db i x c (.recorded k raw) = some (db', next) ∧ _
  have hkept : PageKept x₀.params.mode db c k raw := ht
  obtain ⟨_, _, p, _, hp, _⟩ := ht
  rw [Pc.advance, hp]
  refine ⟨_, _, rfl, .inr ⟨fun _ => Iff.rfl, hlogs, ⟨hx, hc, hkept, fun q hq => ?_⟩, before_rank ?_⟩⟩
  · rw [hp] at hq
    cases hq
    rw [hx.params]
  · simp only [Pc.rank]
    split
    · exact Nat.lt_succ_self 2
    · exact Nat.lt_succ_self 12

/-! ## After a page -/

section Judged
variable {k : PageKey} {raw : Nat} {done : Bool} {p : RawPayload} {ts : List Int} (clock : Int) (i : Input)

theorem advance_whole (hp : db.rawPayload raw = some p) (hts : pageTimestamps k p.body = some ts)
    (hd : rangeDone k p.body = true) : (Call.running x c (.judged k raw done)).advance env job clock db i =
      some (db.commitPage job c k raw true done x.now, none) := by
  change Pc.advance env job clock db i x c (.judged k raw done) = _
  rw [Pc.advance, hp]
  simp only [Option.bind_some, hts, Option.map_some, hd, if_true]

theorem advance_saturated (hp : db.rawPayload raw = some p) (hts : pageTimestamps k p.body = some ts)
    (hd : rangeDone k p.body = false) {oldest : Int} (hlast : ts.getLast? = some oldest)
    (hnext : (nextPage x.pageSize k ts oldest).2 ≤ x.maxPageSize) :
    (Call.running x c (.judged k raw done)).advance env job clock db i =
      some (db.commitPage job { c with untilMs := oldest + 1, limit := (nextPage x.pageSize k ts oldest).2 } k raw false done
        x.now, none) := by
  change Pc.advance env job clock db i x c (.judged k raw done) = _
  rw [Pc.advance, hp]
  simp only [Option.bind_some, hts, Option.map_some, hd, Bool.false_eq_true, if_false, hlast, if_neg (not_lt.mpr hnext)]
  rfl

end Judged

theorem commitPage_alike (hs : db.Sound env) (k : PageKey) (raw : Nat) (whole done : Bool) (now : Int)
    (hs' : (db.commitPage job c k raw whole done now).Sound env) :
    db.Alike env (db.commitPage job c k raw whole done now) ∧
      (db.commitPage job c k raw whole done now).checkpoints job = some (if done then { c with done := true } else c) ∧
      (db.commitPage job c k raw whole done now).fetchLogs = db.fetchLogs ∧
      (db.commitPage job c k raw whole done now).rawPayloads = db.rawPayloads := by
  obtain ⟨cov, heq⟩ := Db.commitPage_frame db job c k raw whole done now
  refine ⟨⟨hs, hs', ?_, ?_⟩, ?_, ?_, ?_⟩ <;> rw [heq]
  · rfl
  · rfl
  · exact Function.update_self _ _ _
  · rfl
  · rfl

/-- The next limit leaves less room, also where the page was the whole of the gap. -/
theorem nextPage_limit {pageSize : Nat} (hpage : 0 < pageSize) {k : PageKey} (hlimit : 1 ≤ k.limit) (ts : List Int)
    (oldest : Int) : 0 < (nextPage pageSize k ts oldest).2 ∧ (oldest + 1 = k.upto → k.limit < (nextPage pageSize k ts oldest).2) := by
  unfold nextPage
  dsimp only
  constructor
  · split
    · omega
    · omega
  · intro heq
    rw [if_pos heq.ge]
    omega

/-- A page within the budget: the job is done, or the cursor moves on. -/
theorem judged_progress (hz : x₀.Sized) (hs : db.Sound env) (hlogs : OwnLogs Q job db) (hx : x₀.Same x)
    (hc : c.Open x₀ since upto) {k : PageKey} {raw : Nat} {done : Bool}
    (ht : PcTrack Q job x₀.params.mode db x c (.judged k raw done)) (hok : CallOk db (.running x c (.judged k raw done)))
    (hfits : ∀ p ts oldest, db.rawPayload raw = some p → pageTimestamps k p.body = some ts → rangeDone k p.body = false →
      ts.getLast? = some oldest → (nextPage x.pageSize k ts oldest).2 ≤ x.maxPageSize) (clock : Int) (i : Input) :
    ∃ db' next, (Call.running x c (.judged k raw done)).advance env job clock db i = some (db', next) ∧
      Progress Q P job x₀ since upto db (some (.running x c (.judged k raw done))) db' next := by
  obtain ⟨⟨hphase, hk, p, ts, hp, hts, hlen, hpos, hgaps⟩, hdone⟩ := ht
  have hjudged := hdone p hp
  have hlimit : 1 ≤ k.limit := by
    rw [hk]
    exact hc.limit
  cases hd : rangeDone k p.body with
  | true =>
    have hadv := @advance_whole env job x db c k raw done p ts clock i hp hts hd
    have hs' := ((Call.advance_moves hadv).extends hs hok).1.sound
    obtain ⟨halike, hsaved, hfetch, hraws⟩ := commitPage_alike hs k raw true done x.now hs'
    refine ⟨_, _, hadv, ?_⟩
    cases done with
    | true =>
      refine .inl ⟨rfl, ⟨{ c with done := true }, hsaved, rfl⟩, ?_⟩
      refine (pageFits_whole hp hts hd).mpr fun hb g hg => ?_
      rw [if_neg hb] at hjudged
      rw [List.isEmpty_iff.mp hjudged.symm] at hg
      cases hg
    | false =>
      by_cases hb : x₀.params.mode = .backfill
      · rw [if_pos hb, hd] at hjudged
        cases hjudged
      · obtain ⟨gs, hfrag, hwhole, _⟩ := hgaps hb
        refine .inr ⟨fun _ => ?_, hlogs.frame hfetch hraws, ⟨c, hsaved, hc⟩, ?_⟩
        · refine (affords_idle hsaved).trans (halike.cursorFits.trans ?_)
          refine Iff.trans ?_ (pageFits_whole hp hts hd).symm
          unfold CursorFits
          simp only [Bool.false_eq_true, if_false]
          rw [if_neg hb, hwhole hd, ahead_other hfrag.head_ne]
          exact ⟨fun h _ => h, fun h => h hb⟩
        unfold Db.left
        rw [hsaved]
        refine halike.before ?_
        simp only [Pc.rank, Db.aim, if_neg hb, hwhole hd, if_neg hfrag.head_ne]
        decide
  | false =>
    obtain ⟨oldest, hlast⟩ := exists_oldest hlimit hlen hd
    have hmem := List.mem_of_getLast? hlast
    have hnonneg := hpos oldest hmem
    have hbelow : oldest < k.upto := ((pageTimestamps_spec hts).inside oldest hmem).2
    have huntil : k.upto = c.untilMs := by rw [hk]
    have hsize : k.limit = c.limit := by rw [hk]
    have hnext := hfits p ts oldest hp hts hd hlast
    obtain ⟨hroom, hgrows⟩ := nextPage_limit (hx.page ▸ hz.page) hlimit ts oldest
    have hmost := hx.most
    have hopen : done = false := by
      rw [hjudged]
      split
      · exact hd
      · next hb =>
        obtain ⟨gs, _, _, hpart⟩ := hgaps hb
        rw [hpart oldest hd hlast]
        rfl
    subst hopen
    have hadv := @advance_saturated env job x db c k raw false p ts clock i hp hts hd oldest hlast hnext
    have hs' := ((Call.advance_moves hadv).extends hs hok).1.sound
    obtain ⟨halike, hsaved, hfetch, hraws⟩ := commitPage_alike hs k raw false false x.now hs'
    refine ⟨_, _, hadv, .inr ⟨fun _ => ?_, hlogs.frame hfetch hraws, ⟨_, hsaved, ?_⟩, ?_⟩⟩
    · refine (affords_idle hsaved).trans (halike.cursorFits.trans ?_)
      refine Iff.trans ?_ (pageFits_full hp hts hd hlast).symm
      rw [hx.page, hx.most] at hnext
      unfold CursorFits
      simp only [Bool.false_eq_true, if_false, hx.page]
      split
      · next hb => exact ⟨fun h => ⟨hnext, h, fun hne => absurd hb hne⟩, fun h => h.2.1⟩
      · next hb =>
        obtain ⟨gs, _, _, hpart⟩ := hgaps hb
        rw [hpart oldest hd hlast, Ahead, if_pos rfl]
        exact ⟨fun h => ⟨hnext, h.1, fun _ => h.2⟩, fun h => ⟨h.2.1, h.2.2 hb⟩⟩
    · exact ⟨hc.fingerprint, hc.since, hc.upper, hroom, hc.unfinished⟩
    · unfold Db.left
      rw [hsaved]
      simp only [Bool.false_eq_true, if_false, halike.work]
      unfold Db.work
      simp only [hphase]
      by_cases hb : x₀.params.mode = .backfill
      · simp only [Db.aim, if_pos hb, if_true, Option.map_some, Option.getD_some]
        refine .inr ⟨rfl, .inr ⟨rfl, ?_⟩⟩
        by_cases heq : oldest + 1 = c.untilMs
        · have := hgrows (heq.trans huntil.symm)
          refine .inr ⟨?_, .inl ?_⟩
          · rw [heq]
          · dsimp only
            omega
        · refine .inl ?_
          dsimp only
          omega
      · obtain ⟨gs, _, _, hpart⟩ := hgaps hb
        simp only [Db.aim, if_neg hb, hpart oldest hd hlast, List.head?_cons, Option.map_some, Option.getD_some, if_true,
          Option.some.injEq, Span.mk.injEq, true_and]
        refine .inr ⟨rfl, .inr ⟨rfl, .inr ⟨rfl, .inl ?_⟩⟩⟩
        dsimp only
        split
        · next heq =>
          have := hgrows (heq.trans huntil.symm)
          omega
        · omega

/-! ## Every step -/

/-- The pages of the call fit into the budget at its program point. -/
def Call.Fits (db : Db) : Call → Prop
  | .running x _ (.judged k raw _) => ∀ p ts oldest, db.rawPayload raw = some p → pageTimestamps k p.body = some ts →
      rangeDone k p.body = false → ts.getLast? = some oldest → (nextPage x.pageSize k ts oldest).2 ≤ x.maxPageSize
  | _ => True

theorem call_progress (hS : Steady env P Q) (hz : x₀.Sized) (hs : db.Sound env) (hk : db.Keyed)
    (hlogs : OwnLogs Q job db) {call : Call} (hok : CallOk db call) (hfits : call.Fits db)
    (ht : OnTrack Q job x₀ since upto db (some call)) (clock : Int) {i : Input} (hstop : i.stop = false)
    (hserved : ∀ x c t requestedAt, call = .running x c (.requested t requestedAt) → Serves P t i.response) :
    ∃ db' next, call.advance env job clock db i = some (db', next) ∧ Progress Q P job x₀ since upto db (some call) db' next := by
  cases call with
  | creating x => exact creating_progress hlogs ht.1 ht.2.1 ht.2.2 clock i
  | pinning x s u first =>
    obtain ⟨hx, rfl, rfl, hfirst⟩ := ht
    exact pinning_progress hz hlogs hx hfirst clock i
  | saving x c => exact saving_progress hlogs ht.1 ht.2 clock i
  | running x c pc =>
    obtain ⟨hx, hc, hpc⟩ := ht
    cases pc with
    | start => exact start_progress hz hk hlogs hx hc hpc clock i
    | stored sources short =>
      cases sources with
      | nil => exact storedEnd_progress hlogs hx hc hpc clock i
      | cons raw sources => exact stored_progress hs hlogs hx hc hpc clock hstop
    | replayed raw sources short => exact replayed_progress hk hlogs hx hc hpc clock i
    | followups rows full =>
      cases rows with
      | nil => exact followupsEnd_progress hlogs hx hc hpc clock i
      | cons ref rows => exact followups_progress hlogs hx hc hpc clock hstop
    | paging => exact paging_progress hz hlogs hx hc hpc clock hstop
    | closing => exact closing_progress hc hpc clock i
    | fetching t => exact fetching_progress hs hlogs hx hc hpc clock i
    | requested t requestedAt =>
      exact requested_progress hS hs hlogs hx hc hpc clock (hserved x c t requestedAt rfl)
    | captured t raw fetch => exact captured_progress hs hlogs hx hc hpc clock i
    | fetched t raw =>
      cases t with
      | followup ref rows full => exact refreshed_progress hk hlogs hx hc hpc clock i
      | page k => exact fetchedPage_progress hS hs hlogs hx hc hpc clock i
    | refused t status message =>
      cases t with
      | followup ref rows full => exact vanished_progress hs hk hlogs hx hc hpc clock i
      | page k => exact absurd hpc id
    | recorded k raw => exact recorded_progress hlogs hx hc hpc clock i
    | judged k raw done => exact judged_progress hz hs hlogs hx hc hpc hok hfits clock i

theorem fits_of_not_overflows {s : State} {call : Call} (hcall : s.calls job = some call) (h : ¬ Overflows job s) :
    call.Fits s.db := by
  unfold Call.Fits
  split
  · next x c k raw done =>
    intro p ts oldest hp hts hd hlast
    by_contra hgt
    exact h ⟨x, c, k, raw, done, p, ts, oldest, hcall, hp, hts, hd, hlast, not_le.mp hgt⟩
  · trivial

end ChessCrawl.Collection
