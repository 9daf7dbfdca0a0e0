import ChessCrawl.Upgrades.Execution

/-! An upgrade that is done has replayed all of its payloads, however its executions overlap and end: the row's cursor never
passes a payload that has not been replayed, and it moves by one payload at a time. -/
namespace ChessCrawl.Upgrades
open ChessCrawl.Lib
set_option autoImplicit false

/-! ## Work -/

theorem work_sorted (u : Upgrade) (a : Archive) : (u.work a).Pairwise (· < ·) :=
  List.pairwise_map.mpr (a.sorted.filter _)

theorem mem_work {u : Upgrade} {a : Archive} {x : Nat} : x ∈ u.work a ↔ ∃ p ∈ a.rows, u.selects p = true ∧ p.id = x := by
  simp [Upgrade.work, and_assoc]

theorem work_le {u : Upgrade} {a : Archive} {x : Nat} (h : x ∈ u.work a) : x ≤ u.highWaterRawId := by
  obtain ⟨p, _, hp, rfl⟩ := mem_work.mp h
  simp only [Upgrade.selects, Bool.and_eq_true, decide_eq_true_eq] at hp
  exact hp.2

theorem work_pos {u : Upgrade} {a : Archive} {x : Nat} (h : x ∈ u.work a) : 0 < x := by
  obtain ⟨p, hp, _, rfl⟩ := mem_work.mp h
  exact a.positive p hp

theorem upgradeBatch_eq (a : Archive) (u : Upgrade) (size : Nat) :
    upgradeBatch a u size = batchOf (u.work a) u.lastRawId size := by
  unfold upgradeBatch batchOf Upgrade.work
  rw [List.filter_map, List.filter_filter]
  congr 2
  refine List.filter_congr fun p _ => ?_
  simp only [Upgrade.selects, Function.comp_apply, Bool.decide_and]
  cases inScope u.provider u.ownerScope p <;> cases decide (u.lastRawId < p.id) <;> rfl

/-- The pinned id is that of a payload, unless there is none. -/
theorem highWater_spec (a : Archive) (provider ownerScope : String) (u : Upgrade) (hp : u.provider = provider)
    (hs : u.ownerScope = ownerScope) (hh : u.highWaterRawId = highWater a provider ownerScope) :
    u.highWaterRawId = 0 ∨ u.highWaterRawId ∈ u.work a := by
  rw [hh]
  unfold highWater
  cases hmax : ((a.rows.filter (inScope provider ownerScope)).map Payload.id).max? with
  | none => exact Or.inl rfl
  | some m =>
    right
    obtain ⟨p, hmem, hid⟩ := List.mem_map.mp (List.max?_mem hmax)
    obtain ⟨hrow, hscope⟩ := List.mem_filter.mp hmem
    refine mem_work.mpr ⟨p, hrow, ?_, hid⟩
    unfold Upgrade.selects
    rw [hp, hs, hscope, hh, highWater, hmax, Bool.true_and, decide_eq_true_eq]
    exact Nat.le_of_eq hid

/-! ## The invariant -/

/-- A row, against the payloads and what has been replayed. -/
structure Row (a : Archive) (replays : List Replay) (id : String) (u : Upgrade) : Prop where
  high : u.highWaterRawId = 0 ∨ u.highWaterRawId ∈ u.work a
  last : u.lastRawId ≤ u.highWaterRawId
  processed : u.processed = (passed (u.work a) u.lastRawId).length
  covered : ∀ x ∈ u.work a, x ≤ u.lastRawId → ⟨id, x, u.parserVersion⟩ ∈ replays
  near : ∀ r ∈ replays, r.upgradeId = id →
    r.manifest = u.parserVersion ∧ r.rawId ∈ u.work a ∧ ∀ y ∈ u.work a, u.lastRawId < y → r.rawId ≤ y
  done : u.state = .done → u.lastRawId = u.highWaterRawId

/-- What no statement changes of a row. -/
def Pinned (u v : Upgrade) : Prop :=
  v.provider = u.provider ∧ v.ownerScope = u.ownerScope ∧ v.parserVersion = u.parserVersion ∧
    v.highWaterRawId = u.highWaterRawId

theorem Pinned.trans {u v w : Upgrade} (h : Pinned u v) (h' : Pinned v w) : Pinned u w :=
  ⟨h'.1.trans h.1, h'.2.1.trans h.2.1, h'.2.2.1.trans h.2.2.1, h'.2.2.2.trans h.2.2.2⟩

theorem Pinned.work {u v : Upgrade} (h : Pinned u v) (a : Archive) : v.work a = u.work a := by
  obtain ⟨hp, hs, _, hh⟩ := h
  unfold Upgrade.work
  congr 1
  refine List.filter_congr fun p _ => ?_
  unfold Upgrade.selects
  rw [hp, hs, hh]

/-- An execution works on the row of its upgrade, which may have moved on since it was read. -/
def OnRow (s : State) (call : Call) (upgrade : Upgrade) (u : Upgrade) : Prop :=
  s.table call.identity = some u ∧ Pinned upgrade u ∧ u.parserVersion = call.manifest ∧ upgrade.lastRawId ≤ u.lastRawId

/-- A part of the batch is finished, and the row has passed it. -/
def Worked (s : State) (call : Call) (upgrade u : Upgrade) (batch rest : List Nat) : Prop :=
  batch = batchOf (u.work s.archive) upgrade.lastRawId call.size.toNat ∧
    ∃ finished, batch = finished ++ rest ∧ ∀ x ∈ finished, x ≤ u.lastRawId

def SessionOk (s : State) (x : Session) : Prop :=
  match x.phase with
  | .selecting upgrade => ∃ u, OnRow s x.call upgrade u
  | .replaying upgrade batch rest => ∃ u, OnRow s x.call upgrade u ∧ Worked s x.call upgrade u batch rest
  | .checkpointing upgrade batch rawId rest => ∃ u, OnRow s x.call upgrade u ∧
      Worked s x.call upgrade u batch (rawId :: rest) ∧ ⟨x.call.identity, rawId, x.call.manifest⟩ ∈ s.replays
  | .raised _ => True

structure Inv (s : State) : Prop where
  rows : ∀ id u, s.table id = some u → Row s.archive s.replays id u
  owned : ∀ r ∈ s.replays, ∃ u, s.table r.upgradeId = some u
  sessions : ∀ n x, s.sessions n = some x → SessionOk s x

/-! ## What every step keeps -/

/-- Rows stay, keep what is pinned and only move forward; replays stay. -/
structure Keeps (s t : State) : Prop where
  rows : ∀ id u, s.table id = some u →
    ∃ v, t.table id = some v ∧ Pinned u v ∧ u.lastRawId ≤ v.lastRawId ∧ v.work t.archive = u.work s.archive
  replays : ∀ r ∈ s.replays, r ∈ t.replays

theorem SessionOk.keeps {s t : State} {x : Session} (h : SessionOk s x) (hk : Keeps s t) : SessionOk t x := by
  have hrow : ∀ {upgrade u : Upgrade}, OnRow s x.call upgrade u →
      ∃ v, OnRow t x.call upgrade v ∧ u.lastRawId ≤ v.lastRawId ∧ v.work t.archive = u.work s.archive := by
    intro upgrade u hu
    obtain ⟨htable, hpinned, hparser, hlast⟩ := hu
    obtain ⟨v, hv, hpinned', hlast', hwork⟩ := hk.rows _ u htable
    exact ⟨v, ⟨hv, hpinned.trans hpinned', hpinned'.2.2.1.trans hparser, Nat.le_trans hlast hlast'⟩, hlast',
      hwork⟩
  have hworked : ∀ {upgrade u v : Upgrade} {batch rest : List Nat}, Worked s x.call upgrade u batch rest →
      u.lastRawId ≤ v.lastRawId → v.work t.archive = u.work s.archive → Worked t x.call upgrade v batch rest := by
    intro upgrade u v batch rest hw hlast hwork
    obtain ⟨hbatch, finished, hsplit, hpassed⟩ := hw
    refine ⟨?_, finished, hsplit, fun y hy => Nat.le_trans (hpassed y hy) hlast⟩
    rw [hwork]
    exact hbatch
  obtain ⟨call, phase⟩ := x
  cases phase with
  | selecting upgrade =>
    obtain ⟨u, hu⟩ := h
    obtain ⟨v, hv, _⟩ := hrow hu
    exact ⟨v, hv⟩
  | replaying upgrade batch rest =>
    obtain ⟨u, hu, hw⟩ := h
    obtain ⟨v, hv, hlast, hwork⟩ := hrow hu
    exact ⟨v, hv, hworked hw hlast hwork⟩
  | checkpointing upgrade batch rawId rest =>
    obtain ⟨u, hu, hw, hr⟩ := h
    obtain ⟨v, hv, hlast, hwork⟩ := hrow hu
    exact ⟨v, hv, hworked hw hlast hwork, hk.replays _ hr⟩
  | raised message => trivial

/-- The other executions are as before; the one that steps is to be looked at. -/
theorem sessions_at {s t : State} {n : Nat} {o : Option Session} (h : Inv s) (hk : Keeps s t)
    (ht : t.sessions = Function.update s.sessions n o) (ho : ∀ x, o = some x → SessionOk t x) :
    ∀ m x, t.sessions m = some x → SessionOk t x := by
  intro m x hx
  rw [ht] at hx
  by_cases hm : m = n
  · subst hm
    rw [Function.update_self] at hx
    exact ho x hx
  · rw [Function.update_of_ne hm] at hx
    exact (h.sessions m x hx).keeps hk

theorem keeps_same {s t : State} (ha : t.archive = s.archive) (ht : t.table = s.table)
    (hr : ∀ r ∈ s.replays, r ∈ t.replays) : Keeps s t := by
  refine ⟨fun id u hu => ⟨u, by rw [ht]; exact hu, ⟨rfl, rfl, rfl, rfl⟩, Nat.le_refl _, by rw [ha]⟩, hr⟩

/-- One row is replaced by one that is further on. -/
theorem inv_row {s t : State} {n : Nat} {o : Option Session} {id : String} {u v : Upgrade} (h : Inv s)
    (ha : t.archive = s.archive) (hr : t.replays = s.replays) (htable : t.table = Function.update s.table id (some v))
    (hsessions : t.sessions = Function.update s.sessions n o) (hu : s.table id = some u) (hp : Pinned u v)
    (hl : u.lastRawId ≤ v.lastRawId) (hv : Row s.archive s.replays id v)
    (ho : ∀ x, o = some x → SessionOk t x) : Inv t := by
  have hk : Keeps s t := by
    refine ⟨fun id' w hw => ?_, fun r hr' => by rw [hr]; exact hr'⟩
    rw [htable, ha]
    by_cases hid : id' = id
    · subst hid
      rw [hu] at hw
      cases hw
      exact ⟨v, Function.update_self _ _ _, hp, hl, hp.work _⟩
    · exact ⟨w, by rw [Function.update_of_ne hid]; exact hw, ⟨rfl, rfl, rfl, rfl⟩, Nat.le_refl _, rfl⟩
  refine ⟨fun id' w hw => ?_, fun r hr' => ?_, sessions_at h hk hsessions ho⟩
  · rw [ha, hr]
    rw [htable] at hw
    by_cases hid : id' = id
    · subst hid
      rw [Function.update_self] at hw
      cases hw
      exact hv
    · rw [Function.update_of_ne hid] at hw
      exact h.rows id' w hw
  · rw [hr] at hr'
    obtain ⟨w, hw⟩ := h.owned r hr'
    obtain ⟨w', hw', _⟩ := hk.rows _ w hw
    exact ⟨w', hw'⟩

/-! ## Rows -/

variable {a : Archive} {replays : List Replay} {id : String} {u : Upgrade}

/-- A checkpoint of the next payload, or of one that the row has passed. -/
theorem Row.checkpoint (h : Row a replays id u) {rawId : Nat} (hraw : rawId ∈ u.work a)
    (hbefore : ∀ y ∈ u.work a, y < rawId → y ≤ u.lastRawId) (hr : ⟨id, rawId, u.parserVersion⟩ ∈ replays) :
    Row a replays id (u.checkpoint rawId false) := by
  have hwork : (u.checkpoint rawId false).work a = u.work a := rfl
  have hlast : (u.checkpoint rawId false).lastRawId = max u.lastRawId rawId := rfl
  refine ⟨h.high, ?_, ?_, ?_, fun r hrep hid => ?_, fun hdone => ?_⟩
  · exact Nat.max_le.mpr ⟨h.last, work_le hraw⟩
  · show u.processed + (if u.lastRawId < rawId then 1 else 0) = (passed (u.work a) (max u.lastRawId rawId)).length
    by_cases hlt : u.lastRawId < rawId
    · rw [if_pos hlt, Nat.max_eq_right (Nat.le_of_lt hlt), passed_next (work_sorted u a) hraw hlt hbefore, h.processed]
    · rw [if_neg hlt, Nat.max_eq_left (by omega)]
      exact h.processed
  · intro x hx hle
    rw [hwork] at hx
    rw [hlast] at hle
    by_cases hxl : x ≤ u.lastRawId
    · exact h.covered x hx hxl
    · have heq : x = rawId := by
        by_contra hne
        exact hxl (hbefore x hx (by omega))
      rw [heq]
      exact hr
  · obtain ⟨hm, hmem, hnext⟩ := h.near r hrep hid
    refine ⟨hm, hmem, fun y hy hlt => hnext y hy ?_⟩
    rw [hlast] at hlt
    omega
  · cases hdone

/-- The last checkpoint, when the row has passed all payloads. -/
theorem Row.finish (h : Row a replays id u) (hall : ∀ y ∈ u.work a, y ≤ u.lastRawId) :
    Row a replays id (u.checkpoint u.highWaterRawId true) := by
  have hhigh : u.highWaterRawId ≤ u.lastRawId := by
    obtain hzero | hmem := h.high
    · omega
    · exact hall _ hmem
  have hlast : (u.checkpoint u.highWaterRawId true).lastRawId = u.lastRawId := Nat.max_eq_left hhigh
  refine ⟨h.high, ?_, ?_, ?_, ?_, fun _ => ?_⟩
  · rw [hlast]
    exact h.last
  · rw [hlast]
    show u.processed + (if u.lastRawId < u.highWaterRawId then 1 else 0) = _
    rw [if_neg (by omega)]
    exact h.processed
  · rw [hlast]
    exact h.covered
  · rw [hlast]
    exact h.near
  · rw [hlast]
    exact Nat.le_antisymm h.last hhigh

theorem Row.replay (h : Row a replays id u) {r : Replay}
    (hr : r.upgradeId = id → r.manifest = u.parserVersion ∧ r.rawId ∈ u.work a ∧ ∀ y ∈ u.work a, u.lastRawId < y →
      r.rawId ≤ y) : Row a (replays ++ [r]) id u := by
  refine ⟨h.high, h.last, h.processed, fun x hx hle => List.mem_append_left _ (h.covered x hx hle), fun q hq hid => ?_,
    h.done⟩
  obtain hq | hq := List.mem_append.mp hq
  · exact h.near q hq hid
  · rw [List.mem_singleton] at hq
    subst hq
    exact hr hid

/-- What is before the next payload of a batch has been passed. -/
theorem Worked.before {s : State} {call : Call} {upgrade u : Upgrade} {batch rest : List Nat} {rawId : Nat}
    (hw : Worked s call upgrade u batch (rawId :: rest)) (hl : upgrade.lastRawId ≤ u.lastRawId) :
    rawId ∈ u.work s.archive ∧ ∀ y ∈ u.work s.archive, y < rawId → y ≤ u.lastRawId := by
  obtain ⟨hbatch, finished, hsplit, hpassed⟩ := hw
  have hb := hbatch.symm.trans hsplit
  refine ⟨?_, fun y hy hlt => ?_⟩
  · have hmem : rawId ∈ batchOf (u.work s.archive) upgrade.lastRawId call.size.toNat := by
      rw [hb]
      exact List.mem_append_right _ List.mem_cons_self
    exact (mem_of_mem_batchOf hmem).1
  · obtain hle | hdone := batchOf_before (work_sorted u s.archive) hb hy hlt
    · exact Nat.le_trans hle hl
    · exact hpassed y hdone

/-! ## Steps -/

theorem installedParserTarget_ok {c : Call} {target : String} (h : c.installedParserTarget = .ok target) :
    target = c.manifest := by
  unfold Call.installedParserTarget at h
  dsimp only at h
  split at h
  · cases h
  · cases h
    rfl

theorem start_ok {c : Call} {table table' : Table} {a : Archive} {v : Upgrade} (h : c.start table a = .ok (table', v)) :
    table' = Function.update table c.identity (some v) ∧ v.parserVersion = c.manifest ∧
      (table c.identity = some v ∨ table c.identity = none ∧
        v = ⟨c.provider, c.scope, c.manifest, .running, highWater a c.provider c.scope, 0, 0, none, c.jobId⟩) := by
  unfold Call.start at h
  split at h
  · cases h
  · cases htarget : c.installedParserTarget with
    | error e =>
      rw [htarget] at h
      cases h
    | ok target =>
      obtain rfl := installedParserTarget_ok htarget
      rw [htarget] at h
      change startUpgrade table a c.identity c.provider c.manifest c.jobId c.scope = .ok (table', v) at h
      unfold startUpgrade at h
      dsimp only at h
      split at h
      · cases h
      · next hsame =>
        cases h
        refine ⟨rfl, ?_, ?_⟩
        · by_contra hne
          exact hsame (Or.inr (Or.inr (Or.inl hne)))
        · cases htable : table c.identity with
          | none => exact Or.inr ⟨rfl, rfl⟩
          | some u => exact Or.inl rfl

/-- A row that is read again, or a new one. -/
theorem inv_begin {s : State} {n : Nat} {c : Call} {table : Table} {v : Upgrade} (h : Inv s)
    (hstart : c.start s.table s.archive = .ok (table, v)) :
    Inv ({ s with table := table }.at n ⟨c, .selecting v⟩) := by
  obtain ⟨rfl, hparser, hrow⟩ := start_ok hstart
  have hselect : ∀ x, some (Session.mk c (.selecting v)) = some x →
      SessionOk ({ s with table := Function.update s.table c.identity (some v) }.at n ⟨c, .selecting v⟩) x := by
    intro x hx
    cases hx
    exact ⟨v, Function.update_self _ _ _, ⟨rfl, rfl, rfl, rfl⟩, hparser, Nat.le_refl _⟩
  obtain hold | ⟨hnone, hv⟩ := hrow
  · exact inv_row (n := n) h rfl rfl rfl rfl hold ⟨rfl, rfl, rfl, rfl⟩ (Nat.le_refl _) (h.rows _ _ hold) hselect
  · have hfresh : ∀ r ∈ s.replays, r.upgradeId ≠ c.identity := by
      intro r hr heq
      obtain ⟨u, hu⟩ := h.owned r hr
      rw [heq, hnone] at hu
      cases hu
    have hkeeps : Keeps s ({ s with table := Function.update s.table c.identity (some v) }.at n ⟨c, .selecting v⟩) := by
      refine ⟨fun id u hu => ⟨u, ?_, ⟨rfl, rfl, rfl, rfl⟩, Nat.le_refl _, rfl⟩, fun r hr => hr⟩
      have hid : id ≠ c.identity := by
        rintro rfl
        rw [hnone] at hu
        cases hu
      show Function.update s.table c.identity (some v) id = some u
      rw [Function.update_of_ne hid]
      exact hu
    have hempty : passed (v.work s.archive) 0 = [] := by
      refine List.filter_eq_nil_iff.mpr fun x hx => ?_
      have := work_pos hx
      simp only [decide_eq_true_eq]
      omega
    refine ⟨fun id u hu => ?_, fun r hr => ?_, sessions_at h hkeeps rfl hselect⟩
    · have hu : Function.update s.table c.identity (some v) id = some u := hu
      by_cases hid : id = c.identity
      · subst hid
        rw [Function.update_self] at hu
        cases hu
        refine ⟨?_, ?_, ?_, fun x hx hle => ?_, fun r hr hrid => absurd hrid (hfresh r hr), ?_⟩
        · exact highWater_spec s.archive c.provider c.scope v (by rw [hv]) (by rw [hv]) (by rw [hv])
        · rw [hv]
          exact Nat.zero_le _
        · have hlast : v.lastRawId = 0 := by rw [hv]
          have hprocessed : v.processed = 0 := by rw [hv]
          show v.processed = (passed (v.work s.archive) v.lastRawId).length
          rw [hlast, hempty, hprocessed]
          rfl
        · have hlast : v.lastRawId = 0 := by rw [hv]
          have := work_pos hx
          omega
        · rw [hv]
          intro hdone
          cases hdone
      · rw [Function.update_of_ne hid] at hu
        exact h.rows id u hu
    · obtain ⟨u, hu⟩ := h.owned r hr
      obtain ⟨w, hw, _⟩ := hkeeps.rows _ u hu
      exact ⟨w, hw⟩

/-- A step that leaves the tables alone. -/
theorem inv_session {s : State} {n : Nat} {o : Option Session} (h : Inv s)
    (ho : ∀ x, o = some x → SessionOk { s with sessions := Function.update s.sessions n o } x) :
    Inv { s with sessions := Function.update s.sessions n o } :=
  ⟨h.rows, h.owned, sessions_at h (keeps_same rfl rfl fun _ hr => hr) rfl ho⟩

theorem inv_ends {s : State} (h : Inv s) (n : Nat) : Inv (s.ends n) :=
  inv_session h fun x hx => by cases hx

theorem inv_replay {s : State} {n : Nat} {call : Call} {upgrade : Upgrade} {batch rest : List Nat} {rawId : Nat}
    (h : Inv s) (hn : s.sessions n = some ⟨call, .replaying upgrade batch (rawId :: rest)⟩) :
    Inv ({ s with replays := s.replays ++ [Replay.mk call.identity rawId call.manifest] }.at n
      ⟨call, .checkpointing upgrade batch rawId rest⟩) := by
  obtain ⟨u, hu, hw⟩ := h.sessions n _ hn
  obtain ⟨htable, hpinned, hparser, hlast⟩ := hu
  obtain ⟨hraw, hbefore⟩ := hw.before hlast
  have hkeeps : Keeps s ({ s with replays := s.replays ++ [Replay.mk call.identity rawId call.manifest] }.at n
      ⟨call, .checkpointing upgrade batch rawId rest⟩) :=
    keeps_same rfl rfl fun _ hr => List.mem_append_left _ hr
  refine ⟨fun id w hid => ?_, fun r hr => ?_, sessions_at h hkeeps rfl fun x hx => ?_⟩
  · refine (h.rows id w hid).replay fun hsame => ?_
    have hwu : w = u := by
      rw [← hsame] at hid
      exact Option.some.inj (hid.symm.trans htable)
    subst hwu
    refine ⟨hparser.symm, hraw, fun y hy hlt => ?_⟩
    show rawId ≤ y
    by_contra hle
    have := hbefore y hy (by omega)
    omega
  · obtain hr | hr := List.mem_append.mp hr
    · exact h.owned r hr
    · rw [List.mem_singleton] at hr
      subst hr
      exact ⟨u, htable⟩
  · cases hx
    exact ⟨u, ⟨htable, hpinned, hparser, hlast⟩, hw, List.mem_append_right _ (List.mem_singleton.mpr rfl)⟩

theorem inv_checkpoint {s : State} {n : Nat} {call : Call} {upgrade : Upgrade} {batch rest : List Nat} {rawId : Nat}
    (h : Inv s) (hn : s.sessions n = some ⟨call, .checkpointing upgrade batch rawId rest⟩) :
    Inv ({ s with table := checkpointUpgrade s.table call.identity rawId false }.at n
      ⟨call, .replaying upgrade batch rest⟩) := by
  obtain ⟨u, ⟨htable, hpinned, hparser, hlast⟩, hw, hr⟩ := h.sessions n _ hn
  obtain ⟨hraw, hbefore⟩ := hw.before hlast
  have hnew : checkpointUpgrade s.table call.identity rawId false =
      Function.update s.table call.identity (some (u.checkpoint rawId false)) := by
    unfold checkpointUpgrade
    rw [htable]
    rfl
  have hrow := (h.rows _ u htable).checkpoint hraw hbefore (by rw [hparser]; exact hr)
  have hmax : u.lastRawId ≤ (u.checkpoint rawId false).lastRawId := Nat.le_max_left _ _
  refine inv_row (n := n) h rfl rfl hnew rfl htable ⟨rfl, rfl, rfl, rfl⟩ hmax hrow fun x hx => ?_
  cases hx
  obtain ⟨hbatch, finished, hsplit, hpassed⟩ := hw
  refine ⟨u.checkpoint rawId false, ⟨?_, hpinned, hparser, Nat.le_trans hlast hmax⟩, hbatch, finished ++ [rawId], ?_,
    fun y hy => ?_⟩
  · show checkpointUpgrade s.table call.identity rawId false call.identity = _
    rw [hnew, Function.update_self]
  · rw [hsplit, List.append_assoc]
    rfl
  · obtain hy | hy := List.mem_append.mp hy
    · exact Nat.le_trans (hpassed y hy) hmax
    · rw [List.mem_singleton] at hy
      rw [hy]
      exact Nat.le_max_right _ _

theorem inv_finish {s : State} {n : Nat} {call : Call} {upgrade : Upgrade} {batch : List Nat} (h : Inv s)
    (hn : s.sessions n = some ⟨call, .replaying upgrade batch []⟩) (hsize : (batch.length : Int) < call.size) :
    Inv ({ s with table := checkpointUpgrade s.table call.identity upgrade.highWaterRawId true }.ends n) := by
  obtain ⟨u, ⟨htable, hpinned, _, hlast⟩, hbatch, finished, hsplit, hpassed⟩ := h.sessions n _ hn
  rw [List.append_nil] at hsplit
  have hnew : checkpointUpgrade s.table call.identity upgrade.highWaterRawId true =
      Function.update s.table call.identity (some (u.checkpoint u.highWaterRawId true)) := by
    unfold checkpointUpgrade
    rw [htable, hpinned.2.2.2]
    rfl
  -- The batch was not full, so it was all that was left.
  have hall : ∀ y ∈ u.work s.archive, y ≤ u.lastRawId := by
    intro y hy
    have hshort : (batchOf (u.work s.archive) upgrade.lastRawId call.size.toNat).length < call.size.toNat := by
      rw [show batchOf (u.work s.archive) upgrade.lastRawId call.size.toNat = batch from hbatch.symm]
      omega
    obtain hle | hmem := batchOf_all hshort hy
    · exact Nat.le_trans hle hlast
    · rw [show batchOf (u.work s.archive) upgrade.lastRawId call.size.toNat = batch from hbatch.symm, hsplit] at hmem
      exact hpassed y hmem
  refine inv_row (n := n) h rfl rfl hnew rfl htable ⟨rfl, rfl, rfl, rfl⟩ (Nat.le_max_left _ _)
    ((h.rows _ u htable).finish hall) fun x hx => ?_
  cases hx

theorem inv_fail {s : State} {n : Nat} (h : Inv s) (call : Call) (message : String) :
    Inv ({ s with table := failUpgrade s.table call.identity call.jobId call.provider call.scope message }.ends n) := by
  cases htable : s.table call.identity with
  | none =>
    have hsame : failUpgrade s.table call.identity call.jobId call.provider call.scope message = s.table := by
      unfold failUpgrade
      rw [htable]
      exact Function.update_eq_self_iff.mpr htable.symm
    rw [hsame]
    exact inv_ends h n
  | some u =>
    have hrow := h.rows _ u htable
    have hnew : failUpgrade s.table call.identity call.jobId call.provider call.scope message =
        Function.update s.table call.identity (some (if u.jobId = call.jobId ∧ u.provider = call.provider ∧
          u.ownerScope = call.scope then { u with state := .error, error := some message } else u)) := by
      unfold failUpgrade
      rw [htable]
      rfl
    refine inv_row (n := n) h rfl rfl hnew rfl htable ?_ ?_ ?_ fun x hx => by cases hx
    · split <;> exact ⟨rfl, rfl, rfl, rfl⟩
    · split <;> exact Nat.le_refl _
    · split
      · refine ⟨hrow.high, hrow.last, hrow.processed, hrow.covered, hrow.near, fun hdone => ?_⟩
        cases hdone
      · exact hrow

theorem inv_archive {s : State} {a : Archive} (h : Inv s)
    (hfixed : ∀ id u, s.table id = some u → u.work a = u.work s.archive) : Inv { s with archive := a } := by
  have hkeeps : Keeps s { s with archive := a } :=
    ⟨fun id u hu => ⟨u, hu, ⟨rfl, rfl, rfl, rfl⟩, Nat.le_refl _, hfixed id u hu⟩, fun _ hr => hr⟩
  refine ⟨fun id u hu => ?_, h.owned, fun n x hx => (h.sessions n x hx).keeps hkeeps⟩
  have hrow := h.rows id u hu
  have hwork := hfixed id u hu
  refine ⟨?_, hrow.last, ?_, ?_, ?_, hrow.done⟩
  · show _ ∨ _ ∈ u.work a
    rw [hwork]
    exact hrow.high
  · show _ = (passed (u.work a) _).length
    rw [hwork]
    exact hrow.processed
  · show ∀ x ∈ u.work a, _
    rw [hwork]
    exact hrow.covered
  · show ∀ r ∈ s.replays, _ → _ ∧ _ ∈ u.work a ∧ ∀ y ∈ u.work a, _
    rw [hwork]
    exact hrow.near

theorem step_inv {s t : State} {e : Event} (h : Inv s) (hfixed : Fixed s e) (hstep : step s e = some t) : Inv t := by
  cases e with
  | begin n call =>
    simp only [step] at hstep
    split at hstep
    · cases hstep
    · split at hstep
      · cases hstep
        exact inv_session h fun x hx => by cases hx; trivial
      · next hstart =>
        cases hstep
        exact inv_begin h hstart
  | select n =>
    simp only [step] at hstep
    split at hstep
    · next call upgrade hn =>
      cases hstep
      refine inv_session h fun x hx => ?_
      cases hx
      obtain ⟨u, hu⟩ := h.sessions n _ hn
      refine ⟨u, hu, ?_, [], rfl, fun x hx => by cases hx⟩
      rw [upgradeBatch_eq, ← hu.2.1.work]
    · cases hstep
  | stop n =>
    simp only [step] at hstep
    split at hstep
    · cases hstep
      exact inv_ends h n
    · cases hstep
  | replay n =>
    simp only [step] at hstep
    split at hstep
    · next hn =>
      cases hstep
      exact inv_replay h hn
    · cases hstep
  | checkpoint n =>
    simp only [step] at hstep
    split at hstep
    · next hn =>
      cases hstep
      exact inv_checkpoint h hn
    · cases hstep
  | finish n =>
    simp only [step] at hstep
    split at hstep
    · next hn =>
      split at hstep
      · next hsize =>
        cases hstep
        exact inv_finish h hn hsize
      · cases hstep
        exact inv_ends h n
    · cases hstep
  | raise n message =>
    simp only [step] at hstep
    split at hstep
    · cases hstep
      exact inv_session h fun x hx => by cases hx; trivial
    · cases hstep
  | fail n =>
    simp only [step] at hstep
    split at hstep
    · cases hstep
      exact inv_fail h _ _
    · cases hstep
  | crash n =>
    cases hstep
    exact inv_ends h n
  | archive a =>
    cases hstep
    exact inv_archive h hfixed

theorem inv_of_reach {s : State} (h : Reach upgrades Fixed s) : Inv s := by
  refine Reach.invariant (fun s hinit => ?_) (fun s e t _ (hI : Inv s) (hok : Fixed s e) hstep => step_inv hI hok hstep) h
  obtain ⟨htable, hsessions, hreplays⟩ := hinit
  refine ⟨fun id u hu => ?_, fun r hr => ?_, fun n x hx => ?_⟩
  · rw [htable] at hu
    cases hu
  · rw [hreplays] at hr
    cases hr
  · rw [hsessions] at hx
    cases hx

/-! ## Completeness -/

/-- The distinct payloads that an upgrade has replayed. -/
def State.replayedBy (s : State) (id : String) : List Nat :=
  ((s.replays.filter fun r => decide (r.upgradeId = id)).map Replay.rawId).dedup

/-- The execution is that of another job, or has other inputs. -/
def Call.foreign (c : Call) (u : Upgrade) : Prop :=
  u.provider ≠ c.provider ∨ u.ownerScope ≠ c.scope ∨ u.parserVersion ≠ c.manifest ∨ u.jobId ≠ c.jobId

theorem start_foreign {c : Call} {table : Table} {a : Archive} {u : Upgrade} (hu : table c.identity = some u)
    (h : c.foreign u) : ∃ message, c.start table a = .error message := by
  unfold Call.start
  split
  · exact ⟨_, rfl⟩
  · cases htarget : c.installedParserTarget with
    | error e => exact ⟨e, rfl⟩
    | ok target =>
      obtain rfl := installedParserTarget_ok htarget
      refine ⟨"Upgrade identity already belongs to different inputs or job", ?_⟩
      show startUpgrade table a c.identity c.provider c.manifest c.jobId c.scope = _
      unfold startUpgrade
      dsimp only
      rw [hu, Option.getD_some]
      exact if_pos h

theorem fail_foreign {table : Table} {c : Call} {u : Upgrade} (message : String) (hu : table c.identity = some u)
    (h : u.jobId ≠ c.jobId ∨ u.provider ≠ c.provider ∨ u.ownerScope ≠ c.scope) :
    failUpgrade table c.identity c.jobId c.provider c.scope message = table := by
  unfold failUpgrade
  rw [hu, Option.map_some, if_neg (by tauto)]
  exact Function.update_eq_self_iff.mpr hu.symm

theorem mem_replayedBy {s : State} {id : String} {x : Nat} :
    x ∈ (s.replays.filter fun r => decide (r.upgradeId = id)).map Replay.rawId ↔
      ∃ r ∈ s.replays, r.upgradeId = id ∧ r.rawId = x := by
  simp [and_assoc]

/-- A row that has passed all that its upgrade has replayed counts it. -/
theorem Row.replayed_eq {s : State} (h : Row s.archive s.replays id u)
    (hpassed : ∀ r ∈ s.replays, r.upgradeId = id → r.rawId ≤ u.lastRawId) : (s.replayedBy id).length = u.processed := by
  rw [h.processed]
  refine distinct_all ((work_sorted u s.archive).filter _) fun x => ?_
  rw [mem_replayedBy]
  constructor
  · rintro ⟨r, hr, hid, rfl⟩
    exact mem_passed.mpr ⟨(h.near r hr hid).2.1, hpassed r hr hid⟩
  · intro hx
    obtain ⟨hx, hle⟩ := mem_passed.mp hx
    exact ⟨_, h.covered x hx hle, rfl, rfl⟩

theorem Row.replayed_near {s : State} (h : Row s.archive s.replays id u) :
    u.processed ≤ (s.replayedBy id).length ∧ (s.replayedBy id).length ≤ u.processed + 1 := by
  rw [h.processed]
  refine distinct_near (work_sorted u s.archive) (fun x hx => ?_) fun x hx => ?_
  · obtain ⟨hx, hle⟩ := mem_passed.mp hx
    exact mem_replayedBy.mpr ⟨_, h.covered x hx hle, rfl, rfl⟩
  · obtain ⟨r, hr, hid, rfl⟩ := mem_replayedBy.mp hx
    exact (h.near r hr hid).2

/-- A done upgrade has replayed its payloads, its cursor has passed only replayed ones, and it counts those; what it has
replayed beyond is at most the one payload that is not checkpointed yet. Another job or other inputs change nothing. -/
theorem upgrade_complete {s : State} (h : Reach upgrades Fixed s) {id : String} {u : Upgrade}
    (hu : s.table id = some u) :
    (u.state = .done → ∀ p ∈ s.archive.rows, u.selects p = true → ⟨id, p.id, u.parserVersion⟩ ∈ s.replays) ∧
    (∀ p ∈ s.archive.rows, u.selects p = true → p.id ≤ u.lastRawId → ⟨id, p.id, u.parserVersion⟩ ∈ s.replays) ∧
    u.processed = ((s.archive.rows.filter u.selects).filter fun p => decide (p.id ≤ u.lastRawId)).length ∧
    (u.processed ≤ (s.replayedBy id).length ∧ (s.replayedBy id).length ≤ u.processed + 1) ∧
    ((∀ r ∈ s.replays, r.upgradeId = id → r.rawId ≤ u.lastRawId) → (s.replayedBy id).length = u.processed) ∧
    (u.state = .done → (s.replayedBy id).length = u.processed) ∧
    (∀ (n : Nat) (c : Call), c.identity = id → c.foreign u →
      (∃ message, c.start s.table s.archive = .error message) ∧ ∀ t, step s (.begin n c) = some t →
        t.table = s.table ∧ ∃ message, t.sessions n = some ⟨c, .raised message⟩) ∧
    (∀ (n : Nat) (c : Call) (message : String), s.sessions n = some ⟨c, .raised message⟩ → c.identity = id →
      (u.jobId ≠ c.jobId ∨ u.provider ≠ c.provider ∨ u.ownerScope ≠ c.scope) →
      ∀ t, step s (.fail n) = some t → t.table = s.table) := by
  have hrow := (inv_of_reach h).rows id u hu
  have hcovered : ∀ p ∈ s.archive.rows, u.selects p = true → p.id ≤ u.lastRawId →
      ⟨id, p.id, u.parserVersion⟩ ∈ s.replays :=
    fun p hp hsel hle => hrow.covered p.id (mem_work.mpr ⟨p, hp, hsel, rfl⟩) hle
  refine ⟨fun hdone p hp hsel => ?_, hcovered, ?_, hrow.replayed_near, hrow.replayed_eq, fun hdone => ?_,
    fun n c hid hforeign => ?_, fun n c message hn hid hforeign t ht => ?_⟩
  · refine hcovered p hp hsel ?_
    rw [hrow.done hdone]
    exact work_le (mem_work.mpr ⟨p, hp, hsel, rfl⟩)
  · rw [hrow.processed, passed, Upgrade.work, List.filter_map, List.length_map]
    rfl
  · refine hrow.replayed_eq fun r hr hrid => ?_
    rw [hrow.done hdone]
    exact work_le (hrow.near r hr hrid).2.1
  · rw [← hid] at hu
    obtain ⟨message, hstart⟩ := start_foreign (a := s.archive) hu hforeign
    refine ⟨⟨message, hstart⟩, fun t ht => ?_⟩
    simp only [step] at ht
    split at ht
    · cases ht
    · rw [hstart] at ht
      cases ht
      exact ⟨rfl, message, Function.update_self _ _ _⟩
  · rw [← hid] at hu
    simp only [step] at ht
    rw [hn] at ht
    cases ht
    exact fail_foreign message hu hforeign

/-! ## Runs -/

/-- Two payloads of the upgrade's provider, and one of another workspace. -/
def sampleArchive : Archive where
  rows := [⟨1, "lichess", "public"⟩, ⟨2, "lichess", "beta"⟩, ⟨4, "lichess", "alpha"⟩]
  sorted := by decide
  positive := by decide

def sampleCall : Call := ⟨7, "lichess", "u", none, some 1, none, some "alpha", "m1"⟩

def sampleStart : State := ⟨sampleArchive, fun _ => none, fun _ => none, []⟩

/-- A trace in which the payloads stay as they are. -/
def payloadsStay (_ : State) : Event → Prop
  | .archive _ => False
  | _ => True

instance (s : State) (e : Event) : Decidable (payloadsStay s e) :=
  match e with
  | .archive _ => isFalse fun h => h
  | .begin _ _ => isTrue trivial
  | .select _ => isTrue trivial
  | .stop _ => isTrue trivial
  | .replay _ => isTrue trivial
  | .checkpoint _ => isTrue trivial
  | .finish _ => isTrue trivial
  | .raise _ _ => isTrue trivial
  | .fail _ => isTrue trivial
  | .crash _ => isTrue trivial

theorem reach_of_trace (es : List Event) (p : State → Bool)
    (h : (exec upgrades payloadsStay sampleStart es).map p = some true) : ∃ t, Reach upgrades Fixed t ∧ p t = true := by
  obtain ⟨t, ht, hp⟩ := Reach.of_exec upgrades payloadsStay ⟨fun _ => rfl, fun _ => rfl, rfl⟩ es p h
  refine ⟨t, ht.mono fun s e he => ?_, hp⟩
  cases e with
  | archive a => exact absurd he (fun h => h)
  | _ => trivial

/-- The worker is lost between the replay of a payload and its checkpoint: the payload is replayed and not counted. -/
theorem replayed_before_counted : ¬ ∀ s, Reach upgrades Fixed s → ∀ id u, s.table id = some u →
    u.processed = (s.replayedBy id).length := by
  intro hall
  obtain ⟨s, hs, hp⟩ := reach_of_trace [.begin 0 sampleCall, .select 0, .replay 0, .crash 0]
    (fun s => decide ((s.table "u").map Upgrade.processed = some 0 ∧ s.replayedBy "u" = [1])) (by decide +kernel)
  rw [decide_eq_true_eq] at hp
  obtain ⟨hprocessed, hreplayed⟩ := hp
  obtain ⟨u, hu, hzero⟩ := Option.map_eq_some_iff.mp hprocessed
  have := hall s hs "u" u hu
  rw [hreplayed, hzero] at this
  cases this

/-- A lost worker, a failed replay, and the executions that follow. -/
theorem upgrade_complete_resumed : ∃ s u, Reach upgrades Fixed s ∧ s.table "u" = some u ∧ u.state = .done ∧
    u.processed = 2 ∧ s.replays.length = 3 ∧ (s.replayedBy "u").length = u.processed := by
  obtain ⟨s, hs, hp⟩ := reach_of_trace
    [.begin 0 sampleCall, .select 0, .replay 0, .crash 0, .begin 0 sampleCall, .select 0, .replay 0, .checkpoint 0,
      .finish 0, .begin 0 sampleCall, .select 0, .raise 0 "not JSON", .fail 0, .begin 0 sampleCall, .select 0, .replay 0,
      .checkpoint 0, .finish 0, .begin 0 sampleCall, .select 0, .finish 0]
    (fun s => decide ((s.table "u").map (fun u => (u.state, u.processed)) = some (.done, 2) ∧ s.replays.length = 3))
    (by decide +kernel)
  rw [decide_eq_true_eq] at hp
  obtain ⟨hrow, hreplays⟩ := hp
  obtain ⟨u, hu, heq⟩ := Option.map_eq_some_iff.mp hrow
  obtain ⟨hstate, hprocessed⟩ := Prod.mk.inj heq
  exact ⟨s, u, hs, hu, hstate, hprocessed, hreplays, (upgrade_complete hs hu).2.2.2.2.2.1 hstate⟩

end ChessCrawl.Upgrades
