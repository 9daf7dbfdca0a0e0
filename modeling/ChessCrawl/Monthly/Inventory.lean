import ChessCrawl.Monthly.Moves

/-! The inventory of a monthly collection: which units it lists, and how the cursor walks through them. -/
namespace ChessCrawl.Monthly
open ChessCrawl.Acquisition ChessCrawl.Lib
open ChessCrawl.Collection (milliseconds)
set_option autoImplicit false

/-! ## Listed units -/

theorem mapM_mem {α β : Type} {f : α → Except String β} {as : List α} {bs : List β} (h : as.mapM f = .ok bs) :
    (∀ a ∈ as, ∃ b, f a = .ok b) ∧ ∀ b, b ∈ bs ↔ ∃ a ∈ as, f a = .ok b := by
  induction as generalizing bs with
  | nil =>
    cases h
    simp
  | cons a as ih =>
    rw [List.mapM_cons] at h
    obtain ⟨b, hb, h⟩ := bind_ok h
    obtain ⟨bs', hbs, h⟩ := bind_ok h
    cases h
    obtain ⟨hall, hmem⟩ := ih hbs
    refine ⟨fun a' ha' => ?_, fun b' => ?_⟩
    · rcases List.mem_cons.mp ha' with rfl | ha'
      · exact ⟨b, hb⟩
      · exact hall a' ha'
    · simp only [List.mem_cons, hmem, exists_eq_or_imp, hb, Except.ok.injEq]
      tauto

theorem overlapping_mem {sinceMs untilMs : Option Int} {units kept : List String}
    (h : overlapping sinceMs untilMs units = .ok kept) (unit : String) :
    unit ∈ kept ↔ unit ∈ units ∧ monthOverlaps unit sinceMs untilMs = .ok true := by
  induction units generalizing kept with
  | nil =>
    cases h
    simp
  | cons first units ih =>
    rw [overlapping] at h
    obtain ⟨overlaps, hoverlaps, h⟩ := bind_ok h
    obtain ⟨rest, hrest, h⟩ := bind_ok h
    cases h
    have hmem := ih hrest
    by_cases hfirst : unit = first
    · subst hfirst
      cases overlaps with
      | true => simp [hoverlaps]
      | false => simp [hmem, hoverlaps]
    · cases overlaps with
      | true => simp [hmem, hfirst]
      | false => simp [hmem, hfirst]

/-- A month of the index that the parameters select. -/
def Selected (username : String) (x : Exec) (urls : List ArchiveUrl) (unit : String) : Prop :=
  (∃ url ∈ urls, archiveUnit username url = .ok unit) ∧ monthOverlaps unit x.sinceMs x.untilMs = .ok true ∧
    ∀ months, x.params.months = some months → unit ∈ months

/-- The inventory lists the selected months, and an index with an address of another kind has none. -/
theorem inventory_mem {username : String} {x : Exec} {body : Body} {units rest : List String}
    (h : inventory username x body = .ok (units, rest)) :
    ∃ urls, body.archives = some urls ∧ (∀ url ∈ urls, ∃ unit, archiveUnit username url = .ok unit) ∧
      ∀ unit, unit ∈ units ↔ Selected username x urls unit := by
  unfold inventory at h
  split at h
  · cases h
  · next urls hurls =>
    obtain ⟨listed, hlisted, h⟩ := bind_ok h
    obtain ⟨kept, hkept, h⟩ := bind_ok h
    obtain ⟨hall, hmem⟩ := mapM_mem hlisted
    refine ⟨urls, hurls, hall, fun unit => ?_⟩
    have hover := overlapping_mem hkept unit
    rw [List.mem_insertionSort, List.mem_dedup, hmem] at hover
    unfold Selected
    split at h
    · next hmonths =>
      cases h
      rw [hover, hmonths]
      simp
    · next months hmonths =>
      obtain ⟨_, _, h⟩ := bind_ok h
      cases h
      rw [List.mem_filter, hover, hmonths]
      simp [and_assoc]

/-! ## The cursor of a job -/

variable {username : String} {job : Nat} {clock : Int} {db db' : Db} {i : Input}

/-- The units of a cursor are the inventory of a preserved index under the cursor's parameters. -/
def Inventoried (username : String) (db : Db) (params : Params) (units : List String) : Prop :=
  ∃ p x rest, db.rawPayload p.id = some p ∧ p.source = .index ∧ x.params.fingerprint = params ∧
    milliseconds x.params.sinceMs x.params.since = some x.sinceMs ∧
    milliseconds x.params.untilMs x.params.upto = some x.untilMs ∧ inventory username x p.body = .ok (units, rest)

theorem Inventoried.extend {params : Params} {units : List String} (h : Inventoried username db params units)
    (hext : db.Extends db') : Inventoried username db' params units := by
  obtain ⟨p, x, rest, hp, hrest⟩ := h
  exact ⟨p, x, rest, hext.payload hp, hrest⟩

structure Cursor.Sound (username : String) (db : Db) (c : Cursor) : Prop where
  inventoried : Inventoried username db c.requestFingerprint c.units
  bound : c.unitIndex ≤ c.units.length
  finished : c.done = true → c.unitIndex = c.units.length

def Exec.Windowed (x : Exec) : Prop :=
  milliseconds x.params.sinceMs x.params.since = some x.sinceMs ∧
    milliseconds x.params.untilMs x.params.upto = some x.untilMs

/-- The unit that a program point is at. -/
def Pc.unit? : Pc → Option String
  | .head => none
  | .covered unit _ => some unit
  | .chosen unit _ => some unit
  | .stored unit _ => some unit
  | .fetching unit => some unit
  | .requested unit _ => some unit
  | .resolving unit => some unit
  | .fetched unit _ => some unit
  | .refused unit _ _ => some unit

/-- A call agrees with the checkpoint of its job. -/
def Call.Tracks (username : String) (job : Nat) (db : Db) : Call → Prop
  | .running x c pc => db.checkpoints job = some c ∧ c.done = false ∧ x.Windowed ∧
      ∀ unit, pc.unit? = some unit → c.units[c.unitIndex]? = some unit
  | .absent x units _ => db.checkpoints job = none ∧ x.Windowed ∧ Inventoried username db x.params.fingerprint units
  | .indexed x raw => db.checkpoints job = none ∧ x.Windowed ∧ ∃ p, db.rawPayload raw = some p ∧ p.source = .index
  | .index x => db.checkpoints job = none ∧ x.Windowed
  | .requestedIndex x _ => db.checkpoints job = none ∧ x.Windowed
  | .refusedIndex x _ _ => db.checkpoints job = none ∧ x.Windowed

theorem Call.Tracks.frame {call : Call} (h : call.Tracks username job db) (hext : db.Extends db')
    (hsame : db'.checkpoints job = db.checkpoints job) : call.Tracks username job db' := by
  cases call with
  | running x c pc => exact ⟨hsame.trans h.1, h.2⟩
  | absent x units rest => exact ⟨hsame.trans h.1, h.2.1, h.2.2.extend hext⟩
  | indexed x raw =>
    obtain ⟨hnone, hwin, p, hp, hsrc⟩ := h
    exact ⟨hsame.trans hnone, hwin, p, hext.payload hp, hsrc⟩
  | index x => exact ⟨hsame.trans h.1, h.2⟩
  | requestedIndex x requestedAt => exact ⟨hsame.trans h.1, h.2⟩
  | refusedIndex x status message => exact ⟨hsame.trans h.1, h.2⟩

theorem enter_tracks {s : State} {params : Params} {stop : Bool} {call : Call}
    (h : enter username s job params stop = some call) : call.Tracks username job s.db := by
  have hwindow : ∀ x, Exec.ofParams params s.clock = some x → x.Windowed := by
    intro x hx
    unfold Exec.ofParams at hx
    obtain ⟨batchSize, _, hx⟩ := Option.bind_eq_some_iff.mp hx
    obtain ⟨sinceMs, hsince, hx⟩ := Option.bind_eq_some_iff.mp hx
    obtain ⟨untilMs, huntil, hx⟩ := Option.bind_eq_some_iff.mp hx
    split at hx
    · cases hx
    · cases hx
      exact ⟨hsince, huntil⟩
  unfold enter at h
  split at h
  · cases h
  · next c x hc hx =>
    split at h
    · cases h
    · next hgo =>
      cases h
      refine ⟨hc, ?_, hwindow x hx, fun unit hunit => by cases hunit⟩
      simp only [not_or, Bool.not_eq_true] at hgo
      exact hgo.2.2.1
  · next x hc hx =>
    split at h
    · cases h
    · cases h
      exact ⟨hc, hwindow x hx⟩

/-- The cursor of a job after one of its moves. -/
inductive CursorMove (username : String) (db : Db) (before after : Option Cursor) : Prop
  | same (h : after = before)
  | opened (c : Cursor) (hbefore : before = none) (hafter : after = some c)
      (hinv : Inventoried username db c.requestFingerprint c.units) (hzero : c.unitIndex = 0) (hdone : c.done = false)
  | passed (c : Cursor) (unit : String) (hbefore : before = some c) (hafter : after = some c.next)
      (hunit : c.units[c.unitIndex]? = some unit) (hdone : c.done = false)
  | closed (c : Cursor) (hbefore : before = some c) (hafter : after = some { c with done := true })
      (hend : c.unitIndex = c.units.length)

theorem CursorMove.sound {before after : Option Cursor} (h : CursorMove username db before after)
    (hbefore : ∀ c, before = some c → c.Sound username db) : ∀ c, after = some c → c.Sound username db := by
  intro c hc
  cases h with
  | same h => exact hbefore c (h.symm.trans hc)
  | opened c' hb ha hinv hzero hdone =>
    rw [ha] at hc
    cases hc
    refine ⟨hinv, by omega, fun hd => ?_⟩
    rw [hdone] at hd
    cases hd
  | passed c' unit hb ha hunit hdone =>
    rw [ha] at hc
    cases hc
    refine ⟨(hbefore c' hb).inventoried, (List.getElem?_eq_some_iff.mp hunit).1, fun hd => ?_⟩
    rw [show c'.next.done = c'.done from rfl, hdone] at hd
    cases hd
  | closed c' hb ha hend =>
    rw [ha] at hc
    cases hc
    exact ⟨(hbefore c' hb).inventoried, (hbefore c' hb).bound, fun _ => hend⟩

theorem Cursor.Sound.extend {c : Cursor} (h : c.Sound username db) (hext : db.Extends db') : c.Sound username db' :=
  ⟨h.inventoried.extend hext, h.bound, h.finished⟩

theorem saveCheckpoint_self (c : Cursor) : (db.saveCheckpoint job c).checkpoints job = some c :=
  Function.update_self job _ _

theorem Moves.tracks {call : Call} {next : Option Call} (h : Moves username job clock db i call db' next)
    (hnum : db.Numbered) (htracks : call.Tracks username job db) :
    CursorMove username db (db.checkpoints job) (db'.checkpoints job) ∧
      ∀ call', next = some call' → call'.Tracks username job db' := by
  obtain ⟨hext, hnum'⟩ := h.extends hnum
  cases h with
  | stops => exact ⟨.same rfl, fun _ h => by cases h⟩
  | reuseIndex x raw hraw =>
    refine ⟨.same rfl, fun call' h => ?_⟩
    cases h
    obtain ⟨f, _, ⟨_, hsrc⟩, rfl⟩ := Db.latestJobPayload_some hraw
    obtain ⟨p, hp, hindex⟩ := Option.map_eq_some_iff.mp hsrc
    exact ⟨htracks.1, htracks.2, p, hp, hindex⟩
  | captureIndex x requestedAt body =>
    obtain ⟨⟨p, hp, hsrc, _⟩, _, _, _, hcheck⟩ := Db.persist_spec hnum (some job) .index body requestedAt
    refine ⟨.same (congrFun hcheck job), fun call' h => ?_⟩
    cases h
    exact ⟨(congrFun hcheck job).trans htracks.1, htracks.2, p, hp, hsrc⟩
  | confirmIndex x requestedAt raw hraw =>
    obtain ⟨p, hp, hsrc, _⟩ := Db.latestSource_spec hnum hraw 0
    refine ⟨.same rfl, fun call' h => ?_⟩
    cases h
    exact ⟨htracks.1, htracks.2, p, hp, hsrc⟩
  | refuseIndex x status message => exact ⟨.same (by simp), fun _ h => by cases h⟩
  | list x raw p units rest hraw hunits =>
    refine ⟨.same rfl, fun call' h => ?_⟩
    cases h
    obtain ⟨hnone, hwin, q, hq, hindex⟩ := htracks
    rw [hraw] at hq
    cases hq
    have hid := (Db.mem_of_rawPayload hraw).2
    exact ⟨hnone, hwin, p, x, rest, hid ▸ hraw, hindex, rfl, hwin.1, hwin.2, hunits⟩
  | absent x units unit rest =>
    refine ⟨.same (by simp), fun call' h => ?_⟩
    cases h
    exact ⟨by simpa using htracks.1, htracks.2.1, htracks.2.2.extend hext⟩
  | «open» x units =>
    refine ⟨.opened _ htracks.1 (saveCheckpoint_self _) htracks.2.2 rfl rfl, fun call' h => ?_⟩
    cases h
    exact ⟨saveCheckpoint_self _, rfl, htracks.2.1, fun unit hunit => by cases hunit⟩
  | take x c unit hunit =>
    refine ⟨.same rfl, fun call' h => ?_⟩
    cases h
    refine ⟨htracks.1, htracks.2.1, htracks.2.2.1, fun unit' h' => ?_⟩
    cases h'
    exact hunit
  | finish x c hend => exact ⟨.closed c htracks.1 (saveCheckpoint_self _) hend, fun _ h => by cases h⟩
  | keep x c unit raw hgames =>
    refine ⟨.passed c unit htracks.1 (saveCheckpoint_self _) (htracks.2.2.2 unit rfl) htracks.2.1, fun call' h => ?_⟩
    cases h
    exact ⟨saveCheckpoint_self _, htracks.2.1, htracks.2.2.1, fun unit hunit => by cases hunit⟩
  | capture x c unit requestedAt body year month stop hbounds =>
    have hcheck := (Db.persist_spec hnum (some job) (monthSource year month) body requestedAt).2.2.2.2
    refine ⟨.same (congrFun hcheck job), fun call' h => ?_⟩
    cases h
    exact ⟨(congrFun hcheck job).trans htracks.1, htracks.2⟩
  | confirm x c unit requestedAt raw year month stop hbounds hraw =>
    refine ⟨.same rfl, fun call' h => ?_⟩
    cases h
    refine ⟨htracks.1, htracks.2.1, htracks.2.2.1, fun unit' h' => htracks.2.2.2 unit' ?_⟩
    split at h' <;> exact h'
  | pass x c unit raw year month stop hbounds hgames =>
    refine ⟨.passed c unit htracks.1 (saveCheckpoint_self _) (htracks.2.2.2 unit rfl) htracks.2.1, fun call' h => ?_⟩
    cases h
    exact ⟨saveCheckpoint_self _, htracks.2.1, htracks.2.2.1, fun unit hunit => by cases hunit⟩
  | gone x c unit status message hstatus =>
    refine ⟨.passed c unit htracks.1 (saveCheckpoint_self _) (htracks.2.2.2 unit rfl) htracks.2.1, fun call' h => ?_⟩
    cases h
    exact ⟨saveCheckpoint_self _, htracks.2.1, htracks.2.2.1, fun unit hunit => by cases hunit⟩
  | refuse x c unit status message => exact ⟨.same (by simp), fun _ h => by cases h⟩
  | _ =>
    refine ⟨.same rfl, fun call' h => ?_⟩
    cases h
    exact htracks

end ChessCrawl.Monthly
