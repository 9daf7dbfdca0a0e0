import ChessCrawl.Monthly.Archive

/-! The moves of a call, one constructor for each thing a program point can do. -/
namespace ChessCrawl.Monthly
open ChessCrawl.Acquisition ChessCrawl.Lib
set_option autoImplicit false

/-- `stops` is a return or an exception without a write. -/
inductive Moves (username : String) (job : Nat) (clock : Int) (db : Db) (i : Input) : Call → Db → Option Call → Prop
  | stops (call : Call) : Moves username job clock db i call db none
  | reuseIndex (x : Exec) (raw : Nat) (hraw : db.latestJobPayload job .index = some raw) :
      Moves username job clock db i (.index x) db (some (.indexed x raw))
  | requestIndex (x : Exec) : Moves username job clock db i (.index x) db (some (.requestedIndex x clock))
  | captureIndex (x : Exec) (requestedAt : Int) (body : Body) :
      Moves username job clock db i (.requestedIndex x requestedAt) (db.persist (some job) .index body requestedAt).1
        (some (.indexed x (db.persist (some job) .index body requestedAt).2))
  | confirmIndex (x : Exec) (requestedAt : Int) (raw : Nat) (hraw : db.latestSource .index = some raw) :
      Moves username job clock db i (.requestedIndex x requestedAt) (db.insertFetchLog (some job) raw requestedAt)
        (some (.indexed x raw))
  | retryIndex (x : Exec) (requestedAt : Int) :
      Moves username job clock db i (.requestedIndex x requestedAt) db (some (.requestedIndex x clock))
  | failIndex (x : Exec) (requestedAt : Int) (status : Nat) (message : String) :
      Moves username job clock db i (.requestedIndex x requestedAt) db (some (.refusedIndex x status message))
  | refuseIndex (x : Exec) (status : Nat) (message : String) :
      Moves username job clock db i (.refusedIndex x status message)
        (db.recordFailure "archives_index" status message x.now) none
  | list (x : Exec) (raw : Nat) (p : RawPayload) (units rest : List String) (hraw : db.rawPayload raw = some p)
      (hunits : inventory username x p.body = .ok (units, rest)) :
      Moves username job clock db i (.indexed x raw) db (some (.absent x units rest))
  | absent (x : Exec) (units : List String) (unit : String) (rest : List String) :
      Moves username job clock db i (.absent x units (unit :: rest))
        (db.recordCoverage unit ⟨.missing, none, x.now, some "not listed by provider", false⟩)
        (some (.absent x units rest))
  | open (x : Exec) (units : List String) :
      Moves username job clock db i (.absent x units [])
        ((db.recordPending units x.now).saveCheckpoint job ⟨x.params.fingerprint, units, 0, false⟩)
        (some (.running x ⟨x.params.fingerprint, units, 0, false⟩ .head))
  | take (x : Exec) (c : Cursor) (unit : String) (hunit : c.units[c.unitIndex]? = some unit) :
      Moves username job clock db i (.running x c .head) db
        (some (.running x c (.covered unit ((db.coverage unit).bind CoverageRow.rawPayloadId))))
  | finish (x : Exec) (c : Cursor) (hend : c.unitIndex = c.units.length) :
      Moves username job clock db i (.running x c .head) (db.saveCheckpoint job { c with done := true }) none
  | choose (x : Exec) (c : Cursor) (unit : String) (raw : Option Nat) :
      Moves username job clock db i (.running x c (.covered unit raw)) db
        (some (.running x c (.chosen unit ((db.latestSource (.month unit)).orElse fun _ => raw))))
  | adopt (x : Exec) (c : Cursor) (unit : String) (raw year month : Nat) (stop observed : Int)
      (hbounds : monthBounds unit = .ok (year, month, stop)) (hobserved : db.payloadObservedAt raw = some observed)
      (hstop : stop ≤ observed) :
      Moves username job clock db i (.running x c (.chosen unit (some raw))) db (some (.running x c (.stored unit raw)))
  | turn (x : Exec) (c : Cursor) (unit : String) (raw : Option Nat) :
      Moves username job clock db i (.running x c (.chosen unit raw)) db (some (.running x c (.fetching unit)))
  | keep (x : Exec) (c : Cursor) (unit : String) (raw : Nat) (hgames : (db.games raw).isSome = true) :
      Moves username job clock db i (.running x c (.stored unit raw)) (db.commitMonth job c unit raw true x.now)
        (some (.running x.next c.next .head))
  | reuse (x : Exec) (c : Cursor) (unit : String) (raw year month : Nat) (stop : Int)
      (hbounds : monthBounds unit = .ok (year, month, stop)) (hbudget : i.budgeted = true)
      (hraw : db.latestJobPayload job (monthSource year month) = some raw) :
      Moves username job clock db i (.running x c (.fetching unit)) db (some (.running x c (.fetched unit raw)))
  | request (x : Exec) (c : Cursor) (unit : String) (year month : Nat) (stop : Int)
      (hbounds : monthBounds unit = .ok (year, month, stop))
      (hraw : (if i.budgeted then db.latestJobPayload job (monthSource year month) else none) = none) :
      Moves username job clock db i (.running x c (.fetching unit)) db (some (.running x c (.requested unit clock)))
  | capture (x : Exec) (c : Cursor) (unit : String) (requestedAt : Int) (body : Body) (year month : Nat) (stop : Int)
      (hbounds : monthBounds unit = .ok (year, month, stop)) :
      Moves username job clock db i (.running x c (.requested unit requestedAt))
        (db.persist (some job) (monthSource year month) body requestedAt).1
        (some (.running x c (.fetched unit (db.persist (some job) (monthSource year month) body requestedAt).2)))
  | confirm (x : Exec) (c : Cursor) (unit : String) (requestedAt : Int) (raw year month : Nat) (stop : Int)
      (hbounds : monthBounds unit = .ok (year, month, stop))
      (hraw : db.latestSource (monthSource year month) = some raw) :
      Moves username job clock db i (.running x c (.requested unit requestedAt))
        (db.insertFetchLog (some job) raw requestedAt)
        (some (.running x c (if i.current then .resolving unit else .fetched unit raw)))
  | retry (x : Exec) (c : Cursor) (unit : String) (requestedAt : Int) (hresponse : i.response = .retry) :
      Moves username job clock db i (.running x c (.requested unit requestedAt)) db
        (some (.running x c (.requested unit clock)))
  | fail (x : Exec) (c : Cursor) (unit : String) (requestedAt : Int) (status : Nat) (message : String) :
      Moves username job clock db i (.running x c (.requested unit requestedAt)) db
        (some (.running x c (.refused unit status message)))
  | resolve (x : Exec) (c : Cursor) (unit : String) (raw : Nat) (hraw : db.latestSource (.month unit) = some raw) :
      Moves username job clock db i (.running x c (.resolving unit)) db (some (.running x c (.fetched unit raw)))
  | unresolved (x : Exec) (c : Cursor) (unit : String) :
      Moves username job clock db i (.running x c (.resolving unit)) db
        (some (.running x c (.refused unit 304 notModifiedMessage)))
  | pass (x : Exec) (c : Cursor) (unit : String) (raw year month : Nat) (stop : Int)
      (hbounds : monthBounds unit = .ok (year, month, stop)) (hgames : (db.games raw).isSome = true) :
      Moves username job clock db i (.running x c (.fetched unit raw))
        (db.commitMonth job c unit raw (decide (stop ≤ x.now)) x.now) (some (.running x.next c.next .head))
  | gone (x : Exec) (c : Cursor) (unit : String) (status : Nat) (message : String)
      (hstatus : status = 404 ∨ status = 410) :
      Moves username job clock db i (.running x c (.refused unit status message))
        (db.commitGone job c unit status message x.now) (some (.running x.next c.next .head))
  | refuse (x : Exec) (c : Cursor) (unit : String) (status : Nat) (message : String) :
      Moves username job clock db i (.running x c (.refused unit status message))
        (db.recordFailure unit status message x.now) none

variable {username : String} {job : Nat} {clock : Int} {db : Db} {i : Input}

theorem Pc.advance_moves (x : Exec) (c : Cursor) (pc : Pc) :
    Moves username job clock db i (.running x c pc) (pc.advance job clock db i x c).1
      (pc.advance job clock db i x c).2 := by
  cases pc with
  | head =>
    rw [Pc.advance]
    split
    · next unit hunit =>
      split at hunit
      · exact .take x c unit hunit
      · cases hunit
    · split
      · next hend => exact .finish x c hend
      · exact .stops _
  | covered unit raw => exact .choose x c unit raw
  | chosen unit raw =>
    cases raw with
    | none => exact .turn x c unit none
    | some raw =>
      rw [Pc.advance]
      split
      · next hbounds hobserved =>
        split
        · next hseal => exact .adopt x c unit raw _ _ _ _ hbounds hobserved hseal.2
        · exact .turn x c unit (some raw)
      · exact .stops _
  | stored unit raw =>
    rw [Pc.advance]
    split
    · next hgames => exact .keep x c unit raw hgames
    · exact .stops _
  | fetching unit =>
    rw [Pc.advance]
    split
    · next hbounds =>
      split
      · next raw hraw =>
        split at hraw
        · next hbudget => exact .reuse x c unit raw _ _ _ hbounds hbudget hraw
        · cases hraw
      · next hraw => exact .request x c unit _ _ _ hbounds hraw
    · exact .stops _
  | requested unit requestedAt =>
    rw [Pc.advance]
    split
    · next body hbounds _ => exact .capture x c unit requestedAt body _ _ _ hbounds
    · next hbounds _ =>
      split
      · exact .stops _
      · next raw hraw => exact .confirm x c unit requestedAt raw _ _ _ hbounds hraw
    · next hresponse => exact .retry x c unit requestedAt hresponse
    · next status message _ _ => exact .fail x c unit requestedAt status message
    · exact .stops _
  | resolving unit =>
    rw [Pc.advance]
    split
    · next raw hraw => exact .resolve x c unit raw hraw
    · exact .unresolved x c unit
  | fetched unit raw =>
    rw [Pc.advance]
    split
    · next hbounds =>
      split
      · next hgames => exact .pass x c unit raw _ _ _ hbounds hgames
      · exact .stops _
    · exact .stops _
  | refused unit status message =>
    rw [Pc.advance]
    split
    · next hstatus => exact .gone x c unit status message hstatus
    · exact .refuse x c unit status message

theorem Call.advance_moves (call : Call) :
    Moves username job clock db i call (call.advance username job clock db i).1
      (call.advance username job clock db i).2 := by
  cases call with
  | index x =>
    rw [Call.advance]
    split
    · next raw hraw =>
      split at hraw
      · exact .reuseIndex x raw hraw
      · cases hraw
    · exact .requestIndex x
  | requestedIndex x requestedAt =>
    rw [Call.advance]
    split
    · next body _ => exact .captureIndex x requestedAt body
    · split
      · exact .stops _
      · next raw hraw => exact .confirmIndex x requestedAt raw hraw
    · exact .retryIndex x requestedAt
    · next status message _ => exact .failIndex x requestedAt status message
  | refusedIndex x status message => exact .refuseIndex x status message
  | indexed x raw =>
    rw [Call.advance]
    split
    · next units rest hunits =>
      obtain ⟨p, hp, hunits⟩ := Option.map_eq_some_iff.mp hunits
      exact .list x raw p units rest hp hunits
    · exact .stops _
  | absent x units rest =>
    cases rest with
    | nil => exact .open x units
    | cons unit rest => exact .absent x units unit rest
  | running x c pc => exact pc.advance_moves x c

theorem step_advance {s t : State} (h : step username s (.advance job i) = some t) :
    ∃ call db' next, s.calls job = some call ∧ Moves username job s.clock s.db i call db' next ∧
      t = { s with db := db', calls := Function.update s.calls job next } := by
  obtain ⟨call, hcall, ht⟩ := Option.map_eq_some_iff.mp h
  exact ⟨call, _, _, hcall, call.advance_moves, ht.symm⟩

theorem enter_head {s : State} {params : Params} {stop : Bool} {x : Exec} {c : Cursor} {pc : Pc}
    (h : enter username s job params stop = some (.running x c pc)) : pc = .head := by
  unfold enter at h
  split at h
  · cases h
  · split at h
    · cases h
    · cases h
      rfl
  · split at h <;> cases h

/-! ## The archive along a move -/

theorem Moves.extends {call : Call} {db' : Db} {next : Option Call} (h : Moves username job clock db i call db' next)
    (hnum : db.Numbered) : db.Extends db' ∧ db'.Numbered := by
  cases h with
  | captureIndex => exact Db.persist_extends hnum _ _ _ _
  | capture => exact Db.persist_extends hnum _ _ _ _
  | confirmIndex => exact ⟨Db.insertFetchLog_extends _ _ _, hnum.of_eq rfl⟩
  | confirm => exact ⟨Db.insertFetchLog_extends _ _ _, hnum.of_eq rfl⟩
  | refuseIndex => exact ⟨.of_eq (by simp) (by simp), hnum.of_eq (by simp)⟩
  | absent => exact ⟨.of_eq (by simp) (by simp), hnum.of_eq (by simp)⟩
  | «open» => exact ⟨.of_eq (by simp) (by simp), hnum.of_eq (by simp)⟩
  | finish => exact ⟨.of_eq rfl rfl, hnum.of_eq rfl⟩
  | keep => exact ⟨.of_eq (by simp [Db.commitMonth]) (by simp [Db.commitMonth]), hnum.of_eq (by simp [Db.commitMonth])⟩
  | pass => exact ⟨.of_eq (by simp [Db.commitMonth]) (by simp [Db.commitMonth]), hnum.of_eq (by simp [Db.commitMonth])⟩
  | gone => exact ⟨.of_eq (by simp [Db.commitGone]) (by simp [Db.commitGone]), hnum.of_eq (by simp [Db.commitGone])⟩
  | refuse => exact ⟨.of_eq (by simp) (by simp), hnum.of_eq (by simp)⟩
  | _ => exact ⟨.refl db, hnum⟩

/-- The keys of preserved payloads: the index, or a month in its canonical text. -/
def Keyed (src : Source) : Prop :=
  src = .index ∨ ∃ year month, IsMonth year month ∧ year ≤ 9999 ∧ src = monthSource year month

theorem monthBounds_month {unit : String} {year month : Nat} {stop : Int}
    (h : monthBounds unit = .ok (year, month, stop)) : IsMonth year month ∧ year ≤ 9999 := by
  unfold monthBounds at h
  split at h
  · cases h
  · next y m _ =>
    obtain ⟨_, hfirst, h⟩ := bind_ok h
    obtain ⟨_, _, h⟩ := bind_ok h
    cases h
    unfold firstOfMonth at hfirst
    split at hfirst
    · cases hfirst
    · split at hfirst
      · cases hfirst
      · next hy hm => exact ⟨⟨by omega, by omega, by omega⟩, by omega⟩

theorem Moves.keyed {call : Call} {db' : Db} {next : Option Call} (h : Moves username job clock db i call db' next)
    (hnum : db.Numbered) (hkeyed : ∀ p ∈ db.rawPayloads, Keyed p.source) : ∀ p ∈ db'.rawPayloads, Keyed p.source := by
  cases h with
  | captureIndex x requestedAt body =>
    intro p hp
    rcases (Db.persist_spec hnum _ _ _ _).2.1 p hp with hp | hp
    · exact hkeyed p hp
    · exact .inl hp
  | capture x c unit requestedAt body year month stop hbounds =>
    intro p hp
    rcases (Db.persist_spec hnum _ _ _ _).2.1 p hp with hp | hp
    · exact hkeyed p hp
    · obtain ⟨hmonth, hyear⟩ := monthBounds_month hbounds
      exact .inr ⟨year, month, hmonth, hyear, hp⟩
  | refuseIndex => simpa using hkeyed
  | absent => simpa using hkeyed
  | «open» => simpa using hkeyed
  | keep => simpa [Db.commitMonth] using hkeyed
  | pass => simpa [Db.commitMonth] using hkeyed
  | gone => simpa [Db.commitGone] using hkeyed
  | refuse => simpa using hkeyed
  | _ => exact hkeyed

/-! ## Canonical texts -/

theorem decimalDigit_digit (n : Nat) : decimalDigit (digit n) = some (n % 10) := by
  have hall : ∀ k : Fin 10, decimalDigit (Char.ofNat (48 + k)) = some k.val := by decide +kernel
  exact hall ⟨n % 10, Nat.mod_lt n (by decide)⟩

theorem parseUnit_monthKey {year month : Nat} (hy : year ≤ 9999) (hm : month ≤ 99) :
    parseUnit (monthKey year month) = some (year, month) := by
  unfold parseUnit monthKey
  simp only [String.toList_ofList, decimalDigit_digit, Option.bind_eq_bind, Option.bind_some, Option.pure_def,
    Option.some.injEq, Prod.mk.injEq]
  omega

/-- A canonical text that names the month of a unit is the unit. -/
theorem unit_eq_monthKey {unit : String} {year month : Nat} {stop : Int} {src : Source}
    (hbounds : monthBounds unit = .ok (year, month, stop)) (hkeyed : Keyed src) (hsrc : src = .month unit) :
    src = monthSource year month := by
  rcases hkeyed with hindex | ⟨y, m, hmonth, hy, hkey⟩
  · rw [hindex] at hsrc
    cases hsrc
  · obtain rfl : unit = monthKey y m := by
      rw [hkey] at hsrc
      exact (Source.month.inj hsrc).symm
    unfold monthBounds at hbounds
    rw [parseUnit_monthKey hy (by have := hmonth.2.2; omega)] at hbounds
    obtain ⟨_, _, hbounds⟩ := bind_ok hbounds
    obtain ⟨_, _, hbounds⟩ := bind_ok hbounds
    cases hbounds
    exact hkey

end ChessCrawl.Monthly
