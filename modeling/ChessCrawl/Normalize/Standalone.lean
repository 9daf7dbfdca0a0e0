import ChessCrawl.Normalize.Bounded
import ChessCrawl.Normalize.Cap

/-! The game cap of a standalone bounded job. A call's own counter and the games charged to the budget
move together, so an attempt that starts within the cap stays within it; the counter starts again at every
attempt, and a resumed attempt whose earlier ones charged games can pass the cap. -/
namespace ChessCrawl.Normalize
open ChessCrawl.Lib
set_option autoImplicit false

/-! ## Charges of a call -/

/-- A step of a call changes the ledger by at most one charge, of the call's own budget. -/
inductive Charged (c : Call) (L : Budget.Ledger) : Budget.Ledger → Prop
  | unchanged : Charged c L L
  | units {budgetId : Nat} {now : Int} {isNew : Bool} {L' : Budget.Ledger} :
      L.reserveNormalization budgetId none 1 now = .ok (isNew, L') → Charged c L L'
  | game {budgetId : Nat} {key : String} {now : Int} {isNew : Bool} {L' : Budget.Ledger} :
      c.request.workBudgetId = some budgetId → L.reserveGame budgetId key now = .ok (isNew, L') → Charged c L L'

theorem reserveGame_charged {c : Call} {db db' : Db} {g : NormalizedGame} {now : Int} {acquired : Bool}
    (h : c.reserveGame db g now = .ok (acquired, db')) : Charged c db.ledger db'.ledger := by
  unfold Call.reserveGame at h
  split at h
  · cases h
    exact .unchanged
  next budgetId hbudget =>
  split at h
  · cases h
  next isNew L hreserve =>
  cases h
  exact .game hbudget hreserve

theorem moved_charged {c : Call} {c' : Option Call} {db db' : Db} (h : Moved c db c' db') :
    Charged c db.ledger db'.ledger := by
  cases h with
  | raised => exact .unchanged
  | kept => exact .unchanged
  | paid _ _ hreserve => exact .units hreserve
  | wrote _ hwrite =>
    cases writeGame_wrote hwrite with
    | excluded => exact .unchanged
    | refreshed hreserve hstored =>
      rw [hstored.ledger]
      exact reserveGame_charged hreserve
    | acquired _ _ _ hreserve hstored hattr =>
      rw [(attribute_attributed hattr).ledger, hstored.ledger]
      exact reserveGame_charged hreserve
  | finished =>
    rw [(certify_runs db c.request.rawId c.request.parserVersion c.observed c.pointers c.pointers.isEmpty).2.2]
    exact .unchanged

theorem Charged.ledgerOk {c : Call} {L L' : Budget.Ledger} (h : Charged c L L') (hL : Budget.LedgerOk L) :
    Budget.LedgerOk L' := by
  cases h with
  | unchanged => exact hL
  | units hreserve =>
    unfold Budget.Ledger.reserveNormalization at hreserve
    split at hreserve
    · cases hreserve
    · exact Budget.reserveProcessingWork_ok hL (by omega) hreserve
  | game _ hreserve => exact Budget.reserveProcessingWork_ok hL (Int.le_refl 0) hreserve

/-- A call with another budget, or none, charges no game of this one. -/
theorem Charged.foreign {c : Call} {L L' : Budget.Ledger} {budgetId : Nat} (h : Charged c L L')
    (hc : c.request.workBudgetId ≠ some budgetId) : L'.gamesOf budgetId = L.gamesOf budgetId := by
  cases h with
  | unchanged => rfl
  | units hreserve =>
    unfold Budget.Ledger.gamesOf
    rw [Budget.reserveNormalization_items hreserve]
  | @game other key now isNew L' hown hreserve =>
    have hne : other ≠ budgetId := fun heq => hc (hown.trans (congrArg some heq))
    refine Budget.step_gamesOf (L := L) (e := .reserveGame other key now) ?_ ?_
    · show (L.reserveGame other key now).map Prod.snd = _
      rw [hreserve]
      rfl
    · simpa [Budget.Event.chargesGame] using hne

/-! ## The call of a child -/

/-- A child's call counts down from its allowance. -/
structure ChildCall (budgetId : Nat) (c : Call) : Prop where
  run : c.request.crawlRunId = none
  budget : c.request.workBudgetId = some budgetId
  remaining : ∃ left, c.remaining = some left ∧ 0 ≤ left

theorem ChildCall.keeps {budgetId : Nat} {c c' : Call} (h : ChildCall budgetId c) (hk : c.Keeps c') :
    ChildCall budgetId c' := by
  refine ⟨?_, ?_, ?_⟩
  · rw [hk.request]
    exact h.run
  · rw [hk.request]
    exact h.budget
  · rw [hk.remaining]
    exact h.remaining

/-- Without a run, a call acquires exactly the games that its budget charges. -/
theorem reserveGame_count {budgetId : Nat} {c : Call} {db db' : Db} {g : NormalizedGame} {now : Int}
    {acquired : Bool} (hc : ChildCall budgetId c) (h : c.reserveGame db g now = .ok (acquired, db')) :
    (db'.ledger.gamesOf budgetId).length = (db.ledger.gamesOf budgetId).length + if acquired then 0 else 1 := by
  unfold Call.reserveGame at h
  rw [hc.budget, hc.run] at h
  dsimp only at h
  split at h
  · cases h
  next isNew L hreserve =>
  cases h
  have hcount := (Budget.reserveGame_spec hreserve).2
  cases isNew <;> simpa using hcount

/-- What a step of a child's call takes from its counter, it charges to the budget. -/
theorem moved_count {budgetId : Nat} {c d : Call} {db db' : Db} (hc : ChildCall budgetId c)
    (h : Moved c db (some d) db') {left : Int} (hleft : c.remaining = some left) :
    ChildCall budgetId d ∧ ∃ left', d.remaining = some left' ∧
      ((db'.ledger.gamesOf budgetId).length : Int) + left' = (db.ledger.gamesOf budgetId).length + left := by
  cases h with
  | kept hk => exact ⟨hc.keeps hk, left, hk.remaining.trans hleft, rfl⟩
  | paid hk _ hreserve =>
    refine ⟨hc.keeps hk, left, hk.remaining.trans hleft, ?_⟩
    unfold Budget.Ledger.gamesOf
    rw [Budget.reserveNormalization_items hreserve]
  | wrote _ hwrite =>
    have hwrote := writeGame_wrote hwrite
    clear hwrite
    cases hwrote with
    | excluded => exact ⟨hc.keeps c.keeps_next, left, hleft, rfl⟩
    | refreshed hreserve hstored =>
      refine ⟨hc.keeps ⟨rfl, rfl, rfl, rfl, rfl, rfl⟩, left, hleft, ?_⟩
      have hcount := reserveGame_count hc hreserve
      rw [hstored.ledger]
      simp only [if_true] at hcount
      omega
    | acquired hbounds hadmits hallow hreserve hstored hattr =>
      have hroom := (acquired_room (.acquired hbounds hadmits hallow hreserve hstored hattr)).1
      obtain ⟨_, hsome, hpos⟩ := hc.remaining
      have hsame := Option.some.inj (hsome.symm.trans hleft)
      have hne : left ≠ 0 := fun h0 => hroom (hleft.trans (congrArg some h0))
      have hcount := reserveGame_count hc hreserve
      have hnext : ∀ pointer id, (c.wrote pointer (.acquired id)).remaining = some (left - 1) := by
        intro pointer id
        simp [Call.wrote, hleft]
      refine ⟨⟨hc.run, hc.budget, left - 1, hnext _ _, by omega⟩, left - 1, hnext _ _, ?_⟩
      rw [(attribute_attributed hattr).ledger, hstored.ledger]
      simp only [Bool.false_eq_true, if_false] at hcount
      omega
  | finished =>
    refine ⟨hc.keeps ⟨rfl, rfl, rfl, rfl, rfl, rfl⟩, left, hleft, ?_⟩
    rw [(certify_runs db c.request.rawId c.request.parserVersion c.observed c.pointers c.pointers.isEmpty).2.2]

theorem moved_raised_count {c : Call} {db db' : Db} (h : Moved c db none db') : db' = db := by
  cases h with
  | raised => rfl

/-! ## The invariant -/

/-- The attempt has not stored its unit yet. -/
def Attempt.early : Attempt → Bool
  | .claimed | .inspected | .measured _ => true
  | .idle | .captured | .checkpointed => false

structure StandaloneOk (job : BoundedJob) (s : Jobs) : Prop where
  ledger : Budget.LedgerOk s.world.db.ledger
  ids : (s.children.map Child.id).Nodup
  fresh : ∀ c ∈ s.children, c.id < s.children.length
  single : ∀ c ∈ s.children, ∀ d ∈ s.children, c.state.unfinished = true → d.state.unfinished = true → c.id = d.id
  allowance : ∀ c ∈ s.children, 0 ≤ c.maxGames
  started : ∀ c ∈ s.children, ∀ w, c.state = .inProgress w → c.attempts ≠ 0
  quiet : s.parent.attempt.early = true → ∀ c ∈ s.children, c.state.unfinished = false
  measured : ∀ r, s.parent.attempt = .measured r → 0 ≤ r ∧ (job.charged s : Int) + r ≤ job.maxGames
  first : ∀ c ∈ s.children, c.state.unfinished = true → c.attempts = 0 → job.fits s c
  running : ∀ c ∈ s.children, ∀ w call, c.state = .inProgress w → s.world.calls w = some call →
    ChildCall job.workBudgetId call ∧ ∃ left, call.remaining = some left ∧
      (job.charged s : Int) + left ≤ job.maxGames
  foreign : ∀ w call, s.onDuty w = false → s.world.calls w = some call →
    call.request.workBudgetId ≠ some job.workBudgetId
  cap : job.charged s ≤ job.maxGames

theorem onDuty_iff {s : Jobs} {w : Nat} : s.onDuty w = true ↔ ∃ c ∈ s.children, c.state = .inProgress w := by
  simp [Jobs.onDuty]

theorem unfinished_inProgress {c : Child} {w : Nat} (h : c.state = .inProgress w) : c.state.unfinished = true := by
  rw [h]
  rfl

theorem StandaloneOk.child_eq {job : BoundedJob} {s : Jobs} (h : StandaloneOk job s) {c d : Child}
    (hc : c ∈ s.children) (hd : d ∈ s.children) (hid : c.id = d.id) : c = d :=
  List.inj_on_of_nodup_map h.ids hc hd hid

/-! ## The parent's steps -/

/-- A step of the parent's attempt touches neither the tables nor the children. -/
theorem StandaloneOk.reparent {job : BoundedJob} {s : Jobs} (h : StandaloneOk job s) {p : Parent}
    (hquiet : p.attempt.early = true → ∀ c ∈ s.children, c.state.unfinished = false)
    (hmeasured : ∀ r, p.attempt = .measured r → 0 ≤ r ∧ (job.charged s : Int) + r ≤ job.maxGames) :
    StandaloneOk job (s.setParent p) :=
  ⟨h.ledger, h.ids, h.fresh, h.single, h.allowance, h.started, hquiet, hmeasured, h.first, h.running,
    h.foreign, h.cap⟩

/-- A budget's counter is the number of its games. -/
theorem remainingGameBudget_eq {job : BoundedJob} {L : Budget.Ledger} {remaining : Int}
    (hL : Budget.LedgerOk L) (h : job.remainingGameBudget L = .ok remaining) :
    remaining = max 0 ((job.maxGames : Int) - (L.gamesOf job.workBudgetId).length) := by
  unfold BoundedJob.remainingGameBudget at h
  split at h
  · cases h
  next b hb =>
  cases h
  have hid : b.id = job.workBudgetId := by simpa using List.find?_some hb
  have hcount := (Budget.counters L (fun c => c.budgetId = b.id)
    (hL.budgets b (List.mem_of_find?_eq_some hb))).2.2.1
  rw [hcount, hid]
  rfl

theorem unitAllowance_le {job : BoundedJob} {remaining allowance : Int} (hpos : 0 ≤ remaining)
    (h : job.unitAllowance remaining = .ok allowance) : 0 ≤ allowance ∧ allowance ≤ remaining := by
  unfold BoundedJob.unitAllowance at h
  split at h
  · cases h
    exact ⟨hpos, Int.le_refl _⟩
  · dsimp only at h
    split at h
    · cases h
    · cases h
      omega

theorem measure_ok {job : BoundedJob} {s t : Jobs} (hs : StandaloneOk job s)
    (hatt : s.parent.attempt = .inspected) (h : job.measure s = some t) : StandaloneOk job t := by
  unfold BoundedJob.measure at h
  split at h
  · cases h
  next remaining hremaining =>
  cases h
  have heq := remainingGameBudget_eq hs.ledger hremaining
  have hcap := hs.cap
  unfold BoundedJob.charged at hcap
  split
  · exact hs.reparent (fun h => (nomatch h)) (fun r h => (nomatch h))
  · refine hs.reparent (fun _ => hs.quiet (by rw [hatt]; rfl)) fun r hr => ?_
    cases hr
    unfold BoundedJob.charged
    omega

/-- The new child takes what was measured; no other child is open. -/
theorem capture_ok {job : BoundedJob} {s t : Jobs} {remaining : Int} {rawId fetchLogId : Nat}
    {parserVersion : String} (hs : StandaloneOk job s) (hatt : s.parent.attempt = .measured remaining)
    (h : job.capture s remaining rawId fetchLogId parserVersion = some t) : StandaloneOk job t := by
  unfold BoundedJob.capture at h
  split at h
  · cases h
  next allowance hallow =>
  cases h
  obtain ⟨hpos, hroom⟩ := hs.measured remaining hatt
  obtain ⟨hnonneg, hle⟩ := unitAllowance_le hpos hallow
  have hclosed := hs.quiet (by rw [hatt]; rfl)
  unfold enqueuePayloadNormalization
  split
  · exact ⟨hs.ledger, hs.ids, hs.fresh, hs.single, hs.allowance, hs.started, fun h => (nomatch h),
      fun r h => (nomatch h), hs.first, hs.running, hs.foreign, hs.cap⟩
  let new : Child := ⟨s.children.length, rawId, fetchLogId, parserVersion, allowance, .pending, 0⟩
  -- an old child is finished, so whatever is open is the new one
  have hopen : ∀ c ∈ s.children ++ [new], c.state.unfinished = true → c = new := by
    intro c hc hun
    rcases List.mem_append.mp hc with hold | hnew
    · rw [hclosed c hold] at hun
      cases hun
    · exact List.mem_singleton.mp hnew
  have hnotrunning : ∀ c ∈ s.children ++ [new], ∀ w, c.state ≠ .inProgress w := by
    intro c hc w hw
    rw [hopen c hc (unfinished_inProgress hw)] at hw
    cases hw
  refine ⟨hs.ledger, ?_, ?_, ?_, ?_, ?_, fun h => (nomatch h), fun r h => (nomatch h), ?_, ?_, ?_, hs.cap⟩
  · show ((s.children ++ [new]).map Child.id).Nodup
    rw [List.map_append]
    refine List.nodup_append.mpr ⟨hs.ids, List.nodup_singleton _, fun i hi j hj heq => ?_⟩
    obtain ⟨c, hc, rfl⟩ := List.mem_map.mp hi
    have hlt := hs.fresh c hc
    have hj' : j = s.children.length := List.mem_singleton.mp hj
    omega
  · intro c hc
    show c.id < (s.children ++ [new]).length
    rw [List.length_append, List.length_singleton]
    rcases List.mem_append.mp hc with hold | hnew
    · have hlt := hs.fresh c hold
      omega
    · rw [List.mem_singleton.mp hnew]
      exact Nat.lt_succ_self _
  · intro c hc d hd hcun hdun
    rw [hopen c hc hcun, hopen d hd hdun]
  · intro c hc
    rcases List.mem_append.mp hc with hold | hnew
    · exact hs.allowance c hold
    · rw [List.mem_singleton.mp hnew]
      exact hnonneg
  · intro c hc w hw
    exact absurd hw (hnotrunning c hc w)
  · intro c hc hun _
    rw [hopen c hc hun]
    show (job.charged s : Int) + allowance ≤ job.maxGames
    omega
  · intro c hc w call hw
    exact absurd hw (hnotrunning c hc w)
  · intro w call hduty hcall
    refine hs.foreign w call ?_ hcall
    refine Bool.eq_false_iff.mpr fun hold => ?_
    obtain ⟨c, hc, hw⟩ := onDuty_iff.mp hold
    exact hnotrunning c (List.mem_append_left _ hc) w hw

/-! ## The children's steps -/

/-- A child that only lost its worker or its pause. -/
structure Child.Calmer (c d : Child) : Prop where
  id : d.id = c.id
  maxGames : d.maxGames = c.maxGames
  attempts : d.attempts = c.attempts
  unfinished : d.state.unfinished = true → c.state.unfinished = true
  inProgress : ∀ w, d.state = .inProgress w → c.state = .inProgress w

theorem Child.Calmer.refl (c : Child) : c.Calmer c := ⟨rfl, rfl, rfl, fun h => h, fun _ h => h⟩

/-- Children that calm down, with calls dropped only of workers that were on duty. -/
theorem StandaloneOk.calm {job : BoundedJob} {s t : Jobs} {f : Child → Child} (hs : StandaloneOk job s)
    (hf : ∀ c : Child, c.Calmer (f c)) (hchildren : t.children = s.children.map f) (hparent : t.parent = s.parent)
    (hdb : t.world.db = s.world.db)
    (hcalls : ∀ w call, t.world.calls w = some call → s.world.calls w = some call ∧
      (s.onDuty w = true → t.onDuty w = true)) : StandaloneOk job t := by
  have hcharged : job.charged t = job.charged s := by
    unfold BoundedJob.charged
    rw [hdb]
  have hmem : ∀ d ∈ t.children, ∃ c ∈ s.children, c.Calmer d := by
    intro d hd
    rw [hchildren] at hd
    obtain ⟨c, hc, rfl⟩ := List.mem_map.mp hd
    exact ⟨c, hc, hf c⟩
  refine ⟨?_, ?_, ?_, ?_, ?_, ?_, ?_, ?_, ?_, ?_, ?_, ?_⟩
  · rw [hdb]
    exact hs.ledger
  · have hids : t.children.map Child.id = s.children.map Child.id := by
      rw [hchildren, List.map_map]
      exact List.map_congr_left fun c _ => (hf c).id
    rw [hids]
    exact hs.ids
  · intro d hd
    obtain ⟨c, hc, hcalm⟩ := hmem d hd
    rw [hchildren, List.length_map, hcalm.id]
    exact hs.fresh c hc
  · intro d hd d' hd' hun hun'
    obtain ⟨c, hc, hcalm⟩ := hmem d hd
    obtain ⟨c', hc', hcalm'⟩ := hmem d' hd'
    rw [hcalm.id, hcalm'.id]
    exact hs.single c hc c' hc' (hcalm.unfinished hun) (hcalm'.unfinished hun')
  · intro d hd
    obtain ⟨c, hc, hcalm⟩ := hmem d hd
    rw [hcalm.maxGames]
    exact hs.allowance c hc
  · intro d hd w hw
    obtain ⟨c, hc, hcalm⟩ := hmem d hd
    rw [hcalm.attempts]
    exact hs.started c hc w (hcalm.inProgress w hw)
  · intro hearly d hd
    rw [hparent] at hearly
    obtain ⟨c, hc, hcalm⟩ := hmem d hd
    refine Bool.eq_false_iff.mpr fun hun => ?_
    have hcun := hcalm.unfinished hun
    rw [hs.quiet hearly c hc] at hcun
    cases hcun
  · intro r hr
    rw [hparent] at hr
    rw [hcharged]
    exact hs.measured r hr
  · intro d hd hun hzero
    obtain ⟨c, hc, hcalm⟩ := hmem d hd
    rw [hcalm.attempts] at hzero
    have hfits := hs.first c hc (hcalm.unfinished hun) hzero
    unfold BoundedJob.fits at hfits ⊢
    rw [hcharged, hcalm.maxGames]
    exact hfits
  · intro d hd w call hw hcall
    obtain ⟨c, hc, hcalm⟩ := hmem d hd
    rw [hcharged]
    exact hs.running c hc w call (hcalm.inProgress w hw) (hcalls w call hcall).1
  · intro w call hduty hcall
    obtain ⟨hold, hkept⟩ := hcalls w call hcall
    refine hs.foreign w call (Bool.eq_false_iff.mpr fun hon => ?_) hold
    rw [hkept hon] at hduty
    cases hduty
  · rw [hcharged]
    exact hs.cap

/-- The end of an attempt, whatever it ended in. -/
theorem release_ok {job : BoundedJob} {s : Jobs} {w : Nat} {outcome : JobState} (hs : StandaloneOk job s)
    (hout : ∀ v, outcome ≠ .inProgress v) :
    StandaloneOk job { s with
      world := s.world.setCall w none s.world.db
      children := release s.children w outcome } := by
  refine hs.calm (f := fun c => if c.state = .inProgress w then { c with state := outcome } else c)
    (fun c => ?_) rfl rfl rfl fun v call hcall => ?_
  · by_cases hw : c.state = .inProgress w
    · rw [if_pos hw]
      refine ⟨rfl, rfl, rfl, fun _ => unfinished_inProgress hw, fun v hv => absurd hv (hout v)⟩
    · rw [if_neg hw]
      exact .refl c
  · rcases setCall_calls hcall with hold | ⟨_, hnone⟩
    · refine ⟨hold, fun hon => ?_⟩
      obtain ⟨c, hc, hv⟩ := onDuty_iff.mp hon
      by_cases hvw : v = w
      · subst hvw
        change (s.world.setCall v none s.world.db).calls v = some call at hcall
        rw [setCall_self] at hcall
        cases hcall
      · refine onDuty_iff.mpr ⟨c, List.mem_map.mpr ⟨c, hc, if_neg fun hw => hvw ?_⟩, hv⟩
        exact JobState.inProgress.inj (hv.symm.trans hw)
    · cases hnone

theorem unblockChild_ok {job : BoundedJob} {s : Jobs} {id : Nat} (hs : StandaloneOk job s) :
    StandaloneOk job { s with children := setChild s.children id fun c =>
      if c.state = .blocked then { c with state := .pending } else c } := by
  have hcalm : ∀ c : Child, c.Calmer (if c.state = .blocked then { c with state := .pending } else c) := by
    intro c
    by_cases hb : c.state = .blocked
    · rw [if_pos hb]
      refine ⟨rfl, rfl, rfl, fun _ => by rw [hb]; rfl, fun v hv => (nomatch hv)⟩
    · rw [if_neg hb]
      exact .refl c
  refine hs.calm (f := fun c => if c.id = id then
      (if c.state = .blocked then { c with state := .pending } else c) else c)
    (fun c => ?_) rfl rfl rfl fun v call hcall => ⟨hcall, fun hon => ?_⟩
  · by_cases hid : c.id = id
    · rw [if_pos hid]
      exact hcalm c
    · rw [if_neg hid]
      exact .refl c
  · obtain ⟨c, hc, hv⟩ := onDuty_iff.mp hon
    refine onDuty_iff.mpr ⟨c, List.mem_map.mpr ⟨c, hc, ?_⟩, hv⟩
    simp [hv]

/-- The call of a child begins with the child's stored allowance. -/
theorem childRequest_call {job : BoundedJob} {c : Child} {evidenceVersion : String} {db db' : Db} {call : Call}
    (h : db.startCall (job.childRequest c evidenceVersion) = .ok (call, db')) :
    ChildCall job.workBudgetId call ∧ call.remaining = some c.maxGames ∧ db'.ledger = db.ledger := by
  obtain ⟨hmax, hrequest, _, hremaining, _⟩ := startCall_cases h
  refine ⟨⟨?_, ?_, c.maxGames, hremaining, hmax c.maxGames rfl⟩, hremaining, (startCall_runs h).2.2⟩
  · rw [hrequest]
    rfl
  · rw [hrequest]
    rfl

/-- A claim of the open child: every other child is finished, and the state and the count of attempts of
the claimed one are all that changes. -/
theorem StandaloneOk.claim {job : BoundedJob} {s t : Jobs} {c : Child} {state : JobState} (hs : StandaloneOk job s)
    (hc : c ∈ s.children) (hun : c.state.unfinished = true)
    (hchildren : t.children = setChild s.children c.id fun c => { c with state := state, attempts := c.attempts + 1 })
    (hparent : t.parent = s.parent) (hledger : t.world.db.ledger = s.world.db.ledger)
    (hrunning : ∀ w call, state = .inProgress w → t.world.calls w = some call →
      ChildCall job.workBudgetId call ∧ ∃ left, call.remaining = some left ∧
        (job.charged s : Int) + left ≤ job.maxGames)
    (hforeign : ∀ w call, state ≠ .inProgress w → t.world.calls w = some call → s.world.calls w = some call)
    (hpending : ∀ w, c.state ≠ .inProgress w) : StandaloneOk job t := by
  let claimed : Child := { c with state := state, attempts := c.attempts + 1 }
  have hcharged : job.charged t = job.charged s := by
    unfold BoundedJob.charged
    rw [hledger]
  have hmem : ∀ d ∈ t.children, d = claimed ∨ (d ∈ s.children ∧ d.state.unfinished = false) := by
    intro d hd
    rw [hchildren] at hd
    obtain ⟨old, hold, heq⟩ := List.mem_map.mp hd
    split at heq
    · next hid =>
      rw [hs.child_eq hold hc hid] at heq
      exact .inl heq.symm
    · next hid =>
      subst heq
      refine .inr ⟨hold, Bool.eq_false_iff.mpr fun hother => hid ?_⟩
      exact hs.single old hold c hc hother hun
  have hrunner : ∀ d ∈ t.children, d.state.unfinished = true → d = claimed := by
    intro d hd hdun
    rcases hmem d hd with hnew | ⟨_, hfin⟩
    · exact hnew
    · rw [hfin] at hdun
      cases hdun
  refine ⟨?_, ?_, ?_, ?_, ?_, ?_, ?_, ?_, ?_, ?_, ?_, ?_⟩
  · rw [hledger]
    exact hs.ledger
  · have hids : t.children.map Child.id = s.children.map Child.id := by
      rw [hchildren, setChild, List.map_map]
      refine List.map_congr_left fun d _ => ?_
      simp only [Function.comp_apply]
      split <;> rfl
    rw [hids]
    exact hs.ids
  · intro d hd
    rw [hchildren, setChild, List.length_map]
    rcases hmem d hd with rfl | ⟨hold, _⟩
    · exact hs.fresh c hc
    · exact hs.fresh d hold
  · intro d hd d' hd' hdun hdun'
    rw [hrunner d hd hdun, hrunner d' hd' hdun']
  · intro d hd
    rcases hmem d hd with rfl | ⟨hold, _⟩
    · exact hs.allowance c hc
    · exact hs.allowance d hold
  · intro d hd w hw
    rw [hrunner d hd (unfinished_inProgress hw)]
    exact Nat.succ_ne_zero _
  · intro hearly
    rw [hparent] at hearly
    have hclosed := hs.quiet hearly c hc
    rw [hun] at hclosed
    cases hclosed
  · intro r hr
    rw [hparent] at hr
    rw [hcharged]
    exact hs.measured r hr
  · intro d hd hdun hzero
    rw [hrunner d hd hdun] at hzero
    cases hzero
  · intro d hd w call hw hcall
    rw [hrunner d hd (unfinished_inProgress hw)] at hw
    rw [hcharged]
    exact hrunning w call hw hcall
  · intro w call hduty hcall
    have hnot : state ≠ .inProgress w := by
      intro hw
      have hclaimed : claimed ∈ t.children := by
        rw [hchildren]
        exact List.mem_map.mpr ⟨c, hc, if_pos rfl⟩
      rw [onDuty_iff.mpr ⟨claimed, hclaimed, hw⟩] at hduty
      cases hduty
    refine hs.foreign w call (Bool.eq_false_iff.mpr fun hon => ?_) (hforeign w call hnot hcall)
    obtain ⟨d, hd, hw⟩ := onDuty_iff.mp hon
    have hsame := hs.child_eq hd hc (hs.single d hd c hc (unfinished_inProgress hw) hun)
    rw [hsame] at hw
    exact hpending w hw
  · rw [hcharged]
    exact hs.cap

theorem attempt_ok {job : BoundedJob} {s : Jobs} {w : Nat} {c : Child} {evidenceVersion : String}
    (hs : StandaloneOk job s) (hc : c ∈ s.children) (hpending : c.state = .pending)
    (hfits : job.fits s c) : StandaloneOk job (job.attempt s w c evidenceVersion) := by
  have hun : c.state.unfinished = true := by
    rw [hpending]
    rfl
  have hidle : ∀ v, c.state ≠ .inProgress v := by
    intro v hv
    rw [hpending] at hv
    cases hv
  unfold BoundedJob.attempt
  dsimp only
  split
  · next call db hstart =>
    obtain ⟨hchild, hremaining, hledger⟩ := childRequest_call hstart
    refine hs.claim hc hun rfl rfl hledger (fun v d hv hcall => ?_) (fun v d hv hcall => ?_) hidle
    · cases hv
      change (s.world.setCall w (some call) db).calls w = some d at hcall
      rw [setCall_self] at hcall
      cases hcall
      exact ⟨hchild, c.maxGames, hremaining, hfits⟩
    · rcases setCall_calls hcall with hold | ⟨rfl, _⟩
      · exact hold
      · exact absurd rfl hv
  · exact hs.claim hc hun rfl rfl rfl (fun v d hv _ => (nomatch hv)) (fun v d _ hcall => hcall) hidle

/-- A step of a child's call: the child is the only open one, so nothing else reads the changed count. -/
theorem actChild_ok {job : BoundedJob} {s : Jobs} {w : Nat} {a : Act} {t : World} (hs : StandaloneOk job s)
    (hduty : s.onDuty w = true) (h : s.world.step (.act w a) = some t) :
    StandaloneOk job { s with world := t } := by
  obtain ⟨c, hc, hw⟩ := onDuty_iff.mp hduty
  have hun := unfinished_inProgress hw
  have honly : ∀ d ∈ s.children, d.state.unfinished = true → d = c := fun d hd hdun =>
    hs.child_eq hd hc (hs.single d hd c hc hdun hun)
  have hlate : s.parent.attempt.early = true → False := by
    intro hearly
    have hclosed := hs.quiet hearly c hc
    rw [hun] at hclosed
    cases hclosed
  cases step_stepped h with
  | @act _ _ call next db hcall hact =>
    have hmoved := act_moved hact
    obtain ⟨hchild, left, hleft, hroom⟩ := hs.running c hc w call hw hcall
    -- what the next call may still take keeps the sum
    have hnext : ((db.ledger.gamesOf job.workBudgetId).length : Int) ≤ job.maxGames ∧
        ∀ d, next = some d → ChildCall job.workBudgetId d ∧ ∃ left', d.remaining = some left' ∧
          ((db.ledger.gamesOf job.workBudgetId).length : Int) + left' ≤ job.maxGames := by
      unfold BoundedJob.charged at hroom
      cases next with
      | none =>
        rw [moved_raised_count hmoved]
        have hcap := hs.cap
        unfold BoundedJob.charged at hcap
        exact ⟨by omega, fun d hd => (nomatch hd)⟩
      | some d =>
        obtain ⟨hd, left', hleft', hsum⟩ := moved_count hchild hmoved hleft
        obtain ⟨_, hsome, hpos⟩ := hd.remaining
        have hsame := Option.some.inj (hsome.symm.trans hleft')
        refine ⟨by omega, fun d' hd' => ?_⟩
        cases hd'
        exact ⟨hd, left', hleft', by omega⟩
    refine ⟨(moved_charged hmoved).ledgerOk hs.ledger, hs.ids, hs.fresh, hs.single, hs.allowance, hs.started,
      hs.quiet, ?_, ?_, ?_, ?_, ?_⟩
    · intro r hr
      exact absurd (by rw [hr]; rfl) hlate
    · intro d hd hdun hzero
      rw [honly d hd hdun] at hzero
      exact absurd hzero (hs.started c hc w hw)
    · intro d hd v call' hv hcall'
      rw [honly d hd (unfinished_inProgress hv)] at hv
      have hvw : v = w := JobState.inProgress.inj (hv.symm.trans hw)
      subst hvw
      change (s.world.setCall v next db).calls v = some call' at hcall'
      rw [setCall_self] at hcall'
      exact hnext.2 call' hcall'
    · intro v call' hoff hcall'
      rcases setCall_calls hcall' with hold | ⟨rfl, _⟩
      · exact hs.foreign v call' hoff hold
      · change s.onDuty v = false at hoff
        rw [hduty] at hoff
        cases hoff
    · have hcap := hnext.1
      show (db.ledger.gamesOf job.workBudgetId).length ≤ job.maxGames
      omega

/-! ## Other work -/

theorem moved_request {c d : Call} {db db' : Db} (h : Moved c db (some d) db') : d.request = c.request := by
  cases h with
  | kept hk => exact hk.request
  | paid hk => exact hk.request
  | wrote _ _ => cases ‹Written› <;> rfl
  | finished => rfl

/-- What other work leaves alone. -/
structure Undisturbed (job : BoundedJob) (s : Jobs) (t : World) : Prop where
  ledger : Budget.LedgerOk t.db.ledger
  games : t.db.ledger.gamesOf job.workBudgetId = s.world.db.ledger.gamesOf job.workBudgetId
  calls : ∀ w, s.onDuty w = true → t.calls w = s.world.calls w
  foreign : ∀ w call, s.onDuty w = false → t.calls w = some call →
    call.request.workBudgetId ≠ some job.workBudgetId

theorem StandaloneOk.undisturbed_calls {job : BoundedJob} {s : Jobs} (hs : StandaloneOk job s) {t : World}
    (hcalls : t.calls = s.world.calls) (hledger : t.db.ledger = s.world.db.ledger) : Undisturbed job s t := by
  refine ⟨?_, ?_, fun w _ => by rw [hcalls], fun w call hoff hcall => ?_⟩
  · rw [hledger]
    exact hs.ledger
  · rw [hledger]
  · rw [hcalls] at hcall
    exact hs.foreign w call hoff hcall

/-- The call of a worker off duty is replaced by another that does not charge the job's budget. -/
theorem StandaloneOk.undisturbed_setCall {job : BoundedJob} {s : Jobs} (hs : StandaloneOk job s) {w : Nat}
    {c : Option Call} {db : Db} (hoff : s.onDuty w = false) (hL : Budget.LedgerOk db.ledger)
    (hgames : db.ledger.gamesOf job.workBudgetId = s.world.db.ledger.gamesOf job.workBudgetId)
    (hc : ∀ d, c = some d → d.request.workBudgetId ≠ some job.workBudgetId) :
    Undisturbed job s (s.world.setCall w c db) := by
  refine ⟨hL, hgames, fun v hon => ?_, fun v call hv hcall => ?_⟩
  · have hne : v ≠ w := by
      rintro rfl
      rw [hoff] at hon
      cases hon
    simp [World.setCall, hne]
  · rcases setCall_calls hcall with hold | ⟨_, hnew⟩
    · exact hs.foreign v call hv hold
    · exact hc call hnew

theorem foreign_undisturbed {job : BoundedJob} {s : Jobs} {e : Event} {t : World} (hs : StandaloneOk job s)
    (hf : s.foreign job e = true) (h : Stepped s.world e t) : Undisturbed job s t := by
  cases h with
  | storePayload => exact hs.undisturbed_calls rfl rfl
  | observe => exact hs.undisturbed_calls rfl rfl
  | createRun => exact hs.undisturbed_calls rfl rfl
  | upsert => exact hs.undisturbed_calls rfl rfl
  | associate hall => exact hs.undisturbed_calls rfl (associateAll_attributed hall).ledger
  | @ledger e L hstep =>
    have hother : e.chargesGame job.workBudgetId = false := by simpa [Jobs.foreign] using hf
    exact ⟨Budget.ledger_step hs.ledger hstep, Budget.step_gamesOf hstep hother, fun _ _ => rfl,
      fun w call hoff hcall => hs.foreign w call hoff hcall⟩
  | @start w q c db _ hstart =>
    obtain ⟨_, hrequest, _⟩ := startCall_cases hstart
    have hledger := (startCall_runs hstart).2.2
    have hguard : s.onDuty w = false ∧ q.workBudgetId ≠ some job.workBudgetId := by
      simpa [Jobs.foreign] using hf
    refine hs.undisturbed_setCall hguard.1 ?_ ?_ fun d hd => ?_
    · rw [hledger]
      exact hs.ledger
    · rw [hledger]
    · cases hd
      rw [hrequest]
      exact hguard.2
  | @act w a c next db hcall hact =>
    have hoff : s.onDuty w = false := by simpa [Jobs.foreign] using hf
    have hmoved := act_moved hact
    have hother := hs.foreign w c hoff hcall
    refine hs.undisturbed_setCall hoff ((moved_charged hmoved).ledgerOk hs.ledger)
      ((moved_charged hmoved).foreign hother) fun d hd => ?_
    subst hd
    rw [moved_request hmoved]
    exact hother
  | @abandon w =>
    have hoff : s.onDuty w = false := by simpa [Jobs.foreign] using hf
    exact hs.undisturbed_setCall hoff hs.ledger rfl fun d hd => (nomatch hd)

theorem StandaloneOk.undisturbed {job : BoundedJob} {s : Jobs} {t : World} (hs : StandaloneOk job s)
    (h : Undisturbed job s t) : StandaloneOk job { s with world := t } := by
  have hcharged : job.charged { s with world := t } = job.charged s := by
    unfold BoundedJob.charged
    rw [h.games]
  refine ⟨h.ledger, hs.ids, hs.fresh, hs.single, hs.allowance, hs.started, hs.quiet, ?_, ?_, ?_, h.foreign, ?_⟩
  · rw [hcharged]
    exact hs.measured
  · intro c hc hun hzero
    have hfits := hs.first c hc hun hzero
    unfold BoundedJob.fits at hfits ⊢
    rw [hcharged]
    exact hfits
  · intro c hc w call hw hcall
    rw [hcharged]
    refine hs.running c hc w call hw ?_
    rw [← h.calls w (onDuty_iff.mpr ⟨c, hc, hw⟩)]
    exact hcall
  · rw [hcharged]
    exact hs.cap

/-! ## Runs -/

theorem standaloneOk_step {job : BoundedJob} {s t : Jobs} {e : JobEvent} (hs : StandaloneOk job s)
    (hok : job.resumesWithinCap s e) (h : job.step s e = some t) : StandaloneOk job t := by
  cases e with
  | world e =>
    simp only [BoundedJob.step] at h
    split at h
    · next hf =>
      obtain ⟨w, hw, rfl⟩ := Option.map_eq_some_iff.mp h
      exact hs.undisturbed (foreign_undisturbed hs hf (step_stepped hw))
    · cases h
  | claimParent w =>
    simp only [BoundedJob.step] at h
    split at h
    · next hready =>
      cases h
      refine hs.reparent (fun _ c hc => ?_) fun r hr => (nomatch hr)
      simpa using List.all_eq_true.mp hready.2 c hc
    · cases h
  | inspect =>
    simp only [BoundedJob.step] at h
    split at h
    · next hatt =>
      cases h
      split
      · exact hs.reparent (fun h => (nomatch h)) fun r hr => (nomatch hr)
      · exact hs.reparent (fun _ => hs.quiet (by rw [hatt]; rfl)) fun r hr => (nomatch hr)
    · cases h
  | measure =>
    simp only [BoundedJob.step] at h
    split at h
    · next hatt => exact measure_ok hs hatt h
    · cases h
  | capture rawId fetchLogId parserVersion =>
    simp only [BoundedJob.step] at h
    split at h
    · next hatt => exact capture_ok hs hatt h
    · cases h
  | checkpoint =>
    simp only [BoundedJob.step] at h
    split at h
    · cases h
      exact hs.reparent (fun h => (nomatch h)) fun r hr => (nomatch hr)
    · cases h
  | endParent outcome =>
    simp only [BoundedJob.step] at h
    split at h
    · cases h
      exact hs.reparent (fun h => (nomatch h)) fun r hr => (nomatch hr)
    · cases h
  | unblockParent =>
    simp only [BoundedJob.step] at h
    split at h
    · cases h
      exact hs.reparent hs.quiet hs.measured
    · cases h
  | attempt w childId evidenceVersion =>
    obtain ⟨c, hfind, h₁⟩ := Option.bind_eq_some_iff.mp h
    split at h₁
    · cases h₁
      have hc := List.mem_of_find?_eq_some hfind
      have hmatch : c.id = childId ∧ c.state = .pending := by simpa using List.find?_some hfind
      refine attempt_ok hs hc hmatch.2 ?_
      rcases hok c hc hmatch.1 with hzero | hfits
      · exact hs.first c hc (by rw [hmatch.2]; rfl) hzero
      · exact hfits
    · cases h₁
  | actChild w a =>
    simp only [BoundedJob.step] at h
    split at h
    · next hduty =>
      obtain ⟨t', ht', rfl⟩ := Option.map_eq_some_iff.mp h
      exact actChild_ok hs hduty ht'
    · cases h
  | returnChild w =>
    simp only [BoundedJob.step] at h
    split at h
    · cases h
      exact release_ok hs fun v hv => (nomatch hv)
    · cases h
  | endChild w outcome =>
    simp only [BoundedJob.step] at h
    split at h
    · next hout =>
      cases h
      refine release_ok hs fun v hv => ?_
      have hends := hout.2
      rw [hv] at hends
      cases hends
    · cases h
  | unblockChild childId =>
    cases h
    exact unblockChild_ok hs

theorem standaloneOk_of_reach {job : BoundedJob} {s : Jobs}
    (h : Reach (boundedAcquisition job) job.resumesWithinCap s) : StandaloneOk job s := by
  refine Reach.invariant (I := StandaloneOk job) ?_
    (fun s e t _ hI hok hstep => standaloneOk_step hI hok hstep) h
  rintro _ rfl
  have hL : Budget.LedgerOk Budget.Ledger.empty := Budget.ledgerOk_of_reachable (.start rfl)
  refine ⟨hL, List.nodup_nil, ?_, ?_, ?_, ?_, ?_, fun r hr => (nomatch hr), ?_, ?_,
    fun w call _ hcall => (nomatch hcall), Nat.zero_le _⟩
  · exact fun c hc => absurd hc List.not_mem_nil
  · exact fun c hc => absurd hc List.not_mem_nil
  · exact fun c hc => absurd hc List.not_mem_nil
  · exact fun c hc => absurd hc List.not_mem_nil
  · exact fun h => (nomatch h)
  · exact fun c hc => absurd hc List.not_mem_nil
  · exact fun c hc => absurd hc List.not_mem_nil

/-! ## The cap of a standalone job -/

theorem standalone_game_cap {job : BoundedJob} {s : Jobs}
    (h : Reach (boundedAcquisition job) job.resumesWithinCap s) :
    ∀ b ∈ s.world.db.ledger.budgets, b.id = job.workBudgetId → b.usage .games ≤ job.maxGames := by
  intro b hb hid
  have hok := standaloneOk_of_reach h
  have hcount := (Budget.counters s.world.db.ledger (fun c => c.budgetId = b.id) (hok.ledger.budgets b hb)).2.2.1
  have hcap := hok.cap
  unfold BoundedJob.charged Budget.Ledger.gamesOf at hcap
  rw [hcount, hid]
  exact Int.ofNat_le.mpr hcap

/-- A job for one game whose only month lists two. -/
def oneGameJob : BoundedJob := ⟨.chessCom, 1, none, 1, 1⟩

/-- The parent captures its month and hands it to a child. -/
def captured : List JobEvent :=
  [.world (.ledger (.createWorkspace 1)),
    .world (.ledger (.ensureJobBudget ⟨7, 1, none, none⟩ .default 0 1709251199)),
    .world (.storePayload (monthOf 1 [listedGame "a" 150, listedGame "b" 160])),
    .world (.observe ⟨1, 1, 200, 50⟩), .claimParent 9, .inspect, .measure, .capture 1 1 "v5/e1", .checkpoint,
    .endParent .pending]

def firstGame : List Act := [.checkpoint, .retain, .preflight, .pay 1709251199, .write 1709251199]

def nextGame : List Act := [.preflight, .pay 1709251199, .write 1709251199]

def childActs (acts : List Act) : List JobEvent := acts.map (.actChild 0)

/-- The child is stopped before its first game and resumed. -/
def stoppedEarly : List JobEvent :=
  List.flatten [
    captured, [.attempt 0 0 "e1"], childActs [.checkpoint, .retain], [.endChild 0 .pending, .attempt 0 0 "e1"],
    childActs firstGame, childActs [.preflight, .select, .finish],
    [.returnChild 0, .claimParent 9, .inspect, .measure]]

/-- The child is stopped after its first game and resumed. -/
def stoppedBetweenGames : List JobEvent :=
  List.flatten [
    captured, [.attempt 0 0 "e1"], childActs firstGame, [.endChild 0 .pending, .attempt 0 0 "e1"],
    childActs firstGame, childActs nextGame]

theorem standalone_game_cap_resumed :
    ∃ s, Reach (boundedAcquisition oneGameJob) oneGameJob.resumesWithinCap s ∧ s.parent.state = .done ∧
      (s.world.db.ledger.budgets.map fun b => (b.id, b.usage .games)) = [(1, 1)] ∧
      ∀ b ∈ s.world.db.ledger.budgets, b.id = 1 → b.usage .games ≤ 1 := by
  obtain ⟨s, hs, hp⟩ := Reach.of_exec (boundedAcquisition oneGameJob) oneGameJob.resumesWithinCap
    (s := Jobs.initial) rfl stoppedEarly (fun s => decide (s.parent.state = .done ∧
      (s.world.db.ledger.budgets.map fun b => (b.id, b.usage .games)) = [(1, 1)])) (by decide +kernel)
  obtain ⟨hdone, hgames⟩ := of_decide_eq_true hp
  exact ⟨s, hs, hdone, hgames, standalone_game_cap hs⟩

/-- A stop between two games lets the resumed child take its whole allowance again. -/
theorem resumed_child_passes_cap :
    ∃ s, Reachable (boundedAcquisition oneGameJob) s ∧
      ¬ ∀ b ∈ s.world.db.ledger.budgets, b.id = oneGameJob.workBudgetId → b.usage .games ≤ oneGameJob.maxGames := by
  obtain ⟨s, hs, hp⟩ := Reach.of_exec (boundedAcquisition oneGameJob) (fun _ _ => True)
    (s := Jobs.initial) rfl stoppedBetweenGames
    (fun s => decide ¬ ∀ b ∈ s.world.db.ledger.budgets, b.id = oneGameJob.workBudgetId →
      b.usage .games ≤ oneGameJob.maxGames) (by decide +kernel)
  exact ⟨s, hs, of_decide_eq_true hp⟩

end ChessCrawl.Normalize
