import ChessCrawl.Acquisition.Http
import ChessCrawl.Budget.Runs

/-! What a request finds in the ledger: the row of a held reservation stays as it was written until its
holder settles it, and a settled row never changes again. -/
namespace ChessCrawl.Acquisition
open ChessCrawl.Lib ChessCrawl.Budget
set_option autoImplicit false

/-- The row of a reservation. -/
def row (L : Ledger) (reservationId : Nat) : Option Reservation := L.reservations.find? fun r => r.id = reservationId

variable {L L' : Ledger} {reservationId : Nat}

theorem row_id {r : Reservation} (h : row L reservationId = some r) : r.id = reservationId := by
  simpa using List.find?_some h

/-- The ledger goes on without touching the settled rows. -/
structure Later (L L' : Ledger) : Prop where
  seq : L.reservationSeq ≤ L'.reservationSeq
  settled : ∀ id r, row L id = some r → r.consumedBytes.isSome → row L' id = some r

theorem Later.refl (L : Ledger) : Later L L := ⟨Nat.le_refl _, fun _ _ h _ => h⟩

theorem Later.trans {M : Ledger} (h : Later L M) (h' : Later M L') : Later L L' :=
  ⟨Nat.le_trans h.seq h'.seq, fun id r hr hs => h'.settled id r (h.settled id r hr hs) hs⟩

/-- The rows known so far all stay. -/
structure Keeps (L L' : Ledger) : Prop where
  seq : L.reservationSeq ≤ L'.reservationSeq
  rows : ∀ id, id ≤ L.reservationSeq → row L' id = row L id

theorem Keeps.trans {M : Ledger} (h : Keeps L M) (h' : Keeps M L') : Keeps L L' :=
  ⟨Nat.le_trans h.seq h'.seq, fun id hid => (h'.rows id (Nat.le_trans hid h.seq)).trans (h.rows id hid)⟩

theorem Keeps.later (hok : LedgerOk L) (h : Keeps L L') : Later L L' := by
  refine ⟨h.seq, fun id r hr _ => ?_⟩
  have hid : id ≤ L.reservationSeq := by
    rw [← row_id hr]
    exact hok.reservationSeq r (List.mem_of_find?_eq_some hr)
  rw [h.rows id hid]
  exact hr

theorem keeps_of_same (h : L'.reservations = L.reservations) (hseq : L'.reservationSeq = L.reservationSeq) :
    Keeps L L' := by
  refine ⟨Nat.le_of_eq hseq.symm, fun id _ => ?_⟩
  unfold row
  rw [h]

theorem SameRecords.keeps (h : SameRecords L L') : Keeps L L' := keeps_of_same h.reservations h.reservationSeq

/-! ## Reserving -/

theorem readLimit_pos {maxResponseBytes available : Int} (hmax : 1 ≤ maxResponseBytes) (havail : 2 ≤ available) :
    1 ≤ readLimit maxResponseBytes available := by
  unfold readLimit
  split <;> omega

/-- A reservation is a fresh, unsettled row that holds the limit and one bounded read of headroom. -/
theorem reserveRequest_row (hok : LedgerOk L) {budgetId : Nat} {now limit : Int}
    (h : L.reserveRequest budgetId now = .ok ((reservationId, limit), L')) :
    reservationId = L.reservationSeq + 1 ∧ L'.reservationSeq = reservationId ∧ 1 ≤ limit ∧ Keeps L L' ∧
      ∃ r, row L' reservationId = some r ∧ r.consumedBytes = none ∧ r.reservedBytes = limit + min 65536 limit := by
  unfold Ledger.reserveRequest at h
  obtain ⟨⟨c, M⟩, hlock, h⟩ := bind_ok h
  obtain ⟨_, _, h⟩ := bind_ok h
  obtain ⟨_, _, h⟩ := bind_ok h
  obtain ⟨_, _, h⟩ := bind_ok h
  obtain ⟨available, _, h⟩ := bind_ok h
  have hL := lockedBudget_ok hok hlock
  have hkeep : Keeps L M := SameRecords.keeps hL.records
  have hseq := hL.records.reservationSeq
  split at h
  · cases h
  next havail =>
  obtain ⟨limit', hlimit⟩ : ∃ limit', readLimit (c.budget.policy.value .maxResponseBytes) available = limit' := ⟨_, rfl⟩
  have hpos := readLimit_pos (c.budget.policy.valid .maxResponseBytes).1 (show 2 ≤ available by omega)
  dsimp only at h
  rw [hlimit] at h hpos
  cases h
  have hnone : ∀ r ∈ M.reservations, ¬ r.id = M.reservationSeq + 1 := by
    intro r hr heq
    have := hL.ledger.reservationSeq r hr
    omega
  refine ⟨by omega, rfl, hpos, hkeep.trans ⟨Nat.le_succ _, fun id hid => ?_⟩, ?_⟩
  · unfold row Ledger.recordRequest
    rw [List.find?_append]
    have hne : M.reservationSeq + 1 ≠ id := by omega
    simp [hne]
  · have hfound : row (M.recordRequest c (limit + min 65536 limit)) (M.reservationSeq + 1) =
        some ⟨M.reservationSeq + 1, c.budget.id, c.budget.workspaceId, c.usage.periodStart,
          limit + min 65536 limit, none⟩ := by
      unfold row Ledger.recordRequest
      rw [List.find?_append, List.find?_eq_none.mpr (by simpa using hnone)]
      simp
    exact ⟨_, hfound, rfl, rfl⟩

/-! ## Settling -/

theorem settle_row (r : Reservation) (consumed : Int) (id : Nat) :
    row (L.settle r consumed) id =
      (row L id).map fun s => if s.id = r.id then { s with consumedBytes := some consumed } else s := by
  have hid : ∀ s : Reservation, (if s.id = r.id then { s with consumedBytes := some consumed } else s).id = s.id := by
    intro s
    split <;> rfl
  unfold row Ledger.settle
  simp only [List.find?_map, Function.comp_def, hid]

theorem settleRequest_ne {consumed : Int} (h : L.settleRequest reservationId consumed = .ok L') {id : Nat}
    (hne : id ≠ reservationId) : row L' id = row L id := by
  unfold Ledger.settleRequest at h
  split at h
  · cases h
  · next r hr =>
    split at h
    · cases h
      rfl
    · split at h
      · cases h
        rw [settle_row]
        cases hrow : row L id with
        | none => rfl
        | some s =>
          have hs := row_id hrow
          have hr' := row_id hr
          rw [Option.map_some, if_neg (by omega)]
      · cases h

theorem settleRequest_later {consumed : Int} (h : L.settleRequest reservationId consumed = .ok L') : Later L L' := by
  constructor
  · unfold Ledger.settleRequest at h
    split at h
    · cases h
    · split at h
      · cases h
        exact Nat.le_refl _
      · split at h
        · cases h
          exact Nat.le_refl _
        · cases h
  · intro id s hs hsettled
    by_cases hne : id = reservationId
    · subst hne
      unfold row at hs
      unfold Ledger.settleRequest at h
      simp only [hs, if_pos hsettled] at h
      cases h
      exact hs
    · rw [settleRequest_ne h hne]
      exact hs

/-- A settlement within the reserved bytes goes through and is what the row records. -/
theorem settleRequest_own {r : Reservation} {consumed : Int} (hr : row L reservationId = some r)
    (hnone : r.consumedBytes = none) (h0 : 0 ≤ consumed) (hle : consumed ≤ r.reservedBytes) :
    L.settleRequest reservationId consumed = .ok (L.settle r consumed) ∧
      row (L.settle r consumed) reservationId = some { r with consumedBytes := some consumed } := by
  constructor
  · unfold row at hr
    unfold Ledger.settleRequest
    simp only [hr, hnone, Option.isSome_none, Bool.false_eq_true, if_false, if_pos (And.intro h0 hle)]
  · rw [settle_row, hr, Option.map_some, if_pos rfl]

/-! ## Every other operation -/

theorem lockedBudget_keeps (hok : LedgerOk L) {budgetId : Nat} {now : Int} {c : Locked}
    (h : L.lockedBudget budgetId now = .ok (c, L')) : Keeps L L' := SameRecords.keeps (lockedBudget_ok hok h).records

theorem workspacePolicy_keeps (L : Ledger) (w : Nat) (p : BudgetPolicy) (tighten managed : Bool) :
    Keeps L (L.workspacePolicy w p tighten managed).2 :=
  SameRecords.keeps (workspacePolicy_accounts L w p tighten managed).records

theorem setWorkspacePolicy_keeps {w version : Nat} {p : BudgetPolicy} {expected : Int}
    (h : L.setWorkspacePolicy w p expected = .ok (version, L')) : Keeps L L' := by
  unfold Ledger.setWorkspacePolicy at h
  split at h
  · cases h
  · split at h
    · split at h
      · split at h
        · cases h
          exact workspacePolicy_keeps _ _ _ _ _
        · cases h
      · cases h
    · split at h
      · cases h
        exact keeps_of_same rfl rfl
      · cases h

theorem admitRunBudget_keeps (hok : LedgerOk L) {run : CrawlRun} {w id : Nat} {p : BudgetPolicy} {queued now : Int}
    (h : L.admitRunBudget run w p queued now = .ok (id, L')) : Keeps L L' := by
  unfold Ledger.admitRunBudget at h
  split at h
  · cases h
  · split at h
    · cases h
      exact keeps_of_same rfl rfl
    · have hpolicy := workspacePolicy_accounts L w p true false
      generalize L.workspacePolicy w p true false = shared at h hpolicy
      obtain ⟨_, _, h⟩ := bind_ok h
      obtain ⟨⟨_, M⟩, hperiod, h⟩ := bind_ok h
      obtain ⟨_, _, h⟩ := bind_ok h
      obtain ⟨_, hrec, _⟩ := period_ok (hok.sameAccounts hpolicy) hperiod
      split at h
      · cases h
      · cases h
        exact (SameRecords.keeps (hpolicy.records.trans hrec)).trans (keeps_of_same rfl rfl)

theorem ensureJobBudget_keeps (hok : LedgerOk L) {job : Budget.Job} {id : Nat} {p : BudgetPolicy} {queued now : Int}
    (h : L.ensureJobBudget job p queued now = .ok (id, L')) : Keeps L L' := by
  unfold Ledger.ensureJobBudget at h
  split at h
  · cases h
    exact keeps_of_same rfl rfl
  · exact admitRunBudget_keeps hok h
  · have hpolicy := workspacePolicy_keeps L job.workspaceId p true false
    generalize L.workspacePolicy job.workspaceId p true false = shared at h hpolicy
    obtain ⟨_, _, h⟩ := bind_ok h
    dsimp only at h
    split at h
    · cases h
      exact hpolicy
    · cases h
      exact hpolicy.trans (keeps_of_same rfl rfl)

theorem reserveProcessingWork_keeps (hok : LedgerOk L) {budgetId : Nat} {gameKey : Option String} {units now : Int}
    {new : Bool} (h : L.reserveProcessingWork budgetId gameKey units now = .ok (new, L')) : Keeps L L' := by
  unfold Ledger.reserveProcessingWork at h
  obtain ⟨⟨c, M⟩, hlock, h⟩ := bind_ok h
  obtain ⟨_, _, h⟩ := bind_ok h
  obtain ⟨_, _, h⟩ := bind_ok h
  have hM := lockedBudget_keeps hok hlock
  split at h
  · cases h
    exact hM
  · cases h
    exact hM.trans (keeps_of_same rfl rfl)

theorem requireBacklogRoom_keeps (hok : LedgerOk L) {budgetId : Nat} {queued now : Int}
    (h : L.requireBacklogRoom budgetId queued now = .ok L') : Keeps L L' := by
  unfold Ledger.requireBacklogRoom at h
  obtain ⟨⟨c, M⟩, hlock, h⟩ := bind_ok h
  dsimp only at h
  split at h
  · cases h
  · cases h
    exact lockedBudget_keeps hok hlock

theorem resumeRunBudget_keeps {run w : Nat} {p : BudgetPolicy} (h : L.resumeRunBudget run w p = .ok L') :
    Keeps L L' := by
  unfold Ledger.resumeRunBudget at h
  split at h
  · cases h
  · next b _ =>
    have hext : Keeps L (L.extendBudget b.id p) := keeps_of_same rfl rfl
    have hpolicy := workspacePolicy_keeps (L.extendBudget b.id p) w b.policy false false
    dsimp only at h
    split at h
    · cases h
      exact hext.trans hpolicy
    · split at h
      · cases h
        exact (hext.trans hpolicy).trans (keeps_of_same rfl rfl)
      · cases h

theorem step_keeps (hok : LedgerOk L) {ev : Event} (hev : settles ev = false) (h : L.step ev = .ok L') :
    Keeps L L' := by
  cases ev with
  | createWorkspace w =>
    cases h
    exact keeps_of_same rfl rfl
  | setWorkspacePolicy w p version =>
    obtain ⟨x, hx⟩ := map_snd_ok h
    exact setWorkspacePolicy_keeps hx
  | installWorkspacePolicy w p managed =>
    cases h
    exact workspacePolicy_keeps _ _ _ _ _
  | admitRunBudget run w p queued now =>
    obtain ⟨x, hx⟩ := map_snd_ok h
    exact admitRunBudget_keeps hok hx
  | ensureJobBudget job p queued now =>
    obtain ⟨x, hx⟩ := map_snd_ok h
    exact ensureJobBudget_keeps hok hx
  | reserveRequest budgetId now =>
    obtain ⟨x, hx⟩ := map_snd_ok h
    exact (reserveRequest_row hok hx).2.2.2.1
  | settleRequest id consumed => cases hev
  | normalizationAllowance budgetId now =>
    obtain ⟨x, hx⟩ := map_snd_ok h
    obtain ⟨⟨c, M⟩, hlock, hx⟩ := bind_ok hx
    cases hx
    exact lockedBudget_keeps hok hlock
  | requireBacklogRoom budgetId queued now => exact requireBacklogRoom_keeps hok h
  | reserveNormalization budgetId gameKey units now =>
    obtain ⟨x, hx⟩ := map_snd_ok h
    unfold Ledger.reserveNormalization at hx
    split at hx
    · cases hx
    · exact reserveProcessingWork_keeps hok hx
  | reserveGame budgetId gameKey now =>
    obtain ⟨x, hx⟩ := map_snd_ok h
    exact reserveProcessingWork_keeps hok hx
  | resumeRunBudget run w p => exact resumeRunBudget_keeps h

end ChessCrawl.Acquisition
