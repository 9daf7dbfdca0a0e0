import ChessCrawl.Budget.Balance

/-! The ledger over whole runs: every operation keeps it balanced, so counters and records agree in
every reachable state and no budget passes the ceilings it was given. -/
namespace ChessCrawl.Budget
open ChessCrawl.Lib
set_option autoImplicit false

/-! ## Admission and administration -/

theorem insertBudget_ok {L : Ledger} (h : LedgerOk L) (w : Nat) (run job : Option Nat) (p : BudgetPolicy)
    (version : Nat) : LedgerOk (L.insertBudget w run job p version).2 := by
  have hfresh : ∀ c ∈ L.charges, ¬ c.budgetId = L.budgetSeq + 1 := by
    intro c hc heq
    have hle := h.known c hc
    omega
  have hzero : L.spent (L.budgetSeq + 1) = 0 := total_eq_zero hfresh
  refine { h with known := ?_, budgetIds := ?_, budgetSeq := ?_, budgets := ?_, limits := ?_ }
  · intro c hc
    exact Nat.le_succ_of_le (h.known c hc)
  · change ((L.budgets ++ [_]).map WorkBudget.id).Nodup
    rw [List.map_append]
    refine List.nodup_append.mpr ⟨h.budgetIds, List.nodup_singleton _, ?_⟩
    intro i hi j hj heq
    obtain ⟨b, hb, rfl⟩ := List.mem_map.mp hi
    have hle := h.budgetSeq b hb
    have hnew : j = L.budgetSeq + 1 := List.mem_singleton.mp hj
    omega
  · intro b hb
    change b.id ≤ L.budgetSeq + 1
    rcases List.mem_append.mp hb with hold | hnew
    · have hle := h.budgetSeq b hold
      omega
    · rw [List.mem_singleton.mp hnew]
  · exact h.budgets.append hzero.symm
  · intro b hb d
    rcases List.mem_append.mp hb with hold | hnew
    · exact h.limits b hold d
    · rw [List.mem_singleton.mp hnew]
      have hvalid := (p.valid (.jobMax d)).1
      show (0 : Int) ≤ p.value (.jobMax d)
      omega

theorem extendBudget_ok {L : Ledger} (h : LedgerOk L) (id : Nat) (p : BudgetPolicy) :
    LedgerOk (L.extendBudget id p) := by
  have hback : ∀ b' ∈ (L.extendBudget id p).budgets, ∃ b ∈ L.budgets, b'.id = b.id ∧ b'.usage = b.usage ∧
      ∀ f, b.policy.value f ≤ b'.policy.value f := by
    intro b' hb'
    obtain ⟨b, hb, heq⟩ := List.mem_map.mp hb'
    split at heq
    · cases heq
      exact ⟨b, hb, rfl, rfl, fun f => b.policy.le_extend p _ f⟩
    · cases heq
      exact ⟨b', hb, rfl, rfl, fun f => Int.le_refl _⟩
  refine { h with budgetIds := ?_, budgetSeq := ?_, budgets := ?_, limits := ?_ }
  · have hids : (L.extendBudget id p).budgets.map WorkBudget.id = L.budgets.map WorkBudget.id := by
      change (L.budgets.map _).map WorkBudget.id = _
      rw [List.map_map]
      refine List.map_congr_left fun b _ => ?_
      simp only [Function.comp_apply]
      split <;> rfl
    rw [hids]
    exact h.budgetIds
  · intro b' hb'
    obtain ⟨b, hb, hid, _⟩ := hback b' hb'
    rw [hid]
    exact h.budgetSeq b hb
  · intro b' hb'
    obtain ⟨b, hb, hid, husage, _⟩ := hback b' hb'
    rw [hid, husage]
    exact h.budgets b hb
  · intro b' hb' d
    obtain ⟨b, hb, _, husage, hpolicy⟩ := hback b' hb'
    rw [husage]
    exact Int.le_trans (h.limits b hb d) (hpolicy _)

theorem workspacePolicy_ok {L : Ledger} (h : LedgerOk L) (w : Nat) (p : BudgetPolicy) (tighten managed : Bool) :
    LedgerOk (L.workspacePolicy w p tighten managed).2 :=
  h.sameAccounts (workspacePolicy_accounts L w p tighten managed)

theorem replaceWorkspacePolicy_ok {L : Ledger} (h : LedgerOk L) (w : Nat) (p : BudgetPolicy) (managed : Bool) :
    LedgerOk (L.replaceWorkspacePolicy w p managed) :=
  h.sameAccounts ⟨replaceWorkspacePolicy_same L w p managed, rfl, rfl, rfl⟩

theorem setWorkspacePolicy_ok {L L' : Ledger} {w : Nat} {p : BudgetPolicy} {version : Int} {x : Nat}
    (h : LedgerOk L) (hs : L.setWorkspacePolicy w p version = .ok (x, L')) : LedgerOk L' := by
  unfold Ledger.setWorkspacePolicy at hs
  split at hs
  · cases hs
  · split at hs
    · split at hs
      · split at hs
        · cases hs
          exact workspacePolicy_ok h w p false true
        · cases hs
      · cases hs
    · split at hs
      · cases hs
        exact replaceWorkspacePolicy_ok h w p true
      · cases hs

theorem admitRunBudget_ok {L L' : Ledger} {run : CrawlRun} {w : Nat} {p : BudgetPolicy} {queued now : Int}
    {x : Nat} (h : LedgerOk L) (ha : L.admitRunBudget run w p queued now = .ok (x, L')) : LedgerOk L' := by
  unfold Ledger.admitRunBudget at ha
  split at ha
  · cases ha
  · split at ha
    · cases ha
      exact h
    · have hwp := workspacePolicy_ok h w p true false
      generalize L.workspacePolicy w p true false = shared at ha hwp
      obtain ⟨⟨policy, version⟩, _, ha⟩ := bind_ok ha
      obtain ⟨⟨usage, M⟩, hperiod, ha⟩ := bind_ok ha
      obtain ⟨_, _, ha⟩ := bind_ok ha
      have hM := (period_ok hwp hperiod).1
      split at ha
      · cases ha
      · cases ha
        exact insertBudget_ok hM _ _ _ _ _

theorem ensureJobBudget_ok {L L' : Ledger} {job : Job} {p : BudgetPolicy} {queued now : Int} {x : Nat}
    (h : LedgerOk L) (he : L.ensureJobBudget job p queued now = .ok (x, L')) : LedgerOk L' := by
  unfold Ledger.ensureJobBudget at he
  split at he
  · cases he
    exact h
  · exact admitRunBudget_ok h he
  · have hM := workspacePolicy_ok h job.workspaceId p true false
    generalize L.workspacePolicy job.workspaceId p true false = shared at he hM
    obtain ⟨⟨policy, version⟩, _, he⟩ := bind_ok he
    dsimp only at he
    split at he
    · cases he
      exact hM
    · cases he
      exact insertBudget_ok hM _ _ _ _ _

theorem resumeRunBudget_ok {L L' : Ledger} {run w : Nat} {p : BudgetPolicy} (h : LedgerOk L)
    (hr : L.resumeRunBudget run w p = .ok L') : LedgerOk L' := by
  unfold Ledger.resumeRunBudget at hr
  split at hr
  · cases hr
  · next row hrow =>
    have hM := workspacePolicy_ok (extendBudget_ok h row.id p) w row.policy false false
    dsimp only at hr
    split at hr
    · cases hr
      exact hM
    · split at hr
      · cases hr
        exact replaceWorkspacePolicy_ok hM _ _ _
      · cases hr

/-! ## Steps -/

theorem map_snd_ok {α : Type} {x : Result (α × Ledger)} {L : Ledger} (h : x.map Prod.snd = .ok L) :
    ∃ a, x = .ok (a, L) := by
  cases x with
  | error e => cases h
  | ok y =>
    obtain ⟨a, M⟩ := y
    cases h
    exact ⟨a, rfl⟩

theorem ledger_step {L L' : Ledger} {e : Event} (h : LedgerOk L) (hs : L.step e = .ok L') : LedgerOk L' := by
  cases e with
  | createWorkspace w =>
    cases hs
    exact h.sameAccounts ⟨⟨rfl, rfl, rfl, rfl⟩, rfl, rfl, rfl⟩
  | setWorkspacePolicy w p version =>
    obtain ⟨x, hx⟩ := map_snd_ok hs
    exact setWorkspacePolicy_ok h hx
  | installWorkspacePolicy w p managed =>
    cases hs
    exact workspacePolicy_ok h w p true managed
  | admitRunBudget run w p queued now =>
    obtain ⟨x, hx⟩ := map_snd_ok hs
    exact admitRunBudget_ok h hx
  | ensureJobBudget job p queued now =>
    obtain ⟨x, hx⟩ := map_snd_ok hs
    exact ensureJobBudget_ok h hx
  | reserveRequest id now =>
    obtain ⟨x, hx⟩ := map_snd_ok hs
    exact reserveRequest_ok h hx
  | settleRequest id consumed => exact settleRequest_ok h hs
  | normalizationAllowance id now =>
    obtain ⟨x, hx⟩ := map_snd_ok hs
    obtain ⟨⟨c, M⟩, hlock, hx⟩ := bind_ok hx
    cases hx
    exact (lockedBudget_ok h hlock).ledger
  | requireBacklogRoom id queued now =>
    obtain ⟨⟨c, M⟩, hlock, hx⟩ := bind_ok hs
    have hM := (lockedBudget_ok h hlock).ledger
    dsimp only at hx
    split at hx
    · cases hx
    · cases hx
      exact hM
  | reserveNormalization id key units now =>
    obtain ⟨x, hx⟩ := map_snd_ok hs
    unfold Ledger.reserveNormalization at hx
    split at hx
    · cases hx
    · exact reserveProcessingWork_ok h (by omega) hx
  | reserveGame id key now =>
    obtain ⟨x, hx⟩ := map_snd_ok hs
    exact reserveProcessingWork_ok h (Int.le_refl 0) hx
  | resumeRunBudget run w p => exact resumeRunBudget_ok h hs

theorem ledgerOk_of_reachable {L : Ledger} (h : Reachable workBudgets L) : LedgerOk L := by
  refine Reachable.invariant (I := LedgerOk) ?_ ?_ h
  · rintro _ rfl
    refine ⟨⟨List.nodup_nil, ?_, ?_, ?_, List.nodup_nil, ?_, ?_⟩, ⟨List.nodup_nil, ?_, ?_, ?_, ?_, ?_⟩⟩
    all_goals exact fun _ hmem => absurd hmem List.not_mem_nil
  · intro L e L' hL hstep
    exact ledger_step hL (toOption_some hstep)

/-! ## What the counters say -/

/-- The reservations of a budget, and those made in a workspace period. -/
def Ledger.reservationsOf (L : Ledger) (budgetId : Nat) : List Reservation :=
  L.reservations.filter fun r => decide (r.budgetId = budgetId)

def Ledger.reservationsIn (L : Ledger) (period : Nat × Int) : List Reservation :=
  L.reservations.filter fun r => decide ((r.workspaceId, r.periodStart) = period)

def Ledger.gamesOf (L : Ledger) (budgetId : Nat) : List GameItem :=
  L.gameItems.filter fun g => decide (g.budgetId = budgetId)

def Ledger.gamesIn (L : Ledger) (period : Nat × Int) : List GameItem :=
  L.gameItems.filter fun g => decide ((g.workspaceId, g.periodStart) = period)

def Ledger.unitsIn (L : Ledger) (period : Nat × Int) : List UnitCharge :=
  L.unitCharges.filter fun u => decide ((u.workspaceId, u.periodStart) = period)

/-- The sum over the charges, dimension by dimension. -/
theorem total_dimension (L : Ledger) (q : Charge → Prop) [DecidablePred q] (d : Dimension) :
    total q Charge.amount L.charges d =
      total (fun r : Reservation => q r.charge) (fun r => requestUsage r.bytes d) L.reservations +
      total (fun g : GameItem => q g.charge) (fun _ => processingUsage 0 1 d) L.gameItems +
      total (fun u : UnitCharge => q u.charge) (fun u => processingUsage u.units 0 d) L.unitCharges := by
  rw [total_charges, Pi.add_apply, Pi.add_apply, total_apply, total_apply, total_apply]
  rfl

/-- The counters of an account with the charges that meet `q`. -/
theorem counters (L : Ledger) (q : Charge → Prop) [DecidablePred q] {usage : Usage}
    (h : usage = total q Charge.amount L.charges) :
    usage .remoteRequests = (L.reservations.filter fun r => decide (q r.charge)).length ∧
    usage .remoteBytes = ((L.reservations.filter fun r => decide (q r.charge)).map Reservation.bytes).sum ∧
    usage .games = (L.gameItems.filter fun g => decide (q g.charge)).length ∧
    usage .normalizationUnits = (L.reservations.filter fun r => decide (q r.charge)).length +
      ((L.unitCharges.filter fun u => decide (q u.charge)).map UnitCharge.units).sum := by
  subst h
  refine ⟨?_, ?_, ?_, ?_⟩
  · rw [total_dimension]
    simp only [requestUsage, processingUsage]
    rw [total_const_zero, total_const_zero, total_one]
    omega
  · rw [total_dimension]
    simp only [requestUsage, processingUsage]
    rw [total_const_zero, total_const_zero, add_zero, add_zero]
    rfl
  · rw [total_dimension]
    simp only [requestUsage, processingUsage]
    rw [total_const_zero, total_const_zero, total_one]
    omega
  · rw [total_dimension]
    simp only [requestUsage, processingUsage]
    rw [total_const_zero, total_one, add_zero]
    rfl

/-! ## The ledger in every run -/

theorem budget_ledger_balanced {L : Ledger} (h : Reachable workBudgets L) :
    (∀ b ∈ L.budgets,
      b.usage .remoteRequests = (L.reservationsOf b.id).length ∧
      b.usage .remoteBytes = ((L.reservationsOf b.id).map Reservation.bytes).sum ∧
      b.usage .games = (L.gamesOf b.id).length ∧
      ∀ d, 0 ≤ b.usage d ∧ b.usage d ≤ b.policy.value (.jobMax d)) ∧
    (∀ p ∈ L.periods,
      p.usage .remoteRequests = (L.reservationsIn p.key).length ∧
      p.usage .remoteBytes = ((L.reservationsIn p.key).map Reservation.bytes).sum ∧
      p.usage .games = (L.gamesIn p.key).length ∧
      p.usage .normalizationUnits =
        (L.reservationsIn p.key).length + ((L.unitsIn p.key).map UnitCharge.units).sum) := by
  have hok := ledgerOk_of_reachable h
  refine ⟨fun b hb => ?_, fun p hp => ?_⟩
  · obtain ⟨hrequests, hbytes, hgames, _⟩ :=
      counters L (fun c => c.budgetId = b.id) (hok.budgets b hb)
    refine ⟨hrequests, hbytes, hgames, fun d => ⟨hok.usage_nonneg b hb d, hok.limits b hb d⟩⟩
  · exact counters L (fun c => c.period = p.key) (hok.periods p hp)

/-- A request reserved in February 2024 and settled in March, when the next one is reserved. -/
def acrossMonths : List Event :=
  [.createWorkspace 1, .ensureJobBudget ⟨7, 1, none, none⟩ .default 0 1709251199,
    .reserveRequest 1 1709251199, .reserveGame 1 "chess.com/5" 1709251199, .settleRequest 1 300,
    .reserveRequest 1 1709251200, .reserveGame 1 "chess.com/5" 1709251200, .reserveNormalization 1 none 2 1709251200]

theorem budget_ledger_balanced_across_months : ∃ L, Reachable workBudgets L ∧
    L.periods.map (fun p => (p.periodStart, p.usage .remoteBytes)) =
      [(1706745600, 300), (1709251200, 16842752)] ∧
    ∀ p ∈ L.periods, p.usage .remoteBytes = ((L.reservationsIn p.key).map Reservation.bytes).sum := by
  obtain ⟨L, hr, hp⟩ := Reach.of_exec workBudgets (fun _ _ => True) (s := Ledger.empty) rfl acrossMonths
    (fun L => decide (L.periods.map (fun p => (p.periodStart, p.usage .remoteBytes)) =
      [(1706745600, 300), (1709251200, 16842752)])) (by decide +kernel)
  exact ⟨L, hr, of_decide_eq_true hp, fun p hmem => ((budget_ledger_balanced hr).2 p hmem).2.1⟩

end ChessCrawl.Budget
