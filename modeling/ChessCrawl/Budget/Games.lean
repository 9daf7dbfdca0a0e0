import ChessCrawl.Budget.Runs

/-! The unique games of a work budget. Only a reservation that names a game charges one, it charges that
game once, and it reports whether the game was new. -/
namespace ChessCrawl.Budget
open ChessCrawl.Lib
set_option autoImplicit false

/-- Whether the budget has the game. -/
def Ledger.hasGame (L : Ledger) (budgetId : Nat) (gameKey : String) : Bool :=
  L.gameItems.any fun i => decide (i.budgetId = budgetId ∧ i.gameKey = gameKey)

/-- The games that an event may charge to a budget. -/
def Event.chargesGame (budgetId : Nat) : Event → Bool
  | .reserveNormalization id key _ _ => id = budgetId && key.isSome
  | .reserveGame id _ _ => id = budgetId
  | _ => false

/-! ## Reservations -/

theorem period_items {L L' : Ledger} {w : Nat} {now : Int} {p : Period} (h : L.period w now = .ok (p, L')) :
    L'.gameItems = L.gameItems := by
  unfold Ledger.period at h
  split at h
  · cases h
  · split at h <;> cases h <;> rfl

theorem lockedBudget_items {L L' : Ledger} {budgetId : Nat} {now : Int} {c : Locked}
    (h : L.lockedBudget budgetId now = .ok (c, L')) : L'.gameItems = L.gameItems ∧ c.budget.id = budgetId := by
  unfold Ledger.lockedBudget at h
  split at h
  · cases h
  next b hb =>
  obtain ⟨⟨p, M⟩, hp, h₁⟩ := bind_ok h
  cases h₁
  have hpolicy := (workspacePolicy_accounts L b.workspaceId b.policy false false).records.gameItems
  exact ⟨(period_items hp).trans hpolicy, by simpa using List.find?_some hb⟩

theorem newItems_eq (L : Ledger) (c : Locked) (key : String) : L.newItems c (some key) =
    if L.hasGame c.budget.id key then [] else
      [⟨c.budget.id, key, c.budget.workspaceId, c.usage.periodStart⟩] := rfl

/-- The items that one call of `_reserve_processing_work` adds. -/
theorem reserveProcessingWork_items {L L' : Ledger} {budgetId : Nat} {gameKey : Option String}
    {units now : Int} {isNew : Bool}
    (h : L.reserveProcessingWork budgetId gameKey units now = .ok (isNew, L')) :
    ∃ items : List GameItem, L'.gameItems = L.gameItems ++ items ∧
      (∀ i ∈ items, i.budgetId = budgetId ∧ gameKey = some i.gameKey) ∧
      items.length = (if isNew then 1 else 0) ∧
      ∀ key, gameKey = some key → isNew = !L.hasGame budgetId key := by
  unfold Ledger.reserveProcessingWork at h
  obtain ⟨⟨c, M⟩, hlock, h₁⟩ := bind_ok h
  obtain ⟨_, _, h₂⟩ := bind_ok h₁
  obtain ⟨_, _, h₃⟩ := bind_ok h₂
  obtain ⟨hitems, hid⟩ := lockedBudget_items hlock
  have hhas : ∀ key, M.hasGame c.budget.id key = L.hasGame budgetId key := by
    intro key
    unfold Ledger.hasGame
    rw [hitems, hid]
  have hnew : (∀ i ∈ M.newItems c gameKey, i.budgetId = budgetId ∧ gameKey = some i.gameKey) ∧
      (M.newItems c gameKey).length = (if M.newItems c gameKey ≠ [] then 1 else 0) ∧
      ∀ key, gameKey = some key → decide (M.newItems c gameKey ≠ []) = !L.hasGame budgetId key := by
    cases gameKey with
    | none => exact ⟨fun i hi => absurd hi List.not_mem_nil, rfl, fun key hkey => nomatch hkey⟩
    | some key =>
      rw [newItems_eq, hhas]
      by_cases hold : L.hasGame budgetId key = true
      · simp [hold]
      · simp [hold, hid]
  split at h₃
  · next hnone =>
    cases h₃
    rw [hnone.2] at hnew
    refine ⟨[], by rw [hitems, List.append_nil], fun i hi => absurd hi List.not_mem_nil, rfl, ?_⟩
    simpa using hnew.2.2
  · cases h₃
    refine ⟨M.newItems c gameKey, ?_, hnew.1, ?_, hnew.2.2⟩
    · change M.gameItems ++ _ = _
      rw [hitems]
    · simpa using hnew.2.1

/-- A reservation that names no game adds no item. -/
theorem reserveNormalization_items {L L' : Ledger} {budgetId : Nat} {units now : Int} {isNew : Bool}
    (h : L.reserveNormalization budgetId none units now = .ok (isNew, L')) : L'.gameItems = L.gameItems := by
  unfold Ledger.reserveNormalization at h
  split at h
  · cases h
  obtain ⟨items, heq, hown, _⟩ := reserveProcessingWork_items h
  have hnil : items = [] := List.eq_nil_iff_forall_not_mem.mpr fun i hi => nomatch (hown i hi).2
  rw [heq, hnil, List.append_nil]

/-- A game reservation charges the game exactly when it is new to the budget. -/
theorem reserveGame_spec {L L' : Ledger} {budgetId : Nat} {gameKey : String} {now : Int} {isNew : Bool}
    (h : L.reserveGame budgetId gameKey now = .ok (isNew, L')) :
    isNew = (!L.hasGame budgetId gameKey) ∧
      (L'.gamesOf budgetId).length = (L.gamesOf budgetId).length + (if isNew then 1 else 0) := by
  obtain ⟨items, heq, hown, hlen, hnew⟩ := reserveProcessingWork_items h
  refine ⟨hnew gameKey rfl, ?_⟩
  have hall : items.filter (fun i => decide (i.budgetId = budgetId)) = items :=
    List.filter_eq_self.mpr fun i hi => decide_eq_true (hown i hi).1
  unfold Ledger.gamesOf
  rw [heq, List.filter_append, hall, List.length_append, hlen]

/-! ## Other operations -/

theorem admitRunBudget_items {L L' : Ledger} {run : CrawlRun} {w : Nat} {p : BudgetPolicy} {queued now : Int}
    {x : Nat} (h : L.admitRunBudget run w p queued now = .ok (x, L')) : L'.gameItems = L.gameItems := by
  unfold Ledger.admitRunBudget at h
  split at h
  · cases h
  split at h
  · cases h
    rfl
  have hpolicy := (workspacePolicy_accounts L w p true false).records.gameItems
  generalize L.workspacePolicy w p true false = shared at h hpolicy
  obtain ⟨⟨policy, version⟩, _, h₁⟩ := bind_ok h
  obtain ⟨⟨usage, M⟩, hperiod, h₂⟩ := bind_ok h₁
  obtain ⟨_, _, h₃⟩ := bind_ok h₂
  split at h₃
  · cases h₃
  · cases h₃
    exact (period_items hperiod).trans hpolicy

theorem ensureJobBudget_items {L L' : Ledger} {job : Job} {p : BudgetPolicy} {queued now : Int} {x : Nat}
    (h : L.ensureJobBudget job p queued now = .ok (x, L')) : L'.gameItems = L.gameItems := by
  unfold Ledger.ensureJobBudget at h
  split at h
  · cases h
    rfl
  · exact admitRunBudget_items h
  · have hpolicy := (workspacePolicy_accounts L job.workspaceId p true false).records.gameItems
    generalize L.workspacePolicy job.workspaceId p true false = shared at h hpolicy
    obtain ⟨⟨policy, version⟩, _, h₁⟩ := bind_ok h
    dsimp only at h₁
    split at h₁ <;> cases h₁ <;> exact hpolicy

theorem setWorkspacePolicy_items {L L' : Ledger} {w : Nat} {p : BudgetPolicy} {version : Int} {x : Nat}
    (h : L.setWorkspacePolicy w p version = .ok (x, L')) : L'.gameItems = L.gameItems := by
  have hpolicy := (workspacePolicy_accounts L w p false true).records.gameItems
  unfold Ledger.setWorkspacePolicy at h
  split at h
  · cases h
  split at h
  · split at h
    · split at h
      · cases h
        exact hpolicy
      · cases h
    · cases h
  · split at h
    · cases h
      rfl
    · cases h

theorem reserveRequest_items {L L' : Ledger} {budgetId : Nat} {now : Int} {x : Nat × Int}
    (h : L.reserveRequest budgetId now = .ok (x, L')) : L'.gameItems = L.gameItems := by
  unfold Ledger.reserveRequest at h
  obtain ⟨⟨c, M⟩, hlock, h₁⟩ := bind_ok h
  obtain ⟨_, _, h₂⟩ := bind_ok h₁
  obtain ⟨_, _, h₃⟩ := bind_ok h₂
  obtain ⟨_, _, h₄⟩ := bind_ok h₃
  obtain ⟨_, _, h₅⟩ := bind_ok h₄
  split at h₅
  · cases h₅
  · cases h₅
    exact (lockedBudget_items hlock).1

theorem settleRequest_items {L L' : Ledger} {id : Nat} {consumed : Int}
    (h : L.settleRequest id consumed = .ok L') : L'.gameItems = L.gameItems := by
  unfold Ledger.settleRequest at h
  split at h
  · cases h
  split at h
  · cases h
    rfl
  · split at h <;> cases h
    rfl

theorem resumeRunBudget_items {L L' : Ledger} {run w : Nat} {p : BudgetPolicy}
    (h : L.resumeRunBudget run w p = .ok L') : L'.gameItems = L.gameItems := by
  unfold Ledger.resumeRunBudget at h
  split at h
  · cases h
  next row _ =>
  have hpolicy := (workspacePolicy_accounts (L.extendBudget row.id p) w row.policy false false).records.gameItems
  dsimp only at h
  split at h
  · cases h
    exact hpolicy
  · split at h
    · cases h
      exact hpolicy
    · cases h

/-- An event that names no game of the budget leaves the games of the budget alone. -/
theorem step_gamesOf {L L' : Ledger} {e : Event} {budgetId : Nat} (h : L.step e = .ok L')
    (he : e.chargesGame budgetId = false) : L'.gamesOf budgetId = L.gamesOf budgetId := by
  have hsame : L'.gameItems = L.gameItems → L'.gamesOf budgetId = L.gamesOf budgetId := by
    intro hitems
    unfold Ledger.gamesOf
    rw [hitems]
  -- the items of another budget, or of no game, do not pass the filter
  have hnamed : ∀ {id : Nat} {key : Option String} {units now : Int} {isNew : Bool},
      L.reserveProcessingWork id key units now = .ok (isNew, L') → (id = budgetId → key = none) →
      L'.gamesOf budgetId = L.gamesOf budgetId := by
    intro id key units now isNew hwork hother
    obtain ⟨items, heq, hown, _⟩ := reserveProcessingWork_items hwork
    have hnone : items.filter (fun i => decide (i.budgetId = budgetId)) = [] := by
      refine List.filter_eq_nil_iff.mpr fun i hi => ?_
      obtain ⟨hid, hkey⟩ := hown i hi
      intro hb
      have hnokey := hother (hid.symm.trans (of_decide_eq_true hb))
      rw [hnokey] at hkey
      cases hkey
    unfold Ledger.gamesOf
    rw [heq, List.filter_append, hnone, List.append_nil]
  cases e with
  | createWorkspace w =>
    cases h
    rfl
  | setWorkspacePolicy w p version =>
    obtain ⟨x, hx⟩ := map_snd_ok h
    exact hsame (setWorkspacePolicy_items hx)
  | installWorkspacePolicy w p managed =>
    cases h
    exact hsame (workspacePolicy_accounts L w p true managed).records.gameItems
  | admitRunBudget run w p queued now =>
    obtain ⟨x, hx⟩ := map_snd_ok h
    exact hsame (admitRunBudget_items hx)
  | ensureJobBudget job p queued now =>
    obtain ⟨x, hx⟩ := map_snd_ok h
    exact hsame (ensureJobBudget_items hx)
  | reserveRequest id now =>
    obtain ⟨x, hx⟩ := map_snd_ok h
    exact hsame (reserveRequest_items hx)
  | settleRequest id consumed => exact hsame (settleRequest_items h)
  | normalizationAllowance id now =>
    obtain ⟨x, hx⟩ := map_snd_ok h
    obtain ⟨⟨c, M⟩, hlock, h₁⟩ := bind_ok hx
    cases h₁
    exact hsame (lockedBudget_items hlock).1
  | requireBacklogRoom id queued now =>
    obtain ⟨⟨c, M⟩, hlock, h₁⟩ := bind_ok h
    dsimp only at h₁
    split at h₁ <;> cases h₁
    exact hsame (lockedBudget_items hlock).1
  | reserveNormalization id key units now =>
    obtain ⟨x, hx⟩ := map_snd_ok h
    unfold Ledger.reserveNormalization at hx
    split at hx
    · cases hx
    refine hnamed hx fun hid => ?_
    simpa [Event.chargesGame, hid] using he
  | reserveGame id key now =>
    obtain ⟨x, hx⟩ := map_snd_ok h
    refine hnamed hx fun hid => ?_
    simp [Event.chargesGame, hid] at he
  | resumeRunBudget run w p => exact hsame (resumeRunBudget_items h)

end ChessCrawl.Budget
