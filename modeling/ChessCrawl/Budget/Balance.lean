import ChessCrawl.Budget.WorkBudgets

/-! The budget ledger balances: the counters of a budget and of a workspace period are the sums of the
reservations, game items and unit charges recorded for them, and a budget never passes its own ceilings. -/
namespace ChessCrawl.Budget
open ChessCrawl.Lib
set_option autoImplicit false

/-! ## Charges -/

/-- One contribution to a budget and to a workspace period. -/
structure Charge where
  budgetId : Nat
  period : Nat × Int
  amount : Usage

/-- A reservation counts its consumed bytes once it is settled. -/
def Reservation.bytes (r : Reservation) : Int := r.consumedBytes.getD r.reservedBytes

def Reservation.charge (r : Reservation) : Charge :=
  ⟨r.budgetId, (r.workspaceId, r.periodStart), requestUsage r.bytes⟩

def GameItem.charge (g : GameItem) : Charge :=
  ⟨g.budgetId, (g.workspaceId, g.periodStart), processingUsage 0 1⟩

def UnitCharge.charge (u : UnitCharge) : Charge :=
  ⟨u.budgetId, (u.workspaceId, u.periodStart), processingUsage u.units 0⟩

def Ledger.charges (L : Ledger) : List Charge :=
  L.reservations.map Reservation.charge ++ L.gameItems.map GameItem.charge ++
    L.unitCharges.map UnitCharge.charge

/-- What has been charged to a budget. -/
def Ledger.spent (L : Ledger) (budgetId : Nat) : Usage :=
  total (fun c => c.budgetId = budgetId) Charge.amount L.charges

/-- What has been charged in a workspace period. -/
def Ledger.spentIn (L : Ledger) (period : Nat × Int) : Usage :=
  total (fun c => c.period = period) Charge.amount L.charges

/-- Two ledgers with the same records have the same charges. -/
structure SameRecords (L L' : Ledger) : Prop where
  reservations : L'.reservations = L.reservations
  gameItems : L'.gameItems = L.gameItems
  unitCharges : L'.unitCharges = L.unitCharges
  reservationSeq : L'.reservationSeq = L.reservationSeq

theorem SameRecords.charges {L L' : Ledger} (h : SameRecords L L') : L'.charges = L.charges := by
  unfold Ledger.charges
  rw [h.reservations, h.gameItems, h.unitCharges]

theorem SameRecords.trans {L M N : Ledger} (h : SameRecords L M) (h' : SameRecords M N) : SameRecords L N :=
  ⟨h'.reservations.trans h.reservations, h'.gameItems.trans h.gameItems,
    h'.unitCharges.trans h.unitCharges, h'.reservationSeq.trans h.reservationSeq⟩

/-! ## The invariant -/

structure RecordsOk (L : Ledger) : Prop where
  reservationIds : (L.reservations.map Reservation.id).Nodup
  reservationSeq : ∀ r ∈ L.reservations, r.id ≤ L.reservationSeq
  settled : ∀ r ∈ L.reservations, 0 < r.reservedBytes ∧
    ∀ n, r.consumedBytes = some n → 0 ≤ n ∧ n ≤ r.reservedBytes
  units : ∀ u ∈ L.unitCharges, 0 ≤ u.units
  games : (L.gameItems.map fun g => (g.budgetId, g.gameKey)).Nodup
  known : ∀ c ∈ L.charges, c.budgetId ≤ L.budgetSeq
  posted : ∀ c ∈ L.charges, c.period ∈ L.periods.map Period.key

structure AccountsOk (L : Ledger) : Prop where
  budgetIds : (L.budgets.map WorkBudget.id).Nodup
  budgetSeq : ∀ b ∈ L.budgets, b.id ≤ L.budgetSeq
  budgets : Balanced WorkBudget.id WorkBudget.usage L.spent L.budgets
  periods : Balanced Period.key Period.usage L.spentIn L.periods
  limits : ∀ b ∈ L.budgets, ∀ d, b.usage d ≤ b.policy.value (.jobMax d)
  bigint : ∀ p ∈ L.periods, ∀ d, p.usage d < 2 ^ 63

structure LedgerOk (L : Ledger) : Prop extends RecordsOk L, AccountsOk L

theorem requestUsage_nonneg {n : Int} (h : 0 ≤ n) (d : Dimension) : 0 ≤ requestUsage n d := by
  cases d <;> simp only [requestUsage] <;> omega

theorem processingUsage_nonneg {units games : Int} (hu : 0 ≤ units) (hg : 0 ≤ games) (d : Dimension) :
    0 ≤ processingUsage units games d := by
  cases d <;> simp only [processingUsage] <;> omega

theorem LedgerOk.charge_nonneg {L : Ledger} (h : LedgerOk L) (c : Charge) (hc : c ∈ L.charges)
    (d : Dimension) : 0 ≤ c.amount d := by
  unfold Ledger.charges at hc
  rcases List.mem_append.mp hc with hc | hc
  · rcases List.mem_append.mp hc with hc | hc
    · obtain ⟨r, hr, rfl⟩ := List.mem_map.mp hc
      refine requestUsage_nonneg ?_ d
      obtain ⟨hpos, hset⟩ := h.settled r hr
      unfold Reservation.bytes
      cases hcon : r.consumedBytes with
      | none =>
        change 0 ≤ r.reservedBytes
        omega
      | some n => exact (hset n hcon).1
    · obtain ⟨g, _, rfl⟩ := List.mem_map.mp hc
      exact processingUsage_nonneg (Int.le_refl 0) (by omega) d
  · obtain ⟨u, hu, rfl⟩ := List.mem_map.mp hc
    exact processingUsage_nonneg (h.units u hu) (Int.le_refl 0) d

theorem LedgerOk.usage_nonneg {L : Ledger} (h : LedgerOk L) (b : WorkBudget) (hb : b ∈ L.budgets)
    (d : Dimension) : 0 ≤ b.usage d := by
  rw [h.budgets b hb]
  change 0 ≤ total (fun c : Charge => c.budgetId = b.id) Charge.amount L.charges d
  rw [total_apply]
  exact total_nonneg fun c hc => h.charge_nonneg c hc d

/-! ## Policies and periods -/

theorem replaceWorkspacePolicy_same (L : Ledger) (w : Nat) (p : BudgetPolicy) (m : Bool) :
    SameRecords L (L.replaceWorkspacePolicy w p m) :=
  ⟨rfl, rfl, rfl, rfl⟩

/-- Only the table of policies changes. -/
structure SameAccounts (L L' : Ledger) : Prop where
  records : SameRecords L L'
  budgets : L'.budgets = L.budgets
  periods : L'.periods = L.periods
  budgetSeq : L'.budgetSeq = L.budgetSeq

theorem LedgerOk.sameAccounts {L L' : Ledger} (h : LedgerOk L) (hs : SameAccounts L L') : LedgerOk L' := by
  have hspent : L'.spent = L.spent := by
    funext k
    unfold Ledger.spent
    rw [hs.records.charges]
  have hspentIn : L'.spentIn = L.spentIn := by
    funext k
    unfold Ledger.spentIn
    rw [hs.records.charges]
  refine ⟨⟨?_, ?_, ?_, ?_, ?_, ?_, ?_⟩, ⟨?_, ?_, ?_, ?_, ?_, ?_⟩⟩
  · rw [hs.records.reservations]
    exact h.reservationIds
  · rw [hs.records.reservations, hs.records.reservationSeq]
    exact h.reservationSeq
  · rw [hs.records.reservations]
    exact h.settled
  · rw [hs.records.unitCharges]
    exact h.units
  · rw [hs.records.gameItems]
    exact h.games
  · rw [hs.records.charges, hs.budgetSeq]
    exact h.known
  · rw [hs.records.charges, hs.periods]
    exact h.posted
  · rw [hs.budgets]
    exact h.budgetIds
  · rw [hs.budgets, hs.budgetSeq]
    exact h.budgetSeq
  · rw [hs.budgets, hspent]
    exact h.budgets
  · rw [hs.periods, hspentIn]
    exact h.periods
  · rw [hs.budgets]
    exact h.limits
  · rw [hs.periods]
    exact h.bigint

theorem workspacePolicy_accounts (L : Ledger) (w : Nat) (p : BudgetPolicy) (tighten managed : Bool) :
    SameAccounts L (L.workspacePolicy w p tighten managed).2 := by
  unfold Ledger.workspacePolicy
  split
  next row M hrow =>
  have hM : SameAccounts L M := by
    split at hrow
    · cases hrow
      exact ⟨⟨rfl, rfl, rfl, rfl⟩, rfl, rfl, rfl⟩
    · cases hrow
      exact ⟨⟨rfl, rfl, rfl, rfl⟩, rfl, rfl, rfl⟩
  split
  · dsimp only
    split
    · exact hM
    · exact ⟨hM.records.trans (replaceWorkspacePolicy_same _ _ _ _), hM.budgets, hM.periods, hM.budgetSeq⟩
  · exact hM

theorem find_key {L : Ledger} {w : Nat} {start : Int} {p : Period}
    (h : (L.periods.find? fun p => p.key = (w, start)) = some p) : p ∈ L.periods ∧ p.key = (w, start) :=
  ⟨List.mem_of_find?_eq_some h, by simpa using List.find?_some h⟩

theorem period_ok {L L' : Ledger} {w : Nat} {now : Int} {p : Period} (h : LedgerOk L)
    (hp : L.period w now = .ok (p, L')) :
    LedgerOk L' ∧ SameRecords L L' ∧ L'.budgets = L.budgets ∧ L'.budgetSeq = L.budgetSeq ∧
      p ∈ L'.periods ∧ p.workspaceId = w := by
  unfold Ledger.period at hp
  split at hp
  · cases hp
  · next start stop hmonth =>
    split at hp
    · next q hq =>
      cases hp
      obtain ⟨hmem, hkey⟩ := find_key hq
      exact ⟨h, ⟨rfl, rfl, rfl, rfl⟩, rfl, rfl, hmem, congrArg Prod.fst hkey⟩
    · next hnone =>
      cases hp
      have hfresh : ∀ c ∈ L.charges, ¬ c.period = (w, start) := by
        intro c hc heq
        obtain ⟨q, hq, hkey⟩ := List.mem_map.mp (h.posted c hc)
        exact absurd (hkey.trans heq) (by simpa using List.find?_eq_none.mp hnone q hq)
      have hzero : L.spentIn (w, start) = 0 := total_eq_zero hfresh
      refine ⟨{ h with posted := ?_, periods := ?_, bigint := ?_ }, ⟨rfl, rfl, rfl, rfl⟩, rfl, rfl,
        List.mem_append_right _ (List.mem_singleton.mpr rfl), rfl⟩
      · intro c hc
        rw [List.map_append]
        exact List.mem_append_left _ (h.posted c hc)
      · exact h.periods.append hzero.symm
      · intro q hq d
        rcases List.mem_append.mp hq with hold | hnew
        · exact h.bigint q hold d
        · rw [List.mem_singleton.mp hnew]
          show (0 : Int) < 2 ^ 63
          decide

/-- What an operation knows once it holds the lock. -/
structure LockedOk (L L' : Ledger) (budgetId : Nat) (c : Locked) : Prop where
  ledger : LedgerOk L'
  records : SameRecords L L'
  budget : c.budget ∈ L'.budgets
  id : c.budget.id = budgetId
  period : c.usage ∈ L'.periods
  workspace : c.usage.workspaceId = c.budget.workspaceId
  budgets : L'.budgets = L.budgets

theorem lockedBudget_ok {L L' : Ledger} {budgetId : Nat} {now : Int} {c : Locked} (h : LedgerOk L)
    (hl : L.lockedBudget budgetId now = .ok (c, L')) : LockedOk L L' budgetId c := by
  unfold Ledger.lockedBudget at hl
  split at hl
  · cases hl
  · next b hb =>
    have hs := workspacePolicy_accounts L b.workspaceId b.policy false false
    obtain ⟨⟨p, M⟩, hp, heq⟩ := bind_ok hl
    cases heq
    obtain ⟨hM, hrec, hbud, hseq, hmem, hw⟩ := period_ok (h.sameAccounts hs) hp
    have hbud' : L'.budgets = L.budgets := hbud.trans hs.budgets
    refine ⟨hM, hs.records.trans hrec, ?_, by simpa using List.find?_some hb, hmem, hw, hbud'⟩
    rw [hbud']
    exact List.mem_of_find?_eq_some hb

theorem remaining_ok {c : Locked} {d : Dimension} {n r : Int} (h : c.remaining d n = .ok r) :
    n ≤ c.budget.policy.value (.jobMax d) - c.budget.usage d ∧
    n ≤ c.workspacePolicy.value (.workspaceMax d) - c.usage.usage d ∧
    r = min (c.budget.policy.value (.jobMax d) - c.budget.usage d)
      (c.workspacePolicy.value (.workspaceMax d) - c.usage.usage d) := by
  unfold Locked.remaining at h
  dsimp only at h
  split at h
  · cases h
  · split at h
    · cases h
    · cases h
      refine ⟨by omega, by omega, rfl⟩

/-! ## Posting -/

theorem AccountsOk.budget_eq {L : Ledger} (h : AccountsOk L) {b c : WorkBudget} (hb : b ∈ L.budgets)
    (hc : c ∈ L.budgets) (hid : b.id = c.id) : b = c :=
  List.inj_on_of_nodup_map h.budgetIds hb hc hid

/-- An amount within the ceilings is posted to a budget and to a period, and so are the records. -/
theorem AccountsOk.charge {L L' : Ledger} (h : AccountsOk L) {id : Nat} {key : Nat × Int} {a : Usage}
    (hbudgets : L'.budgets = post WorkBudget.id WorkBudget.add id a L.budgets)
    (hperiods : L'.periods = post Period.key Period.add key a L.periods)
    (hseq : L'.budgetSeq = L.budgetSeq)
    (hspent : ∀ k, L'.spent k = L.spent k + if id = k then a else 0)
    (hspentIn : ∀ k, L'.spentIn k = L.spentIn k + if key = k then a else 0)
    (hlimit : ∀ b ∈ L.budgets, b.id = id → ∀ d, b.usage d + a d ≤ b.policy.value (.jobMax d))
    (hbigint : ∀ p ∈ L.periods, p.key = key → ∀ d, p.usage d + a d < 2 ^ 63) : AccountsOk L' := by
  refine ⟨?_, ?_, ?_, ?_, ?_, ?_⟩
  · rw [hbudgets, post_keys WorkBudget.id fun _ => rfl]
    exact h.budgetIds
  · rw [hbudgets, hseq]
    intro b' hb'
    obtain ⟨c, hc, ⟨_, rfl⟩ | ⟨_, rfl⟩⟩ := mem_post hb'
    · exact h.budgetSeq c hc
    · exact h.budgetSeq b' hc
  · rw [hbudgets]
    exact h.budgets.post (fun _ => rfl) (fun _ => rfl) hspent
  · rw [hperiods]
    exact h.periods.post (fun _ => rfl) (fun _ => rfl) hspentIn
  · rw [hbudgets]
    intro b' hb' d
    obtain ⟨c, hc, ⟨hid, rfl⟩ | ⟨_, rfl⟩⟩ := mem_post hb'
    · exact hlimit c hc hid d
    · exact h.limits b' hc d
  · rw [hperiods]
    intro p' hp' d
    obtain ⟨q, hq, ⟨hkey, rfl⟩ | ⟨_, rfl⟩⟩ := mem_post hp'
    · exact hbigint q hq hkey d
    · exact h.bigint p' hq d

/-- The sums over the charges split into the three tables. -/
theorem total_charges (L : Ledger) (q : Charge → Prop) [DecidablePred q] :
    total q Charge.amount L.charges =
      total (fun r => q r.charge) (fun r => r.charge.amount) L.reservations +
      total (fun g => q g.charge) (fun g => g.charge.amount) L.gameItems +
      total (fun u => q u.charge) (fun u => u.charge.amount) L.unitCharges := by
  unfold Ledger.charges
  rw [total_append, total_append, total_map, total_map, total_map]

theorem total_push_reservation {L L' : Ledger} {r : Reservation} (q : Charge → Prop) [DecidablePred q]
    (hr : L'.reservations = L.reservations ++ [r]) (hg : L'.gameItems = L.gameItems)
    (hu : L'.unitCharges = L.unitCharges) :
    total q Charge.amount L'.charges =
      total q Charge.amount L.charges + if q r.charge then r.charge.amount else 0 := by
  rw [total_charges, total_charges, hr, hg, hu, total_append, total_singleton]
  abel

theorem mem_charges {L : Ledger} {c : Charge} :
    c ∈ L.charges ↔ (∃ r ∈ L.reservations, r.charge = c) ∨ (∃ g ∈ L.gameItems, g.charge = c) ∨
      ∃ u ∈ L.unitCharges, u.charge = c := by
  simp only [Ledger.charges, List.mem_append, List.mem_map, or_assoc]

/-! ## Requests -/

/-- A reservation stays within the available bytes: half for the body and half for the excess read
when little is left, the whole excess of 65536 bytes otherwise. -/
theorem reserved_bounds {maxResponseBytes available : Int} (hmax : 1 ≤ maxResponseBytes)
    (havail : 2 ≤ available) :
    0 < readLimit maxResponseBytes available + min 65536 (readLimit maxResponseBytes available) ∧
    readLimit maxResponseBytes available + min 65536 (readLimit maxResponseBytes available) ≤ available := by
  unfold readLimit
  split <;> omega

theorem LockedOk.key {L L' : Ledger} {budgetId : Nat} {c : Locked} (h : LockedOk L L' budgetId c) :
    c.usage.key = (c.budget.workspaceId, c.usage.periodStart) := by
  unfold Period.key
  rw [h.workspace]

theorem LockedOk.charged {L L' M : Ledger} {budgetId : Nat} {c : Locked} (h : LockedOk L L' budgetId c)
    {a : Usage} (hbudgets : M.budgets = post WorkBudget.id WorkBudget.add c.budget.id a L'.budgets)
    (hperiods : M.periods =
      post Period.key Period.add (c.budget.workspaceId, c.usage.periodStart) a L'.periods)
    (hseq : M.budgetSeq = L'.budgetSeq)
    (hspent : ∀ k, M.spent k = L'.spent k + if c.budget.id = k then a else 0)
    (hspentIn : ∀ k, M.spentIn k = L'.spentIn k +
      if (c.budget.workspaceId, c.usage.periodStart) = k then a else 0)
    (hroom : ∀ d, c.budget.usage d + a d ≤ c.budget.policy.value (.jobMax d))
    (hshare : ∀ d, a d = 0 ∨ c.usage.usage d + a d ≤ c.workspacePolicy.value (.workspaceMax d)) :
    AccountsOk M := by
  refine h.ledger.toAccountsOk.charge hbudgets hperiods hseq hspent hspentIn ?_ ?_
  · intro b hb hid
    rw [h.ledger.budget_eq hb h.budget hid]
    exact hroom
  · intro p hp hkey d
    have husage : p.usage = c.usage.usage := by
      rw [h.ledger.periods p hp, h.ledger.periods c.usage h.period, hkey, h.key]
    rw [husage]
    rcases hshare d with hzero | hle
    · have hold := h.ledger.bigint c.usage h.period d
      omega
    · have hmax := (c.workspacePolicy.valid (.workspaceMax d)).2
      omega

theorem recordRequest_ok {L M : Ledger} {budgetId : Nat} {c : Locked} {reserved : Int}
    (h : LockedOk L M budgetId c) (hpos : 0 < reserved)
    (hroom : ∀ d, c.budget.usage d + requestUsage reserved d ≤ c.budget.policy.value (.jobMax d))
    (hshare : ∀ d, requestUsage reserved d = 0 ∨
      c.usage.usage d + requestUsage reserved d ≤ c.workspacePolicy.value (.workspaceMax d)) :
    LedgerOk (M.recordRequest c reserved) := by
  let row : Reservation :=
    ⟨M.reservationSeq + 1, c.budget.id, c.budget.workspaceId, c.usage.periodStart, reserved, none⟩
  have hrow : ∀ r ∈ (M.recordRequest c reserved).reservations, r ∈ M.reservations ∨ r = row := by
    intro r hr
    rcases List.mem_append.mp hr with hold | hnew
    · exact .inl hold
    · exact .inr (List.mem_singleton.mp hnew)
  have hcharge : ∀ ch ∈ (M.recordRequest c reserved).charges, ch ∈ M.charges ∨ ch = row.charge := by
    intro ch hch
    rcases mem_charges.mp hch with ⟨r, hr, rfl⟩ | hrest
    · rcases hrow r hr with hold | rfl
      · exact .inl (mem_charges.mpr (.inl ⟨r, hold, rfl⟩))
      · exact .inr rfl
    · exact .inl (mem_charges.mpr (.inr hrest))
  refine ⟨⟨?_, ?_, ?_, h.ledger.units, h.ledger.games, ?_, ?_⟩, ?_⟩
  · change ((M.reservations ++ [row]).map Reservation.id).Nodup
    rw [List.map_append]
    refine List.nodup_append.mpr ⟨h.ledger.reservationIds, List.nodup_singleton _, ?_⟩
    intro i hi j hj heq
    obtain ⟨r, hr, rfl⟩ := List.mem_map.mp hi
    have hseq := h.ledger.reservationSeq r hr
    have hnew : j = M.reservationSeq + 1 := List.mem_singleton.mp hj
    omega
  · intro r hr
    change r.id ≤ M.reservationSeq + 1
    rcases hrow r hr with hold | rfl
    · have hseq := h.ledger.reservationSeq r hold
      omega
    · exact Nat.le_refl _
  · intro r hr
    rcases hrow r hr with hold | rfl
    · exact h.ledger.settled r hold
    · exact ⟨hpos, fun n hn => nomatch hn⟩
  · intro ch hch
    rcases hcharge ch hch with hold | rfl
    · exact h.ledger.known ch hold
    · exact h.ledger.budgetSeq c.budget h.budget
  · intro ch hch
    change ch.period ∈ (post Period.key Period.add _ _ M.periods).map Period.key
    rw [post_keys Period.key fun _ => rfl]
    rcases hcharge ch hch with hold | rfl
    · exact h.ledger.posted ch hold
    · exact List.mem_map.mpr ⟨c.usage, h.period, h.key⟩
  · have hsum : ∀ (q : Charge → Prop) [DecidablePred q],
        total q Charge.amount (M.recordRequest c reserved).charges =
          total q Charge.amount M.charges + if q row.charge then row.charge.amount else 0 :=
      fun q _ => total_push_reservation q rfl rfl rfl
    exact h.charged rfl rfl rfl (fun k => hsum fun ch => ch.budgetId = k)
      (fun k => hsum fun ch => ch.period = k) hroom hshare

theorem reserveRequest_ok {L L' : Ledger} {budgetId : Nat} {now : Int} {x : Nat × Int} (h : LedgerOk L)
    (hr : L.reserveRequest budgetId now = .ok (x, L')) : LedgerOk L' := by
  unfold Ledger.reserveRequest at hr
  obtain ⟨⟨c, M⟩, hlock, hr⟩ := bind_ok hr
  obtain ⟨r1, hrequests, hr⟩ := bind_ok hr
  obtain ⟨r2, hgames, hr⟩ := bind_ok hr
  obtain ⟨r3, hunits, hr⟩ := bind_ok hr
  obtain ⟨available, hbytes, hr⟩ := bind_ok hr
  have hL := lockedBudget_ok h hlock
  split at hr
  · cases hr
  next havail =>
  cases hr
  obtain ⟨hpos, hle⟩ := reserved_bounds (c.budget.policy.valid .maxResponseBytes).1
    (show 2 ≤ available by omega)
  obtain ⟨hj1, hw1, _⟩ := remaining_ok hrequests
  obtain ⟨hj3, hw3, _⟩ := remaining_ok hunits
  obtain ⟨_, _, hmin⟩ := remaining_ok hbytes
  refine recordRequest_ok hL hpos ?_ ?_
  · intro d
    cases d with
    | games =>
      have hlim := hL.ledger.limits c.budget hL.budget .games
      simpa [requestUsage] using hlim
    | normalizationUnits =>
      simp only [requestUsage]
      omega
    | remoteBytes =>
      simp only [requestUsage]
      omega
    | remoteRequests =>
      simp only [requestUsage]
      omega
  · intro d
    cases d with
    | games => exact .inl rfl
    | normalizationUnits =>
      right
      simp only [requestUsage]
      omega
    | remoteBytes =>
      right
      simp only [requestUsage]
      omega
    | remoteRequests =>
      right
      simp only [requestUsage]
      omega

/-! ## Settlement -/

/-- Consuming part of a reservation changes its charge by the refund. -/
theorem settled_charge {r : Reservation} {consumed : Int} (h : r.consumedBytes = none) :
    requestUsage ({ r with consumedBytes := some consumed } : Reservation).bytes =
      requestUsage r.bytes + refundUsage (r.reservedBytes - consumed) := by
  funext d
  cases d with
  | remoteBytes =>
    change consumed = r.consumedBytes.getD r.reservedBytes + -(r.reservedBytes - consumed)
    rw [h, Option.getD_none]
    omega
  | games => rfl
  | normalizationUnits => rfl
  | remoteRequests => rfl

theorem total_settle {L : Ledger} {row : Reservation} {consumed : Int} (h : LedgerOk L)
    (hrow : row ∈ L.reservations) (hopen : row.consumedBytes = none) (q : Charge → Prop) [DecidablePred q]
    (hq : ∀ c d, c.budgetId = d.budgetId → c.period = d.period → (q c ↔ q d)) :
    total q Charge.amount (L.settle row consumed).charges =
      total q Charge.amount L.charges +
        if q row.charge then refundUsage (row.reservedBytes - consumed) else 0 := by
  have hsum := total_update (p := fun r : Reservation => q r.charge) (f := fun r => r.charge.amount)
    (u := fun r => { r with consumedBytes := some consumed }) h.reservationIds hrow (hq _ _ rfl rfl)
    (settled_charge hopen)
  rw [total_charges, total_charges]
  change total _ _ (L.reservations.map _) + total _ _ L.gameItems + total _ _ L.unitCharges = _
  rw [hsum]
  abel

theorem refundUsage_nonpos {n : Int} (h : 0 ≤ n) (d : Dimension) : refundUsage n d ≤ 0 := by
  cases d <;> simp only [refundUsage] <;> omega

theorem settle_ok {L : Ledger} {row : Reservation} {consumed : Int} (h : LedgerOk L)
    (hrow : row ∈ L.reservations) (hopen : row.consumedBytes = none) (hpos : 0 ≤ consumed)
    (hle : consumed ≤ row.reservedBytes) : LedgerOk (L.settle row consumed) := by
  have hback : ∀ r' ∈ (L.settle row consumed).reservations, ∃ r ∈ L.reservations,
      r' = r ∨ (r = row ∧ r' = { r with consumedBytes := some consumed }) := by
    intro r' hr'
    obtain ⟨r, hr, heq⟩ := List.mem_map.mp hr'
    split at heq
    · next hid => exact ⟨r, hr, .inr ⟨List.inj_on_of_nodup_map h.reservationIds hr hrow hid, heq.symm⟩⟩
    · exact ⟨r, hr, .inl heq.symm⟩
  have hcharge : ∀ ch ∈ (L.settle row consumed).charges, ∃ old ∈ L.charges,
      ch.budgetId = old.budgetId ∧ ch.period = old.period := by
    intro ch hch
    rcases mem_charges.mp hch with ⟨r', hr', rfl⟩ | hrest
    · obtain ⟨r, hr, rfl | ⟨_, rfl⟩⟩ := hback r' hr'
      · exact ⟨_, mem_charges.mpr (.inl ⟨r', hr, rfl⟩), rfl, rfl⟩
      · exact ⟨_, mem_charges.mpr (.inl ⟨r, hr, rfl⟩), rfl, rfl⟩
    · exact ⟨ch, mem_charges.mpr (.inr hrest), rfl, rfl⟩
  have hids : (L.settle row consumed).reservations.map Reservation.id = L.reservations.map Reservation.id := by
    change (L.reservations.map _).map Reservation.id = _
    rw [List.map_map]
    refine List.map_congr_left fun r _ => ?_
    simp only [Function.comp_apply]
    split <;> rfl
  refine ⟨⟨?_, ?_, ?_, h.units, h.games, ?_, ?_⟩, ?_⟩
  · rw [hids]
    exact h.reservationIds
  · intro r' hr'
    obtain ⟨r, hr, rfl | ⟨_, rfl⟩⟩ := hback r' hr'
    · exact h.reservationSeq r' hr
    · exact h.reservationSeq r hr
  · intro r' hr'
    obtain ⟨r, hr, rfl | ⟨rfl, rfl⟩⟩ := hback r' hr'
    · exact h.settled r' hr
    · refine ⟨(h.settled r hr).1, fun n hn => ?_⟩
      cases hn
      exact ⟨hpos, hle⟩
  · intro ch hch
    obtain ⟨old, hold, hid, _⟩ := hcharge ch hch
    rw [hid]
    exact h.known old hold
  · intro ch hch
    change ch.period ∈ (post Period.key Period.add _ _ L.periods).map Period.key
    rw [post_keys Period.key fun _ => rfl]
    obtain ⟨old, hold, _, hperiod⟩ := hcharge ch hch
    rw [hperiod]
    exact h.posted old hold
  · have hrefund := refundUsage_nonpos (show 0 ≤ row.reservedBytes - consumed by omega)
    refine h.toAccountsOk.charge rfl rfl rfl (fun k => ?_) (fun k => ?_) ?_ ?_
    · refine total_settle h hrow hopen (fun ch => ch.budgetId = k) fun c d hid _ => ?_
      rw [hid]
    · refine total_settle h hrow hopen (fun ch => ch.period = k) fun c d _ hperiod => ?_
      rw [hperiod]
    · intro b hb _ d
      have hlim := h.limits b hb d
      have := hrefund d
      omega
    · intro p hp _ d
      have hbig := h.bigint p hp d
      have := hrefund d
      omega

theorem settleRequest_ok {L L' : Ledger} {id : Nat} {consumed : Int} (h : LedgerOk L)
    (hs : L.settleRequest id consumed = .ok L') : LedgerOk L' := by
  unfold Ledger.settleRequest at hs
  split at hs
  · cases hs
  · next row hrow =>
    split at hs
    · cases hs
      exact h
    · next hopen =>
      split at hs
      · next hc =>
        cases hs
        exact settle_ok h (List.mem_of_find?_eq_some hrow) (by simpa using hopen) hc.1 hc.2
      · cases hs

/-! ## Processing work -/

theorem processingUsage_zero : processingUsage 0 0 = 0 := by
  funext d
  cases d <;> rfl

theorem processingUsage_add (units games units' games' : Int) :
    processingUsage units games + processingUsage units' games' =
      processingUsage (units + units') (games + games') := by
  funext d
  cases d <;> simp [processingUsage]

/-- New items of one period count one game each. -/
theorem total_items {P : Prop} [Decidable P] {q : Charge → Prop} [DecidablePred q] {gs : List GameItem}
    (h : ∀ g ∈ gs, q g.charge ↔ P) :
    total (fun g : GameItem => q g.charge) (fun g => g.charge.amount) gs =
      if P then processingUsage 0 gs.length else 0 := by
  induction gs with
  | nil =>
    rw [total_nil, List.length_nil, Nat.cast_zero, processingUsage_zero, ite_self]
  | cons g gs ih =>
    rw [total_cons, ih fun g' hg' => h g' (List.mem_cons_of_mem g hg')]
    have hg := h g List.mem_cons_self
    by_cases hP : P
    · rw [if_pos (hg.mpr hP), if_pos hP, if_pos hP]
      change processingUsage 0 1 + _ = _
      rw [processingUsage_add, List.length_cons, Nat.cast_succ]
      congr 1
      omega
    · rw [if_neg (mt hg.mp hP), if_neg hP, if_neg hP, add_zero]

/-- The items of one call belong to the locked budget and period and are new to the budget. -/
structure ItemsOk (M : Ledger) (c : Locked) (items : List GameItem) : Prop where
  budget : ∀ g ∈ items, g.budgetId = c.budget.id
  period : ∀ g ∈ items, g.charge.period = (c.budget.workspaceId, c.usage.periodStart)
  nodup : ((M.gameItems ++ items).map fun g => (g.budgetId, g.gameKey)).Nodup

theorem newItems_ok {M : Ledger} (h : LedgerOk M) (c : Locked) (gameKey : Option String) :
    ItemsOk M c (M.newItems c gameKey) ∧ (M.newItems c gameKey).length ≤ 1 := by
  have hnil : ItemsOk M c [] := by
    refine ⟨fun g hg => absurd hg List.not_mem_nil, fun g hg => absurd hg List.not_mem_nil, ?_⟩
    rw [List.append_nil]
    exact h.games
  cases gameKey with
  | none => exact ⟨hnil, Nat.zero_le 1⟩
  | some key =>
    unfold Ledger.newItems
    dsimp only
    split
    · exact ⟨hnil, Nat.zero_le 1⟩
    · next hnew =>
      refine ⟨⟨fun g hg => ?_, fun g hg => ?_, ?_⟩, Nat.le_refl 1⟩
      · rw [List.mem_singleton.mp hg]
      · rw [List.mem_singleton.mp hg]
        rfl
      · rw [List.map_append]
        refine List.nodup_append.mpr ⟨h.games, List.nodup_singleton _, ?_⟩
        intro x hx y hy heq
        obtain ⟨g, hg, rfl⟩ := List.mem_map.mp hx
        rw [List.mem_singleton.mp hy] at heq
        refine hnew (List.any_eq_true.mpr ⟨g, hg, decide_eq_true ?_⟩)
        exact ⟨congrArg Prod.fst heq, congrArg Prod.snd heq⟩

theorem total_recordWork {M : Ledger} {c : Locked} {items : List GameItem} {units : Int}
    (hitems : ItemsOk M c items) (q : Charge → Prop) [DecidablePred q]
    (hq : ∀ c d, c.budgetId = d.budgetId → c.period = d.period → (q c ↔ q d)) :
    total q Charge.amount (M.recordWork c items units).charges = total q Charge.amount M.charges +
      if q (UnitCharge.charge ⟨c.budget.id, c.budget.workspaceId, c.usage.periodStart, units⟩) then
        processingUsage units items.length else 0 := by
  let u : UnitCharge := ⟨c.budget.id, c.budget.workspaceId, c.usage.periodStart, units⟩
  have hgames : total (fun g : GameItem => q g.charge) (fun g => g.charge.amount) items =
      if q u.charge then processingUsage 0 items.length else 0 :=
    total_items fun g hg => hq _ _ (hitems.budget g hg) (hitems.period g hg)
  rw [total_charges, total_charges]
  change total _ _ M.reservations + total _ _ (M.gameItems ++ items) + total _ _ (M.unitCharges ++ [u]) = _
  rw [total_append, total_append, total_singleton, hgames]
  change _ + (_ + ite (q u.charge) _ _) + (_ + ite (q u.charge) (processingUsage units 0) _) =
    _ + ite (q u.charge) _ _
  by_cases hu : q u.charge
  · rw [if_pos hu, if_pos hu, if_pos hu]
    have hadd := processingUsage_add 0 items.length units 0
    rw [zero_add, add_zero] at hadd
    rw [← hadd]
    abel
  · rw [if_neg hu, if_neg hu, if_neg hu]
    abel

theorem recordWork_ok {L M : Ledger} {budgetId : Nat} {c : Locked} {items : List GameItem} {units : Int}
    (h : LockedOk L M budgetId c) (hitems : ItemsOk M c items) (hunits : 0 ≤ units)
    (hroom : ∀ d, c.budget.usage d + processingUsage units items.length d ≤
      c.budget.policy.value (.jobMax d))
    (hshare : ∀ d, processingUsage units items.length d = 0 ∨
      c.usage.usage d + processingUsage units items.length d ≤ c.workspacePolicy.value (.workspaceMax d)) :
    LedgerOk (M.recordWork c items units) := by
  have hcharge : ∀ ch ∈ (M.recordWork c items units).charges, ch ∈ M.charges ∨
      (ch.budgetId = c.budget.id ∧ ch.period = (c.budget.workspaceId, c.usage.periodStart)) := by
    intro ch hch
    rcases mem_charges.mp hch with hold | ⟨g, hmem, rfl⟩ | ⟨v, hmem, rfl⟩
    · exact .inl (mem_charges.mpr (.inl hold))
    · rcases List.mem_append.mp hmem with hold | hin
      · exact .inl (mem_charges.mpr (.inr (.inl ⟨g, hold, rfl⟩)))
      · exact .inr ⟨hitems.budget g hin, hitems.period g hin⟩
    · rcases List.mem_append.mp hmem with hold | hin
      · exact .inl (mem_charges.mpr (.inr (.inr ⟨v, hold, rfl⟩)))
      · rw [List.mem_singleton.mp hin]
        exact .inr ⟨rfl, rfl⟩
  refine ⟨⟨h.ledger.reservationIds, h.ledger.reservationSeq, h.ledger.settled, ?_, hitems.nodup, ?_, ?_⟩, ?_⟩
  · intro v hv
    rcases List.mem_append.mp hv with hold | hin
    · exact h.ledger.units v hold
    · rw [List.mem_singleton.mp hin]
      exact hunits
  · intro ch hch
    rcases hcharge ch hch with hold | ⟨hid, _⟩
    · exact h.ledger.known ch hold
    · rw [hid]
      exact h.ledger.budgetSeq c.budget h.budget
  · intro ch hch
    change ch.period ∈ (post Period.key Period.add _ _ M.periods).map Period.key
    rw [post_keys Period.key fun _ => rfl]
    rcases hcharge ch hch with hold | ⟨_, hperiod⟩
    · exact h.ledger.posted ch hold
    · rw [hperiod, ← h.key]
      exact List.mem_map_of_mem h.period
  · refine h.charged rfl rfl rfl (fun k => ?_) (fun k => ?_) hroom hshare
    · refine total_recordWork hitems (fun ch => ch.budgetId = k) fun c d hid _ => ?_
      rw [hid]
    · refine total_recordWork hitems (fun ch => ch.period = k) fun c d _ hperiod => ?_
      rw [hperiod]

theorem reserveProcessingWork_ok {L L' : Ledger} {budgetId : Nat} {gameKey : Option String} {units now : Int}
    {x : Bool} (h : LedgerOk L) (hunits : 0 ≤ units)
    (hr : L.reserveProcessingWork budgetId gameKey units now = .ok (x, L')) : LedgerOk L' := by
  unfold Ledger.reserveProcessingWork at hr
  obtain ⟨⟨c, M⟩, hlock, hr⟩ := bind_ok hr
  obtain ⟨r1, hu, hr⟩ := bind_ok hr
  obtain ⟨r2, hg, hr⟩ := bind_ok hr
  have hL := lockedBudget_ok h hlock
  obtain ⟨hitems, hlen⟩ := newItems_ok hL.ledger c gameKey
  split at hr
  · cases hr
    exact hL.ledger
  cases hr
  -- a dimension that is charged has passed its check, and one that is not stays as it was
  have hroom : ∀ d n, (n = 0 ∨ ∃ r, c.remaining d n = .ok r) →
      c.budget.usage d + n ≤ c.budget.policy.value (.jobMax d) ∧
      (n = 0 ∨ c.usage.usage d + n ≤ c.workspacePolicy.value (.workspaceMax d)) := by
    intro d n hn
    rcases hn with rfl | ⟨r, hrem⟩
    · have hlim := hL.ledger.limits c.budget hL.budget d
      exact ⟨by omega, .inl rfl⟩
    · obtain ⟨hj, hw, _⟩ := remaining_ok hrem
      exact ⟨by omega, .inr (by omega)⟩
  unfold Locked.remainingIf at hu hg
  have hunit := hroom .normalizationUnits units (by
    split at hu
    · exact .inr ⟨r1, hu⟩
    · next hz => exact .inl (not_not.mp hz))
  have hgame := hroom .games (M.newItems c gameKey).length (by
    split at hg
    · next hne =>
      have hpos := List.length_pos_iff.mpr hne
      have hone : ((M.newItems c gameKey).length : Int) = 1 := by omega
      rw [hone]
      exact .inr ⟨r2, hg⟩
    · next hnil =>
      rw [not_not.mp hnil]
      exact .inl rfl)
  have hrest := fun d => hroom d 0 (.inl rfl)
  refine recordWork_ok hL hitems hunits (fun d => ?_) (fun d => ?_)
  · cases d with
    | games => exact hgame.1
    | normalizationUnits => exact hunit.1
    | remoteBytes => exact (hrest .remoteBytes).1
    | remoteRequests => exact (hrest .remoteRequests).1
  · cases d with
    | games => exact hgame.2
    | normalizationUnits => exact hunit.2
    | remoteBytes => exact .inl rfl
    | remoteRequests => exact .inl rfl

end ChessCrawl.Budget
