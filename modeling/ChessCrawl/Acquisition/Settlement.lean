import ChessCrawl.Acquisition.Reservations

/-! Every reservation of a request is settled once, within what was reserved. The read loop passes its limit by
at most one slice, and the ledger has reserved that slice; the row of the reservation waits unchanged while
other runners work on the same ledger. -/
namespace ChessCrawl.Acquisition
open ChessCrawl.Lib ChessCrawl.Budget
set_option autoImplicit false

/-! ## The bounded read -/

theorem slices_length {readSize : Nat} {view c : List UInt8} (h : c ∈ slices readSize view) : c.length ≤ readSize := by
  obtain ⟨k, _, rfl⟩ := List.mem_map.mp h
  exact List.length_take_le _ _

theorem boundedResponseChunks_length {rawChunks : List (List UInt8)} {readSize : Nat} {c : List UInt8}
    (h : c ∈ boundedResponseChunks rawChunks readSize) : c.length ≤ readSize := by
  obtain ⟨view, _, hc⟩ := List.mem_flatMap.mp h
  exact slices_length hc

section Read
variable {limit : Int} {r : Response} {late : Nat → Bool} {size : Nat}

/-- The loop stops at the first slice that passes the limit. -/
theorem readLoop_received {slices : List (List UInt8)} (hsize : ∀ c ∈ slices, c.length ≤ size) (k received : Nat)
    (chunks : List (List UInt8)) (hrec : (received : Int) ≤ limit) :
    ((readLoop limit r late k received chunks slices).1 : Int) ≤ limit + size := by
  induction slices generalizing k received chunks with
  | nil =>
    unfold readLoop
    split
    · dsimp only
      omega
    · split
      · dsimp only
        omega
      · split <;> dsimp only <;> omega
  | cons c slices ih =>
    have hc := hsize c List.mem_cons_self
    unfold readLoop
    split
    · dsimp only
      omega
    · dsimp only
      split
      · dsimp only
        omega
      next hle =>
      split
      · dsimp only
        omega
      · exact ih (fun d hd => hsize d (List.mem_cons_of_mem _ hd)) _ _ _ (by omega)

/-- A body that was read to its end is no longer than what was received, and that kept the limit. -/
theorem readLoop_body {slices : List (List UInt8)} (k received : Nat) (chunks : List (List UInt8))
    (hrec : (received : Int) ≤ limit) (hchunks : chunks.flatten.length ≤ received) {out : List (List UInt8)}
    (h : (readLoop limit r late k received chunks slices).2 = .ok out) : (out.flatten.length : Int) ≤ limit := by
  induction slices generalizing k received chunks with
  | nil =>
    unfold readLoop at h
    split at h
    · cases h
    · split at h
      · cases h
      · split at h
        · cases h
        · cases h
          omega
  | cons c slices ih =>
    unfold readLoop at h
    split at h
    · cases h
    · dsimp only at h
      split at h
      · cases h
      next hle =>
      split at h
      · cases h
      · refine ih _ _ _ (by omega) ?_ h
        split
        · rw [List.flatten_append, List.length_append]
          simp only [List.flatten_cons, List.flatten_nil, List.append_nil]
          omega
        · omega

theorem streamResponse_received (hlimit : 1 ≤ limit) :
    ((streamResponse limit r late).1 : Int) ≤ limit + min 65536 limit := by
  have hread : ((readLoop limit r late 0 0 [] (boundedResponseChunks r.rawChunks (min 65536 limit.toNat))).1 : Int) ≤
      limit + (min 65536 limit.toNat : Nat) :=
    readLoop_received (fun c hc => boundedResponseChunks_length hc) 0 0 [] (by omega)
  unfold streamResponse
  split
  · dsimp only
    omega
  · dsimp only
    split
    · dsimp only
      omega
    · split <;> dsimp only <;> omega

theorem streamResponse_body (hlimit : 1 ≤ limit) {body : List UInt8}
    (h : (streamResponse limit r late).2 = .ok (some body)) : (body.length : Int) ≤ limit := by
  unfold streamResponse at h
  split at h
  · cases h
  · dsimp only at h
    split at h
    · cases h
    next chunks hread =>
    split at h
    · cases h
    · have hbody := readLoop_body 0 0 [] (by omega) (by simp) hread
      dsimp only at h
      split at h
      · cases h
        exact hbody
      · cases h

end Read

/-! ## One attempt -/

section Guard
variable {limit : Int} {a : Attempt} {last : Option HttpFetchResult}

theorem guarded_received (hlimit : 1 ≤ limit) : ((guarded (some limit) a last).1 : Int) ≤ limit + min 65536 limit := by
  unfold guarded
  split
  · dsimp only
    omega
  · dsimp only
    omega
  · split
    · split <;> dsimp only <;> omega
    · dsimp only
      rw [if_neg (by omega), if_neg (by omega)]
      split
      · dsimp only
        omega
      · exact streamResponse_received hlimit

theorem guarded_completes (hlimit : 1 ≤ limit) {r : Response} {body : List UInt8}
    (h : (guarded (some limit) a last).2 = .ok (.completes r (some body))) : (body.length : Int) ≤ limit := by
  unfold guarded at h
  split at h
  · cases h
  · cases h
  · split at h
    · split at h <;> cases h
    · dsimp only at h
      rw [if_neg (by omega), if_neg (by omega)] at h
      split at h
      · cases h
      next response _ =>
      dsimp only at h
      cases hstream : (streamResponse limit response a.late).2 with
      | error e =>
        rw [hstream] at h
        cases h
      | ok b =>
        rw [hstream] at h
        cases h
        exact streamResponse_body hlimit hstream

theorem guarded_returns {limit : Option Int} {result : HttpFetchResult}
    (h : (guarded limit a last).2 = .ok (.returns result)) : last = some result := by
  unfold guarded at h
  split at h
  · cases h
  · cases h
  · split at h
    · split at h
      · cases h
        rfl
      · cases h
    · split at h
      · split at h
        · cases h
        · split at h <;> cases h
      · split at h
        · cases h
        · split at h
          · cases h
          · split at h
            · cases h
            next response _ =>
            dsimp only at h
            cases hstream : (streamResponse _ response a.late).2 with
            | error e =>
              rw [hstream] at h
              cases h
            | ok b =>
              rw [hstream] at h
              cases h

variable (a) (url : String) (n received : Nat) (budgeted : Bool) (attempts : List FetchAttempt)

/-- What the handlers make of a guarded block: an earlier result, an exception, or the result of this attempt. -/
theorem handled_spec {g : Except Raised Guarded} (hreturns : ∀ result, g = .ok (.returns result) → last = some result) :
    (∃ result, last = some result ∧ handled url n budgeted a attempts last received g = .leaves (.returned result)) ∨
    (∃ e, handled url n budgeted a attempts last received g = .leaves (.raised e)) ∨
    ∃ result, handled url n budgeted a attempts last received g = .continues result ∧
      result.attempts.length = attempts.length + 1 ∧
      ∀ body, result.body = some body → ∃ r, g = .ok (.completes r (some body)) := by
  unfold handled
  split
  · next result =>
    exact .inl ⟨result, hreturns result rfl, rfl⟩
  · next r body =>
    refine .inr (.inr ⟨_, rfl, by simp, fun b hb => ⟨r, ?_⟩⟩)
    rw [show body = some b from hb]
  · split
    · next result => exact .inl ⟨result, rfl, rfl⟩
    · exact .inr (.inl ⟨_, rfl⟩)
  · split
    · exact .inr (.inl ⟨_, rfl⟩)
    · refine .inr (.inr ⟨_, rfl, by simp, fun b hb => ?_⟩)
      cases hb
  · exact .inr (.inl ⟨_, rfl⟩)

end Guard

/-! ## Other runners -/

/-- The ledger is in order and no runner holds a reservation yet to be made. -/
structure Sound (w : Requests) : Prop where
  ledger : LedgerOk w.ledger
  held : ∀ n id, (w.runners n).requestReservation = some id → id ≤ w.ledger.reservationSeq

/-- What others leave alone: this runner, its calls, the settled rows, and the row of a reservation that none
of them holds. -/
structure Moved (me : Nat) (w w' : Requests) : Prop where
  sound : Sound w'
  later : Later w.ledger w'.ledger
  runner : w'.runners me = w.runners me
  calls : w'.calls = w.calls
  spared : ∀ id, id ≤ w.ledger.reservationSeq → (∀ n, n ≠ me → (w.runners n).requestReservation ≠ some id) →
    row w'.ledger id = row w.ledger id ∧ ∀ n, n ≠ me → (w'.runners n).requestReservation ≠ some id

section Peers
variable {me : Nat} {w w' : Requests}

theorem Moved.refl (h : Sound w) : Moved me w w :=
  ⟨h, Later.refl _, rfl, rfl, fun _ _ hn => ⟨rfl, hn⟩⟩

theorem Moved.trans {v : Requests} (h : Moved me w v) (h' : Moved me v w') : Moved me w w' := by
  refine ⟨h'.sound, h.later.trans h'.later, h'.runner.trans h.runner, h'.calls.trans h.calls, fun id hid hn => ?_⟩
  obtain ⟨hrow, hn'⟩ := h.spared id hid hn
  obtain ⟨hrow', hn''⟩ := h'.spared id (Nat.le_trans hid h.later.seq) hn'
  exact ⟨hrow'.trans hrow, hn''⟩

theorem setRunner_self (w : Requests) (n : Nat) (r : Runner) : (w.setRunner n r).runners n = r := if_pos rfl

theorem setRunner_ne (w : Requests) {n k : Nat} (r : Runner) (h : k ≠ n) :
    (w.setRunner n r).runners k = w.runners k := if_neg h

/-- A move that keeps the known rows and changes at most the reservation of one other runner. -/
theorem moved_of_keeps (hw : Sound w) {n : Nat} (hn : n ≠ me) {r : Runner} {L : Ledger} (hL : LedgerOk L)
    (hkeeps : Keeps w.ledger L)
    (hr : ∀ id, r.requestReservation = some id → id ≤ L.reservationSeq ∧
      (w.ledger.reservationSeq < id ∨ (w.runners n).requestReservation = some id)) :
    Moved me w ({ w with ledger := L }.setRunner n r) := by
  refine ⟨⟨hL, fun k id hk => ?_⟩, hkeeps.later hw.ledger, setRunner_ne _ _ (Ne.symm hn), rfl,
    fun id hid hothers => ⟨hkeeps.rows id hid, fun k hk => ?_⟩⟩
  · by_cases hkn : k = n
    · subst hkn
      rw [setRunner_self] at hk
      exact (hr id hk).1
    · rw [setRunner_ne _ _ hkn] at hk
      exact Nat.le_trans (hw.held k id hk) hkeeps.seq
  · by_cases hkn : k = n
    · subst hkn
      rw [setRunner_self]
      intro heq
      rcases (hr id heq).2 with hlt | hold
      · omega
      · exact hothers k hk hold
    · rw [setRunner_ne _ _ hkn]
      exact hothers k hk

theorem peer_moved (hw : Sound w) (p : Peer) : Moved me w (w.peer me p) := by
  cases p with
  | ledger ev =>
    unfold Requests.peer
    dsimp only
    split
    · exact Moved.refl hw
    next hev =>
    cases hstep : w.ledger.step ev with
    | error e => exact Moved.refl hw
    | ok L =>
      have hkeeps := step_keeps hw.ledger (by simpa using hev) hstep
      exact ⟨⟨ledger_step hw.ledger hstep, fun n id hn => Nat.le_trans (hw.held n id hn) hkeeps.seq⟩,
        hkeeps.later hw.ledger, rfl, rfl, fun id hid hn => ⟨hkeeps.rows id hid, hn⟩⟩
  | reserve n now =>
    unfold Requests.peer
    dsimp only
    split
    · exact Moved.refl hw
    next hn =>
    split
    · split
      · next id limit L hreserve =>
        obtain ⟨hid, hseq, _, hkeeps, _⟩ := reserveRequest_row hw.ledger hreserve
        refine moved_of_keeps hw hn (reserveRequest_ok hw.ledger hreserve) hkeeps fun k hk => ?_
        cases hk
        omega
      · exact Moved.refl hw
    · exact Moved.refl hw
  | finish n received =>
    unfold Requests.peer
    dsimp only
    split
    · exact Moved.refl hw
    next hn =>
    split
    · next held hheld =>
      split
      · next L hsettle =>
        have hlater := settleRequest_later hsettle
        refine ⟨⟨settleRequest_ok hw.ledger hsettle, fun k id hk => ?_⟩, hlater, setRunner_ne _ _ (Ne.symm hn), rfl,
          fun id hid hothers => ⟨settleRequest_ne hsettle fun heq => ?_, fun k hk => ?_⟩⟩
        · by_cases hkn : k = n
          · subst hkn
            rw [setRunner_self] at hk
            cases hk
          · rw [setRunner_ne _ _ hkn] at hk
            exact Nat.le_trans (hw.held k id hk) hlater.seq
        · subst heq
          exact hothers n hn hheld
        · by_cases hkn : k = n
          · subst hkn
            rw [setRunner_self]
            simp
          · rw [setRunner_ne _ _ hkn]
            exact hothers k hk
      · exact Moved.refl hw
    · exact Moved.refl hw
  | start n budgetId deferNormalization =>
    unfold Requests.peer
    dsimp only
    split
    · exact Moved.refl hw
    next hn =>
    exact moved_of_keeps hw hn hw.ledger (keeps_of_same rfl rfl) fun id hid => ⟨hw.held n id hid, .inr hid⟩
  | stop n =>
    unfold Requests.peer
    dsimp only
    split
    · exact Moved.refl hw
    next hn =>
    exact moved_of_keeps hw hn hw.ledger (keeps_of_same rfl rfl) fun id hid => nomatch hid

theorem peers_moved (hw : Sound w) (ps : List Peer) : Moved me w (w.peers me ps) := by
  induction ps generalizing w with
  | nil => exact Moved.refl hw
  | cons p ps ih =>
    have hp : Moved me w (w.peer me p) := peer_moved hw p
    exact hp.trans (ih hp.sound)

end Peers

/-! ## Exchanges -/

/-- A reservation with its settlement. -/
structure Exchange where
  reservationId : Nat
  limit : Int
  received : Int
deriving DecidableEq, Repr

def Exchange.calls (x : Exchange) : List HookCall :=
  [.reserved x.reservationId x.limit, .finished x.reservationId x.received]

/-- The ledger has reserved the limit and its headroom, and records the bytes that were reported. -/
def Exchange.Settled (L : Ledger) (x : Exchange) : Prop :=
  1 ≤ x.limit ∧ 0 ≤ x.received ∧ ∃ r, row L x.reservationId = some r ∧
    r.reservedBytes = x.limit + min 65536 x.limit ∧ x.received ≤ r.reservedBytes ∧ r.consumedBytes = some x.received

theorem Exchange.Settled.later {L L' : Ledger} {x : Exchange} (h : x.Settled L) (hl : Later L L') : x.Settled L' := by
  obtain ⟨hlimit, h0, r, hrow, hreserved, hle, hsome⟩ := h
  exact ⟨hlimit, h0, r, hl.settled _ _ hrow (by rw [hsome]; rfl), hreserved, hle, hsome⟩

/-- A stretch of a run in which the hooks were called in these exchanges. -/
structure Spent (me : Nat) (w w' : Requests) (xs : List Exchange) : Prop where
  sound : Sound w'
  idle : (w'.runners me).requestReservation = none
  later : Later w.ledger w'.ledger
  calls : w'.calls = w.calls ++ xs.flatMap Exchange.calls
  fresh : ∀ x ∈ xs, w.ledger.reservationSeq < x.reservationId ∧ x.reservationId ≤ w'.ledger.reservationSeq
  ascending : xs.Pairwise fun x y => x.reservationId < y.reservationId
  settled : ∀ x ∈ xs, x.Settled w'.ledger

section Attempts
variable {me : Nat} {w w' : Requests}

theorem Moved.spent (h : Moved me w w') (hidle : (w.runners me).requestReservation = none) : Spent me w w' [] :=
  ⟨h.sound, by rw [h.runner]; exact hidle, h.later, by simp [h.calls], by simp, List.Pairwise.nil, by simp⟩

theorem Spent.trans {v : Requests} {xs ys : List Exchange} (h : Spent me w v xs) (h' : Spent me v w' ys) :
    Spent me w w' (xs ++ ys) := by
  refine ⟨h'.sound, h'.idle, h.later.trans h'.later, ?_, fun x hx => ?_, ?_, fun x hx => ?_⟩
  · rw [h'.calls, h.calls, List.flatMap_append, List.append_assoc]
  · rcases List.mem_append.mp hx with hx | hx
    · exact ⟨(h.fresh x hx).1, Nat.le_trans (h.fresh x hx).2 h'.later.seq⟩
    · exact ⟨Nat.lt_of_le_of_lt h.later.seq (h'.fresh x hx).1, (h'.fresh x hx).2⟩
  · refine List.pairwise_append.mpr ⟨h.ascending, h'.ascending, fun x hx y hy => ?_⟩
    exact Nat.lt_of_le_of_lt (h.fresh x hx).2 (h'.fresh y hy).1
  · rcases List.mem_append.mp hx with hx | hx
    · exact (h.settled x hx).later h'.later
    · exact h'.settled x hx

/-- The errors that only a settlement, or a reservation before the last was settled, can raise. -/
def HookError.unsettled (e : HookError) : Bool :=
  e = .runtime "Previous request reservation is unsettled" || e = .runtime "Provider response has no reserved work" ||
    e = .budget (.valueError "Consumed bytes exceed the reserved bounded read allowance")

/-- The reservation's own errors are none of these. -/
def reserving : BudgetError → Bool
  | .valueError _ => false
  | _ => true

theorem lockedBudget_error {L : Ledger} {budgetId : Nat} {now : Int} {e : BudgetError}
    (h : L.lockedBudget budgetId now = .error e) : reserving e = true := by
  unfold Ledger.lockedBudget at h
  split at h
  · cases h
    rfl
  · rcases bind_error h with h | ⟨_, _, h⟩
    · unfold Ledger.period at h
      split at h
      · cases h
        rfl
      · split at h <;> cases h
    · cases h

theorem remaining_error {c : Locked} {d : Dimension} {requested : Int} {e : BudgetError}
    (h : c.remaining d requested = .error e) : reserving e = true := by
  unfold Locked.remaining at h
  dsimp only at h
  split at h
  · cases h
    rfl
  · split at h
    · cases h
      rfl
    · cases h

theorem reserveRequest_error {L : Ledger} {budgetId : Nat} {now : Int} {e : BudgetError}
    (h : L.reserveRequest budgetId now = .error e) : reserving e = true := by
  unfold Ledger.reserveRequest at h
  rcases bind_error h with h | ⟨⟨c, M⟩, _, h⟩
  · exact lockedBudget_error h
  rcases bind_error h with h | ⟨_, _, h⟩
  · exact remaining_error h
  rcases bind_error h with h | ⟨_, _, h⟩
  · exact remaining_error h
  rcases bind_error h with h | ⟨_, _, h⟩
  · exact remaining_error h
  rcases bind_error h with h | ⟨_, _, h⟩
  · exact remaining_error h
  split at h
  · cases h
    rfl
  · cases h

theorem requireBacklogRoom_error {L : Ledger} {budgetId : Nat} {queued now : Int} {e : BudgetError}
    (h : L.requireBacklogRoom budgetId queued now = .error e) : reserving e = true := by
  unfold Ledger.requireBacklogRoom at h
  rcases bind_error h with h | ⟨⟨c, M⟩, _, h⟩
  · exact lockedBudget_error h
  dsimp only at h
  split at h
  · cases h
    rfl
  · cases h

theorem unsettled_budget {e : BudgetError} (h : reserving e = true) : (HookError.budget e).unsettled = false := by
  cases e with
  | valueError m => cases h
  | _ => simp [HookError.unsettled]

/-- While the reservation is held: its row waits for the runner that made it. -/
structure Holding (me id : Nat) (limit : Int) (w w' : Requests) : Prop where
  sound : Sound w'
  later : Later w.ledger w'.ledger
  fresh : w.ledger.reservationSeq < id ∧ id ≤ w'.ledger.reservationSeq
  positive : 1 ≤ limit
  mine : (w'.runners me).requestReservation = some id
  others : ∀ n, n ≠ me → (w'.runners n).requestReservation ≠ some id
  written : ∃ r, row w'.ledger id = some r ∧ r.consumedBytes = none ∧ r.reservedBytes = limit + min 65536 limit
  calls : w'.calls = w.calls ++ [.reserved id limit]

theorem Holding.moved {id : Nat} {limit : Int} {v : Requests} (h : Holding me id limit w v) (hm : Moved me v w') :
    Holding me id limit w w' := by
  obtain ⟨hrow, hothers⟩ := hm.spared id h.fresh.2 h.others
  refine ⟨hm.sound, h.later.trans hm.later, ⟨h.fresh.1, Nat.le_trans h.fresh.2 hm.later.seq⟩, h.positive, ?_, hothers, ?_,
    hm.calls.trans h.calls⟩
  · rw [hm.runner]
    exact h.mine
  · rw [hrow]
    exact h.written

theorem reserveRequest_spec (hw : Sound w) (hidle : (w.runners me).requestReservation = none) (m : Moment) :
    (∃ e, (w.reserveRequest me m).1 = .error e ∧ e.unsettled = false ∧ Spent me w (w.reserveRequest me m).2 []) ∨
    ∃ id limit, (w.reserveRequest me m).1 = .ok limit ∧ Holding me id limit w (w.reserveRequest me m).2 := by
  unfold Requests.reserveRequest
  split
  · exact .inl ⟨_, rfl, by decide, (Moved.refl hw).spent hidle⟩
  next budgetId hbudget =>
  rw [if_neg (by simp [hidle])]
  dsimp only
  split
  · next e hroom =>
    refine .inl ⟨_, rfl, unsettled_budget ?_, (Moved.refl hw).spent hidle⟩
    split at hroom
    · exact requireBacklogRoom_error hroom
    · cases hroom
  next L hroom =>
  have hL : Keeps w.ledger L ∧ LedgerOk L := by
    split at hroom
    · have hstep : w.ledger.step (.requireBacklogRoom budgetId m.queued m.now) = .ok L := hroom
      exact ⟨requireBacklogRoom_keeps hw.ledger hroom, ledger_step hw.ledger hstep⟩
    · cases hroom
      exact ⟨keeps_of_same rfl rfl, hw.ledger⟩
  obtain ⟨hkeeps, hok⟩ := hL
  have hroomed : Moved me w { w with ledger := L } :=
    ⟨⟨hok, fun n id hn => Nat.le_trans (hw.held n id hn) hkeeps.seq⟩, hkeeps.later hw.ledger, rfl, rfl,
      fun id hid hn => ⟨hkeeps.rows id hid, hn⟩⟩
  have hmoved := hroomed.trans (peers_moved hroomed.sound m.between)
  generalize Requests.peers me { w with ledger := L } m.between = v at hmoved
  split
  · next e hreserve => exact .inl ⟨_, rfl, unsettled_budget (reserveRequest_error hreserve), hmoved.spent hidle⟩
  · next id limit M hreserve =>
    obtain ⟨hid, hseq, hpos, hkeeps', hrow⟩ := reserveRequest_row hmoved.sound.ledger hreserve
    have hheld : ∀ n, n ≠ me → (v.runners n).requestReservation ≠ some id := by
      intro n _ heq
      have := hmoved.sound.held n id heq
      omega
    refine .inr ⟨id, limit, rfl, ⟨reserveRequest_ok hmoved.sound.ledger hreserve, fun n k hn => ?_⟩,
      hmoved.later.trans (hkeeps'.later hmoved.sound.ledger), ⟨?_, Nat.le_of_eq hseq.symm⟩, hpos, ?_, fun n hn => ?_,
      hrow, ?_⟩
    · change k ≤ M.reservationSeq
      by_cases hnm : n = me
      · subst hnm
        rw [setRunner_self] at hn
        cases hn
        omega
      · rw [setRunner_ne _ _ hnm] at hn
        have := hmoved.sound.held n k hn
        omega
    · have := hmoved.later.seq
      omega
    · rw [setRunner_self]
    · rw [setRunner_ne _ _ hn]
      exact hheld n hn
    · change v.calls ++ _ = _
      rw [hmoved.calls]

/-- The settlement of a held reservation goes through for every count within the reserved bytes. -/
theorem finishRequest_spec {v : Requests} {id : Nat} {limit : Int} (h : Holding me id limit w v) {received : Int}
    (h0 : 0 ≤ received) (hle : received ≤ limit + min 65536 limit) :
    (v.finishRequest me received).1 = .ok () ∧ Spent me w (v.finishRequest me received).2 [⟨id, limit, received⟩] := by
  obtain ⟨r, hrow, hnone, hreserved⟩ := h.written
  obtain ⟨hsettle, hrow'⟩ := settleRequest_own hrow hnone h0 (by omega)
  unfold Requests.finishRequest
  rw [h.mine]
  dsimp only
  rw [hsettle]
  refine ⟨rfl, ⟨settleRequest_ok h.sound.ledger hsettle, fun n k hn => ?_⟩, ?_, h.later.trans (settleRequest_later hsettle),
    ?_, fun x hx => ?_, List.pairwise_singleton _ _, fun x hx => ?_⟩
  · refine Nat.le_trans ?_ (settleRequest_later hsettle).seq
    by_cases hnm : n = me
    · subst hnm
      rw [setRunner_self] at hn
      cases hn
    · rw [setRunner_ne _ _ hnm] at hn
      exact h.sound.held n k hn
  · rw [setRunner_self]
  · change v.calls ++ _ = _
    rw [h.calls]
    simp [Exchange.calls]
  · rw [List.mem_singleton.mp hx]
    exact ⟨h.fresh.1, Nat.le_trans h.fresh.2 (settleRequest_later hsettle).seq⟩
  · rw [List.mem_singleton.mp hx]
    exact ⟨h.positive, h0, _, hrow', hreserved, by dsimp only; omega, rfl⟩

/-- How many attempts a result lists. -/
def tried (last : Option HttpFetchResult) : Nat := ((last.map (·.attempts)).getD []).length

/-- How an attempt leaves the loop or goes on. -/
inductive AttemptOk (budgeted : Bool) (last : Option HttpFetchResult) (xs : List Exchange) : Handled → Prop
  | hook {e : HookError} : e.unsettled = false → AttemptOk budgeted last xs (.leaves (.hook e))
  | raised (e : Raised) : AttemptOk budgeted last xs (.leaves (.raised e))
  | returned {result : HttpFetchResult} : last = some result → AttemptOk budgeted last xs (.leaves (.returned result))
  | continues {result : HttpFetchResult} (listed : result.attempts.length = tried last + 1)
      (body : budgeted = true → ∃ x, xs = [x] ∧ ∀ b, result.body = some b → (b.length : Int) ≤ x.limit) :
      AttemptOk budgeted last xs (.continues result)

theorem attempt_spec (hw : Sound w) (hidle : (w.runners me).requestReservation = none) (url : String) (budgeted : Bool)
    (a : Attempt) (n : Nat) (last : Option HttpFetchResult) :
    ∃ xs, Spent me w (w.attempt me url budgeted a n last).2 xs ∧ xs.length ≤ 1 ∧
      AttemptOk budgeted last xs (w.attempt me url budgeted a n last).1 := by
  unfold Requests.attempt
  dsimp only
  cases budgeted with
  | false =>
    have hreturns : ∀ result, (guarded none a last).2 = .ok (.returns result) → last = some result :=
      fun _ h => guarded_returns h
    have hspec := handled_spec a url n (guarded none a last).1 false ((last.map (·.attempts)).getD []) hreturns
    refine ⟨[], (peers_moved hw a.held).spent hidle, by simp, ?_⟩
    simp only [Requests.settled, Bool.false_eq_true, if_false]
    rcases hspec with ⟨result, hlast, hh⟩ | ⟨e, hh⟩ | ⟨result, hh, hlisted, _⟩
    · rw [hh]
      exact .returned hlast
    · rw [hh]
      exact .raised e
    · rw [hh]
      exact .continues hlisted nofun
  | true =>
    simp only [if_true]
    rcases reserveRequest_spec hw hidle a.moment with ⟨e, herr, hun, hspent⟩ | ⟨id, limit, hok, hholding⟩
    · rw [herr]
      exact ⟨[], hspent, by simp, .hook hun⟩
    · rw [hok]
      have hheld := hholding.moved (peers_moved hholding.sound a.held)
      have hreceived : ((guarded (some limit) a last).1 : Int) ≤ limit + min 65536 limit :=
        guarded_received hholding.positive
      obtain ⟨hfinish, hspent⟩ := finishRequest_spec hheld (Int.natCast_nonneg _) hreceived
      have hreturns : ∀ result, (guarded (some limit) a last).2 = .ok (.returns result) → last = some result :=
        fun _ h => guarded_returns h
      have hspec := handled_spec a url n (guarded (some limit) a last).1 true ((last.map (·.attempts)).getD []) hreturns
      refine ⟨[⟨id, limit, (guarded (some limit) a last).1⟩], ?_, by simp, ?_⟩
      · simp only [Except.map, Requests.settled, if_true]
        split
        · next hpair => rwa [hpair] at hspent
        · next hpair => rwa [hpair] at hspent
      · simp only [Except.map, Requests.settled, if_true]
        split
        swap
        · next hpair =>
          rw [hpair] at hfinish
          cases hfinish
        · rcases hspec with ⟨result, hlast, hh⟩ | ⟨e, hh⟩ | ⟨result, hh, hlisted, hbody⟩
          · rw [hh]
            exact .returned hlast
          · rw [hh]
            exact .raised e
          · rw [hh]
            refine .continues hlisted fun _ => ⟨_, rfl, fun b hb => ?_⟩
            obtain ⟨r, hg⟩ := hbody b hb
            exact guarded_completes hholding.positive hg

/-! ## The whole request -/

/-- The body of a budgeted result keeps the limit of the exchange that it was read under. A result lists its attempts, the
last of which has read the body; `earlier` of them came before these exchanges, and each of the others has its own. -/
def Within (budgeted : Bool) (earlier : Nat) (xs : List Exchange) (result : HttpFetchResult) : Prop :=
  budgeted = true → ∀ b, result.body = some b → ∃ before x later, xs = before ++ x :: later ∧
    result.attempts.length = earlier + before.length + 1 ∧ (b.length : Int) ≤ x.limit

theorem attemptLoop_spec (url : String) (budgeted : Bool) (script : Nat → Attempt) (remaining n : Nat)
    (last : Option HttpFetchResult) (hw : Sound w) (hidle : (w.runners me).requestReservation = none) :
    ∃ xs, Spent me w (w.attemptLoop me url budgeted script remaining n last).2 xs ∧ xs.length ≤ remaining ∧
      (∀ e, (w.attemptLoop me url budgeted script remaining n last).1 = .hook e → e.unsettled = false) ∧
      (∀ result, (w.attemptLoop me url budgeted script remaining n last).1 = .returned result →
        last = some result ∨ Within budgeted (tried last) xs result) ∧
      ((w.attemptLoop me url budgeted script remaining n last).1 = .unreachable → remaining = 0) := by
  induction remaining generalizing n last w with
  | zero => exact ⟨[], (Moved.refl hw).spent hidle, by simp, nofun, nofun, fun _ => rfl⟩
  | succ remaining ih =>
    unfold Requests.attemptLoop
    dsimp only
    split
    · split
      · exact ⟨[], (Moved.refl hw).spent hidle, by simp, nofun, fun _ h => .inl (by cases h; rfl), nofun⟩
      · exact ⟨[], (Moved.refl hw).spent hidle, by simp, nofun, nofun, nofun⟩
    · obtain ⟨xs, hspent, hlen, hok⟩ := attempt_spec hw hidle url budgeted (script n) n last
      generalize w.attempt me url budgeted (script n) n last = out at hspent hok
      obtain ⟨h, v⟩ := out
      cases hok with
      | hook hun => exact ⟨xs, hspent, by omega, fun _ h => by cases h; exact hun, nofun, nofun⟩
      | raised e => exact ⟨xs, hspent, by omega, nofun, nofun, nofun⟩
      | returned hlast => exact ⟨xs, hspent, by omega, nofun, fun _ h => by cases h; exact .inl hlast, nofun⟩
      | @continues result hlisted hbody =>
        have hown : Within budgeted (tried last) xs result := by
          intro hbudgeted b hb
          obtain ⟨x, rfl, hle⟩ := hbody hbudgeted
          exact ⟨[], x, [], rfl, hlisted, hle b hb⟩
        dsimp only
        split
        · exact ⟨xs, hspent, by omega, nofun, nofun, nofun⟩
        · split
          · exact ⟨xs, hspent, by omega, nofun, fun _ h => by cases h; exact .inr hown, nofun⟩
          · split
            · exact ⟨xs, hspent, by omega, nofun, fun _ h => by cases h; exact .inr hown, nofun⟩
            next hmore =>
            -- the next attempt starts where this one left the ledger, with its result at hand
            obtain ⟨ys, hrest, hlen', hhook, hreturned, hstuck⟩ := ih (n + 1) (some result) hspent.sound hspent.idle
            refine ⟨xs ++ ys, hspent.trans hrest, ?_, hhook, fun r hr => ?_, fun hunreachable => ?_⟩
            · rw [List.length_append]
              omega
            · right
              intro hbudgeted b hb
              rcases hreturned r hr with hlast | hwithin
              · cases hlast
                obtain ⟨before, x, later, rfl, hlength, hle⟩ := hown hbudgeted b hb
                exact ⟨before, x, later ++ ys, by simp, hlength, hle⟩
              · obtain ⟨before, x, later, rfl, hlength, hle⟩ := hwithin hbudgeted b hb
                obtain ⟨y, rfl, _⟩ := hbody hbudgeted
                refine ⟨y :: before, x, later, by simp, ?_, hle⟩
                have htried : tried (some result) = tried last + 1 := hlisted
                rw [List.length_cons]
                omega
            · simp [hstuck hunreachable] at hmore

theorem request_spec (hw : Sound w) (hidle : (w.runners me).requestReservation = none) (reserves finishes : Bool)
    (maxRetries : Nat) (url : String) (script : Nat → Attempt) :
    ∃ xs, Spent me w (w.request me reserves finishes maxRetries url script).2 xs ∧ xs.length ≤ maxRetries + 1 ∧
      (∀ e, (w.request me reserves finishes maxRetries url script).1 = .hook e → e.unsettled = false) ∧
      (∀ result, (w.request me reserves finishes maxRetries url script).1 = .returned result →
        Within reserves 0 xs result) ∧
      (w.request me reserves finishes maxRetries url script).1 ≠ .unreachable := by
  unfold Requests.request
  split
  · exact ⟨[], (Moved.refl hw).spent hidle, by simp, nofun, nofun, nofun⟩
  · obtain ⟨xs, hspent, hlen, hhook, hreturned, hstuck⟩ :=
      attemptLoop_spec url reserves script (maxRetries + 1) 1 none hw hidle
    refine ⟨xs, hspent, hlen, hhook, fun result hr => ?_, fun h => absurd (hstuck h) (by omega)⟩
    exact (hreturned result hr).resolve_left nofun

end Attempts

/-- Between its requests the runner holds nothing. -/
theorem runner_idle {me : Nat} {w : Requests} (h : Reachable (runnerSystem me) w) :
    Sound w ∧ (w.runners me).requestReservation = none := by
  refine Reachable.invariant (I := fun w => Sound w ∧ (w.runners me).requestReservation = none) ?_ ?_ h
  · rintro w rfl
    exact ⟨⟨ledgerOk_of_reachable (.start rfl), nofun⟩, rfl⟩
  · rintro w ev w' ⟨hw, hidle⟩ hstep
    cases ev with
    | peer p =>
      cases hstep
      have hm : Moved me w (w.peer me p) := peer_moved hw p
      exact ⟨hm.sound, by rw [hm.runner]; exact hidle⟩
    | startJob budgetId deferNormalization =>
      cases hstep
      refine ⟨⟨hw.ledger, fun n id hn => ?_⟩, by rw [setRunner_self]; exact hidle⟩
      by_cases hnm : n = me
      · subst hnm
        rw [setRunner_self] at hn
        exact hw.held n id hn
      · rw [setRunner_ne _ _ hnm] at hn
        exact hw.held n id hn
    | endJob =>
      cases hstep
      refine ⟨⟨hw.ledger, fun n id hn => ?_⟩, by rw [setRunner_self]; rfl⟩
      by_cases hnm : n = me
      · subst hnm
        rw [setRunner_self] at hn
        cases hn
      · rw [setRunner_ne _ _ hnm] at hn
        exact hw.held n id hn
    | request reserves finishes maxRetries url script =>
      cases hstep
      obtain ⟨xs, hspent, _⟩ := request_spec hw hidle reserves finishes maxRetries url script
      exact ⟨hspent.sound, hspent.idle⟩

/-- In every state that a runner reaches beside any others, for every script of the transport, the clock, the
stop flag and the other runners, a request calls its hooks in exchanges: each reservation is followed by its own
settlement, which the ledger accepts with between 0 and the reserved bytes and records. There are at most
`max_retries + 1` of them, no hook reports an unsettled, missing or excessive reservation, and a returned body
keeps the limit of the reservation it was read under. -/
theorem reservations_settled_once {me : Nat} {w : Requests} (h : Reachable (runnerSystem me) w)
    (reserves finishes : Bool) (maxRetries : Nat) (url : String) (script : Nat → Attempt) :
    ∃ exit w', w.request me reserves finishes maxRetries url script = (exit, w') ∧
      (w'.runners me).requestReservation = none ∧ exit ≠ .unreachable ∧
      (∀ e, exit = .hook e →
        e ≠ .runtime "Previous request reservation is unsettled" ∧ e ≠ .runtime "Provider response has no reserved work" ∧
        e ≠ .budget (.valueError "Consumed bytes exceed the reserved bounded read allowance")) ∧
      ∃ xs : List Exchange, w'.calls = w.calls ++ xs.flatMap Exchange.calls ∧ xs.length ≤ maxRetries + 1 ∧
        xs.Pairwise (fun x y => x.reservationId < y.reservationId) ∧
        (∀ x ∈ xs, w.ledger.reservationSeq < x.reservationId ∧ x.Settled w'.ledger) ∧
        ∀ result, exit = .returned result → Within reserves 0 xs result := by
  obtain ⟨hw, hidle⟩ := runner_idle h
  obtain ⟨xs, hspent, hlen, hhook, hreturned, hreach⟩ := request_spec hw hidle reserves finishes maxRetries url script
  refine ⟨_, _, rfl, hspent.idle, hreach, fun e he => ?_, xs, hspent.calls, hlen, hspent.ascending,
    fun x hx => ⟨(hspent.fresh x hx).1, hspent.settled x hx⟩, hreturned⟩
  have hun := hhook e he
  simp only [HookError.unsettled, Bool.or_eq_false_iff, decide_eq_false_iff_not] at hun
  exact ⟨hun.1.1, hun.1.2, hun.2⟩

/-- A server error of one byte, then a response whose second slice passes the limit. -/
def overshoots (n : Nat) : Attempt where
  stopsBefore := false
  moment := ⟨0, 0, []⟩
  held := [.finish 1 0]
  prepared := .ready
  stopsReserved := false
  transport := .responds ⟨if n = 1 then 503 else 200, "u", [], [[1], if n = 1 then [] else [2, 3]], none, none⟩
  late _ := false
  errorLate := false
  persistFails := false
  stopsAfter := false
  stopsSlept := false

/-- A budget of three bytes: each attempt has a limit of one byte and one byte of headroom. -/
def narrow : BudgetPolicy where
  value f := if f = .jobMax .remoteBytes then 3 else defaultValue f
  valid f := by
    have := BudgetPolicy.default.valid f
    split
    · decide
    · exact this

theorem reservations_settled_once_overshooting :
    ∃ w, Reachable (runnerSystem 0) w ∧ ∃ w', w.request 0 true true 1 "u" overshoots =
        (.raised (.responseTooLarge 1 2 (some 200)), w') ∧
      w'.calls = [.reserved 1 1, .finished 1 1, .reserved 2 1, .finished 2 2] ∧
      ∃ xs : List Exchange, w'.calls = w.calls ++ xs.flatMap Exchange.calls ∧ ∀ x ∈ xs, x.Settled w'.ledger := by
  let w : Requests := ((Requests.mk .empty (fun _ => .idle) []).peer 0
    (.ledger (.ensureJobBudget ⟨5, 7, none, none⟩ narrow 0 0))).setRunner 0 ⟨some 1, none, false, 0⟩
  have hw : Reachable (runnerSystem 0) w := by
    refine .next (e := .startJob 1 false) (.next (e := .peer (.ledger (.ensureJobBudget ⟨5, 7, none, none⟩ narrow 0 0)))
      (.start rfl) trivial rfl) trivial ?_
    rfl
  obtain ⟨exit, w', heq, _, _, _, xs, hcalls, _, _, hsettled, _⟩ := reservations_settled_once hw true true 1 "u" overshoots
  have hexit : (w.request 0 true true 1 "u" overshoots).1 = .raised (.responseTooLarge 1 2 (some 200)) := by
    decide +kernel
  have hcalls' : (w.request 0 true true 1 "u" overshoots).2.calls =
      [.reserved 1 1, .finished 1 1, .reserved 2 1, .finished 2 2] := by
    decide +kernel
  rw [heq] at hexit hcalls'
  exact ⟨w, hw, w', heq.trans (by rw [← hexit]), hcalls', xs, hcalls, fun x hx => (hsettled x hx).2⟩

end ChessCrawl.Acquisition
