import ChessCrawl.Events.Delivery

/-! Per-resource delivery over whole runs: accepted revisions never go back, repeat only in a row, and
leave out only revisions that a session wrote with delivery disabled. -/
namespace ChessCrawl.Events
open ChessCrawl.Lib
set_option autoImplicit false

/-! ## Sessions -/

/-- Open transactions of two sessions write different rows and have different event ids. -/
def Compatible (x y : Session) : Prop :=
  ∀ t u, x.txn = some t → y.txn = some u → ∀ w ∈ t.writes, ∀ v ∈ u.writes,
    w.resource ≠ v.resource ∧ ∀ id, w.event = some id → v.event ≠ some id

theorem Compatible.symm {x y : Session} (h : Compatible x y) : Compatible y x := by
  intro t u ht hu w hw v hv
  obtain ⟨hres, hid⟩ := h u t hu ht v hv w hw
  exact ⟨fun heq => hres heq.symm, fun id hw' hv' => hid id hv' hw'⟩

def SessionOk (db : Db) (seq : Nat) (x : Session) : Prop := ∀ t, x.txn = some t → WritesOk db seq t.writes

/-- The triggers extend the revision that the transaction sees. -/
theorem trigger_ok {db : Db} {seq : Nat} {acc : List (Resource × Nat)} (h : DbOk db seq acc) (enabled : Bool)
    (r : Resource) (columns : Columns) :
    ApplyOk db (seq + 1) (trigger seq enabled r (db.rows r) columns) ∧
      (trigger seq enabled r (db.rows r) columns).resource = r ∧
      ∀ id, (trigger seq enabled r (db.rows r) columns).event = some id →
        id = seq + 1 ∧ (trigger seq enabled r (db.rows r) columns).changed = true := by
  have hfresh : ∀ e ∈ db.outbox, e.id ≠ seq + 1 ∧ (e.resource = r → e.id < seq + 1) := by
    intro e he
    have hle := h.seq e he
    exact ⟨by omega, fun _ => by omega⟩
  have hevent : ∀ {id : Nat}, (if enabled then some (seq + 1) else none) = some id →
      enabled = true ∧ id = seq + 1 := by
    intro id hid
    cases enabled with
    | true =>
      cases hid
      exact ⟨rfl, rfl⟩
    | false => cases hid
  unfold trigger
  split
  · next hrow =>
    refine ⟨⟨fun _ => ?_, (fun hc => nomatch hc), fun id hid => ⟨rfl, (hevent hid).1⟩, fun _ hen => ?_,
      fun id hid => ?_⟩, rfl, fun id hid => ⟨(hevent hid).2, rfl⟩⟩
    · show 1 = db.revision r + 1
      unfold Db.revision
      rw [hrow]
      rfl
    · exact ⟨seq + 1, if_pos hen⟩
    · rw [(hevent hid).2]
      exact ⟨Nat.le_refl _, hfresh⟩
  · next row hrow =>
    split
    · exact ⟨⟨(fun hc => nomatch hc), fun _ => ⟨row, hrow, rfl⟩, (fun id hid => nomatch hid),
        (fun hc => nomatch hc), (fun id hid => nomatch hid)⟩, rfl, (fun id hid => nomatch hid)⟩
    · refine ⟨⟨fun _ => ?_, (fun hc => nomatch hc), fun id hid => ⟨rfl, (hevent hid).1⟩, fun _ hen => ?_,
        fun id hid => ?_⟩, rfl, fun id hid => ⟨(hevent hid).2, rfl⟩⟩
      · show row.revision + 1 = db.revision r + 1
        rw [revision_of_row hrow]
      · exact ⟨seq + 1, if_pos hen⟩
      · rw [(hevent hid).2]
        exact ⟨Nat.le_refl _, hfresh⟩

theorem not_locked {others : List Session} {r : Resource} (h : ¬ locked others r = true) {y : Session}
    (hy : y ∈ others) {u : Txn} (hu : y.txn = some u) {v : Write} (hv : v ∈ u.writes) : v.resource ≠ r := by
  intro heq
  refine h (List.any_eq_true.mpr ⟨y, hy, ?_⟩)
  rw [hu]
  exact List.any_eq_true.mpr ⟨v, hv, decide_eq_true heq⟩

/-! ## The invariant -/

structure Inv (s : State) : Prop where
  db : DbOk s.db s.seq s.accepted
  apart : Apart Compatible s.sessions
  sessions : ∀ (i : Nat) (x : Session), s.sessions[i]? = some x → SessionOk s.db s.seq x
  publisher : PhaseOk s.db s.accepted s.publisher

/-- A change of the outbox that adds no events leaves the open transactions justified. -/
theorem SessionOk.reoutbox {db : Db} {seq : Nat} {outbox : List EventRow} {x : Session} (h : SessionOk db seq x)
    (hback : ∀ e ∈ outbox, ∃ f ∈ db.outbox, f.id = e.id ∧ f.resource = e.resource) :
    SessionOk { db with outbox := outbox } seq x :=
  fun t ht => (h t ht).frame ⟨fun _ _ => rfl, fun e he => .inl (hback e he)⟩

/-- The writes of a session keep those of the others justified when they are committed. -/
theorem SessionOk.after {db : Db} {seq : Nat} {x y : Session} {t : Txn} (hy : SessionOk db seq y)
    (hxy : Compatible x y) (ht : x.txn = some t) : SessionOk (db.after t.writes) seq y := by
  intro u hu
  refine (hy u hu).frame ⟨fun v hv => ?_, fun e he => ?_⟩
  · exact after_rows_ne fun w hw heq => (hxy t u ht hu w hw v hv).1 heq.symm
  · rcases mem_after_outbox he with hold | ⟨w, hw, hid, hres⟩
    · exact .inl ⟨e, hold, rfl, rfl⟩
    · refine .inr fun v hv => ?_
      obtain ⟨hne, hev⟩ := hxy t u ht hu w hw v hv
      rw [hres]
      exact ⟨hne, hev e.id hid⟩

/-- Replacing one session by one that is compatible with the others and justified. -/
theorem Inv.replace {s : State} (h : Inv s) {i : Nat} {x' : Session} {db : Db} {seq : Nat}
    (hdb : DbOk db seq s.accepted) (hphase : PhaseOk db s.accepted s.publisher)
    (hx' : SessionOk db seq x') (hapart : ∀ y ∈ s.sessions.eraseIdx i, Compatible x' y)
    (hothers : ∀ j y, s.sessions[j]? = some y → j ≠ i → SessionOk db seq y) :
    Inv { s with db := db, seq := seq, sessions := s.sessions.set i x' } := by
  refine ⟨hdb, h.apart.set (fun _ _ => Compatible.symm) hapart, fun j y hy => ?_, hphase⟩
  rcases getElem?_set_cases hy with ⟨rfl, rfl⟩ | ⟨hne, hy⟩
  · exact hx'
  · exact hothers j y hy hne

/-- A session whose transaction only lost writes. -/
theorem Inv.shrink {s : State} (h : Inv s) {i : Nat} {x x' : Session} (hx : s.sessions[i]? = some x)
    (hshrink : ∀ t', x'.txn = some t' → t'.writes = [] ∨
      ∃ t n, x.txn = some t ∧ t'.writes = t.writes.take n) :
    Inv { s with sessions := s.sessions.set i x' } := by
  refine h.replace h.db h.publisher (fun t' ht' => ?_) (fun y hy => ?_) fun j y hy _ => h.sessions j y hy
  · rcases hshrink t' ht' with hnil | ⟨t, n, ht, heq⟩
    · rw [hnil]
      trivial
    · rw [heq]
      exact (h.sessions i x hx t ht).take n
  · intro t' u ht' hu w hw
    rcases hshrink t' ht' with hnil | ⟨t, n, ht, heq⟩
    · rw [hnil] at hw
      exact absurd hw List.not_mem_nil
    · rw [heq] at hw
      exact h.apart.of_mem_eraseIdx hx hy t u ht hu w (List.mem_of_mem_take hw)

theorem inv_write {s : State} (h : Inv s) {i : Nat} {x : Session} {t : Txn} (hx : s.sessions[i]? = some x)
    (ht : x.txn = some t) {r : Resource} (columns : Columns)
    (hfree : ¬ locked (s.sessions.eraseIdx i) r = true) {seq : Nat} (w : Write)
    (hw : w = trigger s.seq x.enabled r ((s.db.after t.writes).rows r) columns)
    (hseq : seq = if w.changed then s.seq + 1 else s.seq) :
    Inv { s with seq := seq,
                 sessions := s.sessions.set i { x with txn := some { t with writes := t.writes ++ [w] } } } := by
  have hview := after_ok h.db (h.sessions i x hx t ht)
  obtain ⟨happly, hres, hevent⟩ := trigger_ok hview x.enabled r columns
  rw [← hw] at happly hres hevent
  have hle : s.seq ≤ seq := by
    rw [hseq]
    split <;> omega
  -- an unchanged row has no event, so its id bound is vacuous
  have happly' : ApplyOk (s.db.after t.writes) seq w := by
    refine { happly with fresh := fun id hid => ?_ }
    obtain ⟨rfl, hc⟩ := hevent id hid
    rw [hseq, if_pos hc]
    exact happly.fresh _ hid
  refine h.replace (h.db.mono hle) h.publisher ?_ (fun y hy => ?_) fun j y hy _ u hu => (h.sessions j y hy u hu).mono hle
  · intro t' ht'
    cases ht'
    exact ((h.sessions i x hx t ht).mono hle).concat happly'
  · intro t' u ht' hu v hv k hk
    cases ht'
    rcases List.mem_append.mp hv with hold | hnew
    · exact h.apart.of_mem_eraseIdx hx hy t u ht hu v hold k hk
    · rw [List.mem_singleton.mp hnew]
      refine ⟨fun heq => not_locked hfree hy hu hk (heq.symm.trans hres), fun id hid hkid => ?_⟩
      obtain ⟨j, _, hj⟩ := List.mem_eraseIdx_iff_getElem?.mp hy
      have hkle := (h.sessions j y hj u hu).event_le hk hkid
      have hid' := (hevent id hid).1
      omega

theorem inv_commit {s : State} (h : Inv s) {i : Nat} {x : Session} {t : Txn} (hx : s.sessions[i]? = some x)
    (ht : x.txn = some t) :
    Inv { s with db := s.db.after t.writes, sessions := s.sessions.set i { x with txn := none } } := by
  have hws := h.sessions i x hx t ht
  refine h.replace (after_ok h.db hws) (h.publisher.after h.db hws) (fun t' ht' => nomatch ht')
    (fun y _ t' _ ht' => nomatch ht') fun j y hy hne => ?_
  exact (h.sessions j y hy).after (h.apart i j x y hx hy (Ne.symm hne)) ht

theorem inv_act {s : State} {i : Nat} {x x' : Session} {a : Act} {db : Db} {seq : Nat} (h : Inv s)
    (hx : s.sessions[i]? = some x) (hact : x.act s.db s.seq (s.sessions.eraseIdx i) a = some (x', db, seq)) :
    Inv { s with db := db, seq := seq, sessions := s.sessions.set i x' } := by
  cases a with
  | begin =>
    simp only [Session.act] at hact
    split at hact
    · cases hact
      refine h.shrink hx fun t' ht' => .inl ?_
      cases ht'
      rfl
    · cases hact
  | write r columns =>
    simp only [Session.act] at hact
    split at hact
    · next t ht =>
      split at hact
      · cases hact
      · next hfree =>
        cases hact
        exact inv_write h hx ht columns hfree _ rfl rfl
    · cases hact
  | savepoint =>
    simp only [Session.act] at hact
    split at hact
    · next t ht =>
      cases hact
      refine h.shrink hx fun t' ht' => .inr ⟨t, t.writes.length, ht, ?_⟩
      cases ht'
      exact (List.take_length).symm
    · cases hact
  | rollbackTo =>
    simp only [Session.act] at hact
    split at hact
    · next writes n savepoints ht =>
      cases hact
      refine h.shrink hx fun t' ht' => .inr ⟨_, n, ht, ?_⟩
      cases ht'
      rfl
    · cases hact
  | release =>
    simp only [Session.act] at hact
    split at hact
    · next writes n savepoints ht =>
      cases hact
      refine h.shrink hx fun t' ht' => .inr ⟨_, writes.length, ht, ?_⟩
      cases ht'
      exact (List.take_length).symm
    · cases hact
  | commit =>
    simp only [Session.act] at hact
    split at hact
    · next t ht =>
      cases hact
      exact inv_commit h hx ht
    · cases hact
  | rollback =>
    simp only [Session.act] at hact
    split at hact
    · cases hact
      exact h.shrink hx fun t' ht' => nomatch ht'
    · cases hact

theorem inv_publish {s s' : State} {a : PublisherAct} (h : Inv s) (hact : s.publish a = some s') : Inv s' := by
  cases a with
  | pick now =>
    simp only [State.publish] at hact
    split at hact
    · next e hidle hnext =>
      split at hact
      · cases hact
        exact ⟨h.db, h.apart, h.sessions, picked_of_next h.db hnext⟩
      · cases hact
    · cases hact
  | publish accepted succeeded =>
    simp only [State.publish] at hact
    split at hact
    · next e hphase =>
      have hp := h.publisher
      rw [hphase] at hp
      split at hact
      · cases hact
      · next hok =>
        cases hact
        cases accepted with
        | true =>
          refine ⟨accept_ok h.db hp, h.apart, h.sessions, Picked.accept hp _, fun _ => ?_⟩
          exact List.mem_append_right _ (List.mem_singleton.mpr rfl)
        | false =>
          refine ⟨h.db, h.apart, h.sessions, hp, fun hs => ?_⟩
          rw [hs] at hok
          exact absurd rfl hok
    · cases hact
  | acknowledge now =>
    simp only [State.publish] at hact
    split at hact
    · next e hphase =>
      have hp := h.publisher
      rw [hphase] at hp
      cases hact
      refine ⟨acknowledge_ok h.db hp.1 (hp.2 rfl) now, h.apart, fun i x hx => ?_, trivial⟩
      refine (h.sessions i x hx).reoutbox fun g hg => ?_
      obtain ⟨f, hf, rfl⟩ := List.mem_map.mp hg
      refine ⟨f, hf, ?_⟩
      split <;> exact ⟨rfl, rfl⟩
    · cases hact
  | defer next =>
    simp only [State.publish] at hact
    split at hact
    · cases hact
      refine ⟨defer_ok h.db _ next, h.apart, fun i x hx => ?_, trivial⟩
      refine (h.sessions i x hx).reoutbox fun g hg => ?_
      obtain ⟨f, hf, rfl⟩ := List.mem_map.mp hg
      refine ⟨f, hf, ?_⟩
      split <;> exact ⟨rfl, rfl⟩
    · cases hact
  | prune before limit =>
    simp only [State.publish] at hact
    split at hact
    · next hidle =>
      cases hact
      refine ⟨prune_ok h.db before limit, h.apart, fun i x hx => ?_, ?_⟩
      · exact (h.sessions i x hx).reoutbox fun g hg => ⟨g, (List.mem_filter.mp hg).1, rfl, rfl⟩
      · rw [hidle]
        trivial
    · cases hact
  | crash =>
    cases hact
    exact ⟨h.db, h.apart, h.sessions, trivial⟩

theorem inv_step (s : State) (e : Event) (s' : State) (h : Inv s) (hstep : step s e = some s') : Inv s' := by
  cases e with
  | connect enabled =>
    cases hstep
    refine ⟨h.db, h.apart.append (fun _ _ => Compatible.symm) ?_, fun i x hx => ?_, h.publisher⟩
    · exact fun y _ t u ht => nomatch ht
    · change (s.sessions ++ [(⟨enabled, none⟩ : Session)])[i]? = some x at hx
      rw [List.getElem?_append] at hx
      split at hx
      · exact h.sessions i x hx
      · rw [List.mem_singleton.mp (List.mem_of_getElem? hx)]
        exact fun t ht => nomatch ht
  | act i a =>
    obtain ⟨x, hx, hrest⟩ := Option.bind_eq_some_iff.mp hstep
    obtain ⟨⟨x', db, seq⟩, hact, heq⟩ := Option.bind_eq_some_iff.mp hrest
    cases heq
    exact inv_act h hx hact
  | publisher a => exact inv_publish h hstep

theorem inv_init (s : State) (h : delivery.init s) : Inv s := by
  obtain ⟨houtbox, hhistory, hsessions, hidle, hacc, hrows⟩ := h
  refine ⟨?_, ?_, ?_, ?_⟩
  · refine ⟨?_, ?_, ?_, ?_, ?_, ?_, ?_, ?_, ?_, ?_, ?_, ?_, ?_⟩
    · rw [houtbox]
      exact List.nodup_nil
    · rw [houtbox]
      exact fun _ hmem => absurd hmem List.not_mem_nil
    · rw [houtbox]
      exact fun _ hmem => absurd hmem List.not_mem_nil
    · rw [houtbox]
      exact fun _ hmem => absurd hmem List.not_mem_nil
    · intro r row hrow k hk hle
      rw [hrows r row hrow] at hle
      omega
    · rw [hhistory]
      exact fun _ _ _ hmem => absurd hmem List.not_mem_nil
    · rw [hacc]
      exact fun _ _ hmem => absurd hmem List.not_mem_nil
    · rw [hhistory]
      exact fun _ _ hmem => absurd hmem List.not_mem_nil
    · rw [houtbox]
      exact fun _ hmem => absurd hmem List.not_mem_nil
    · rw [hacc]
      exact fun _ => List.Pairwise.nil
    · rw [hacc]
      exact fun _ _ hmem => absurd hmem List.not_mem_nil
    · rw [houtbox]
      exact fun _ hmem => absurd hmem List.not_mem_nil
    · rw [hacc]
      exact fun _ _ hmem => absurd hmem List.not_mem_nil
  · intro i j x y hx
    rw [hsessions] at hx
    cases hx
  · intro i x hx
    rw [hsessions] at hx
    cases hx
  · rw [hidle]
    trivial

theorem inv_of_reachable {s : State} (h : Reachable delivery s) : Inv s :=
  Reachable.invariant inv_init inv_step h

/-! ## Delivery in every run -/

/-- In a nondecreasing list equal entries stand in a row. -/
theorem repeats_in_row {l : List Nat} (h : l.Pairwise (· ≤ ·)) {i j k n : Nat} (hi : l[i]? = some n)
    (hk : l[k]? = some n) (hij : i ≤ j) (hjk : j ≤ k) : l[j]? = some n := by
  obtain ⟨hilt, hival⟩ := List.getElem?_eq_some_iff.mp hi
  obtain ⟨hklt, hkval⟩ := List.getElem?_eq_some_iff.mp hk
  have hjlt : j < l.length := by omega
  have hle : l[i] ≤ l[j] := h.sortedLE.getElem_le_getElem_of_le hij
  have hge : l[j] ≤ l[k] := h.sortedLE.getElem_le_getElem_of_le hjk
  rw [List.getElem?_eq_getElem hjlt]
  exact congrArg some (by omega)

/-- The least entry of a nondecreasing list is its first. -/
theorem head_le {l : List Nat} (h : l.Pairwise (· ≤ ·)) {n k : Nat} (hn : l.head? = some n) (hk : k ∈ l) :
    n ≤ k := by
  cases l with
  | nil => cases hn
  | cons a l =>
    cases hn
    rcases List.mem_cons.mp hk with rfl | hin
    · exact Nat.le_refl _
    · exact (List.pairwise_cons.mp h).1 k hin

/-- The revisions that a run has accepted for a resource: in order, repeated only in a row, and without
a gap except where the revision was written with delivery disabled. -/
theorem delivery_ordered {s : State} (h : Reachable delivery s) (r : Resource) :
    (revisionsOf s.accepted r).Pairwise (· ≤ ·) ∧
    (∀ i j k n : Nat, (revisionsOf s.accepted r)[i]? = some n → (revisionsOf s.accepted r)[k]? = some n →
      i ≤ j → j ≤ k → (revisionsOf s.accepted r)[j]? = some n) ∧
    (∀ n, (revisionsOf s.accepted r).head? = some n → n = 1 ∨ (r, 1, false) ∈ s.db.history) ∧
    (∀ n ∈ revisionsOf s.accepted r, ∀ k, 1 ≤ k → k < n →
      k ∈ revisionsOf s.accepted r ∨ (r, k, false) ∈ s.db.history) ∧
    ((∀ k b, (r, k, b) ∈ s.db.history → b = true) →
      (∀ n, (revisionsOf s.accepted r).head? = some n → n = 1) ∧
      ∀ n ∈ revisionsOf s.accepted r, ∀ k, 1 ≤ k → k < n → k ∈ revisionsOf s.accepted r) := by
  have hinv := inv_of_reachable h
  have hsorted := hinv.db.sorted r
  have hgaps : ∀ n ∈ revisionsOf s.accepted r, ∀ k, 1 ≤ k → k < n →
      k ∈ revisionsOf s.accepted r ∨ (r, k, false) ∈ s.db.history := by
    intro n hn k hk hlt
    rw [mem_revisionsOf]
    exact hinv.db.gaps r n (mem_revisionsOf.mp hn) k hk hlt
  have hstart : ∀ n, (revisionsOf s.accepted r).head? = some n → n = 1 ∨ (r, 1, false) ∈ s.db.history := by
    intro n hn
    have hmem := List.mem_of_mem_head? hn
    have hpos := hinv.db.acceptedPositive r n (mem_revisionsOf.mp hmem)
    by_cases hone : n = 1
    · exact .inl hone
    · rcases hgaps n hmem 1 (Nat.le_refl 1) (by omega) with hin | hgap
      · have hle := head_le hsorted hn hin
        omega
      · exact .inr hgap
  refine ⟨hsorted, fun i j k n => repeats_in_row hsorted, hstart, hgaps, fun hen => ⟨fun n hn => ?_, ?_⟩⟩
  · rcases hstart n hn with hone | hgap
    · exact hone
    · exact absurd (hen 1 false hgap) (by decide)
  · intro n hn k hk hlt
    rcases hgaps n hn k hk hlt with hin | hgap
    · exact hin
    · exact absurd (hen k false hgap) (by decide)

def noRows : State := ⟨⟨fun _ => none, [], []⟩, 0, [], .idle, []⟩

def runOne : Resource := ⟨.run, 1⟩

/-- A transaction of a session that sets the columns of the run. -/
def setStatus (session status : Nat) : List Event :=
  [.act session .begin, .act session (.write runOne (.run status none none)), .act session .commit]

/-- The hub accepts revision 1, the publisher crashes before acknowledging and publishes it again. -/
def redelivered : List Event :=
  List.flatten [
    [.connect true], setStatus 0 1, setStatus 0 2,
    [.publisher (.pick 0), .publisher (.publish true true), .publisher .crash,
      .publisher (.pick 0), .publisher (.publish true true), .publisher (.acknowledge 1),
      .publisher (.pick 1), .publisher (.publish true true), .publisher (.acknowledge 2)]]

theorem delivery_ordered_redelivered : ∃ s, Reachable delivery s ∧
    revisionsOf s.accepted runOne = [1, 1, 2] ∧ (revisionsOf s.accepted runOne).Pairwise (· ≤ ·) := by
  obtain ⟨s, hr, hp⟩ := Reach.of_exec delivery (fun _ _ => True) (s := noRows)
    ⟨rfl, rfl, rfl, rfl, rfl, fun _ _ h => nomatch h⟩ redelivered
    (fun s => decide (revisionsOf s.accepted runOne = [1, 1, 2])) (by decide +kernel)
  exact ⟨s, hr, of_decide_eq_true hp, (delivery_ordered hr runOne).1⟩

/-- Revision 1 is written by a session with delivery disabled, revision 2 by one with delivery enabled. -/
def suppressed : List Event :=
  List.flatten [
    [.connect false, .connect true], setStatus 0 1, setStatus 1 2,
    [.publisher (.pick 0), .publisher (.publish true true)]]

theorem suppressed_revision_skipped : ¬ ∀ s, Reachable delivery s → ∀ r,
    ∀ n ∈ revisionsOf s.accepted r, ∀ k, 1 ≤ k → k < n → k ∈ revisionsOf s.accepted r := by
  intro hclaim
  obtain ⟨s, hr, hp⟩ := Reach.of_exec delivery (fun _ _ => True) (s := noRows)
    ⟨rfl, rfl, rfl, rfl, rfl, fun _ _ h => nomatch h⟩ suppressed
    (fun s => decide (revisionsOf s.accepted runOne = [2])) (by decide +kernel)
  have hlist : revisionsOf s.accepted runOne = [2] := of_decide_eq_true hp
  have hone := hclaim s hr runOne 2 (by rw [hlist]; decide) 1 (by decide) (by decide)
  rw [hlist] at hone
  exact absurd hone (by decide)

end ChessCrawl.Events
