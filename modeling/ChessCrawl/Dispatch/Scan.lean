import ChessCrawl.Dispatch.Hints
import ChessCrawl.Lib.Window
import Mathlib.Data.Prod.Lex
import Mathlib.Data.Int.Order.Basic
import Mathlib.Order.WithBot

/-! The scan of `publish_one` over a static outbox. Each call either moves its cursor over a window, or wraps, or sends;
a weight of the rows that stand before a due hint falls with every call that does not send it. -/
namespace ChessCrawl.Dispatch
open ChessCrawl.Lib
set_option autoImplicit false

/-- The order of the integers that computes. -/
local instance intOrder : Preorder Int := Int.instLinearOrder.toPreorder

/-! ## One call -/

/-- The clocks of a call and the answer of the queue; maintenance runs when it is due. -/
structure PublishCall where
  maintenance : Option (Int × Int)
  now : Int
  failed : Bool
  arrived : Bool
  time : Int
  retention : ∀ m, maintenance = some m → 0 < m.2

/-- No other transaction has a row. -/
def nobody : Nat → Bool := fun _ => false

def Publisher.acts (p : Publisher) (b : Board) : List Act → Option (Publisher × Board)
  | [] => some (p, b)
  | a :: as => (p.act b nobody a).bind fun x => x.1.acts x.2 as

/-- `DispatchMaintenance.run_due` -/
def Publisher.runDue (p : Publisher) (b : Board) (limit : Nat) : Option (Int × Int) → Option (Publisher × Board)
  | none => some (p, b)
  | some (now, retention) => p.acts b [.inspect now retention limit, .reconcile [], .purge [], .commit]

/-- The hint that a transaction has selected. -/
def Publisher.selected (p : Publisher) : Option Nat :=
  match p.phase with
  | .holding t => t.choice.map Prod.fst
  | _ => none

/-- The transaction of `publish_one`. -/
def Publisher.publish (p : Publisher) (b : Board) (limit : Nat) (c : PublishCall) :
    Option (Publisher × Board × Option Nat) :=
  (p.act b nobody (.look c.now limit)).bind fun x =>
    match x.1.phase with
    | .idle => some (x.1, x.2, none)
    | _ => (x.1.acts x.2 [.read, .lock []]).bind fun y =>
      (y.1.acts y.2 (if y.1.selected.isSome then [.send c.failed c.arrived c.time, .commit] else [.commit])).map fun z =>
        (z.1, z.2, y.1.selected)

/-- `publish_one` -/
def Publisher.publishOne (p : Publisher) (b : Board) (limit : Nat) (c : PublishCall) :
    Option (Publisher × Board × Option Nat) :=
  (p.runDue b limit c.maintenance).bind fun x => x.1.publish x.2 limit c

/-- Successive calls, with the hint that each selected. -/
def Publisher.publishAll (p : Publisher) (b : Board) (limit : Nat) : List PublishCall →
    Option (Publisher × Board × List (Option Nat))
  | [] => some (p, b, [])
  | c :: calls => (p.publishOne b limit c).bind fun x =>
    (x.1.publishAll x.2.1 limit calls).map fun y => (y.1, y.2.1, x.2.2 :: y.2.2)

/-! ## Order -/

def Hint.key (h : Hint) : Int ×ₗ Nat := toLex (h.availableAt, h.id)

def position (c : Option Cursor) : WithBot (Int ×ₗ Nat) := c.elim ⊥ fun x => (toLex x : Int ×ₗ Nat)

theorem hintOrder_iff (x y : Hint) : hintOrder x y ↔ x.key ≤ y.key := by
  unfold Hint.key
  rw [Prod.Lex.toLex_le_toLex]
  rfl

instance : Std.Total hintOrder where
  total x y := by
    rw [hintOrder_iff, hintOrder_iff]
    exact le_total _ _

instance : IsTrans Hint hintOrder where
  trans x y z hxy hyz := by
    rw [hintOrder_iff] at hxy hyz ⊢
    exact le_trans hxy hyz

theorem before_iff (c : Option Cursor) (h : Hint) : Cursor.before c h = true ↔ position c < h.key := by
  cases c with
  | none => simp [Cursor.before, position]
  | some x =>
    obtain ⟨time, id⟩ := x
    unfold Cursor.before position Hint.key
    rw [decide_eq_true_eq, Option.elim_some, WithBot.coe_lt_coe, Prod.Lex.toLex_lt_toLex]

/-- The rows that a window is cut from. -/
theorem mem_eligible {outbox : List Hint} {now : Int} {after : Option Cursor} {g : Hint} :
    g ∈ outbox.filter (fun h => h.live && decide (h.availableAt ≤ now) && Cursor.before after h) ↔
      g ∈ outbox ∧ g.live = true ∧ g.availableAt ≤ now ∧ position after < g.key := by
  rw [List.mem_filter, Bool.and_eq_true, Bool.and_eq_true, decide_eq_true_eq, before_iff, and_assoc]

theorem dueWindow_mem {outbox : List Hint} {now : Int} {after : Option Cursor} {limit : Nat} {g : Hint}
    (h : g ∈ dueWindow outbox now after limit) :
    g ∈ outbox ∧ g.live = true ∧ g.availableAt ≤ now ∧ position after < g.key :=
  mem_eligible.mp ((List.mem_insertionSort _).mp (List.mem_of_mem_take h))

/-- A due row behind the cursor is in the window, or behind it. -/
theorem dueWindow_behind {outbox : List Hint} {now : Int} {after : Option Cursor} {limit : Nat} {x g : Hint}
    (hx : x ∈ outbox) (hlive : x.live = true) (hdue : x.availableAt ≤ now) (hafter : position after < x.key)
    (hout : x ∉ dueWindow outbox now after limit) (hg : g ∈ dueWindow outbox now after limit) : g.key ≤ x.key := by
  rw [← hintOrder_iff]
  exact take_insertionSort_le hintOrder (mem_eligible.mpr ⟨hx, hlive, hdue, hafter⟩) hout hg

theorem dueWindow_nonempty {outbox : List Hint} {now : Int} {after : Option Cursor} {limit : Nat} {x : Hint}
    (hlimit : 0 < limit) (hx : x ∈ outbox) (hlive : x.live = true) (hdue : x.availableAt ≤ now)
    (hafter : position after < x.key) : dueWindow outbox now after limit ≠ [] := by
  unfold dueWindow
  intro hnil
  rcases List.take_eq_nil_iff.mp hnil with hzero | hempty
  · omega
  · have hmem := (List.mem_insertionSort hintOrder).mpr (mem_eligible.mpr ⟨hx, hlive, hdue, hafter⟩)
    rw [hempty] at hmem
    cases hmem

/-! ## Transactions -/

section Commit
variable {b : Board} {t : Txn} {g k : Hint}

/-- An id has one row. -/
def Board.Unique (b : Board) : Prop := (b.outbox.map Hint.id).Nodup

theorem Board.Unique.eq (h : b.Unique) (hg : g ∈ b.outbox) (hk : k ∈ b.outbox) (hid : g.id = k.id) : g = k :=
  List.inj_on_of_nodup_map h hg hk hid

/-- What a transaction retires is obsolete, and what it deletes is closed. -/
structure Txn.Careful (t : Txn) (b : Board) : Prop where
  retired : ∀ g ∈ b.outbox, g.id ∈ t.retired → currentDispatch b.jobs g = false
  deleted : ∀ g ∈ b.outbox, g.id ∈ t.deleted → g.live = false

/-- The transaction has sent the hint, or tried to. -/
def Txn.answered (t : Txn) (id : Nat) : Prop := ∃ j o, t.choice = some (id, j, o)

theorem update_unchosen (hret : g.id ∉ t.retired) (hchoice : ¬ t.answered g.id) : t.update g = g := by
  unfold Txn.update Txn.retire Txn.answer
  rw [if_neg hret]
  split
  · next id j time hc =>
    exact if_neg fun hid => hchoice ⟨j, _, by rw [hid]; exact hc⟩
  · next id j time hc =>
    exact if_neg fun hid => hchoice ⟨j, _, by rw [hid]; exact hc⟩
  · rfl

/-- A row that is live behind a commit. -/
theorem update_alive (h : (t.update g).live = true) : g.live = true ∧ g.id ∉ t.retired := by
  have hlive : g.live = true := by
    by_contra hdead
    have := (update_same t g).2.2.2.1 (by simpa using hdead)
    rw [this] at h
    cases h
  refine ⟨hlive, fun hret => ?_⟩
  have hdead := (answer_same t (t.retire g)).2.2.2.1
    (by unfold Txn.retire; rw [if_pos hret]; exact Bool.and_false _)
  unfold Txn.update at h
  rw [hdead] at h
  cases h

theorem commit_countP (p : Hint → Bool) : (b.commit t).outbox.countP p =
    b.outbox.countP fun g => p (t.update g) && decide (g.id ∉ t.deleted) := by
  unfold Board.commit
  rw [List.countP_map, List.countP_filter]
  rfl

theorem commit_unique (h : b.Unique) : (b.commit t).Unique := by
  unfold Board.Unique Board.commit
  dsimp only
  rw [List.map_map]
  have hids : (Hint.id ∘ t.update) = Hint.id := funext fun g => (update_same t g).1
  rw [hids]
  exact h.sublist (List.filter_sublist.map _)

theorem commit_length : (b.commit t).outbox.length ≤ b.outbox.length := by
  unfold Board.commit
  rw [List.length_map]
  exact List.length_filter_le _ _

theorem commit_kept (ht : t.Careful b) (hg : g ∈ b.outbox) (hlive : g.live = true)
    (hcurrent : currentDispatch b.jobs g = true) (hchoice : ¬ t.answered g.id) : g ∈ (b.commit t).outbox := by
  refine List.mem_map.mpr ⟨g, List.mem_filter.mpr ⟨hg, ?_⟩, update_unchosen (fun hret => ?_) hchoice⟩
  · rw [decide_eq_true_eq]
    intro hdel
    rw [ht.deleted g hg hdel] at hlive
    cases hlive
  · rw [ht.retired g hg hret] at hcurrent
    cases hcurrent

/-- Only obsolete rows are retired. -/
theorem commit_retires (ht : t.Careful b) (hb : b.Unique) (hg : g ∈ b.outbox) (hk : k ∈ (b.commit t).outbox)
    (hid : k.id = g.id) : k.jobId = g.jobId ∧ k.jobRevision = g.jobRevision ∧
      (k.supersededAt.isSome = true → g.supersededAt.isSome = true ∨ currentDispatch b.jobs g = false) := by
  obtain ⟨g₀, hg₀, rfl⟩ := List.mem_map.mp hk
  obtain ⟨hsame, hjob, hrev, _, hsup⟩ := update_same t g₀
  have heq : g₀ = g := hb.eq (List.mem_filter.mp hg₀).1 hg (hsame.symm.trans hid)
  subst heq
  refine ⟨hjob, hrev, fun hsome => ?_⟩
  rcases hsup hsome with hold | hret
  · exact .inl hold
  · exact .inr (ht.retired g₀ hg hret)

end Commit

/-! ## Weight -/

section Weight

/-- Live rows in front of a place. -/
def ahead (b : Board) (k : Int ×ₗ Nat) : Nat := b.outbox.countP fun g => g.live && decide (g.key < k)

/-- Live rows between the cursor and a place. -/
def between (b : Board) (c : WithBot (Int ×ₗ Nat)) (k : Int ×ₗ Nat) : Nat :=
  b.outbox.countP fun g => g.live && decide (c < g.key) && decide (g.key < k)

/-- Live rows behind the cursor. -/
def beyond (b : Board) (c : WithBot (Int ×ₗ Nat)) : Nat := b.outbox.countP fun g => g.live && decide (c < g.key)

/-- How many calls may pass before the row at a place is selected, in a table of `n` rows: first those to the end
of the table when the cursor is past the place, then the rows in front of it, each after a scan. -/
def weight (n : Nat) (b : Board) (c : WithBot (Int ×ₗ Nat)) (k : Int ×ₗ Nat) : Nat :=
  ahead b k * (2 * (n + 1)) + if c < k then between b c k else n + 1 + beyond b c

variable {n : Nat} {b b' : Board} {c c' : WithBot (Int ×ₗ Nat)} {k : Int ×ₗ Nat}

theorem between_le (hn : b.outbox.length ≤ n) : between b c k ≤ n := Nat.le_trans List.countP_le_length hn

theorem beyond_le (hn : b.outbox.length ≤ n) : beyond b c ≤ n := Nat.le_trans List.countP_le_length hn

theorem weight_lt_ahead (hn : b'.outbox.length ≤ n) (hc : c' < k) (h : ahead b' k < ahead b k) :
    weight n b' c' k < weight n b c k := by
  have hle := between_le (c := c') (k := k) hn
  have hmul : (ahead b' k + 1) * (2 * (n + 1)) ≤ ahead b k * (2 * (n + 1)) := Nat.mul_le_mul_right _ h
  unfold weight
  rw [if_pos hc]
  rw [Nat.add_mul, Nat.one_mul] at hmul
  omega

theorem weight_lt_wrap (hn : b'.outbox.length ≤ n) (hc : ¬ c < k) (hc' : c' < k) (h : ahead b' k ≤ ahead b k) :
    weight n b' c' k < weight n b c k := by
  have hle := between_le (c := c') (k := k) hn
  have hmul : ahead b' k * (2 * (n + 1)) ≤ ahead b k * (2 * (n + 1)) := Nat.mul_le_mul_right _ h
  unfold weight
  rw [if_pos hc', if_neg hc]
  omega

theorem weight_lt_between (hc : c < k) (hc' : c' < k) (h : ahead b' k ≤ ahead b k)
    (hbetween : between b' c' k < between b c k) : weight n b' c' k < weight n b c k := by
  have hmul : ahead b' k * (2 * (n + 1)) ≤ ahead b k * (2 * (n + 1)) := Nat.mul_le_mul_right _ h
  unfold weight
  rw [if_pos hc, if_pos hc']
  omega

theorem weight_lt_beyond (hc : ¬ c < k) (hc' : ¬ c' < k) (h : ahead b' k ≤ ahead b k)
    (hbeyond : beyond b' c' < beyond b c) : weight n b' c' k < weight n b c k := by
  have hmul : ahead b' k * (2 * (n + 1)) ≤ ahead b k * (2 * (n + 1)) := Nat.mul_le_mul_right _ h
  unfold weight
  rw [if_neg hc, if_neg hc']
  omega

/-- The weight of a table is below a bound of its length alone. -/
theorem weight_lt (hn : b.outbox.length ≤ n) : weight n b c k < 2 * (n + 1) * (n + 1) := by
  have hahead : ahead b k ≤ n := Nat.le_trans List.countP_le_length hn
  have hmul : ahead b k * (2 * (n + 1)) ≤ n * (2 * (n + 1)) := Nat.mul_le_mul_right _ hahead
  have hbound : 2 * (n + 1) * (n + 1) = n * (2 * (n + 1)) + 2 * (n + 1) := by
    rw [Nat.mul_add, Nat.mul_one, Nat.mul_comm]
  have hbetween := between_le (c := c) (k := k) hn
  have hbeyond := beyond_le (c := c) hn
  unfold weight
  split <;> omega

/-- Maintenance adds no weight. -/
theorem weight_mono (hahead : ahead b' k ≤ ahead b k) (hbetween : between b' c k ≤ between b c k)
    (hbeyond : beyond b' c ≤ beyond b c) : weight n b' c k ≤ weight n b c k := by
  have hmul : ahead b' k * (2 * (n + 1)) ≤ ahead b k * (2 * (n + 1)) := Nat.mul_le_mul_right _ hahead
  unfold weight
  split <;> omega

end Weight

/-! ## What a call does -/

section Call
variable {p : Publisher} {b : Board} {limit : Nat} {c : PublishCall}

/-- The joined rows of a window. -/
def joined (b : Board) (ids : List Nat) (now : Int) : List Hint :=
  ((lockable b ids b.jobs fun id => nobody id || decide (id ∈ ([] : List Nat))).filter fun h =>
    decide (h.availableAt ≤ now)).insertionSort hintOrder

theorem mem_joined {ids : List Nat} {now : Int} {g : Hint} : g ∈ joined b ids now ↔
    g ∈ b.outbox ∧ g.id ∈ ids ∧ g.live = true ∧ (b.jobs g.jobId).isSome = true ∧ g.availableAt ≤ now := by
  unfold joined lockable nobody
  rw [List.mem_insertionSort]
  simp only [List.mem_filter, Bool.and_eq_true, decide_eq_true_eq, List.not_mem_nil, decide_false, Bool.or_self,
    Bool.not_false, and_true]
  constructor
  · rintro ⟨⟨hg, ⟨hid, hlive⟩, hjob⟩, hdue⟩
    exact ⟨hg, hid, hlive, hjob, hdue⟩
  · rintro ⟨hg, hid, hlive, hjob, hdue⟩
    exact ⟨⟨hg, ⟨hid, hlive⟩, hjob⟩, hdue⟩

/-- The transaction that holds the rows of a window. -/
def windowTxn (b : Board) (ids : List Nat) (now : Int) (cursor : Cursor) (choice : Option (Nat × Nat × Outcome)) : Txn :=
  ⟨(joined b ids now).map Hint.id, now,
    ((joined b ids now).filter fun h => !currentDispatch b.jobs h).map Hint.id, choice, some cursor, none, []⟩

theorem windowTxn_careful (hb : b.Unique) (ids : List Nat) (now : Int) (cursor : Cursor)
    (choice : Option (Nat × Nat × Outcome)) : (windowTxn b ids now cursor choice).Careful b := by
  refine ⟨fun g hg hret => ?_, fun g _ hdel => nomatch hdel⟩
  obtain ⟨g', hg', hid⟩ := List.mem_map.mp hret
  obtain ⟨hrow, hobsolete⟩ := List.mem_filter.mp hg'
  have heq : g' = g := hb.eq (mem_joined.mp hrow).1 hg hid
  rw [← heq]
  simpa using hobsolete

/-- The board behind the send of a hint. -/
def Board.answering (b : Board) (c : PublishCall) (jobId : Nat) : Board :=
  if !c.failed || c.arrived then b.send jobId else b

def PublishCall.outcome (c : PublishCall) : Outcome := if c.failed then .failed c.time else .delivered c.time

/-- The three ways of a transaction: an empty window wraps, a window without due work moves the cursor, and the first
due hint of a window is sent. -/
theorem publish_cases (hp : p.phase = .idle) :
    (dueWindow b.outbox c.now p.dispatchAfter limit = [] ∧
      p.publish b limit c = some ({ p with dispatchAfter := none }, b, none)) ∨
    ∃ last, (dueWindow b.outbox c.now p.dispatchAfter limit).getLast? = some last ∧
      let rows := joined b ((dueWindow b.outbox c.now p.dispatchAfter limit).map Hint.id) c.now
      let txn := windowTxn b ((dueWindow b.outbox c.now p.dispatchAfter limit).map Hint.id) c.now
        (last.availableAt, last.id)
      (rows.find? (fun h => currentDispatch b.jobs h && dueNow b.jobs c.now h) = none ∧
        p.publish b limit c = some ({ p with dispatchAfter := some (last.availableAt, last.id), phase := .idle },
          b.commit (txn none), none)) ∨
      ∃ g, rows.find? (fun h => currentDispatch b.jobs h && dueNow b.jobs c.now h) = some g ∧
        p.publish b limit c = some ({ p with dispatchAfter := none, phase := .idle },
          (b.answering c g.jobId).commit (txn (some (g.id, g.jobId, c.outcome))), some g.id) := by
  cases hlast : (dueWindow b.outbox c.now p.dispatchAfter limit).getLast? with
  | none =>
    refine .inl ⟨List.getLast?_eq_none_iff.mp hlast, ?_⟩
    simp [Publisher.publish, Publisher.act, hp, hlast]
  | some last =>
    refine .inr ⟨last, rfl, ?_⟩
    dsimp only
    cases hfind : (joined b ((dueWindow b.outbox c.now p.dispatchAfter limit).map Hint.id) c.now).find?
        (fun h => currentDispatch b.jobs h && dueNow b.jobs c.now h) with
    | none =>
      refine .inl ⟨rfl, ?_⟩
      unfold joined at hfind
      simp only [Publisher.publish, Publisher.act, hp, hlast, Option.bind_some, Publisher.acts, hfind, Option.map_none,
        Publisher.selected, Option.isSome_none, Bool.false_eq_true, if_false, Option.map_some, Option.orElse_some]
      rfl
    | some g =>
      refine .inr ⟨g, rfl, ?_⟩
      unfold joined at hfind
      simp only [Publisher.publish, Publisher.act, hp, hlast, Option.bind_some, Publisher.acts, hfind, Option.map_some,
        Publisher.selected, Option.isSome_some, if_true]
      unfold PublishCall.outcome Board.answering
      cases c.failed <;> rfl

end Call

/-! ## Progress -/

section Progress
variable {p : Publisher} {b : Board} {limit n : Nat} {c : PublishCall} {h : Hint}

theorem answering_outbox (b : Board) (c : PublishCall) (jobId : Nat) : (b.answering c jobId).outbox = b.outbox := by
  unfold Board.answering
  split
  · exact send_outbox b jobId
  · rfl

theorem answering_jobs (b : Board) (c : PublishCall) (jobId : Nat) : (b.answering c jobId).jobs = b.jobs := by
  unfold Board.answering
  split
  · exact send_jobs b jobId
  · rfl

/-- A hint that a publisher has to send at a time. -/
structure Board.Waiting (b : Board) (h : Hint) (now : Int) : Prop where
  row : h ∈ b.outbox
  live : h.live = true
  current : currentDispatch b.jobs h = true
  available : h.availableAt ≤ now
  due : dueNow b.jobs now h = true

theorem Board.Waiting.later {now later : Int} (hw : b.Waiting h now) (hle : now ≤ later) : b.Waiting h later := by
  refine ⟨hw.row, hw.live, hw.current, le_trans hw.available hle, ?_⟩
  have hdue := hw.due
  unfold dueNow at hdue ⊢
  split
  · next job hjob =>
    rw [hjob] at hdue
    dsimp only at hdue
    rw [Option.all_eq_true] at hdue ⊢
    intro time htime
    exact decide_eq_true (le_trans (of_decide_eq_true (hdue time htime)) hle)
  · next hnone =>
    rw [hnone] at hdue
    cases hdue

/-- A waiting hint of the window is among the rows that the window joins. -/
theorem Board.Waiting.joined (hw : b.Waiting h c.now) (ids : List Nat) (hid : h.id ∈ ids) :
    h ∈ joined b ids c.now := by
  obtain ⟨job, hjob, _⟩ := currentDispatch_iff.mp hw.current
  exact mem_joined.mpr ⟨hw.row, hid, hw.live, by rw [hjob]; rfl, hw.available⟩

/-- A commit counts no more rows than there were, where each counted row was counted. -/
theorem commit_countP_le {t : Txn} {q q' : Hint → Bool} (hq : ∀ g ∈ b.outbox, q' (t.update g) = true → q g = true) :
    (b.commit t).outbox.countP q' ≤ b.outbox.countP q := by
  rw [commit_countP]
  refine List.countP_mono_left fun g hg hcount => hq g hg ?_
  exact (Bool.and_eq_true_iff.mp hcount).1

theorem commit_countP_lt {t : Txn} {q q' : Hint → Bool} (hq : ∀ g ∈ b.outbox, q' (t.update g) = true → q g = true)
    {g : Hint} (hg : g ∈ b.outbox) (hcounted : q g = true) (hgone : q' (t.update g) = false) :
    (b.commit t).outbox.countP q' < b.outbox.countP q := by
  rw [commit_countP]
  refine countP_lt (fun g hg hcount => hq g hg (Bool.and_eq_true_iff.mp hcount).1) hg hcounted ?_
  rw [hgone, Bool.false_and]

/-- A row that is live behind a transaction without a choice is the row that was. -/
theorem update_alive_eq {t : Txn} (hchoice : t.choice = none) {g : Hint} (hlive : (t.update g).live = true) :
    t.update g = g := by
  refine update_unchosen (update_alive hlive).2 ?_
  rintro ⟨j, o, ho⟩
  rw [hchoice] at ho
  cases ho

theorem ahead_commit_le {t : Txn} (hchoice : t.choice = none) (k : Int ×ₗ Nat) : ahead (b.commit t) k ≤ ahead b k := by
  refine commit_countP_le fun g _ hcount => ?_
  have hlive := (Bool.and_eq_true_iff.mp hcount).1
  rw [update_alive_eq hchoice hlive] at hcount
  exact hcount

theorem between_commit_le {t : Txn} (hchoice : t.choice = none) (κ : WithBot (Int ×ₗ Nat)) (k : Int ×ₗ Nat) :
    between (b.commit t) κ k ≤ between b κ k := by
  refine commit_countP_le fun g _ hcount => ?_
  have hlive := (Bool.and_eq_true_iff.mp (Bool.and_eq_true_iff.mp hcount).1).1
  rw [update_alive_eq hchoice hlive] at hcount
  exact hcount

theorem beyond_commit_le {t : Txn} (hchoice : t.choice = none) (κ : WithBot (Int ×ₗ Nat)) :
    beyond (b.commit t) κ ≤ beyond b κ := by
  refine commit_countP_le fun g _ hcount => ?_
  have hlive := (Bool.and_eq_true_iff.mp hcount).1
  rw [update_alive_eq hchoice hlive] at hcount
  exact hcount

/-- A window that moves the cursor passes its last row. -/
theorem passed_not_behind {t : Txn} (hchoice : t.choice = none) (last : Hint) :
    ((t.update last).live && decide ((last.key : WithBot (Int ×ₗ Nat)) < (t.update last).key)) = false := by
  by_contra hcount
  have hcount := Bool.not_eq_false _ ▸ hcount
  obtain ⟨hlive, hlt⟩ := Bool.and_eq_true_iff.mp hcount
  rw [update_alive_eq hchoice hlive] at hlt
  exact lt_irrefl _ (of_decide_eq_true hlt)

end Progress

section Rounds
variable {p : Publisher} {b : Board} {limit n : Nat} {c : PublishCall} {h : Hint}

theorem answering_commit (b : Board) (c : PublishCall) (jobId : Nat) (t : Txn) :
    ((b.answering c jobId).commit t).outbox = (b.commit t).outbox := by
  unfold Board.commit
  rw [answering_outbox]

theorem weight_congr {b' : Board} (hout : b'.outbox = b.outbox) (κ : WithBot (Int ×ₗ Nat)) (k : Int ×ₗ Nat) :
    weight n b' κ k = weight n b κ k := by
  unfold weight ahead between beyond
  rw [hout]

/-- An empty window brings the cursor back in front of every row. -/
theorem wrap_progress (hlimit : 0 < limit) (hn : b.outbox.length ≤ n) (hw : b.Waiting h c.now)
    (hempty : dueWindow b.outbox c.now p.dispatchAfter limit = []) :
    weight n b (position none) h.key < weight n b (position p.dispatchAfter) h.key := by
  refine weight_lt_wrap hn (fun hafter => ?_) (WithBot.bot_lt_coe _) (Nat.le_refl _)
  exact dueWindow_nonempty hlimit hw.row hw.live hw.available hafter hempty

/-- A window without due work brings the cursor nearer. -/
theorem move_progress (hb : b.Unique) (hw : b.Waiting h c.now) {last : Hint} {ids : List Nat}
    (hids : ids = (dueWindow b.outbox c.now p.dispatchAfter limit).map Hint.id)
    (hlast : (dueWindow b.outbox c.now p.dispatchAfter limit).getLast? = some last)
    (hnone : (joined b ids c.now).find? (fun h => currentDispatch b.jobs h && dueNow b.jobs c.now h) = none) :
    weight n (b.commit (windowTxn b ids c.now (last.availableAt, last.id) none)) last.key h.key <
      weight n b (position p.dispatchAfter) h.key := by
  have hlastMem := List.mem_of_getLast? hlast
  obtain ⟨hlastRow, hlastLive, _, hlastAfter⟩ := dueWindow_mem hlastMem
  have hchoice : (windowTxn b ids c.now (last.availableAt, last.id) none).choice = none := rfl
  have hahead := ahead_commit_le (b := b) hchoice h.key
  have hpassed := passed_not_behind hchoice last
  by_cases hafter : position p.dispatchAfter < h.key
  · -- the hint itself would have been selected from the window
    have hout : h ∉ dueWindow b.outbox c.now p.dispatchAfter limit := by
      intro hin
      have hjoined := hw.joined ids (by rw [hids]; exact List.mem_map_of_mem hin)
      exact List.find?_eq_none.mp hnone h hjoined (by rw [hw.current, hw.due]; rfl)
    have hle := dueWindow_behind hw.row hw.live hw.available hafter hout hlastMem
    have hlt : last.key < h.key := by
      refine lt_of_le_of_ne hle fun heq => hout ?_
      have hid : last.id = h.id := congrArg (fun k => (ofLex k).2) heq
      rw [← hb.eq hlastRow hw.row hid]
      exact hlastMem
    refine weight_lt_between hafter (WithBot.coe_lt_coe.mpr hlt) hahead ?_
    refine commit_countP_lt (g := last) (fun g _ hcount => ?_) hlastRow ?_ ?_
    · obtain ⟨hfirst, hbefore⟩ := Bool.and_eq_true_iff.mp hcount
      obtain ⟨hlive, hbehind⟩ := Bool.and_eq_true_iff.mp hfirst
      have hsame := update_alive_eq hchoice hlive
      rw [hsame] at hlive hbehind hbefore
      rw [hlive, hbefore]
      have hgt : position p.dispatchAfter < g.key := lt_trans hlastAfter (of_decide_eq_true hbehind)
      rw [decide_eq_true hgt]
      rfl
    · rw [hlastLive, decide_eq_true hlastAfter, decide_eq_true hlt]
      rfl
    · rw [hpassed, Bool.false_and]
  · have hstill : ¬ (last.key : WithBot (Int ×ₗ Nat)) < h.key := by
      intro hlt
      exact hafter (lt_trans hlastAfter hlt)
    refine weight_lt_beyond hafter hstill hahead ?_
    refine commit_countP_lt (g := last) (fun g _ hcount => ?_) hlastRow ?_ hpassed
    · obtain ⟨hlive, hbehind⟩ := Bool.and_eq_true_iff.mp hcount
      have hsame := update_alive_eq hchoice hlive
      rw [hsame] at hlive hbehind
      have hgt : position p.dispatchAfter < g.key := lt_trans hlastAfter (of_decide_eq_true hbehind)
      rw [hlive, decide_eq_true hgt]
      rfl
    · rw [hlastLive, decide_eq_true hlastAfter]
      rfl

/-- The row of a choice after the answer: delivered, or put off. -/
theorem update_chosen {t : Txn} {g : Hint} {j : Nat} (hchoice : t.choice = some (g.id, j, c.outcome)) :
    (t.update g).live = false ∨ (t.update g).availableAt = c.time + 30 := by
  unfold PublishCall.outcome at hchoice
  unfold Txn.update Txn.answer
  rw [hchoice]
  cases c.failed with
  | true =>
    right
    simp only [if_true]
    rw [if_pos (retire_same t g).1]
  | false =>
    left
    simp only [Bool.false_eq_true, if_false]
    rw [if_pos (retire_same t g).1]
    rfl

/-- A send of another hint leaves fewer rows in front. -/
theorem send_progress (hb : b.Unique) (hn : b.outbox.length ≤ n) (hw : b.Waiting h c.now)
    (htime : h.availableAt ≤ c.time) {g last : Hint} {ids : List Nat}
    (hids : ids = (dueWindow b.outbox c.now p.dispatchAfter limit).map Hint.id)
    (hfind : (joined b ids c.now).find? (fun h => currentDispatch b.jobs h && dueNow b.jobs c.now h) = some g)
    (hne : g ≠ h) {t : Txn} (ht : t = windowTxn b ids c.now (last.availableAt, last.id) (some (g.id, g.jobId, c.outcome))) :
    weight n (b.commit t) (position none) h.key < weight n b (position p.dispatchAfter) h.key := by
  have hg := mem_joined.mp (List.mem_of_find?_eq_some hfind)
  have hchoice : t.choice = some (g.id, g.jobId, c.outcome) := by rw [ht]; rfl
  -- nothing comes in front of the hint
  have hfront : ∀ x ∈ b.outbox, ((t.update x).live && decide ((t.update x).key < h.key)) = true →
      x ≠ g ∧ (x.live && decide (x.key < h.key)) = true := by
    intro x hx hcount
    obtain ⟨hlive, hlt⟩ := Bool.and_eq_true_iff.mp hcount
    by_cases hxg : x = g
    · rw [hxg] at hlive hlt
      rcases update_chosen hchoice with hdead | hlater
      · rw [hdead] at hlive
        cases hlive
      · have hkey := of_decide_eq_true hlt
        unfold Hint.key at hkey
        rw [Prod.Lex.toLex_lt_toLex] at hkey
        simp only [hlater] at hkey
        omega
    · have hsame : t.update x = x := by
        refine update_unchosen (update_alive hlive).2 ?_
        rintro ⟨j, o, ho⟩
        rw [hchoice] at ho
        have hid : g.id = x.id := congrArg Prod.fst (Option.some.inj ho)
        exact hxg (hb.eq hx hg.1 hid.symm)
      rw [hsame] at hcount
      exact ⟨hxg, hcount⟩
  have hlen : (b.commit t).outbox.length ≤ n := Nat.le_trans commit_length hn
  by_cases hafter : position p.dispatchAfter < h.key
  · have hle : g.key ≤ h.key := by
      by_cases hin : h ∈ dueWindow b.outbox c.now p.dispatchAfter limit
      · have hrow := hw.joined ids (by rw [hids]; exact List.mem_map_of_mem hin)
        unfold joined at hrow hfind
        rw [List.mem_insertionSort] at hrow
        obtain ⟨g', hg', horder⟩ := find?_insertionSort hintOrder hrow
          (p := fun h => currentDispatch b.jobs h && dueNow b.jobs c.now h) (by simp [hw.current, hw.due])
        rw [hfind] at hg'
        cases hg'
        exact (hintOrder_iff _ _).mp horder
      · obtain ⟨x, hx, hid⟩ := List.mem_map.mp (hids ▸ hg.2.1)
        rw [← hb.eq (dueWindow_mem hx).1 hg.1 hid]
        exact dueWindow_behind hw.row hw.live hw.available hafter hin hx
    have hlt : g.key < h.key := by
      refine lt_of_le_of_ne hle fun heq => hne (hb.eq hg.1 hw.row ?_)
      exact congrArg (fun k => (ofLex k).2) heq
    refine weight_lt_ahead hlen (WithBot.bot_lt_coe _) ?_
    refine commit_countP_lt (g := g) (fun x hx hcount => (hfront x hx hcount).2) hg.1 ?_ ?_
    · rw [hg.2.2.1, decide_eq_true hlt]
      rfl
    · by_contra hcount
      exact (hfront g hg.1 (Bool.not_eq_false _ ▸ hcount)).1 rfl
  · exact weight_lt_wrap hlen hafter (WithBot.bot_lt_coe _)
      (commit_countP_le fun x hx hcount => (hfront x hx hcount).2)

end Rounds

/-! ## Calls -/

section Calls
variable {p : Publisher} {b : Board} {limit n : Nat} {c : PublishCall} {h : Hint}

/-- Rows keep their identity, and only obsolete ones are retired. -/
def RetiresObsolete (b b' : Board) : Prop := ∀ k ∈ b'.outbox, ∃ g ∈ b.outbox, k.id = g.id ∧ k.jobId = g.jobId ∧
  k.jobRevision = g.jobRevision ∧
  (k.supersededAt.isSome = true → g.supersededAt.isSome = true ∨ currentDispatch b.jobs g = false)

theorem RetiresObsolete.trans {b₁ b₂ : Board} (h : RetiresObsolete b b₁) (hjobs : b₁.jobs = b.jobs) (h' : RetiresObsolete b₁ b₂) :
    RetiresObsolete b b₂ := by
  intro k hk
  obtain ⟨g₁, hg₁, hid₁, hjob₁, hrev₁, hsup₁⟩ := h' k hk
  obtain ⟨g, hg, hid, hjob, hrev, hsup⟩ := h g₁ hg₁
  refine ⟨g, hg, hid₁.trans hid, hjob₁.trans hjob, hrev₁.trans hrev, fun hsome => ?_⟩
  rcases hsup₁ hsome with hold | hobsolete
  · exact hsup hold
  · right
    unfold currentDispatch at hobsolete ⊢
    rw [hjobs, hjob, hrev] at hobsolete
    exact hobsolete

/-- What a call leaves: jobs stay, and current hints wait unless they are selected. -/
structure Effect (b b' : Board) (selected : Option Nat) : Prop where
  unique : b'.Unique
  jobs : b'.jobs = b.jobs
  length : b'.outbox.length ≤ b.outbox.length
  queue : b.queue <+: b'.queue
  origin : RetiresObsolete b b'
  kept : ∀ g ∈ b.outbox, g.live = true → currentDispatch b.jobs g = true → selected ≠ some g.id → g ∈ b'.outbox

theorem commit_origin {t : Txn} (ht : t.Careful b) (hb : b.Unique) : RetiresObsolete b (b.commit t) := by
  intro k hk
  have hcopy := hk
  obtain ⟨g, hg, rfl⟩ := List.mem_map.mp hk
  have hrow := (List.mem_filter.mp hg).1
  exact ⟨g, hrow, (update_same t g).1, commit_retires ht hb hrow hcopy (update_same t g).1⟩

theorem commit_effect {t : Txn} (hb : b.Unique) (ht : t.Careful b) (hchoice : t.choice = none) :
    Effect b (b.commit t) none := by
  refine ⟨commit_unique hb, rfl, commit_length, List.prefix_refl _, commit_origin ht hb, ?_⟩
  intro g hg hlive hcurrent _
  refine commit_kept ht hg hlive hcurrent ?_
  rintro ⟨j, o, ho⟩
  rw [hchoice] at ho
  cases ho

theorem effect_refl (hb : b.Unique) : Effect b b none :=
  ⟨hb, rfl, Nat.le_refl _, List.prefix_refl _, fun k hk => ⟨k, hk, rfl, rfl, rfl, .inl⟩, fun _ hg _ _ _ => hg⟩

theorem Effect.trans {b₁ b₂ : Board} {selected : Option Nat} (h : Effect b b₁ none) (h' : Effect b₁ b₂ selected) :
    Effect b b₂ selected := by
  refine ⟨h'.unique, h'.jobs.trans h.jobs, Nat.le_trans h'.length h.length, h.queue.trans h'.queue,
    h.origin.trans h.jobs h'.origin, ?_⟩
  intro g hg hlive hcurrent hne
  exact h'.kept g (h.kept g hg hlive hcurrent nofun) hlive (by rw [h.jobs]; exact hcurrent) hne

theorem send_queue (b : Board) (jobId : Nat) : b.queue <+: (b.send jobId).queue := by
  unfold Board.send
  split
  · exact List.prefix_append _ _
  · exact List.prefix_refl _

theorem answering_effect {t : Txn} {g : Hint} (hb : b.Unique) (ht : t.Careful b)
    (hchoice : t.choice = some (g.id, g.jobId, c.outcome)) :
    Effect b ((b.answering c g.jobId).commit t) (some g.id) := by
  have hout := answering_commit b c g.jobId t
  refine ⟨?_, ?_, ?_, ?_, ?_, ?_⟩
  · unfold Board.Unique
    rw [hout]
    exact commit_unique hb
  · exact answering_jobs b c g.jobId
  · rw [hout]
    exact commit_length
  · show b.queue <+: (b.answering c g.jobId).queue
    unfold Board.answering
    split
    · exact send_queue b g.jobId
    · exact List.prefix_refl _
  · intro k hk
    rw [hout] at hk
    exact commit_origin ht hb k hk
  · intro x hx hlive hcurrent hne
    rw [hout]
    refine commit_kept ht hx hlive hcurrent ?_
    rintro ⟨j, o, ho⟩
    rw [hchoice] at ho
    have hid : g.id = x.id := congrArg Prod.fst (Option.some.inj ho)
    rw [hid] at hne
    exact hne rfl

/-- A sent hint: it was waiting, its job's message is in the queue, and its row is delivered. -/
structure Sends (b b' : Board) (c : PublishCall) (id : Nat) : Prop where
  waiting : ∃ g, g.id = id ∧ b.Waiting g c.now ∧ (c.failed = false →
    (∃ m ∈ b'.queue, m.jobId = g.jobId ∧ m.sentRevision = g.jobRevision) ∧
    ∀ k ∈ b'.outbox, k.id = id → k.deliveredAt = some c.time)

theorem answering_sends {t : Txn} {g : Hint} (hw : b.Waiting g c.now)
    (hchoice : t.choice = some (g.id, g.jobId, c.outcome)) :
    Sends b ((b.answering c g.jobId).commit t) c g.id := by
  refine ⟨g, rfl, hw, fun hsent => ⟨?_, fun k hk hid => ?_⟩⟩
  · obtain ⟨job, hjob, hrev, _⟩ := currentDispatch_iff.mp hw.current
    show ∃ m ∈ (b.answering c g.jobId).queue, _
    unfold Board.answering Board.send
    rw [hsent, hjob, hrev]
    exact ⟨_, List.mem_append_right _ List.mem_cons_self, rfl, rfl⟩
  · rw [answering_commit] at hk
    obtain ⟨x, hx, rfl⟩ := List.mem_map.mp hk
    have hxid : x.id = g.id := (update_same t x).1.symm.trans hid
    unfold PublishCall.outcome at hchoice
    rw [hsent] at hchoice
    unfold Txn.update Txn.answer
    rw [hchoice]
    simp only [Bool.false_eq_true, if_false]
    rw [if_pos ((retire_same t x).1.trans hxid)]

/-- The transaction of a call, and its progress towards a waiting hint. -/
theorem publish_spec (hb : b.Unique) (hlimit : 0 < limit) (hp : p.phase = .idle) :
    ∃ p' b' selected, p.publish b limit c = some (p', b', selected) ∧ p'.phase = .idle ∧ Effect b b' selected ∧
      (∀ id, selected = some id → Sends b b' c id) ∧
      ∀ n h, b.Waiting h c.now → h.availableAt ≤ c.time → b.outbox.length ≤ n → selected = some h.id ∨
        weight n b' (position p'.dispatchAfter) h.key < weight n b (position p.dispatchAfter) h.key := by
  rcases publish_cases (b := b) (c := c) hp with ⟨hempty, heq⟩ | ⟨last, hlast, ⟨hnone, heq⟩ | ⟨g, hfind, heq⟩⟩
  · refine ⟨_, _, _, heq, hp, effect_refl hb, nofun, fun n h hw _ hn => .inr ?_⟩
    exact wrap_progress hlimit hn hw hempty
  · refine ⟨_, _, _, heq, rfl, commit_effect hb (windowTxn_careful hb _ _ _ _) rfl, nofun,
      fun n h hw _ hn => .inr ?_⟩
    exact move_progress hb hw rfl hlast hnone
  · have hrow := mem_joined.mp (List.mem_of_find?_eq_some hfind)
    have htest := List.find?_some hfind
    rw [Bool.and_eq_true] at htest
    refine ⟨_, _, _, heq, rfl, answering_effect hb (windowTxn_careful hb _ _ _ _) rfl, ?_, fun n h hw htime hn => ?_⟩
    · rintro id ⟨⟩
      exact answering_sends ⟨hrow.1, hrow.2.2.1, htest.1, hrow.2.2.2.2, htest.2⟩ rfl
    · by_cases hg : g = h
      · exact .inl (by rw [hg])
      · right
        rw [weight_congr (answering_commit b c g.jobId _)]
        exact send_progress hb hn hw htime rfl hfind hg rfl

/-- The transaction that maintenance commits. -/
def maintenanceTxn (b : Board) (after : Nat) (now retention : Int) (limit : Nat) : Txn :=
  let ids := (b.outbox.filter fun h => h.live && decide (after < h.id)).map Hint.id
  let rows := ((lockable b ids b.jobs fun id => nobody id || decide (id ∈ ([] : List Nat))).insertionSort fun x y =>
    x.id ≤ y.id).take limit
  let closed := ((b.outbox.filter fun h => (h.closedAt.any fun time => decide (time < now - retention)) &&
    !nobody h.id && decide (h.id ∉ ([] : List Nat))).insertionSort closedOrder).take limit
  ⟨closed.map Hint.id ++ rows.map Hint.id, now, (rows.filter fun h => !currentDispatch b.jobs h).map Hint.id, none,
    none, none, closed.map Hint.id⟩

theorem maintenanceTxn_careful (hb : b.Unique) (after : Nat) (now retention : Int) (limit : Nat) :
    (maintenanceTxn b after now retention limit).Careful b := by
  refine ⟨fun g hg hret => ?_, fun g hg hdel => ?_⟩
  · obtain ⟨g', hg', hid⟩ := List.mem_map.mp hret
    obtain ⟨hrow, hobsolete⟩ := List.mem_filter.mp hg'
    have hmem := (mem_lockable ((List.mem_insertionSort _).mp (List.mem_of_mem_take hrow))).1
    rw [← hb.eq hmem hg hid]
    simpa using hobsolete
  · obtain ⟨g', hg', hid⟩ := List.mem_map.mp hdel
    obtain ⟨hmem, hcond⟩ := List.mem_filter.mp ((List.mem_insertionSort _).mp (List.mem_of_mem_take hg'))
    simp only [Bool.and_eq_true] at hcond
    rw [← hb.eq hmem hg hid]
    exact closed_not_live hcond.1.1

/-- Maintenance keeps the cursor of the scan and every waiting hint. -/
theorem runDue_spec (limit : Nat) (hb : b.Unique) (hp : p.phase = .idle) :
    ∃ p' b', p.runDue b limit c.maintenance = some (p', b') ∧ p'.phase = .idle ∧ p'.dispatchAfter = p.dispatchAfter ∧
      Effect b b' none ∧ (∀ g ∈ b'.outbox, g.live = true → g ∈ b.outbox) ∧
      ∀ n k, weight n b' (position p.dispatchAfter) k ≤ weight n b (position p.dispatchAfter) k := by
  cases hm : c.maintenance with
  | none => exact ⟨p, b, rfl, hp, rfl, effect_refl hb, fun _ hg _ => hg, fun _ _ => Nat.le_refl _⟩
  | some m =>
    have hpos := c.retention m hm
    have hchoice : (maintenanceTxn b p.afterId m.1 m.2 limit).choice = none := rfl
    obtain ⟨after, hrun⟩ : ∃ after, p.runDue b limit (some m) =
        some ({ p with afterId := after, phase := .idle }, b.commit (maintenanceTxn b p.afterId m.1 m.2 limit)) := by
      simp only [Publisher.runDue, Publisher.acts, Publisher.act, hp, hpos, if_true, Option.bind_some]
      exact ⟨_, rfl⟩
    refine ⟨_, _, hrun, rfl, rfl, commit_effect hb (maintenanceTxn_careful hb _ _ _ _) hchoice, ?_, fun _ k => ?_⟩
    · intro g hg hlive
      obtain ⟨g₀, hg₀, rfl⟩ := List.mem_map.mp hg
      rw [update_alive_eq hchoice hlive]
      exact (List.mem_filter.mp hg₀).1
    · exact weight_mono (ahead_commit_le hchoice k) (between_commit_le hchoice _ k) (beyond_commit_le hchoice _)

/-- `publish_one` -/
theorem publishOne_spec (hb : b.Unique) (hlimit : 0 < limit) (hp : p.phase = .idle) :
    ∃ p' b' selected, p.publishOne b limit c = some (p', b', selected) ∧ p'.phase = .idle ∧ Effect b b' selected ∧
      (∀ id, selected = some id → Sends b b' c id) ∧
      ∀ n h, b.Waiting h c.now → h.availableAt ≤ c.time → b.outbox.length ≤ n → selected = some h.id ∨
        weight n b' (position p'.dispatchAfter) h.key < weight n b (position p.dispatchAfter) h.key := by
  obtain ⟨p₁, b₁, hrun, hp₁, hafter, heffect₁, hrows, hweight⟩ := runDue_spec (c := c) limit hb hp
  obtain ⟨p', b', selected, hpublish, hp', heffect, hsends, hprogress⟩ :=
    publish_spec (c := c) heffect₁.unique hlimit hp₁
  refine ⟨p', b', selected, ?_, hp', heffect₁.trans heffect, fun id hid => ?_, fun n h hw htime hn => ?_⟩
  · unfold Publisher.publishOne
    rw [hrun]
    exact hpublish
  · obtain ⟨g, hgid, hw, hsent⟩ := (hsends id hid).waiting
    have hcurrent := hw.current
    have hdue := hw.due
    rw [heffect₁.jobs] at hcurrent hdue
    exact ⟨g, hgid, ⟨hrows g hw.row hw.live, hw.live, hcurrent, hw.available, hdue⟩, hsent⟩
  · have hw₁ : b₁.Waiting h c.now := by
      refine ⟨heffect₁.kept h hw.row hw.live hw.current nofun, hw.live, ?_, hw.available, ?_⟩
      · rw [heffect₁.jobs]
        exact hw.current
      · rw [heffect₁.jobs]
        exact hw.due
    rcases hprogress n h hw₁ htime (Nat.le_trans heffect₁.length hn) with hsel | hlt
    · exact .inl hsel
    · rw [hafter] at hlt
      exact .inr (Nat.lt_of_lt_of_le hlt (hweight n h.key))

/-- What successive calls leave. The log has the hint that each call selected. -/
structure Scanned (b b' : Board) (calls : List PublishCall) (log : List (Option Nat)) : Prop where
  jobs : b'.jobs = b.jobs
  queue : b.queue <+: b'.queue
  origin : RetiresObsolete b b'
  sent : ∀ c id, (c, some id) ∈ calls.zip log → ∃ g ∈ b.outbox, g.id = id ∧ currentDispatch b.jobs g = true ∧
    dueNow b.jobs c.now g = true ∧
    (c.failed = false → ∃ m ∈ b'.queue, m.jobId = g.jobId ∧ m.sentRevision = g.jobRevision)

theorem scanned_nil (b : Board) : Scanned b b [] [] :=
  ⟨rfl, List.prefix_refl _, fun k hk => ⟨k, hk, rfl, rfl, rfl, .inl⟩, fun _ _ h => nomatch h⟩

theorem dueNow_congr {jobs : Nat → Option Job} {now : Int} {g k : Hint} (hjob : k.jobId = g.jobId) :
    dueNow jobs now k = dueNow jobs now g := by
  unfold dueNow
  rw [hjob]

theorem currentDispatch_congr {jobs : Nat → Option Job} {g k : Hint} (hjob : k.jobId = g.jobId)
    (hrev : k.jobRevision = g.jobRevision) : currentDispatch jobs k = currentDispatch jobs g := by
  unfold currentDispatch
  rw [hjob, hrev]

theorem Scanned.cons {b₁ b₂ : Board} {selected : Option Nat} {calls : List PublishCall} {log : List (Option Nat)}
    (heffect : Effect b b₁ selected) (hsends : ∀ id, selected = some id → Sends b b₁ c id)
    (hrest : Scanned b₁ b₂ calls log) : Scanned b b₂ (c :: calls) (selected :: log) := by
  refine ⟨hrest.jobs.trans heffect.jobs, heffect.queue.trans hrest.queue,
    heffect.origin.trans heffect.jobs hrest.origin, fun c' id hmem => ?_⟩
  rw [List.zip_cons_cons, List.mem_cons] at hmem
  rcases hmem with hhead | htail
  · cases hhead
    obtain ⟨g, hgid, hw, hsent⟩ := (hsends id rfl).waiting
    refine ⟨g, hw.row, hgid, hw.current, hw.due, fun hok => ?_⟩
    obtain ⟨m, hm, hmsg⟩ := (hsent hok).1
    exact ⟨m, hrest.queue.subset hm, hmsg⟩
  · obtain ⟨k, hk, hkid, hcurrent, hdue, hsent⟩ := hrest.sent c' id htail
    obtain ⟨g, hg, hid, hjob, hrev, _⟩ := heffect.origin k hk
    rw [heffect.jobs, currentDispatch_congr hjob hrev] at hcurrent
    rw [heffect.jobs, dueNow_congr hjob] at hdue
    rw [hjob, hrev] at hsent
    exact ⟨g, hg, hid.symm.trans hkid, hcurrent, hdue, hsent⟩

/-- A waiting hint is selected before its weight is used up. -/
theorem publishAll_spec (hlimit : 0 < limit) (calls : List PublishCall) :
    ∀ (p : Publisher) (b : Board), b.Unique → p.phase = .idle → ∃ p' b' log,
      p.publishAll b limit calls = some (p', b', log) ∧ Scanned b b' calls log ∧
      ∀ n h start, b.outbox.length ≤ n → b.Waiting h start → (∀ c ∈ calls, start ≤ c.now ∧ start ≤ c.time) →
        weight n b (position p.dispatchAfter) h.key < calls.length → ∃ c, (c, some h.id) ∈ calls.zip log := by
  induction calls with
  | nil => exact fun p b _ _ => ⟨p, b, [], rfl, scanned_nil b, fun _ _ _ _ _ _ hlt => nomatch hlt⟩
  | cons c calls ih =>
    intro p b hb hp
    obtain ⟨p₁, b₁, selected, hone, hp₁, heffect, hsends, hprogress⟩ := publishOne_spec (c := c) hb hlimit hp
    obtain ⟨p', b', log, hall, hscanned, hfound⟩ := ih p₁ b₁ heffect.unique hp₁
    refine ⟨p', b', selected :: log, ?_, .cons heffect hsends hscanned, ?_⟩
    · unfold Publisher.publishAll
      rw [hone, Option.bind_some, hall]
      rfl
    · intro n h start hn hw hclocks hlt
      obtain ⟨hnow, htime⟩ := hclocks c List.mem_cons_self
      rw [List.length_cons] at hlt
      by_cases hsel : selected = some h.id
      · exact ⟨c, by rw [hsel]; exact List.mem_cons_self⟩
      · have hless := (hprogress n h (hw.later hnow) (le_trans hw.available htime) hn).resolve_left hsel
        have hw₁ : b₁.Waiting h start := by
          refine ⟨heffect.kept h hw.row hw.live hw.current hsel, hw.live, ?_, hw.available, ?_⟩
          · rw [heffect.jobs]
            exact hw.current
          · rw [heffect.jobs]
            exact hw.due
        obtain ⟨c', hc'⟩ := hfound n h start (Nat.le_trans heffect.length hn) hw₁
          (fun c hc => hclocks c (List.mem_cons_of_mem _ hc)) (by omega)
        exact ⟨c', List.mem_cons_of_mem _ hc'⟩

/-- The scan finds due work: whatever is locked by nobody, due and current is sent within a number of calls that the
length of the table bounds, from any cursor and with any window, and only obsolete rows are retired on the way. -/
theorem publish_finds_due_work (p : Publisher) (b : Board) (limit : Nat) (calls : List PublishCall) (hlimit : 1 ≤ limit)
    (hp : p.phase = .idle) (hb : b.Unique) :
    ∃ p' b' log, p.publishAll b limit calls = some (p', b', log) ∧ Scanned b b' calls log ∧
      ∀ h start, b.Waiting h start → (∀ c ∈ calls, start ≤ c.now ∧ start ≤ c.time) →
        2 * (b.outbox.length + 1) * (b.outbox.length + 1) ≤ calls.length →
        ∃ c, (c, some h.id) ∈ calls.zip log ∧
          (c.failed = false → ∃ m ∈ b'.queue, m.jobId = h.jobId ∧ m.sentRevision = h.jobRevision) := by
  obtain ⟨p', b', log, hall, hscanned, hfound⟩ := publishAll_spec hlimit calls p b hb hp
  refine ⟨p', b', log, hall, hscanned, fun h start hw hclocks hlen => ?_⟩
  obtain ⟨c, hc⟩ := hfound _ h start (Nat.le_refl _) hw hclocks (Nat.lt_of_lt_of_le (weight_lt (Nat.le_refl _)) hlen)
  refine ⟨c, hc, fun hok => ?_⟩
  obtain ⟨g, hg, hid, _, _, hsent⟩ := hscanned.sent c h.id hc
  rw [← hb.eq hg hw.row hid]
  exact hsent hok

/-- Two obsolete hints tie with the hint of the job, which is at its third revision. -/
def tied : Board :=
  ⟨fun id => if id = 1 then some ⟨waiting none 0, 3⟩ else none,
    [⟨1, 1, 1, 0, 5, none, none⟩, ⟨2, 1, 2, 0, 5, none, none⟩, ⟨3, 1, 3, 0, 5, none, none⟩], 3, [], 0⟩

def quietCall : PublishCall := ⟨none, 10, false, true, 10, nofun⟩

theorem publish_finds_due_work_tied : ∃ p' b' log,
    Publisher.publishAll ⟨some (5, 3), 0, .idle⟩ tied 1 (List.replicate 32 quietCall) = some (p', b', log) ∧
      some 3 ∈ log ∧ ∃ m ∈ b'.queue, m.jobId = 1 ∧ m.sentRevision = 3 := by
  obtain ⟨p', b', log, hall, _, hfound⟩ := publish_finds_due_work ⟨some (5, 3), 0, .idle⟩ tied 1
    (List.replicate 32 quietCall) (by decide) rfl (by unfold Board.Unique; decide)
  obtain ⟨c, hc, hsent⟩ := hfound ⟨3, 1, 3, 0, 5, none, none⟩ 10 ⟨by decide, rfl, rfl, by decide, rfl⟩
    (fun c hc => by rw [List.eq_of_mem_replicate hc]; decide) (by decide)
  have hcall : c = quietCall := List.eq_of_mem_replicate (List.of_mem_zip hc).1
  rw [hcall] at hsent
  exact ⟨p', b', log, hall, (List.of_mem_zip hc).2, hsent rfl⟩

end Calls
end ChessCrawl.Dispatch
