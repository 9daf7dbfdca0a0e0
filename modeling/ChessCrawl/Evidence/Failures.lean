import ChessCrawl.Evidence.Clock
import ChessCrawl.Evidence.Tree

/-! When `parse_game_evidence` raises: each number that it converts, in the time control, in the tokens and in the values of
the native object that it writes as texts, and what it relies on of `pgn_read` elsewhere. -/
namespace ChessCrawl.Evidence
open ChessCrawl.Lib
set_option autoImplicit false

/-! ## Time controls -/

structure Period where
  moves : Option Int
  seconds : Text
  incrementSeconds : Option Text
  rawText : Text
deriving DecidableEq, Repr

inductive RulesStatus
  | parsed | preserved | unavailable
deriving DecidableEq, Repr

structure ClockRules where
  rawLabel : Option Text
  status : RulesStatus
  periods : List Period
  providerClock : Native
  providerTimeControl : Native

section Label
variable (R : Rules)

/-- `\d` -/
def decimalChar (c : Char) : Bool := (R.digit c).isSome

/-- `\d+(?:\.\d+)?` at the start of a text, and what follows it. -/
def clockNumber (t : Text) : Option (Text × Text) :=
  let whole := t.takeWhile (decimalChar R)
  if whole = [] then none
  else
    match t.dropWhile (decimalChar R) with
    | '.' :: rest =>
      let part := rest.takeWhile (decimalChar R)
      if part = [] then none else some (whole ++ '.' :: part, rest.dropWhile (decimalChar R))
    | rest => some (whole, rest)

/-- The seconds of a period, and its increment. -/
def periodTail (moves : Option Text) (t : Text) : Option (Option Text × Text × Option Text) :=
  (clockNumber R t).bind fun (seconds, rest) =>
    match rest with
    | [] => some (moves, seconds, none)
    | '+' :: rest => (clockNumber R rest).bind fun (increment, rest) =>
      if rest = [] then some (moves, seconds, some increment) else none
    | _ => none

/-- `re.fullmatch(r"(?:(\d+)/)?(\d+(?:\.\d+)?)(?:\+(\d+(?:\.\d+)?))?", raw_period)` -/
def periodFields (raw : Text) : Option (Option Text × Text × Option Text) :=
  match raw.dropWhile (decimalChar R) with
  | '/' :: rest =>
    let moves := raw.takeWhile (decimalChar R)
    if moves = [] then none else periodTail R (some moves) rest
  | _ => periodTail R none raw

/-- The periods before the first that is no period, and whether there is none such. -/
def periodsOf : List Text → Except Text (List Period × Bool)
  | [] => pure ([], true)
  | raw :: rest =>
    match periodFields R raw with
    | none => pure ([], false)
    | some (none, seconds, increment) => do
      let (periods, parsed) ← periodsOf rest
      pure (⟨none, seconds, increment, raw⟩ :: periods, parsed)
    | some (some moves, seconds, increment) => do
      let n ← pyInt R moves
      let (periods, parsed) ← periodsOf rest
      pure (⟨some n, seconds, increment, raw⟩ :: periods, parsed)

/-- A label that says nothing. -/
def blankLabel (label : Option Text) : Bool :=
  decide (label = none ∨ label = some [] ∨ label = some "?".toList ∨ label = some "-".toList)

/-- `parse_clock_rules` -/
def parseClockRules (label : Option Text) (game : NormalizedGame) : Except Text ClockRules :=
  let clock := game.native "clock".toList
  let timeControl := game.native "time_control".toList
  if blankLabel label then pure ⟨label, .unavailable, [], clock, timeControl⟩
  else do
    let (periods, parsed) ← periodsOf R ((label.getD []).splitOn ':')
    pure ⟨label, if parsed then .parsed else .preserved, periods, clock, timeControl⟩

end Label

/-! ## The whole -/

/-- `_parse_clock` as the loop calls it. -/
def evidenceClock (value : Text) : Except Text (Option (Rat × Rat)) :=
  match parseClock value with
  | .ok clock => .ok (clock.map fun c => (c.1.value, c.2.value))
  | .error _ => .error "decimal.Overflow".toList

/-- The rules with the clocks of this module. -/
def Rules.timed (R : Rules) : Rules := { R with parseClock := evidenceClock }

/-- The tags of the text that is parsed. -/
def headersOf (game : NormalizedGame) (ms : List Match) : Headers :=
  if (moveText game).1 = [] then [] else (tagsOf ms).foldl (fun h p => Headers.set h p.1 p.2) []

/-- The label that is interpreted: the tag of the text, or the provider's. -/
def labelOf (game : NormalizedGame) (label : Option Text) (ms : List Match) : Option Text :=
  ((headersOf game ms).get "TimeControl".toList).or label

/-- `parse_game_evidence` with its time control. -/
def parseEvidence (R : Rules) (game : NormalizedGame) (label : Option Text) (ms : List Match) :
    Except Text (GameEvidence × ClockRules) := do
  let rules ← parseClockRules R (labelOf game label ms) game
  let evidence ← parseGameEvidence R.timed game ms
  pure (evidence, rules)

/-! ## What can be read -/

/-- A clock whose seconds have more than a million digits before the point. -/
def Overflows (value : Text) : Prop := ∃ hours minutes seconds fraction,
  ClockText value hours minutes seconds fraction ∧ natOf minutes < 60 ∧ natOf seconds < 60 ∧
    fraction.length ≤ 16383 ∧ 10 ^ (999999 + 1) ≤ wholeOf hours minutes seconds

theorem parseClock_error {value : Text} : (∃ e, parseClock value = .error e) ↔ Overflows value := by
  constructor
  · rintro ⟨e, h⟩
    cases hfields : clockFields value with
    | none =>
      unfold parseClock at h
      rw [hfields] at h
      cases h
    | some fields =>
      obtain ⟨hours, minutes, seconds, fraction⟩ := fields
      have ht := text_of_clockFields hfields
      have hrange : natOf minutes < 60 ∧ natOf seconds < 60 ∧ fraction.length ≤ 16383 := by
        unfold parseClock at h
        rw [hfields] at h
        dsimp only at h
        split at h
        · cases h
        · split at h
          · cases h
          · omega
      rw [parseClock_eq ht hrange.1 hrange.2.1 hrange.2.2] at h
      split at h
      · split at h <;> cases h
      · next hlarge => exact ⟨hours, minutes, seconds, fraction, ht, hrange.1, hrange.2.1, hrange.2.2, not_lt.mp hlarge⟩
  · rintro ⟨hours, minutes, seconds, fraction, ht, hm, hs, hf, hlarge⟩
    exact ⟨_, by rw [parseClock_eq ht hm hs hf, if_neg (not_lt.mpr hlarge)]⟩

theorem evidenceClock_ok {value : Text} : (∃ clock, evidenceClock value = .ok clock) ↔ ¬ Overflows value := by
  rw [← parseClock_error]
  unfold evidenceClock
  cases parseClock value with
  | ok clock => simp
  | error e => simp

/-- The periods that are read. -/
def readPeriods (R : Rules) (label : Option Text) : List Text :=
  if blankLabel label then []
  else ((label.getD []).splitOn ':').takeWhile fun raw => (periodFields R raw).isSome

/-- The number of moves of a period has a value. -/
def Countable (R : Rules) (raw : Text) : Prop :=
  ∀ moves seconds increment, periodFields R raw = some (some moves, seconds, increment) → moves.length ≤ 4300

/-- The numbers of a token have values. -/
def Convertible (R : Rules) (text : Text) (m : Match) : Prop :=
  match m.group.kind with
  | .nag => (slice text m.start m.stop).length ≤ 4301
  | .comment => ∀ found ∈ annotationsIn ((slice text m.start m.stop).drop 1).dropLast.length
      ((slice text m.start m.stop).drop 1).dropLast,
      R.lower found.1 = "clk".toList ∨ R.lower found.1 = "emt".toList → ¬ Overflows found.2.1
  | .commentEol => ∀ found ∈ annotationsIn ((slice text m.start m.stop).drop 1).length ((slice text m.start m.stop).drop 1),
      R.lower found.1 = "clk".toList ∨ R.lower found.1 = "emt".toList → ¬ Overflows found.2.1
  | _ => True

/-- Every number that the code converts is one that CPython and its decimal contexts convert. -/
structure Readable (R : Rules) (game : NormalizedGame) (label : Option Text) (ms : List Match) : Prop where
  periods : ∀ raw ∈ readPeriods R (labelOf game label ms), Countable R raw
  start : Native.Printable (startingValue (headersOf game ms) game)
  tokens : (moveText game).1 ≠ [] → ∀ m ∈ ms, Convertible R (moveText game).1 m
  clocks : ∀ v ∈ game.clocks.getD [], Native.Printable v

/-! ## Integers -/

/-- What the code relies on of the host and of `pgn_read`. -/
structure Rules.Lawful (R : Rules) : Prop where
  ascii : ∀ c : Char, c.isDigit = true → (R.digit c).isSome = true
  plain : ∀ c, (R.digit c).isSome = true → isSpace c = false ∧ c ≠ '_' ∧ c ≠ '+' ∧ c ≠ '-'
  initialFen : ∀ headers fen, R.initialFen headers = some fen → 2 ≤ (words fen).length
  boardFen : ∀ g, 2 ≤ (words (R.boardFen g)).length
  error : ∀ g, R.stateIsNone (R.setGameError g) = false

/-- What the code relies on of the matches: a numeric glyph is a dollar sign and digits, and a move that leaves the
validator without an error has left a delta of its position. -/
structure Glyphs (R : Rules) (text : Text) (ms : List Match) : Prop where
  nags : ∀ m ∈ ms, m.group.kind = .nag → ∃ ds : Text, slice text m.start m.stop = '$' :: ds ∧ ds ≠ [] ∧
    ∀ d ∈ ds, d.isDigit = true
  moves : ∀ m ∈ ms, m.group = .move → ∀ g, (R.add text g m.start).2 = none →
    R.stateIsNone (R.add text g m.start).1 = true → (R.delta (R.add text g m.start).1).isSome = true

section Integers
variable {R : Rules}

theorem digitsOf_run (hR : R.Lawful) (started : Bool) {ds : Text} (hds : ∀ d ∈ ds, (R.digit d).isSome = true)
    (hne : started = true ∨ ds ≠ []) : ∃ ns, digitsOf R started ds = some ns ∧ ns.length = ds.length := by
  induction ds generalizing started with
  | nil =>
    have hstarted : started = true := hne.resolve_right fun h => h rfl
    exact ⟨[], by rw [digitsOf, hstarted]; rfl, rfl⟩
  | cons d ds ih =>
    have hd := hds d List.mem_cons_self
    obtain ⟨n, hn⟩ := Option.isSome_iff_exists.mp hd
    obtain ⟨ns, hns, hlen⟩ := ih true (fun x hx => hds x (List.mem_cons_of_mem _ hx)) (.inl rfl)
    refine ⟨n :: ns, ?_, by simp [hlen]⟩
    rw [digitsOf]
    · rw [hn, hns]
      rfl
    · intro h
      exact (hR.plain d hd).2.1 h

theorem dropWhile_first {p : Char → Bool} {t : Text} (h : ∀ c ∈ t, p c = false) : t.dropWhile p = t := by
  cases t with
  | nil => rfl
  | cons c t => rw [List.dropWhile_cons_of_neg (by rw [h c List.mem_cons_self]; decide)]

theorem strip_plain {t : Text} (h : ∀ c ∈ t, isSpace c = false) : strip t = t := by
  unfold strip
  rw [dropWhile_first h, dropWhile_first fun c hc => h c (List.mem_reverse.mp hc), List.reverse_reverse]

/-- `int` of a run of digits has a value exactly up to 4300 of them. -/
theorem pyInt_run (hR : R.Lawful) {ds : Text} (hne : ds ≠ []) (hds : ∀ d ∈ ds, (R.digit d).isSome = true) :
    (∃ n, pyInt R ds = .ok n) ↔ ds.length ≤ 4300 := by
  obtain ⟨ns, hns, hlen⟩ := digitsOf_run hR false hds (.inr hne)
  have hstrip : strip ds = ds := strip_plain fun c hc => (hR.plain c (hds c hc)).1
  obtain ⟨d, rest, rfl⟩ := List.exists_cons_of_ne_nil hne
  obtain ⟨_, _, hplus, hminus⟩ := hR.plain d (hds d List.mem_cons_self)
  unfold pyInt
  rw [hstrip]
  split
  next sign body hsigned =>
  split at hsigned
  · next heq => exact absurd (List.cons.inj heq).1 hminus
  · next heq => exact absurd (List.cons.inj heq).1 hplus
  · cases hsigned
    rw [hns]
    dsimp only
    rw [hlen]
    split
    · next hlong =>
      simp only [reduceCtorEq, exists_false, false_iff]
      omega
    · next hshort =>
      simp only [Except.ok.injEq, exists_eq', true_iff]
      omega

end Integers

/-! ## Each part -/

section Parts
variable {R : Rules}

theorem periodTail_moves {moves : Option Text} {t : Text} {fields : Option Text × Text × Option Text}
    (h : periodTail R moves t = some fields) : fields.1 = moves := by
  unfold periodTail at h
  obtain ⟨⟨seconds, rest⟩, _, h⟩ := Option.bind_eq_some_iff.mp h
  dsimp only at h
  split at h
  · cases h
    rfl
  · obtain ⟨⟨increment, rest⟩, _, h⟩ := Option.bind_eq_some_iff.mp h
    dsimp only at h
    split at h
    · cases h
      rfl
    · cases h
  · cases h

/-- The number of moves is a run of digits. -/
theorem periodFields_moves {raw moves seconds : Text} {increment : Option Text}
    (h : periodFields R raw = some (some moves, seconds, increment)) :
    moves ≠ [] ∧ ∀ d ∈ moves, (R.digit d).isSome = true := by
  unfold periodFields at h
  split at h
  · dsimp only at h
    split at h
    · cases h
    · next hne =>
      have hmoves := Option.some.inj (periodTail_moves h)
      rw [hmoves]
      exact ⟨hne, fun d hd => (List.mem_takeWhile_imp hd : decimalChar R d = true)⟩
  · exact nomatch periodTail_moves h

theorem periodsOf_ok (hR : R.Lawful) (rows : List Text) : (∃ r, periodsOf R rows = .ok r) ↔
    ∀ raw ∈ rows.takeWhile (fun raw => (periodFields R raw).isSome), Countable R raw := by
  induction rows with
  | nil => simp [periodsOf, pure, Except.pure]
  | cons raw rows ih =>
    unfold periodsOf
    cases hfields : periodFields R raw with
    | none => simp [hfields, pure, Except.pure]
    | some fields =>
      obtain ⟨moves, seconds, increment⟩ := fields
      rw [List.takeWhile_cons_of_pos (by rw [hfields]; rfl), List.forall_mem_cons, ← ih]
      cases moves with
      | none =>
        have hcount : Countable R raw := by
          intro moves' seconds' increment' h
          rw [hfields] at h
          cases h
        constructor
        · rintro ⟨r, hr⟩
          obtain ⟨tail, htail, _⟩ := bind_ok hr
          exact ⟨hcount, tail, htail⟩
        · rintro ⟨_, tail, htail⟩
          dsimp only
          rw [htail]
          exact ⟨_, rfl⟩
      | some moves =>
        obtain ⟨hne, hds⟩ := periodFields_moves hfields
        have hcount : Countable R raw ↔ moves.length ≤ 4300 := by
          refine ⟨fun h => h moves seconds increment hfields, fun hle moves' seconds' increment' h => ?_⟩
          rw [hfields] at h
          cases h
          exact hle
        rw [hcount, ← pyInt_run hR hne hds]
        constructor
        · rintro ⟨r, hr⟩
          obtain ⟨n, hn, hr⟩ := bind_ok hr
          obtain ⟨tail, htail, _⟩ := bind_ok hr
          exact ⟨⟨n, hn⟩, tail, htail⟩
        · rintro ⟨⟨n, hn⟩, tail, htail⟩
          dsimp only
          rw [hn]
          show ∃ r, (periodsOf R rows >>= _) = .ok r
          rw [htail]
          exact ⟨_, rfl⟩

theorem parseClockRules_ok (hR : R.Lawful) (label : Option Text) (game : NormalizedGame) :
    (∃ r, parseClockRules R label game = .ok r) ↔ ∀ raw ∈ readPeriods R label, Countable R raw := by
  unfold parseClockRules readPeriods
  dsimp only
  split
  · simp [pure, Except.pure]
  · rw [← periodsOf_ok hR]
    constructor
    · rintro ⟨r, hr⟩
      obtain ⟨tail, htail, _⟩ := bind_ok hr
      exact ⟨tail, htail⟩
    · rintro ⟨tail, htail⟩
      rw [htail]
      exact ⟨_, rfl⟩

/-- An entry of the clocks is kept exactly if it has a JSON text. -/
theorem providerClock_ok {played : List MoveNode} {i : Nat} {v : Native} :
    (∃ c, providerClock played i v = .ok c) ↔ Native.Printable v := by
  unfold providerClock
  constructor
  · rintro ⟨c, hc⟩
    obtain ⟨seconds, _, hc⟩ := bind_ok hc
    obtain ⟨raw, hraw, _⟩ := bind_ok hc
    exact Native.dumps_ok.mp ⟨raw, hraw⟩
  · intro h
    have hseconds : ∃ s, providerSeconds v = .ok s := by
      unfold providerSeconds
      split
      · rw [if_neg (not_le_of_gt (Native.printable_int.mp h))]
        exact ⟨_, rfl⟩
      · exact ⟨_, rfl⟩
    obtain ⟨seconds, hseconds⟩ := hseconds
    obtain ⟨raw, hraw⟩ := Native.dumps_ok.mpr h
    rw [ok_bind hseconds, ok_bind hraw]
    exact ⟨_, rfl⟩

theorem providerObservations_ok (game : NormalizedGame) (nodes : List MoveNode) :
    (∃ r, providerObservations game nodes = .ok r) ↔ ∀ v ∈ game.clocks.getD [], Native.Printable v := by
  have hall : (∃ cs, ((game.clocks.getD []).zipIdx).mapM (fun entry => providerClock (playedNodes nodes) entry.2 entry.1) =
      .ok cs) ↔ ∀ v ∈ game.clocks.getD [], Native.Printable v := by
    rw [mapM_ok_iff]
    constructor
    · intro h v hv
      obtain ⟨i, hi, rfl⟩ := List.getElem_of_mem hv
      have hentry : ((game.clocks.getD [])[i], i) ∈ (game.clocks.getD []).zipIdx :=
        List.mem_zipIdx_iff_getElem?.mpr (List.getElem?_eq_getElem hi)
      exact providerClock_ok.mp (h _ hentry)
    · intro h entry hentry
      have hv := List.mem_of_getElem? (List.mem_zipIdx_iff_getElem?.mp hentry)
      exact providerClock_ok.mpr (h entry.1 hv)
  rw [← hall]
  unfold providerObservations
  constructor
  · rintro ⟨r, hr⟩
    obtain ⟨cs, hcs, _⟩ := bind_ok hr
    exact ⟨cs, hcs⟩
  · rintro ⟨cs, hcs⟩
    dsimp only
    rw [hcs]
    exact ⟨_, rfl⟩

end Parts

/-! ## The loop -/

section Loop
variable {R : Rules}

/-- Each position that a node has says whose move it is. -/
def Fens (w : Walk R) : Prop := ∀ fen ∈ w.nodes.map MoveNode.fenAfter, ∀ t, fen = some t → t ≠ [] → 2 ≤ (words t).length

theorem Fens.same {w w' : Walk R} (h : Fens w) (hsame : w'.nodes.map MoveNode.fenAfter = w.nodes.map MoveNode.fenAfter) :
    Fens w' := by
  unfold Fens
  rw [hsame]
  exact h

theorem Fens.edit {w : Walk R} (h : Fens w) (i : Nat) {g : MoveNode → MoveNode} (hg : ∀ n, (g n).fenAfter = n.fenAfter) :
    Fens (w.edit i g) :=
  h.same (map_modify hg w.nodes i)

theorem Fens.node {w : Walk R} (h : Fens w) {i : Nat} {fen : Text} (hfen : (w.node i).fenAfter = some fen)
    (hne : fen ≠ []) : 2 ≤ (words fen).length := by
  unfold Walk.node at hfen
  rw [List.getD_eq_getElem?_getD] at hfen
  cases hi : w.nodes[i]? with
  | none =>
    rw [hi] at hfen
    cases hfen
  | some n =>
    rw [hi] at hfen
    exact h _ (List.mem_map_of_mem (List.mem_of_getElem? hi)) fen hfen hne

theorem lex_nodes (f : Frame) (w : Walk R) (m : Match) : (w.lex f m).nodes = w.nodes := by
  have hgap : (w.gap f m.start).nodes = w.nodes := by
    unfold Walk.gap
    split <;> rfl
  unfold Walk.lex
  dsimp only
  split
  · split <;> exact hgap
  · exact hgap

/-- A game that the validator takes further is as `add_token_to_game` left it. -/
theorem lex_game (hR : R.Lawful) {f : Frame} {w : Walk R} {m : Match} (hsupported : f.supported = true)
    (hstate : R.stateIsNone (w.lex f m).game = true) :
    (w.lex f m).game = (R.add f.text (w.gap f m.start).game m.start).1 ∧
      (R.add f.text (w.gap f m.start).game m.start).2 = none := by
  unfold Walk.lex at hstate ⊢
  dsimp only at hstate ⊢
  rw [if_pos hsupported] at hstate ⊢
  split at hstate
  · next game heq =>
    have heq' : R.add f.text (w.gap f m.start).game m.start = (game, none) := heq
    rw [heq']
    exact ⟨rfl, rfl⟩
  · next game detail heq => exact absurd ((hR.error game).symm.trans hstate) Bool.false_ne_true

theorem mover_ok {f : Frame} {w : Walk R} (h : Fens w) : ∃ mover, w.mover f = .ok mover := by
  unfold Walk.mover
  dsimp only
  split
  · exact ⟨_, rfl⟩
  · exact ⟨_, rfl⟩
  · next fen hne hfen =>
    have hlen := h.node hfen hne
    unfold moverFromFen
    rw [List.getElem?_eq_getElem (by omega)]
    exact ⟨_, rfl⟩

theorem uciFromDelta_ok {g : R.Game} (h : (R.delta g).isSome = true) (mover : Mover) :
    ∃ uci, uciFromDelta R g mover = .ok uci := by
  obtain ⟨delta, hdelta⟩ := Option.isSome_iff_exists.mp h
  unfold uciFromDelta
  rw [hdelta]
  dsimp only
  split <;> exact ⟨_, rfl⟩

theorem moveNode_ok (hR : R.Lawful) {f : Frame} {w : Walk R} {ms : List Match} (hms : Glyphs R f.text ms) {m : Match}
    (hm : m ∈ ms) (hkind : m.group.kind = .move) (token : Text) (mover : Mover) :
    ∃ node, (w.lex f m).moveNode f m.group token mover = .ok node := by
  unfold Walk.moveNode
  dsimp only
  split
  · next haccepts =>
    unfold Walk.accepts at haccepts
    simp only [Bool.and_eq_true, decide_eq_true_eq] at haccepts
    obtain ⟨⟨hsupported, hstate⟩, hpass⟩ := haccepts
    have hmove : m.group = .move := by
      cases hgroup : m.group <;> rw [hgroup] at hkind hpass <;> first | rfl | exact absurd rfl hpass | cases hkind
    obtain ⟨hgame, hnone⟩ := lex_game hR hsupported hstate
    have hdelta := hms.moves m hm hmove _ hnone (hgame ▸ hstate)
    obtain ⟨uci, huci⟩ := uciFromDelta_ok hdelta mover
    rw [hgame, huci]
    exact ⟨_, rfl⟩
  · exact ⟨_, rfl⟩

theorem move_ok (hR : R.Lawful) {f : Frame} {w : Walk R} (h : Fens w) {ms : List Match} (hms : Glyphs R f.text ms) {m : Match}
    (hm : m ∈ ms) (hkind : m.group.kind = .move) (index : Nat) (token : Text) :
    ∃ t, (w.lex f m).move f index m.group token = .ok t := by
  obtain ⟨mover, hmover⟩ := mover_ok (h.same (by rw [lex_nodes]) : Fens (w.lex f m))
  obtain ⟨node, hnode⟩ := moveNode_ok hR (w := w) hms hm hkind token mover
  unfold Walk.move
  rw [hmover]
  show ∃ t, (Walk.moveNode f (w.lex f m) m.group token mover >>= _) = .ok t
  rw [hnode]
  exact ⟨_, rfl⟩

theorem observe_ok (hclock : ∀ v, (∃ c, R.parseClock v = .ok c) ↔ ¬ Overflows v) (nodeIndex : Option Nat) (token : Nat)
    (w : Walk R) (found : (Text × Text × Text) × Nat) : (∃ t, Walk.observe nodeIndex token w found = .ok t) ↔
      (R.lower found.1.1 = "clk".toList ∨ R.lower found.1.1 = "emt".toList → ¬ Overflows found.1.2.1) := by
  unfold Walk.observe
  dsimp only
  split
  · next hcommand =>
    simp only [Bool.or_eq_true, decide_eq_true_eq] at hcommand
    rw [← hclock]
    constructor
    · rintro ⟨t, ht⟩ _
      obtain ⟨c, hc, _⟩ := bind_ok ht
      exact ⟨c, hc⟩
    · intro h
      obtain ⟨c, hc⟩ := h hcommand
      rw [hc]
      exact ⟨_, rfl⟩
  · next hcommand =>
    simp only [Bool.or_eq_true, decide_eq_true_eq] at hcommand
    exact iff_of_true ⟨_, rfl⟩ fun h => absurd h hcommand

theorem comment_ok (hclock : ∀ v, (∃ c, R.parseClock v = .ok c) ↔ ¬ Overflows v) (w : Walk R) (index : Nat) (text : Text) :
    (∃ t, w.comment index text = .ok t) ↔ ∀ found ∈ annotationsIn text.length text,
      R.lower found.1 = "clk".toList ∨ R.lower found.1 = "emt".toList → ¬ Overflows found.2.1 := by
  unfold Walk.comment
  dsimp only
  rw [foldlM_ok_iff (I := fun _ => True) (fun s _ e _ => observe_ok hclock _ index s e) (fun _ _ _ _ _ _ => trivial)
    trivial]
  conv_rhs => rw [← List.zipIdx_map_fst 0 (annotationsIn text.length text), List.forall_mem_map]

theorem fens_observe {nodeIndex : Option Nat} {token : Nat} {found : (Text × Text × Text) × Nat} {w w' : Walk R}
    (hw : Walk.observe nodeIndex token w found = .ok w') (h : Fens w) : Fens w' := by
  unfold Walk.observe at hw
  dsimp only at hw
  have hedit := h.edit (nodeIndex.getD 0)
    (g := fun n => { n with annotations := n.annotations ++ [.pgn found.1.1 found.1.2.1 found.1.2.2 token found.2] })
    fun _ => rfl
  split at hw
  · obtain ⟨clock, _, hw⟩ := bind_ok hw
    cases hw
    exact hedit.same rfl
  · cases hw
    exact hedit

theorem fens_comment {w w' : Walk R} {index : Nat} {text : Text} (hw : w.comment index text = .ok w') (h : Fens w) :
    Fens w' := by
  unfold Walk.comment at hw
  dsimp only at hw
  refine foldlM_keeps (fun u e v hu => fens_observe hu) ?_ hw
  split
  · exact h.same rfl
  · exact h.edit _ fun _ => rfl

theorem fens_move (hR : R.Lawful) {f : Frame} {w w' : Walk R} {index : Nat} {group : Group} {token : Text}
    (hw : w.move f index group token = .ok w') (h : Fens w) : Fens w' := by
  unfold Walk.move at hw
  obtain ⟨mover, _, hw⟩ := bind_ok hw
  obtain ⟨node, hnode, hw⟩ := bind_ok hw
  cases hw
  have hfen : ∀ t, node.fenAfter = some t → 2 ≤ (words t).length := by
    intro t ht
    unfold Walk.moveNode at hnode
    dsimp only at hnode
    split at hnode
    · cases huci : uciFromDelta R w.game mover with
      | error e =>
        rw [huci] at hnode
        cases hnode
      | ok uci =>
        rw [huci] at hnode
        cases hnode
        cases ht
        exact hR.boardFen _
    · cases hnode
      cases ht
  have hattach : Fens (w.attach node) := by
    intro fen hmem t ht hne
    have hmem' : fen ∈ (w.nodes ++ [node]).map MoveNode.fenAfter := hmem
    rw [List.map_append, List.mem_append] at hmem'
    obtain hold | hnew := hmem'
    · exact h fen hold t ht hne
    · exact hfen t (by rw [← ht]; exact (List.mem_singleton.mp hnew).symm)
  split
  · exact hattach.same rfl
  · exact hattach

theorem fens_interpretToken (hR : R.Lawful) {f : Frame} {w w' : Walk R} {index : Nat} {group : Group} {token : Text}
    (hw : w.interpretToken f index group token = .ok w') (h : Fens w) : Fens w' := by
  unfold Walk.interpretToken at hw
  split at hw
  · cases hw
    unfold Walk.startVariation
    dsimp only
    split <;> exact h.same rfl
  · cases hw
    unfold Walk.endVariation
    split <;> exact h.same rfl
  · exact fens_move hR hw h
  · exact fens_comment hw h
  · exact fens_comment hw h
  · obtain ⟨n, _, hw⟩ := bind_ok hw
    cases hw
    exact h.edit _ fun _ => rfl
  · cases hw
    exact h.edit _ fun _ => rfl
  · cases hw
    split
    · exact h
    · exact h.edit _ fun _ => rfl
  · cases hw
    unfold Walk.result
    dsimp only
    split <;> split <;> exact h.same rfl
  · cases hw
    exact h.same rfl
  · cases hw
    exact h

/-- A token is taken exactly if its numbers have values. -/
theorem step_ok (hR : R.Lawful) (hclock : ∀ v, (∃ c, R.parseClock v = .ok c) ↔ ¬ Overflows v) {f : Frame} {w : Walk R}
    (h : Fens w) {ms : List Match} (hms : Glyphs R f.text ms) {m : Match} (hm : m ∈ ms) :
    (∃ t, w.step f m = .ok t) ↔ Convertible R f.text m := by
  unfold Walk.step Walk.interpretToken Convertible
  dsimp only
  split
  · next hkind =>
    rw [hkind]
    exact iff_of_true ⟨_, rfl⟩ trivial
  · next hkind =>
    rw [hkind]
    exact iff_of_true ⟨_, rfl⟩ trivial
  · next hkind =>
    rw [hkind]
    exact iff_of_true (move_ok hR h hms hm hkind _ _) trivial
  · next hkind =>
    rw [hkind]
    exact comment_ok hclock _ _ _
  · next hkind =>
    rw [hkind]
    exact comment_ok hclock _ _ _
  · next hkind =>
    rw [hkind]
    obtain ⟨ds, hslice, hne, hds⟩ := hms.nags m hm hkind
    rw [hslice]
    have hlen : ('$' :: ds).length ≤ 4301 ↔ ds.length ≤ 4300 := by
      rw [List.length_cons]
      omega
    rw [hlen, ← pyInt_run hR hne fun d hd => hR.ascii d (hds d hd)]
    constructor
    · rintro ⟨t, ht⟩
      obtain ⟨n, hn, _⟩ := bind_ok ht
      exact ⟨n, hn⟩
    · rintro ⟨n, hn⟩
      rw [show ('$' :: ds).drop 1 = ds from rfl, hn]
      exact ⟨_, rfl⟩
  · next hkind =>
    rw [hkind]
    exact iff_of_true ⟨_, rfl⟩ trivial
  · next hkind =>
    rw [hkind]
    exact iff_of_true ⟨_, rfl⟩ trivial
  · next hkind =>
    rw [hkind]
    exact iff_of_true ⟨_, rfl⟩ trivial
  · next hkind =>
    rw [hkind]
    exact iff_of_true ⟨_, rfl⟩ trivial
  · next h1 h2 h3 h4 h5 h6 h7 h8 h9 h10 =>
    refine iff_of_true ⟨_, rfl⟩ ?_
    split
    · next hkind => exact absurd hkind h6
    · next hkind => exact absurd hkind h4
    · next hkind => exact absurd hkind h5
    · trivial

theorem walk_ok (hR : R.Lawful) (hclock : ∀ v, (∃ c, R.parseClock v = .ok c) ↔ ¬ Overflows v) {f : Frame} {w : Walk R}
    (h : Fens w) {ms : List Match} (hms : Glyphs R f.text ms) :
    (∃ t, ms.foldlM (Walk.step f) w = .ok t) ↔ ∀ m ∈ ms, Convertible R f.text m := by
  have hstep : ∀ u : Walk R, Fens u → ∀ m ∈ ms, ((∃ t, u.step f m = .ok t) ↔ Convertible R f.text m) :=
    fun u hu m hm => step_ok hR hclock hu hms hm
  have hkeep : ∀ u : Walk R, Fens u → ∀ m ∈ ms, ∀ t, u.step f m = .ok t → Fens t := by
    intro u hu m _ t ht
    have hlex : Fens (u.lex f m) := hu.same (by rw [lex_nodes])
    exact fens_interpretToken hR ht hlex
  exact foldlM_ok_iff hstep hkeep h

end Loop

/-! ## Every game -/

section Whole
variable {R : Rules}

theorem Rules.Lawful.timed (hR : R.Lawful) : R.timed.Lawful :=
  ⟨hR.ascii, hR.plain, hR.initialFen, hR.boardFen, hR.error⟩

theorem fens_open (hR : R.Lawful) (game : NormalizedGame) (text : Text) (headers : Headers) (startFen : Text) :
    Fens (openWalk R game text headers startFen).2 := by
  intro fen hmem t ht _
  unfold openWalk at hmem
  simp only [List.map_cons, List.map_nil, List.mem_singleton] at hmem
  rw [ht] at hmem
  unfold MoveNode.root at hmem
  dsimp only at hmem
  split at hmem
  · exact hR.initialFen _ t hmem.symm
  · cases hmem

theorem parseGameEvidence_ok (hR : R.Lawful) (hclock : ∀ v, (∃ c, R.parseClock v = .ok c) ↔ ¬ Overflows v)
    (game : NormalizedGame) {ms : List Match} (hms : Glyphs R (moveText game).1 ms) :
    (∃ e, parseGameEvidence R game ms = .ok e) ↔
      Native.Printable (startingValue (headersOf game ms) game) ∧
        ((moveText game).1 ≠ [] → ∀ m ∈ ms, Convertible R (moveText game).1 m) ∧
        ∀ v ∈ game.clocks.getD [], Native.Printable v := by
  unfold parseGameEvidence headersOf
  generalize hheaders : (tagsOf ms).foldl (fun h p => Headers.set h p.1 p.2) [] = headers
  rw [← @Native.pyStr_ok R.quoted]
  by_cases hempty : (moveText game).1 = []
  · rw [← providerObservations_ok game [.root none]]
    dsimp only
    rw [if_pos hempty, if_pos hempty]
    constructor
    · rintro ⟨e, he⟩
      obtain ⟨startFen, hstart, he⟩ := bind_ok he
      obtain ⟨r, hr, _⟩ := bind_ok he
      exact ⟨⟨startFen, hstart⟩, fun h => absurd hempty h, r, hr⟩
    · rintro ⟨⟨startFen, hstart⟩, _, r, hr⟩
      rw [ok_bind (show initialFen R [] game = .ok startFen from hstart), ok_bind hr]
      exact ⟨_, rfl⟩
  · have hwalk := fun startFen => walk_ok hR hclock (fens_open hR game (moveText game).1 headers startFen)
      (f := (openWalk R game (moveText game).1 headers startFen).1) hms
    dsimp only
    rw [if_neg hempty, if_neg hempty, hheaders]
    constructor
    · rintro ⟨e, he⟩
      obtain ⟨startFen, hstart, he⟩ := bind_ok he
      obtain ⟨walked, hwalked, he⟩ := bind_ok he
      obtain ⟨r, hr, _⟩ := bind_ok he
      exact ⟨⟨startFen, hstart⟩, fun _ => (hwalk startFen).mp ⟨walked, hwalked⟩, (providerObservations_ok game _).mp ⟨r, hr⟩⟩
    · rintro ⟨⟨startFen, hstart⟩, htokens, hclocks⟩
      obtain ⟨walked, hwalked⟩ := (hwalk startFen).mpr (htokens hempty)
      obtain ⟨r, hr⟩ :=
        (providerObservations_ok game (walked.close (openWalk R game _ headers startFen).1).nodes).mpr hclocks
      rw [ok_bind (show initialFen R headers game = .ok startFen from hstart), ok_bind hwalked, ok_bind hr]
      exact ⟨_, rfl⟩

/-- Every game text, native object and label gives its evidence, exactly if every number of them that is converted can be. -/
theorem evidence_returned_iff (hR : R.Lawful) (game : NormalizedGame) (label : Option Text) {ms : List Match}
    (hms : Glyphs R (moveText game).1 ms) :
    (∃ r, parseEvidence R game label ms = .ok r) ↔ Readable R game label ms := by
  have hrules := parseClockRules_ok hR (labelOf game label ms) game
  have hgame := parseGameEvidence_ok hR.timed (fun _ => evidenceClock_ok) game (R := R.timed) ⟨hms.nags, hms.moves⟩
  constructor
  · rintro ⟨r, hr⟩
    obtain ⟨rules, hok, hr⟩ := bind_ok hr
    obtain ⟨e, he, _⟩ := bind_ok hr
    obtain ⟨hstart, htokens, hclocks⟩ := hgame.mp ⟨e, he⟩
    exact ⟨hrules.mp ⟨rules, hok⟩, hstart, htokens, hclocks⟩
  · intro h
    obtain ⟨rules, hok⟩ := hrules.mpr h.periods
    obtain ⟨e, he⟩ := hgame.mpr ⟨h.start, h.tokens, h.clocks⟩
    unfold parseEvidence
    rw [ok_bind hok, ok_bind he]
    exact ⟨_, rfl⟩

end Whole

/-! ## A pawn's move -/

/-- `pgn_read` as far as the texts below reach it: whether a game is in error, and whether the pawn has moved. -/
def pawnRules : Rules where
  Game := Bool × Bool
  start _ := (false, false)
  initialFen _ := some initialPosition
  add text g start := (if text[start]? = some 'e' then (g.1, true) else g, none)
  setGameError g := (true, g.2)
  stateIsNone g := !g.1
  gameOk g := !g.1
  boardFen g :=
    if g.2 then "rnbqkbnr/pppppppp/8/8/4P3/8/PPPP1PPP/RNBQKBNR b KQkq - 0 1".toList else initialPosition
  delta g := if g.2 then some ([("e2".toList, 'P')], [("e4".toList, 'P')]) else none
  sha256 t := t
  lower t := t.map Char.toLower
  quoted t := t
  digit c := if c.isDigit then some (c.toNat - 48) else none
  parseClock _ := .ok none

theorem pawnRules_digit {c : Char} (h : (pawnRules.digit c).isSome = true) : 48 ≤ c.toNat ∧ c.toNat ≤ 57 := by
  simp only [pawnRules, Option.isSome_ite] at h
  simp only [Char.isDigit, Bool.and_eq_true, decide_eq_true_eq, ge_iff_le, UInt32.le_iff_toNat_le] at h
  exact h

theorem pawnRules_lawful : pawnRules.Lawful := by
  refine ⟨fun c hc => ?_, fun c hc => ?_, fun headers fen hfen => ?_, fun g => ?_, fun g => rfl⟩
  · simp only [pawnRules, hc, if_true, Option.isSome_some]
  · obtain ⟨hlow, hhigh⟩ := pawnRules_digit hc
    have hplain : ∀ d : Char, d.toNat < 48 ∨ 57 < d.toNat → c ≠ d := by
      rintro d hd rfl
      omega
    refine ⟨?_, hplain '_' (by decide), hplain '+' (by decide), hplain '-' (by decide)⟩
    unfold isSpace
    dsimp only
    rw [decide_eq_false_iff_not]
    omega
  · cases hfen
    decide +kernel
  · simp only [pawnRules]
    split <;> decide +kernel

def pawnGame : NormalizedGame :=
  ⟨some "e4 $1 *".toList, "standard".toList, [("clocks".toList, .arr [.num (.int 300), .arr [.null]])]⟩

def pawnMatches : List Match := [⟨0, 2, .move⟩, ⟨3, 5, .numericAnnotationGlyph⟩, ⟨6, 7, .gameTermination⟩]

theorem pawnGame_glyphs : Glyphs pawnRules (moveText pawnGame).1 pawnMatches := by
  refine ⟨fun m hm hkind => ⟨"1".toList, ?_, by decide, by simp⟩, fun m hm hgroup g _ _ => ?_⟩
  · simp only [pawnMatches, List.mem_cons, List.not_mem_nil, or_false] at hm
    obtain rfl | rfl | rfl := hm
    · cases hkind
    · decide +kernel
    · cases hkind
  · simp only [pawnMatches, List.mem_cons, List.not_mem_nil, or_false] at hm
    obtain rfl | rfl | rfl := hm
    · rfl
    · cases hgroup
    · cases hgroup

theorem pawnGame_returned : ∃ r, parseEvidence pawnRules pawnGame (some "40/5400".toList) pawnMatches = .ok r := by
  refine (evidence_returned_iff pawnRules_lawful pawnGame _ pawnGame_glyphs).mpr
    ⟨fun raw hraw => ?_, ?_, fun _ m hm => ?_, ?_⟩
  · have hread : readPeriods pawnRules (labelOf pawnGame (some "40/5400".toList) pawnMatches) = ["40/5400".toList] := by
      decide +kernel
    rw [hread, List.mem_singleton] at hraw
    intro moves seconds increment hfields
    rw [hraw, show periodFields pawnRules "40/5400".toList = some (some "40".toList, "5400".toList, none) by decide +kernel]
      at hfields
    cases hfields
    decide
  · decide +kernel
  · simp only [pawnMatches, List.mem_cons, List.not_mem_nil, or_false] at hm
    obtain rfl | rfl | rfl := hm
    · trivial
    · show (slice (moveText pawnGame).1 3 5).length ≤ 4301
      decide +kernel
    · trivial
  · decide +kernel

/-- A time control whose number of moves has 4301 digits. -/
def longLabel : Text := List.replicate 4301 '9' ++ "/60".toList

theorem longLabel_fields :
    periodFields pawnRules longLabel = some (some (List.replicate 4301 '9'), "60".toList, none) := by
  have hdigits : ∀ c ∈ List.replicate 4301 '9', decimalChar pawnRules c = true := by
    intro c hc
    rw [List.eq_of_mem_replicate hc]
    decide
  have hdrop : longLabel.dropWhile (decimalChar pawnRules) = "/60".toList := by
    unfold longLabel
    rw [List.dropWhile_append_of_pos hdigits]
    decide
  have htake : longLabel.takeWhile (decimalChar pawnRules) = List.replicate 4301 '9' := by
    unfold longLabel
    rw [List.takeWhile_append_of_pos hdigits, show "/60".toList.takeWhile (decimalChar pawnRules) = [] by decide,
      List.append_nil]
  unfold periodFields
  rw [hdrop, htake]
  show (if List.replicate 4301 '9' = [] then none else periodTail pawnRules _ "60".toList) = _
  rw [if_neg (List.ne_nil_of_length_pos (by rw [List.length_replicate]; decide))]
  rfl

theorem longLabel_raises :
    ¬ ∃ r, parseEvidence pawnRules ⟨none, "standard".toList, []⟩ (some longLabel) [] = .ok r := by
  rintro ⟨r, hr⟩
  obtain ⟨rules, hrules, _⟩ := bind_ok hr
  have hcolon : ':' ∉ longLabel := by
    intro h
    obtain h | h := List.mem_append.mp h
    · exact absurd (List.eq_of_mem_replicate h) (by decide)
    · exact absurd h (by decide)
  have hread : readPeriods pawnRules (some longLabel) = [longLabel] := by
    have hlen : longLabel.length = 4304 := by
      unfold longLabel
      rw [List.length_append, List.length_replicate]
      rfl
    have hblank : blankLabel (some longLabel) = false := by
      unfold blankLabel
      rw [decide_eq_false_iff_not]
      rintro (h | h | h | h)
      · cases h
      all_goals
        rw [Option.some.inj h] at hlen
        cases hlen
    unfold readPeriods
    rw [hblank, if_neg Bool.false_ne_true, Option.getD_some, List.splitOn_eq_singleton hcolon,
      List.takeWhile_cons_of_pos (by rw [longLabel_fields]; rfl)]
    rfl
  have hcount := (parseClockRules_ok pawnRules_lawful (some longLabel) _).mp ⟨rules, hrules⟩ longLabel
    (by rw [hread]; exact List.mem_singleton_self _)
  have hle := hcount _ _ _ longLabel_fields
  rw [List.length_replicate] at hle
  omega

end ChessCrawl.Evidence
