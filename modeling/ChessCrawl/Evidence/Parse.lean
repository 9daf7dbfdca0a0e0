import ChessCrawl.Evidence.Pgn

/-! `parse_game_evidence`: the loop over the matches, with its variation stack and its comment buffer. -/
namespace ChessCrawl.Evidence
open ChessCrawl.Lib
set_option autoImplicit false

def initialPosition : Text := "rnbqkbnr/pppppppp/8/8/8/8/PPPPPPPP/RNBQKBNR w KQkq - 0 1".toList

/-! ## The loop -/

/-- What the loop does not change. -/
structure Frame where
  text : Text
  supported : Bool
  startFen : Text
  variantKey : Text

/-- The variables of the loop; `rav` has its top first. -/
structure Walk (R : Rules) where
  nodes : List MoveNode
  tokens : List Token
  issues : List Issue
  clocks : List ClockObservation
  game : R.Game
  current : Nat
  rav : List Nat
  children : Nat → Nat
  pendingComments : List Text
  atVariationStart : Bool
  terminated : Bool
  previousEnd : Nat

namespace Walk
variable {R : Rules}

def note (w : Walk R) (issue : Issue) : Walk R := { w with issues := w.issues ++ [issue] }

/-- `evidence.nodes[i]` -/
def node (w : Walk R) (i : Nat) : MoveNode := w.nodes.getD i default

def edit (w : Walk R) (i : Nat) (f : MoveNode → MoveNode) : Walk R := { w with nodes := w.nodes.modify i f }

def push (w : Walk R) (kind : Kind) (text : Text) (start stop : Nat) (interpretation : Interpretation) : Walk R :=
  { w with tokens := w.tokens ++ [⟨w.tokens.length, kind, text, start, stop, interpretation⟩] }

/-- `lexical["interpretation_status"] = …` for the token at an index. -/
def interpret (w : Walk R) (index : Nat) (interpretation : Interpretation) : Walk R :=
  { w with tokens := w.tokens.modify index fun t => { t with interpretation := interpretation } }

/-- Text between matches that is not blank becomes a token of its own. -/
def gap (f : Frame) (w : Walk R) (start : Nat) : Walk R :=
  if strip (slice f.text w.previousEnd start) = [] then w
  else
    (w.note (.unrecognizedGap w.previousEnd start)).push .unknownGap (slice f.text w.previousEnd start) w.previousEnd start
      .preserved

/-- The token itself, and its turn in the validator. -/
def lex (f : Frame) (w : Walk R) (m : Match) : Walk R :=
  let w := { gap f w m.start with previousEnd := m.stop }
  let w := w.push m.group.kind (slice f.text m.start m.stop) m.start m.stop (if f.supported then .parsed else .preserved)
  if f.supported then
    match R.add f.text w.game m.start with
    | (game, none) => { w with game := game }
    | (game, some detail) => { w with game := R.setGameError game }.note (.parseError (w.tokens.length - 1) detail)
  else w

def startVariation (w : Walk R) (index : Nat) : Walk R :=
  let w' := { w with rav := w.current :: w.rav, atVariationStart := true }
  match (w.node w.current).parentIndex with
  | none => { w'.note (.variationWithoutMove index) with current := 0 }
  | some parent => { w' with current := parent }

def endVariation (w : Walk R) (index : Nat) : Walk R :=
  match w.rav with
  | [] => { w.note (.unmatchedVariationEnd index) with atVariationStart := false }
  | top :: rav => { w with current := top, rav := rav, atVariationStart := false }

/-- Whose move it is at the current node. -/
def mover (f : Frame) (w : Walk R) : Except Text Mover :=
  let parent := w.node w.current
  match parent.fenAfter with
  | none => pure (moverForPly f.startFen parent.ply)
  | some [] => pure (moverForPly f.startFen parent.ply)
  | some fen => moverFromFen fen

/-- The validator has taken the move. -/
def accepts (f : Frame) (w : Walk R) (group : Group) : Bool :=
  f.supported && R.stateIsNone w.game && decide (group ≠ .pass)

/-- The node of a move, with what the validator says of it if it has taken it. -/
def moveNode (f : Frame) (w : Walk R) (group : Group) (token : Text) (mover : Mover) : Except Text MoveNode :=
  let parent := w.node w.current
  let node : MoveNode := {
    MoveNode.root none with
    nodeIndex := w.nodes.length, parentIndex := some w.current, variationIndex := w.children w.current
    ply := parent.ply + 1, isMainline := w.rav.isEmpty, mover := some mover, moveSan := some (strip token)
    fenBefore := parent.fenAfter, startingComments := w.pendingComments }
  if w.accepts f group then
    (uciFromDelta R w.game mover).map fun uci =>
      let fen := R.boardFen w.game
      { node with
        fenAfter := some fen
        moveUci := uci
        positionKeyBefore := positionKey R parent.fenAfter f.variantKey
        positionKeyAfter := positionKey R (some fen) f.variantKey }
  else pure node

def attach (w : Walk R) (node : MoveNode) : Walk R :=
  { w with
    nodes := w.nodes ++ [node], pendingComments := []
    children := Function.update w.children w.current (node.variationIndex + 1)
    current := node.nodeIndex, atVariationStart := false }

def move (f : Frame) (w : Walk R) (index : Nat) (group : Group) (token : Text) : Except Text (Walk R) := do
  let mover ← w.mover f
  let node ← w.moveNode f group token mover
  let w := w.attach node
  pure (if f.supported && !w.accepts f group then (w.interpret index .invalid).note (.invalidMove index token) else w)

/-- `_comment_observations` for one annotation. -/
def observe (nodeIndex : Option Nat) (token : Nat) (w : Walk R) (found : (Text × Text × Text) × Nat) :
    Except Text (Walk R) := do
  let ((command, value, raw), index) := found
  let w := w.edit (nodeIndex.getD 0) fun n => { n with annotations := n.annotations ++ [.pgn command value raw token index] }
  let clk := decide (R.lower command = "clk".toList)
  if clk || decide (R.lower command = "emt".toList) then do
    let clock ← R.parseClock value
    let mapped := decide (nodeIndex ≠ none ∧ nodeIndex ≠ some 0)
    pure { w with
      clocks := w.clocks ++ [{
        nodeIndex := nodeIndex, kind := if clk then .remaining else .elapsed, source := .pgn token index, rawText := raw
        seconds := clock.map Prod.fst, unit := .seconds, precision := clock.map Prod.snd
        status := if clock.isSome && mapped then .parsed else if clock.isNone then .invalid else .unmapped
        reference := if clk && mapped then .afterMove else if mapped then .elapsedMove else .unknown }] }
  else pure w

def comment (w : Walk R) (index : Nat) (text : Text) : Except Text (Walk R) :=
  let w' :=
    if w.atVariationStart then { w with pendingComments := w.pendingComments ++ [text] }
    else w.edit w.current fun n => { n with comments := n.comments ++ [text] }
  (annotationsIn text.length text).zipIdx.foldlM (observe (if w.atVariationStart then none else some w.current) index) w'

def nag (w : Walk R) (nag : Nag) : Walk R := w.edit w.current fun n => { n with nags := n.nags ++ [nag] }

def result (w : Walk R) (index : Nat) : Walk R :=
  let w := if w.terminated then w.note (.multipleGames index) else w
  if w.rav.isEmpty then { w with terminated := true } else w

/-- The branches of the loop body, after the token has been taken. -/
def interpretToken (f : Frame) (w : Walk R) (index : Nat) (group : Group) (token : Text) : Except Text (Walk R) :=
  match group.kind with
  | .variationStart => pure (w.startVariation index)
  | .variationEnd => pure (w.endVariation index)
  | .move => w.move f index group token
  | .comment => w.comment index (token.drop 1).dropLast
  | .commentEol => w.comment index (token.drop 1)
  | .nag => do
    let n ← pyInt R (token.drop 1)
    pure (w.nag (.number n))
  | .symbolicNag => pure (w.nag (.symbol token))
  | .check =>
    pure (if w.current = 0 then w
      else w.edit w.current fun n => { n with moveSan := some (n.moveSan.getD [] ++ token) })
  | .result => pure (w.result index)
  | .unknown => pure ((w.interpret index .preserved).note (.uninterpretedToken index token))
  | _ => pure w

def step (f : Frame) (w : Walk R) (m : Match) : Except Text (Walk R) :=
  let w := w.lex f m
  w.interpretToken f (w.tokens.length - 1) m.group (slice f.text m.start m.stop)

/-- What follows the loop. -/
def close (f : Frame) (w : Walk R) : Walk R :=
  let w :=
    if strip (slice f.text w.previousEnd f.text.length) = [] then w
    else
      (w.note (.unrecognizedTail w.previousEnd)).push .unknownTail (slice f.text w.previousEnd f.text.length) w.previousEnd
        f.text.length .preserved
  let w := if w.rav.isEmpty then w else w.note (.unclosedVariation w.rav.length)
  let w := if w.terminated then w else w.note .missingResult
  w.edit 0 fun n => { n with startingComments := n.startingComments ++ w.pendingComments }

end Walk

/-! ## The game -/

inductive ParseStatus
  | complete | unsupported | incomplete | unavailable
deriving DecidableEq, Repr

inductive Origin
  | pgn | providerMoves | unavailable
deriving DecidableEq, Repr

/-- All but its `time_control_rules`, which `parseEvidence` gives beside it. -/
structure GameEvidence where
  headers : Headers
  headerItems : Headers
  sourceMetadata : List (Text × Native)
  origin : Origin
  startingFen : Text
  variant : Text
  status : ParseStatus
  issues : List Issue
  nodes : List MoveNode
  tokens : List Token
  clocks : List ClockObservation

/-- `played_ply_count` -/
def GameEvidence.playedPlyCount (e : GameEvidence) : Nat :=
  (e.nodes.filter fun n => n.isMainline && decide (0 < n.nodeIndex)).length

/-- `headers.get("FEN") or native.get("initialFen") or native.get("initial_setup") or INITIAL_FEN` -/
def startingValue (headers : Headers) (game : NormalizedGame) : Native :=
  Native.or (((headers.get "FEN".toList).map Json.str).getD .null) (Native.or (game.native "initialFen".toList)
    (Native.or (game.native "initial_setup".toList) (.str initialPosition)))

/-- `_initial_fen` -/
def initialFen (R : Rules) (headers : Headers) (game : NormalizedGame) : Except Text Text :=
  Native.pyStr R.quoted (startingValue headers game)

/-- The nodes that `_provider_observations` counts. -/
def playedNodes (nodes : List MoveNode) : List MoveNode := nodes.filter fun n => decide (0 < n.nodeIndex) && n.isMainline

/-- The seconds of an integer number of hundredths. -/
def providerSeconds : Native → Except Text (Option Rat)
  | .num (.int n) =>
    if 10 ^ 4300 ≤ n.natAbs then .error Native.tooLong else pure (if 0 ≤ n then some (mkRat n 100) else none)
  | _ => pure none

/-- One entry of the provider's clocks. -/
def providerClock (played : List MoveNode) (index : Nat) (value : Native) : Except Text ClockObservation := do
  let seconds ← providerSeconds value
  let raw ← Native.dumps value
  let nodeIndex := (played[index]?).map MoveNode.nodeIndex
  let mapped := decide (nodeIndex ≠ none ∧ nodeIndex ≠ some 0)
  pure {
    nodeIndex := nodeIndex, kind := .remaining, source := .provider index, rawText := raw, seconds := seconds
    unit := .centiseconds, precision := some (mkRat 1 100)
    status := if seconds.isNone then .invalid else if mapped then .parsed else .unmapped
    reference := if mapped then .afterMove else .unknown }

/-- The provider's analysis goes to the played nodes in order, and what is left to the root. -/
def analyse (played : List MoveNode) (nodes : List MoveNode) (entry : Native × Nat) : List MoveNode :=
  let target := ((played[entry.2]?).map MoveNode.nodeIndex).getD 0
  nodes.modify target fun n => { n with annotations := n.annotations ++ [.provider entry.2 entry.1] }

/-- `_provider_observations` -/
def providerObservations (game : NormalizedGame) (nodes : List MoveNode) :
    Except Text (List MoveNode × List ClockObservation) := do
  let played := playedNodes nodes
  let clocks ← ((game.clocks.getD []).zipIdx).mapM fun entry => providerClock played entry.2 entry.1
  pure (((game.analysis.getD []).zipIdx).foldl (analyse played) nodes, clocks)

/-- The tags of a text, in order. -/
def tagsOf (matches' : List Match) : Headers :=
  matches'.filterMap fun m =>
    match m.group with
    | .tag name value => some (name, value)
    | _ => none

def byteOrderMark : Char := Char.ofNat 0xfeff

/-- The text that is parsed, and where it is from. -/
def moveText (game : NormalizedGame) : Text × Origin :=
  match game.pgn, game.moves with
  | some (c :: rest), _ => (c :: rest, .pgn)
  | _, some moves => (moves ++ " *".toList, .providerMoves)
  | _, none => ([], .unavailable)

/-- The native fields but those whose notation is in the tokens. -/
def sourceMetadata (game : NormalizedGame) : List (Text × Native) :=
  game.sourceData.filter fun field =>
    decide (field.1 ≠ "pgn".toList ∧ ¬ ((moveText game).2 = .providerMoves ∧ field.1 = "moves".toList))

variable (R : Rules)

/-- The frame of the loop and the variables before it. -/
def openWalk (game : NormalizedGame) (text : Text) (headers : Headers) (startFen : Text) : Frame × Walk R :=
  let variant := (R.lower ((headers.get "Variant".toList).getD game.variantKey)).filter fun c => c ≠ ' '
  let supported :=
    decide (variant ∈ ["standard".toList, "chess".toList, "fromposition".toList] ∧
      game.variantKey ∈ ["standard".toList, "fromposition".toList])
  let setUp : Headers :=
    if headers.get "FEN".toList = none ∧ startFen ≠ initialPosition then
      [("FEN".toList, startFen), ("SetUp".toList, "1".toList)]
    else []
  let bom := decide (text.head? = some byteOrderMark)
  let fen := R.initialFen (setUp.foldl (fun h p => Headers.set h p.1 p.2) headers)
  let issues :=
    if supported then (if fen.isSome then [] else [.invalidStartingPosition]) else [.variantRulesUnavailable variant]
  let validator := R.start setUp
  (⟨text, supported, startFen, game.variantKey⟩, {
    nodes := [.root (if supported then fen else none)]
    tokens := if bom then [⟨0, .byteOrderMark, text.take 1, 0, 1, .parsed⟩] else []
    issues := issues, clocks := []
    game := if supported && fen.isNone then R.setGameError validator else validator
    current := 0, rav := [], children := fun _ => 0, pendingComments := [], atVariationStart := false
    terminated := false, previousEnd := if bom then 1 else 0 })

/-- `parse_game_evidence`, on the matches that the lexer returns for the text. -/
def parseGameEvidence (game : NormalizedGame) (matches' : List Match) : Except Text GameEvidence := do
  let (text, origin) := moveText game
  if text = [] then
    let startFen ← initialFen R [] game
    let (nodes, clocks) ← providerObservations game [.root none]
    pure {
      headers := [], headerItems := [], sourceMetadata := sourceMetadata game, origin := .unavailable
      startingFen := startFen, variant := game.variantKey, status := .unavailable, issues := [.movesUnavailable], nodes := nodes, tokens := []
      clocks := clocks }
  else
    let headerItems := tagsOf matches'
    let headers := headerItems.foldl (fun h p => Headers.set h p.1 p.2) []
    let startFen ← initialFen R headers game
    let (frame, start) := openWalk R game text headers startFen
    let walked ← matches'.foldlM (Walk.step frame) start
    let w := walked.close frame
    let (nodes, clocks) ← providerObservations game w.nodes
    pure {
      headers := headers, headerItems := headerItems, sourceMetadata := sourceMetadata game, origin := origin
      startingFen := startFen
      variant := game.variantKey
      status :=
        if !frame.supported then .unsupported
        else if w.issues = [] ∧ R.gameOk w.game = true then .complete
        else .incomplete
      issues := w.issues, nodes := nodes, tokens := w.tokens, clocks := w.clocks ++ clocks }

end ChessCrawl.Evidence
