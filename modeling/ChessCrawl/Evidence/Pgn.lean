import ChessCrawl.Evidence.Native
import ChessCrawl.Lib.Cover
import ChessCrawl.Lib.Run
import Mathlib.Logic.Function.Basic

/-! `normalize/game_evidence.py`: lexical tokens and the move tree of a game text. The lexer and the chess rules are those
of `pgn_read`: the matches of its lexer are an argument, and its `Game` is the structure `Rules`. -/
namespace ChessCrawl.Evidence
open ChessCrawl.Lib
set_option autoImplicit false

/-! ## Characters -/

/-- `str.isspace` -/
def isSpace (c : Char) : Bool :=
  let n := c.toNat
  decide (9 ≤ n ∧ n ≤ 13 ∨ 28 ≤ n ∧ n ≤ 32 ∨ n = 0x85 ∨ n = 0xa0 ∨ n = 0x1680 ∨ 0x2000 ≤ n ∧ n ≤ 0x200a ∨ n = 0x2028 ∨
    n = 0x2029 ∨ n = 0x202f ∨ n = 0x205f ∨ n = 0x3000)

/-- `str.strip` -/
def strip (t : Text) : Text := ((t.dropWhile isSpace).reverse.dropWhile isSpace).reverse

/-- `str.split`, the words between runs of whitespace. -/
def words (t : Text) : List Text := (t.splitOnP isSpace).filter fun w => !w.isEmpty

def wordChar (c : Char) : Bool := c.isAlphanum || c = '_'

/-! ## Matches and tokens -/

/-- `match.lastindex`: the alternative of the grammar; a tag has its name and value. -/
inductive Group
  | move | pass | tag (name value : Text) | gameTermination | moveNumber | dots | comment | commentToEol | startRav | endRav
  | numericAnnotationGlyph | traditionalAnnotation | checkIndicator | escape | reserved | endOfFile | other
deriving DecidableEq, Repr

structure Match where
  start : Nat
  stop : Nat
  group : Group
deriving DecidableEq, Repr

inductive Kind
  | move | header | result | moveNumber | dots | comment | commentEol | variationStart | variationEnd | nag | symbolicNag
  | check | escape | reserved | eofMarker | unknown | unknownGap | unknownTail | byteOrderMark
deriving DecidableEq, Repr

/-- `_MOVES` and `_KINDS` -/
def Group.kind : Group → Kind
  | .move => .move
  | .pass => .move
  | .tag _ _ => .header
  | .gameTermination => .result
  | .moveNumber => .moveNumber
  | .dots => .dots
  | .comment => .comment
  | .commentToEol => .commentEol
  | .startRav => .variationStart
  | .endRav => .variationEnd
  | .numericAnnotationGlyph => .nag
  | Group.traditionalAnnotation => .symbolicNag
  | .checkIndicator => .check
  | .escape => .escape
  | .reserved => .reserved
  | .endOfFile => .eofMarker
  | .other => .unknown

inductive Interpretation
  | parsed | preserved | invalid
deriving DecidableEq, Repr

structure Token where
  tokenIndex : Nat
  kind : Kind
  text : Text
  startOffset : Nat
  endOffset : Nat
  interpretation : Interpretation
deriving DecidableEq, Repr

inductive Issue
  | movesUnavailable
  | variantRulesUnavailable (variant : Text)
  | invalidStartingPosition
  | unrecognizedGap (start stop : Nat)
  | parseError (token : Nat) (detail : Text)
  | variationWithoutMove (token : Nat)
  | unmatchedVariationEnd (token : Nat)
  | invalidMove (token : Nat) (san : Text)
  | multipleGames (token : Nat)
  | uninterpretedToken (token : Nat) (text : Text)
  | unrecognizedTail (start : Nat)
  | unclosedVariation (depth : Nat)
  | missingResult
deriving DecidableEq, Repr

/-! ## Nodes and clocks -/

inductive Mover
  | white | black
deriving DecidableEq, Repr

/-- An annotation of a comment, or an entry of the provider's analysis. -/
inductive Annotation
  | pgn (command value rawText : Text) (token index : Nat)
  | provider (index : Nat) (payload : Native)

inductive Nag
  | number (n : Int)
  | symbol (text : Text)
deriving DecidableEq, Repr

structure MoveNode where
  nodeIndex : Nat
  parentIndex : Option Nat
  variationIndex : Nat
  ply : Nat
  isMainline : Bool
  mover : Option Mover
  moveUci : Option Text
  moveSan : Option Text
  fenBefore : Option Text
  fenAfter : Option Text
  positionKeyBefore : Option Text
  positionKeyAfter : Option Text
  comments : List Text
  startingComments : List Text
  nags : List Nag
  annotations : List Annotation

/-- `MoveNode(0, None, 0, 0, True)` -/
def MoveNode.root (fenAfter : Option Text) : MoveNode :=
  ⟨0, none, 0, 0, true, none, none, none, none, fenAfter, none, none, [], [], [], []⟩

instance : Inhabited MoveNode := ⟨.root none⟩

inductive ClockKind
  | remaining | elapsed
deriving DecidableEq, Repr

/-- `/tokens/<token>/annotations/<index>` or `/clocks/<index>` -/
inductive ClockSource
  | pgn (token index : Nat)
  | provider (index : Nat)
deriving DecidableEq, Repr

inductive ClockUnit
  | seconds | centiseconds
deriving DecidableEq, Repr

inductive ClockStatus
  | parsed | invalid | unmapped
deriving DecidableEq, Repr

inductive ClockReference
  | afterMove | elapsedMove | unknown
deriving DecidableEq, Repr

structure ClockObservation where
  nodeIndex : Option Nat
  kind : ClockKind
  source : ClockSource
  rawText : Text
  seconds : Option Rat
  unit : ClockUnit
  precision : Option Rat
  status : ClockStatus
  reference : ClockReference
deriving DecidableEq

/-! ## Games -/

/-- The parts of `NormalizedGame` that are read here; `source_data` has its keys once each. -/
structure NormalizedGame where
  pgn : Option Text
  variantKey : Text
  sourceData : List (Text × Native)

namespace NormalizedGame

/-- `native.get(key)` -/
def native (game : NormalizedGame) (key : Text) : Native := (game.sourceData.lookup key).getD .null

/-- The native moves, where they are a text. -/
def moves (game : NormalizedGame) : Option Text :=
  match game.native "moves".toList with
  | .str t => some t
  | _ => none

/-- `native.get(key)`, where it is a list. -/
def listed (game : NormalizedGame) (key : Text) : Option (List Native) :=
  match game.native key with
  | .arr items => some items
  | _ => none

def clocks (game : NormalizedGame) : Option (List Native) := game.listed "clocks".toList

def analysis (game : NormalizedGame) : Option (List Native) := game.listed "analysis".toList

end NormalizedGame

abbrev Headers := List (Text × Text)

/-- The last value under a name, at the place of the first. -/
def Headers.set (h : Headers) (name value : Text) : Headers :=
  if h.any (fun p => p.1 = name) then h.map fun p => if p.1 = name then (name, value) else p else h ++ [(name, value)]

def Headers.get (h : Headers) (name : Text) : Option Text := (h.find? fun p => p.1 = name).map Prod.snd

/-- `pgn_read`'s `Game`, and the parts of the host that the text of a game reaches. -/
structure Rules where
  Game : Type
  /-- `Game()` with tags of its own. -/
  start : Headers → Game
  /-- The FEN after `set_initial_position` with these tags; `none` when it returns false or raises. -/
  initialFen : Headers → Option Text
  /-- `add_token_to_game`: the game afterwards, and the text of an exception that is caught. -/
  add : Text → Game → Nat → Game × Option Text
  setGameError : Game → Game
  stateIsNone : Game → Bool
  gameOk : Game → Bool
  boardFen : Game → Text
  /-- `position_deltas[-1]`: squares and pieces removed and placed; `none` when there is none. -/
  delta : Game → Option (List (Text × Char) × List (Text × Char))
  sha256 : Text → Text
  lower : Text → Text
  /-- The `repr` of a text. -/
  quoted : Text → Text
  /-- The decimal value of a character. -/
  digit : Char → Option Nat
  /-- `_parse_clock`: the seconds and their precision. -/
  parseClock : Text → Except Text (Option (Rat × Rat))

/-! ## Small functions -/

/-- `int(text)`: at most 4300 digits, which single underscores may separate. -/
def digitsOf (R : Rules) : Bool → Text → Option (List Nat)
  | started, [] => if started then some [] else none
  | started, '_' :: rest =>
    match rest with
    | [] => none
    | d :: _ => if started && (R.digit d).isSome then digitsOf R false rest else none
  | _, c :: rest =>
    match R.digit c with
    | none => none
    | some d => (digitsOf R true rest).map fun ds => d :: ds

def pyInt (R : Rules) (text : Text) : Except Text Int :=
  let (sign, body) : Int × Text :=
    match strip text with
    | '-' :: rest => (-1, rest)
    | '+' :: rest => (1, rest)
    | rest => (1, rest)
  match digitsOf R false body with
  | none => .error "invalid literal for int()".toList
  | some ds =>
    if 4300 < ds.length then .error "Exceeds the limit (4300 digits) for integer string conversion".toList
    else .ok (sign * (ds.foldl (fun n d => 10 * n + d) 0 : Nat))

/-- `_mover_from_fen`; an `IndexError` when the FEN has no second field. -/
def moverFromFen (fen : Text) : Except Text Mover :=
  match (words fen)[1]? with
  | none => .error "list index out of range".toList
  | some side => .ok (if side = "w".toList then .white else .black)

/-- `_mover_for_ply` -/
def moverForPly (fen : Text) (ply : Nat) : Mover :=
  let white := decide (fen = [] ∨ (words fen).length < 2 ∨ (words fen)[1]? = some "w".toList)
  if white != decide (ply % 2 = 1) then .white else .black

/-- `_position_key` -/
def positionKey (R : Rules) (fen : Option Text) (variant : Text) : Option Text :=
  match fen with
  | none => none
  | some [] => none
  | some fen =>
    let state := List.intercalate " ".toList ((words fen).take 4)
    some ("fen-state-v1:sha256:".toList ++ R.sha256 (variant ++ "\n".toList ++ state))

/-- `_uci_from_delta` -/
def uciFromDelta (R : Rules) (game : R.Game) (mover : Mover) : Except Text (Option Text) :=
  match R.delta game with
  | none => .error "list index out of range".toList
  | some (removed, placed) =>
    let own := fun p : Text × Char => p.2.isUpper == decide (mover = .white)
    let origins := removed.filter own
    let destinations := placed.filter own
    let king := fun p : Text × Char => decide (p.2.toLower = 'k')
    let (origins, destinations) :=
      if 1 < origins.length then (origins.filter king, destinations.filter king) else (origins, destinations)
    match origins, destinations with
    | [(origin, before)], [(destination, after)] =>
      let promotion := if before.toLower = 'p' ∧ after.toLower ≠ 'p' then [after.toLower] else []
      .ok (some (origin ++ destination ++ promotion))
    | _, _ => .ok none

/-- The match of `\[%([A-Za-z0-9_]+)([^\]]*)\]` at the start of a text, and what follows it. -/
def annotationAt (t : Text) : Option ((Text × Text × Text) × Text) :=
  match t with
  | '[' :: '%' :: rest =>
    let command := rest.takeWhile wordChar
    let after := rest.dropWhile wordChar
    let value := after.takeWhile fun c => c ≠ ']'
    match command, after.dropWhile fun c => c ≠ ']' with
    | _ :: _, ']' :: remaining => some ((command, strip value, "[%".toList ++ command ++ value ++ [']']), remaining)
    | _, _ => none
  | _ => none

/-- `_ANNOTATION.finditer`; the length of the text is enough fuel. -/
def annotationsIn : Nat → Text → List (Text × Text × Text)
  | 0, _ => []
  | _, [] => []
  | fuel + 1, c :: rest =>
    match annotationAt (c :: rest) with
    | some (found, remaining) => found :: annotationsIn fuel remaining
    | none => annotationsIn fuel rest

end ChessCrawl.Evidence
