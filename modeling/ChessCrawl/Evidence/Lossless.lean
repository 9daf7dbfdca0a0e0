import ChessCrawl.Evidence.Parse

/-! The tokens of a game text lose nothing of it but whitespace, and neither does their export. -/
namespace ChessCrawl.Evidence
open ChessCrawl.Lib
set_option autoImplicit false

/-! ## Whitespace -/

/-- The characters that count. -/
def visible (t : Text) : Text := t.filter fun c => !isSpace c

theorem visible_append (s t : Text) : visible (s ++ t) = visible s ++ visible t := by
  simp [visible]

theorem visible_dropWhile (t : Text) : visible (t.dropWhile isSpace) = visible t := by
  induction t with
  | nil => rfl
  | cons c t ih =>
    by_cases h : isSpace c = true
    · rw [List.dropWhile_cons_of_pos h, ih]
      simp [visible, h]
    · rw [List.dropWhile_cons_of_neg h]

theorem visible_reverse (t : Text) : visible t.reverse = (visible t).reverse := by
  simp [visible, List.filter_reverse]

theorem visible_strip (t : Text) : visible (strip t) = visible t := by
  unfold strip
  rw [visible_reverse, visible_dropWhile, visible_reverse, visible_dropWhile, List.reverse_reverse]

theorem strip_eq_nil {t : Text} (h : strip t = []) : ∀ c ∈ t, isSpace c = true := by
  have hvisible : visible t = [] := by
    rw [← visible_strip, h]
    rfl
  intro c hc
  have := List.filter_eq_nil_iff.mp hvisible c hc
  simpa using this

/-! ## The loop keeps a cover -/

/-- What the branches of the loop leave of a token. -/
def Token.core (t : Token) : Nat × Kind × Text × Nat × Nat := (t.tokenIndex, t.kind, t.text, t.startOffset, t.endOffset)

def Token.span (t : Token) : Nat × Nat := (t.startOffset, t.endOffset)

variable {R : Rules}

/-- The branches touch neither the tokens, but for their interpretation, nor the end of the last match. -/
def SameTokens (w w' : Walk R) : Prop := w'.tokens.map Token.core = w.tokens.map Token.core ∧ w'.previousEnd = w.previousEnd

theorem sameTokens_interpret (w : Walk R) (index : Nat) (i : Interpretation) : SameTokens w (w.interpret index i) := by
  refine ⟨?_, rfl⟩
  show (w.tokens.modify index fun t => { t with interpretation := i }).map Token.core = _
  refine List.ext_getElem? fun k => ?_
  rw [List.getElem?_map, List.getElem?_map, List.getElem?_modify]
  cases w.tokens[k]? with
  | none => rfl
  | some t =>
    by_cases h : index = k
    · simp [h, Token.core]
    · simp [h]

theorem sameTokens_observe {nodeIndex : Option Nat} {token : Nat} {found : (Text × Text × Text) × Nat} {w w' : Walk R}
    (h : Walk.observe nodeIndex token w found = .ok w') : SameTokens w w' := by
  unfold Walk.observe at h
  dsimp only at h
  split at h
  · cases hclock : R.parseClock found.1.2.1 with
    | error e =>
      rw [hclock] at h
      cases h
    | ok clock =>
      rw [hclock] at h
      cases h
      exact ⟨rfl, rfl⟩
  · cases h
    exact ⟨rfl, rfl⟩

theorem sameTokens_comment {w w' : Walk R} {index : Nat} {text : Text} (h : w.comment index text = .ok w') :
    SameTokens w w' := by
  unfold Walk.comment at h
  dsimp only at h
  have hfold : ∀ (found : List ((Text × Text × Text) × Nat)) (nodeIndex : Option Nat) (u : Walk R),
      found.foldlM (Walk.observe nodeIndex index) u = .ok w' → SameTokens u w' := by
    intro found nodeIndex
    induction found with
    | nil =>
      intro u hu
      cases hu
      exact ⟨rfl, rfl⟩
    | cons f found ih =>
      intro u hu
      rw [List.foldlM_cons] at hu
      obtain ⟨v, hv, hrest⟩ := bind_ok hu
      obtain ⟨htokens, hend⟩ := sameTokens_observe hv
      obtain ⟨htokens', hend'⟩ := ih v hrest
      exact ⟨htokens'.trans htokens, hend'.trans hend⟩
  obtain ⟨htokens, hend⟩ := hfold _ _ _ h
  split at htokens
  · exact ⟨htokens, by rw [hend]; split <;> rfl⟩
  · exact ⟨htokens, by rw [hend]; split <;> rfl⟩

theorem sameTokens_move {f : Frame} {w w' : Walk R} {index : Nat} {group : Group} {token : Text}
    (h : w.move f index group token = .ok w') : SameTokens w w' := by
  unfold Walk.move at h
  obtain ⟨mover, _, h⟩ := bind_ok h
  obtain ⟨node, _, h⟩ := bind_ok h
  cases h
  split
  · exact sameTokens_interpret (w.attach node) index .invalid
  · exact ⟨rfl, rfl⟩

theorem sameTokens_interpretToken {f : Frame} {w w' : Walk R} {index : Nat} {group : Group} {token : Text}
    (h : w.interpretToken f index group token = .ok w') : SameTokens w w' := by
  unfold Walk.interpretToken at h
  split at h
  · cases h
    unfold Walk.startVariation
    dsimp only
    split <;> exact ⟨rfl, rfl⟩
  · cases h
    unfold Walk.endVariation
    split <;> exact ⟨rfl, rfl⟩
  · exact sameTokens_move h
  · exact sameTokens_comment h
  · exact sameTokens_comment h
  · obtain ⟨n, _, h⟩ := bind_ok h
    cases h
    exact ⟨rfl, rfl⟩
  · cases h
    exact ⟨rfl, rfl⟩
  · cases h
    split <;> exact ⟨rfl, rfl⟩
  · cases h
    unfold Walk.result
    dsimp only
    split <;> split <;> exact ⟨rfl, rfl⟩
  · cases h
    exact sameTokens_interpret w index .preserved
  · cases h
    exact ⟨rfl, rfl⟩

/-- The tokens up to a position are numbered, are slices of the text, and leave out only whitespace. -/
structure Kept (text : Text) (tokens : List Token) (stop : Nat) : Prop where
  covers : Covers isSpace text 0 (tokens.map Token.span) stop
  slices : ∀ (i : Nat) (t : Token), tokens[i]? = some t → t.tokenIndex = i ∧ t.text = slice text t.startOffset t.endOffset

variable {text : Text} {tokens : List Token} {stop : Nat}

theorem Kept.push (h : Kept text tokens stop) {start stop' : Nat} {kind : Kind} {i : Interpretation} (hle : stop ≤ start)
    (hle' : start ≤ stop') (hblank : ∀ c ∈ slice text stop start, isSpace c = true) :
    Kept text (tokens ++ [⟨tokens.length, kind, slice text start stop', start, stop', i⟩]) stop' := by
  refine ⟨?_, fun k t ht => ?_⟩
  · rw [List.map_append]
    refine h.covers.append ⟨hle, hle', hblank, Nat.le_refl _, fun c hc => ?_⟩
    rw [slice_self] at hc
    cases hc
  · rw [List.getElem?_append] at ht
    split at ht
    · exact h.slices k t ht
    · next hlt =>
      obtain ⟨hk, ht⟩ := List.getElem?_eq_some_iff.mp ht
      simp only [List.length_singleton, Nat.lt_one_iff] at hk
      have hlast : k = tokens.length := by omega
      simp only [hk, List.getElem_cons_zero] at ht
      rw [← ht]
      exact ⟨hlast.symm, rfl⟩

theorem Kept.of_same {w w' : Walk R} (h : Kept text w.tokens w.previousEnd) (hs : SameTokens w w') :
    Kept text w'.tokens w'.previousEnd := by
  obtain ⟨htokens, hend⟩ := hs
  have hspan : w'.tokens.map Token.span = w.tokens.map Token.span := by
    have := congrArg (List.map fun c : Nat × Kind × Text × Nat × Nat => (c.2.2.2.1, c.2.2.2.2)) htokens
    rw [List.map_map, List.map_map] at this
    exact this
  refine ⟨by rw [hspan, hend]; exact h.covers, fun i t ht => ?_⟩
  have hcore : (w.tokens.map Token.core)[i]? = some t.core := by
    rw [← htokens, List.getElem?_map, ht]
    rfl
  rw [List.getElem?_map, Option.map_eq_some_iff] at hcore
  obtain ⟨u, hu, hsame⟩ := hcore
  obtain ⟨hindex, hslice⟩ := h.slices i u hu
  simp only [Token.core, Prod.mk.injEq] at hsame
  obtain ⟨h1, _, h2, h3, h4⟩ := hsame
  rw [← h1, ← h2, ← h3, ← h4]
  exact ⟨hindex, hslice⟩

/-- The text up to a match becomes a token unless it is blank. -/
theorem Kept.gap {f : Frame} {w : Walk R} {start : Nat} (h : Kept f.text w.tokens w.previousEnd)
    (hle : w.previousEnd ≤ start) :
    ∃ stop, stop ≤ start ∧ Kept f.text (w.gap f start).tokens stop ∧ ∀ c ∈ slice f.text stop start, isSpace c = true := by
  unfold Walk.gap
  split
  · next hblank => exact ⟨w.previousEnd, hle, h, strip_eq_nil hblank⟩
  · refine ⟨start, Nat.le_refl _, ?_, fun c hc => ?_⟩
    · refine h.push (Nat.le_refl _) hle fun c hc => ?_
      rw [slice_self] at hc
      cases hc
    · rw [slice_self] at hc
      cases hc

theorem Kept.lex {f : Frame} {w : Walk R} {m : Match} (h : Kept f.text w.tokens w.previousEnd)
    (hle : w.previousEnd ≤ m.start) (hm : m.start ≤ m.stop) :
    Kept f.text (w.lex f m).tokens (w.lex f m).previousEnd ∧ (w.lex f m).previousEnd = m.stop := by
  obtain ⟨stop, hstop, hkept, hblank⟩ := h.gap hle
  unfold Walk.lex
  dsimp only
  split
  · split
    · exact ⟨hkept.push hstop hm hblank, rfl⟩
    · exact ⟨hkept.push hstop hm hblank, rfl⟩
  · exact ⟨hkept.push hstop hm hblank, rfl⟩

/-- The matches are in order, do not overlap and lie in the text from a position on. -/
def Lexed (text : Text) : Nat → List Match → Prop
  | _, [] => True
  | a, m :: ms => a ≤ m.start ∧ m.start ≤ m.stop ∧ m.stop ≤ text.length ∧ Lexed text m.stop ms

theorem kept_step {f : Frame} {w w' : Walk R} {m : Match} (h : Kept f.text w.tokens w.previousEnd)
    (hle : w.previousEnd ≤ m.start) (hm : m.start ≤ m.stop) (hstep : w.step f m = .ok w') :
    Kept f.text w'.tokens w'.previousEnd ∧ w'.previousEnd = m.stop := by
  obtain ⟨hkept, hend⟩ := h.lex hle hm
  have hsame := sameTokens_interpretToken hstep
  exact ⟨hkept.of_same hsame, hsame.2.trans hend⟩

theorem kept_run {f : Frame} {w w' : Walk R} {ms : List Match} (h : Kept f.text w.tokens w.previousEnd)
    (hend : w.previousEnd ≤ f.text.length) (hms : Lexed f.text w.previousEnd ms)
    (hrun : ms.foldlM (Walk.step f) w = .ok w') :
    Kept f.text w'.tokens w'.previousEnd ∧ w'.previousEnd ≤ f.text.length := by
  induction ms generalizing w with
  | nil =>
    cases hrun
    exact ⟨h, hend⟩
  | cons m ms ih =>
    rw [List.foldlM_cons] at hrun
    obtain ⟨v, hv, hrest⟩ := bind_ok hrun
    obtain ⟨hstart, hm, hstop, hms⟩ := hms
    obtain ⟨hkept, hvend⟩ := kept_step h hstart hm hv
    rw [← hvend] at hms hstop
    exact ih hkept hstop hms hrest

theorem kept_close {f : Frame} {w : Walk R} (h : Kept f.text w.tokens w.previousEnd)
    (hend : w.previousEnd ≤ f.text.length) : Kept f.text (w.close f).tokens f.text.length := by
  have htail : ∀ u : Walk R, (u.close f).tokens =
      if strip (slice f.text u.previousEnd f.text.length) = [] then u.tokens
      else u.tokens ++ [⟨u.tokens.length, .unknownTail, slice f.text u.previousEnd f.text.length, u.previousEnd,
        f.text.length, .preserved⟩] := by
    intro u
    unfold Walk.close
    dsimp only
    split <;> split <;> split <;> rfl
  rw [htail]
  split
  · next hblank =>
    refine ⟨?_, h.slices⟩
    have := h.covers.append (show Covers isSpace f.text w.previousEnd [] f.text.length from ⟨hend, strip_eq_nil hblank⟩)
    rw [List.append_nil] at this
    exact this
  · refine h.push (Nat.le_refl _) hend fun c hc => ?_
    rw [slice_self] at hc
    cases hc

/-! ## Export -/

/-- The loop of `export_game_version_pgn`. -/
def exportTokens : Bool → List (Kind × Text) → Text
  | _, [] => []
  | inHeaders, (kind, text) :: rest =>
    match kind with
    | .byteOrderMark => text ++ exportTokens inHeaders rest
    | .header => text ++ ['\n'] ++ exportTokens inHeaders rest
    | kind =>
      (if inHeaders then ['\n'] else []) ++
        (match kind with
          | .escape => ['\n'] ++ text ++ ['\n']
          | .commentEol => text ++ ['\n']
          | _ => text ++ [' ']) ++ exportTokens false rest

/-- `export_game_version_pgn` on the selected revision: its status and its tokens in order. -/
def exportGameVersionPgn (revision : Option (ParseStatus × List (Kind × Text))) (allowPartial : Bool) : Except Text Text :=
  match revision with
  | none => .error "Game evidence version does not exist".toList
  | some (status, tokens) =>
    if status ≠ .complete ∧ allowPartial = false then
      .error "Game evidence is not completely interpreted; explicit partial export is required".toList
    else if tokens = [] then .error "Game move evidence is unavailable".toList
    else .ok (strip (exportTokens true tokens) ++ ['\n'])

/-- What a version stores of its tokens. -/
def GameEvidence.revision (e : GameEvidence) : Option (ParseStatus × List (Kind × Text)) :=
  some (e.status, e.tokens.map fun t => (t.kind, t.text))

theorem visible_exportTokens (inHeaders : Bool) (tokens : List (Kind × Text)) :
    visible (exportTokens inHeaders tokens) = visible (tokens.map Prod.snd).flatten := by
  have hnewline : visible ['\n'] = [] := by decide
  have hspace : visible [' '] = [] := by decide
  induction tokens generalizing inHeaders with
  | nil => rfl
  | cons t tokens ih =>
    obtain ⟨kind, text⟩ := t
    have hlead : visible (if inHeaders then ['\n'] else []) = [] := by
      cases inHeaders
      · rfl
      · exact hnewline
    rw [List.map_cons, List.flatten_cons, visible_append]
    cases kind <;>
      simp only [exportTokens, visible_append, ih, hlead, hnewline, hspace, List.nil_append, List.append_nil]

/-! ## The whole text -/

/-- Where the lexer starts: behind a byte order mark. -/
def lexFrom (text : Text) : Nat := if text.head? = some byteOrderMark then 1 else 0

theorem kept_open (game : NormalizedGame) (text : Text) (headers : Headers) (startFen : Text) :
    Kept text (openWalk R game text headers startFen).2.tokens (openWalk R game text headers startFen).2.previousEnd ∧
      (openWalk R game text headers startFen).2.previousEnd = lexFrom text ∧ lexFrom text ≤ text.length := by
  unfold openWalk lexFrom
  dsimp only
  have hempty : ∀ a : Nat, ∀ c ∈ slice text a a, isSpace c = true := by
    intro a c hc
    rw [slice_self] at hc
    cases hc
  by_cases h : text.head? = some byteOrderMark
  · simp only [h, decide_true, if_true]
    refine ⟨⟨⟨Nat.le_refl _, Nat.zero_le _, hempty 0, Nat.le_refl _, hempty 1⟩, fun i t ht => ?_⟩, trivial, ?_⟩
    · cases i with
      | zero =>
        cases ht
        exact ⟨rfl, rfl⟩
      | succ i => cases ht
    · cases text with
      | nil => cases h
      | cons c text => exact Nat.le_add_left _ _
  · simp only [h, decide_false, if_false, Bool.false_eq_true]
    refine ⟨⟨⟨Nat.le_refl _, hempty 0⟩, fun i t ht => ?_⟩, trivial, Nat.zero_le _⟩
    cases ht

theorem kept_parse {game : NormalizedGame} {ms : List Match} {e : GameEvidence}
    (hms : Lexed (moveText game).1 (lexFrom (moveText game).1) ms) (h : parseGameEvidence R game ms = .ok e) :
    Kept (moveText game).1 e.tokens (moveText game).1.length := by
  rcases hmove : moveText game with ⟨text, origin⟩
  unfold parseGameEvidence at h
  rw [hmove] at h hms
  dsimp only at h hms ⊢
  split at h
  · next hnil =>
    obtain ⟨startFen, _, h⟩ := bind_ok h
    obtain ⟨⟨nodes, clocks⟩, _, h⟩ := bind_ok h
    cases h
    subst hnil
    refine ⟨⟨Nat.le_refl _, fun c hc => ?_⟩, fun i t ht => ?_⟩
    · cases hc
    · cases ht
  · obtain ⟨startFen, _, h⟩ := bind_ok h
    obtain ⟨walked, hwalk, h⟩ := bind_ok h
    obtain ⟨⟨nodes, clocks⟩, _, h⟩ := bind_ok h
    cases h
    obtain ⟨hopen, hend, hle⟩ :=
      kept_open (R := R) game text ((tagsOf ms).foldl (fun h p => Headers.set h p.1 p.2) []) startFen
    obtain ⟨hkept, hstop⟩ := kept_run (f := (openWalk R game text _ startFen).1) hopen (by rw [hend]; exact hle)
      (by rw [hend]; exact hms) hwalk
    exact kept_close hkept hstop

/-- The tokens of a text are its slices in order, they leave out only whitespace, and their export spells the text. -/
theorem tokens_lossless {game : NormalizedGame} {ms : List Match} {e : GameEvidence}
    (hms : Lexed (moveText game).1 (lexFrom (moveText game).1) ms) (h : parseGameEvidence R game ms = .ok e) :
    (∀ (i : Nat) (t : Token), e.tokens[i]? = some t → t.tokenIndex = i ∧ t.startOffset ≤ t.endOffset ∧
      t.endOffset ≤ (moveText game).1.length ∧ t.text = slice (moveText game).1 t.startOffset t.endOffset) ∧
    (e.tokens.Pairwise fun t u => t.endOffset ≤ u.startOffset) ∧
    (∀ (k : Nat) (hk : k < (moveText game).1.length), isSpace (moveText game).1[k] = false →
      ∃! i : Nat, ∃ t, e.tokens[i]? = some t ∧ t.startOffset ≤ k ∧ k < t.endOffset) ∧
    (e.tokens ≠ [] → ∃ out, exportGameVersionPgn e.revision true = .ok out ∧ visible out = visible (moveText game).1) := by
  have hkept := kept_parse hms h
  obtain ⟨hbounds, hpairs⟩ := hkept.covers.sorted
  refine ⟨fun i t ht => ?_, List.pairwise_map.mp hpairs, fun k hk hvisible => ?_, fun hne => ?_⟩
  · obtain ⟨hindex, hslice⟩ := hkept.slices i t ht
    have hmem := hbounds t.span (List.mem_map_of_mem (List.mem_of_getElem? ht))
    exact ⟨hindex, hmem.2.1, hmem.2.2, hslice⟩
  · obtain ⟨i, ⟨p, hp, hpk⟩, hunique⟩ := hkept.covers.existsUnique hk (Nat.zero_le k) hk hvisible
    rw [List.getElem?_map, Option.map_eq_some_iff] at hp
    obtain ⟨t, ht, rfl⟩ := hp
    refine ⟨i, ⟨t, ht, hpk⟩, ?_⟩
    rintro j ⟨u, hu, huk⟩
    refine hunique j ⟨u.span, ?_, huk⟩
    rw [List.getElem?_map, hu]
    rfl
  · have htexts : e.tokens.map Token.text =
        e.tokens.map fun t => slice (moveText game).1 t.startOffset t.endOffset := by
      refine List.map_congr_left fun t ht => ?_
      obtain ⟨i, hi⟩ := List.getElem?_of_mem ht
      exact (hkept.slices i t hi).2
    have hcover := hkept.covers.filter
    rw [slice_full, List.map_map] at hcover
    refine ⟨strip (exportTokens true (e.tokens.map fun t => (t.kind, t.text))) ++ ['\n'], ?_, ?_⟩
    · unfold exportGameVersionPgn GameEvidence.revision
      dsimp only
      rw [if_neg (by simp), if_neg (by simpa using hne)]
    · rw [visible_append, visible_strip, visible_exportTokens, List.map_map]
      show visible (e.tokens.map Token.text).flatten ++ _ = _
      rw [htexts]
      refine Eq.trans (congrArg (· ++ visible ['\n']) hcover) ?_
      exact List.append_nil _

/-! ## A text -/

/-- Rules for a variant that the validator does not know, where they are not asked. -/
def noRules : Rules where
  Game := Unit
  start _ := ()
  initialFen _ := none
  add _ _ _ := ((), none)
  setGameError _ := ()
  stateIsNone _ := false
  gameOk _ := false
  boardFen _ := []
  delta _ := none
  sha256 _ := []
  lower t := t.map Char.toLower
  quoted t := t
  digit c := if c.isDigit then some (c.toNat - 48) else none
  parseClock _ := .ok none

/-- A crazyhouse game with a byte order mark and a stray character. -/
def strayGame : NormalizedGame :=
  ⟨some (byteOrderMark :: "e4 ~ x {hi} *".toList), "crazyhouse".toList, []⟩

def strayMatches : List Match := [⟨1, 3, .move⟩, ⟨8, 12, .comment⟩, ⟨13, 14, .gameTermination⟩]

theorem tokens_lossless_stray : ∃ e, parseGameEvidence noRules strayGame strayMatches = .ok e ∧
    e.tokens.map Token.kind = [.byteOrderMark, .move, .unknownGap, .comment, .result] ∧
    ∃ out, exportGameVersionPgn e.revision true = .ok out ∧ visible out = visible (moveText strayGame).1 := by
  obtain ⟨e, he, hkinds⟩ : ∃ e, parseGameEvidence noRules strayGame strayMatches = .ok e ∧
      e.tokens.map Token.kind = [.byteOrderMark, .move, .unknownGap, .comment, .result] := ⟨_, rfl, rfl⟩
  have hms : Lexed (moveText strayGame).1 (lexFrom (moveText strayGame).1) strayMatches := by
    simp only [Lexed, strayMatches]
    decide
  refine ⟨e, he, hkinds, (tokens_lossless hms he).2.2.2 fun hnil => ?_⟩
  rw [hnil] at hkinds
  cases hkinds

end ChessCrawl.Evidence
