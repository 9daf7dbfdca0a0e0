import ChessCrawl.Lib.Arena
import ChessCrawl.Evidence.Lossless

/-! The move tree of a game text, whatever the order of its tokens: the variation stack, the current node and the comment
buffer keep it a tree with one main line, and every comment on one node. -/
namespace ChessCrawl.Evidence
open ChessCrawl.Lib
set_option autoImplicit false

/-! ## What an edit keeps -/

/-- The place of a node in the tree. -/
def MoveNode.knot (n : MoveNode) : Knot := ⟨n.nodeIndex, n.parentIndex, n.variationIndex, n.ply, n.isMainline⟩

/-- The comments of a node. -/
def MoveNode.stored (n : MoveNode) : List Text := n.startingComments ++ n.comments

theorem map_modify {α : Type} {g : MoveNode → α} {f : MoveNode → MoveNode} (hf : ∀ n, g (f n) = g n) (ns : List MoveNode)
    (i : Nat) : (ns.modify i f).map g = ns.map g := by
  refine List.ext_getElem? fun k => ?_
  rw [List.getElem?_map, List.getElem?_map, List.getElem?_modify]
  cases ns[k]? with
  | none => rfl
  | some n =>
    by_cases h : i = k
    · simp [h, hf]
    · simp [h]

/-- An edit of one node that adds `t` to its comments adds `t` to all comments. -/
theorem flatMap_modify {f : MoveNode → MoveNode} {t : List Text} (hf : ∀ n, ((f n).stored).Perm (n.stored ++ t))
    (ns : List MoveNode) {i : Nat} (hi : i < ns.length) :
    ((ns.modify i f).flatMap MoveNode.stored).Perm (ns.flatMap MoveNode.stored ++ t) := by
  induction ns generalizing i with
  | nil => simp at hi
  | cons n ns ih =>
    cases i with
    | zero =>
      rw [List.modify_zero_cons, List.flatMap_cons, List.flatMap_cons, List.append_assoc]
      refine ((hf n).append_right _).trans ?_
      rw [List.append_assoc]
      exact List.perm_append_comm.append_left _
    | succ i =>
      rw [List.modify_succ_cons, List.flatMap_cons, List.flatMap_cons, List.append_assoc]
      exact (ih (Nat.lt_of_succ_lt_succ hi)).append_left _

variable {R : Rules}

/-- The comments that a walk has taken, on nodes and in the buffer. -/
def Walk.stored (w : Walk R) : List Text := w.nodes.flatMap MoveNode.stored ++ w.pendingComments

/-- A step that keeps the tree, the place in it and the comments, and that takes clocks from the text only. -/
structure Quiet (w w' : Walk R) : Prop where
  knots : w'.nodes.map MoveNode.knot = w.nodes.map MoveNode.knot
  stored : w'.nodes.map MoveNode.stored = w.nodes.map MoveNode.stored
  children : w'.children = w.children
  current : w'.current = w.current
  rav : w'.rav = w.rav
  pending : w'.pendingComments = w.pendingComments
  clocks : ∀ c ∈ w'.clocks, c ∈ w.clocks ∨ ∃ token index, c.source = .pgn token index

theorem Quiet.refl (w : Walk R) : Quiet w w := ⟨rfl, rfl, rfl, rfl, rfl, rfl, fun _ hc => Or.inl hc⟩

theorem Quiet.trans {u v w : Walk R} (h : Quiet u v) (h' : Quiet v w) : Quiet u w := by
  refine ⟨h'.knots.trans h.knots, h'.stored.trans h.stored, h'.children.trans h.children, h'.current.trans h.current,
    h'.rav.trans h.rav, h'.pending.trans h.pending, fun c hc => ?_⟩
  obtain hc | hc := h'.clocks c hc
  · exact h.clocks c hc
  · exact Or.inr hc

theorem Quiet.stored_eq {w w' : Walk R} (h : Quiet w w') : w'.stored = w.stored := by
  unfold Walk.stored
  rw [List.flatMap_def, List.flatMap_def, h.stored, h.pending]

/-- Edits of annotations, glyphs and notation are quiet. -/
theorem quiet_edit (w : Walk R) (i : Nat) {f : MoveNode → MoveNode} (hknot : ∀ n, (f n).knot = n.knot)
    (hstored : ∀ n, (f n).stored = n.stored) : Quiet w (w.edit i f) :=
  ⟨map_modify hknot w.nodes i, map_modify hstored w.nodes i, rfl, rfl, rfl, rfl, fun _ hc => Or.inl hc⟩

theorem quiet_observe {nodeIndex : Option Nat} {token : Nat} {found : (Text × Text × Text) × Nat} {w w' : Walk R}
    (h : Walk.observe nodeIndex token w found = .ok w') : Quiet w w' := by
  unfold Walk.observe at h
  dsimp only at h
  have hedit := quiet_edit w (nodeIndex.getD 0)
    (f := fun n => { n with annotations := n.annotations ++ [.pgn found.1.1 found.1.2.1 found.1.2.2 token found.2] })
    (fun _ => rfl) fun _ => rfl
  split at h
  · obtain ⟨clock, _, h⟩ := bind_ok h
    cases h
    refine ⟨hedit.knots, hedit.stored, rfl, rfl, rfl, rfl, fun c hc => ?_⟩
    obtain hc | hc := List.mem_append.mp hc
    · exact Or.inl hc
    · rw [List.mem_singleton] at hc
      subst hc
      exact Or.inr ⟨token, found.2, rfl⟩
  · cases h
    exact hedit

theorem quiet_observations {nodeIndex : Option Nat} {token : Nat} {found : List ((Text × Text × Text) × Nat)}
    {w w' : Walk R} (h : found.foldlM (Walk.observe nodeIndex token) w = .ok w') : Quiet w w' := by
  induction found generalizing w with
  | nil =>
    cases h
    exact Quiet.refl _
  | cons f found ih =>
    rw [List.foldlM_cons] at h
    obtain ⟨v, hv, hrest⟩ := bind_ok h
    exact (quiet_observe hv).trans (ih hrest)

theorem quiet_lex (f : Frame) (w : Walk R) (m : Match) : Quiet w (w.lex f m) := by
  have hgap : Quiet w { w.gap f m.start with previousEnd := m.stop } := by
    unfold Walk.gap
    split <;> exact ⟨rfl, rfl, rfl, rfl, rfl, rfl, fun _ hc => Or.inl hc⟩
  refine hgap.trans ?_
  unfold Walk.lex
  dsimp only
  split
  · split <;> exact ⟨rfl, rfl, rfl, rfl, rfl, rfl, fun _ hc => Or.inl hc⟩
  · exact ⟨rfl, rfl, rfl, rfl, rfl, rfl, fun _ hc => Or.inl hc⟩

/-! ## The loop grows a tree -/

/-- The main line ends at the current node, or at the node where the outermost open variation was entered. -/
def Walk.base (w : Walk R) : Nat := w.rav.getLast?.getD w.current

structure Grown (w : Walk R) : Prop where
  arena : Arena (w.nodes.map MoveNode.knot) w.children
  line : Line (w.nodes.map MoveNode.knot) w.base
  current : w.current < w.nodes.length
  rav : ∀ i ∈ w.rav, i < w.nodes.length
  clocks : ∀ c ∈ w.clocks, ∃ token index, c.source = .pgn token index

theorem Quiet.length {w w' : Walk R} (h : Quiet w w') : w'.nodes.length = w.nodes.length := by
  have := congrArg List.length h.knots
  rwa [List.length_map, List.length_map] at this

theorem Grown.quiet {w w' : Walk R} (h : Grown w) (hq : Quiet w w') : Grown w' := by
  have hbase : w'.base = w.base := by
    unfold Walk.base
    rw [hq.rav, hq.current]
  refine ⟨?_, ?_, ?_, ?_, fun c hc => ?_⟩
  · rw [hq.knots, hq.children]
    exact h.arena
  · rw [hq.knots, hbase]
    exact h.line
  · rw [hq.current, hq.length]
    exact h.current
  · rw [hq.rav, hq.length]
    exact h.rav
  · obtain hc | hc := hq.clocks c hc
    · exact h.clocks c hc
    · exact hc

theorem Grown.node_knot {w : Walk R} (h : Grown w) : (w.nodes.map MoveNode.knot)[w.current]? = some (w.node w.current).knot := by
  unfold Walk.node
  rw [List.getElem?_map, List.getD_eq_getElem?_getD, List.getElem?_eq_getElem h.current]
  rfl

theorem Grown.parent_lt {w : Walk R} (h : Grown w) {p : Nat} (hp : (w.node w.current).parentIndex = some p) :
    p < w.nodes.length := by
  have hlt := h.current
  by_cases hzero : w.current = 0
  · have hroot := h.arena.root
    rw [← hzero, h.node_knot, Option.some.injEq] at hroot
    have := congrArg Knot.parent hroot
    rw [show (w.node w.current).knot.parent = some p from hp] at this
    cases this
  · obtain ⟨q, _, hq, hlt', _⟩ := h.arena.parent _ _ h.node_knot (by omega)
    rw [show (w.node w.current).knot.parent = some p from hp, Option.some.injEq] at hq
    omega

theorem grown_startVariation {w : Walk R} (h : Grown w) (index : Nat) : Grown (w.startVariation index) := by
  have hlt := h.current
  have hrav : ∀ i ∈ w.current :: w.rav, i < w.nodes.length := by
    intro i hi
    obtain rfl | hi := List.mem_cons.mp hi
    · exact h.current
    · exact h.rav i hi
  -- The stack is not empty afterwards, and its bottom is the old end of the line.
  have hbase : ∀ c : Nat, (w.current :: w.rav).getLast?.getD c = w.base := by
    intro c
    rw [List.getLast?_cons]
    rfl
  unfold Walk.startVariation
  dsimp only
  split
  · refine ⟨h.arena, ?_, ?_, hrav, h.clocks⟩
    · show Line _ ((w.current :: w.rav).getLast?.getD 0)
      rw [hbase]
      exact h.line
    · show 0 < w.nodes.length
      omega
  · next p hp =>
    refine ⟨h.arena, ?_, h.parent_lt hp, hrav, h.clocks⟩
    show Line _ ((w.current :: w.rav).getLast?.getD p)
    rw [hbase]
    exact h.line

theorem grown_endVariation {w : Walk R} (h : Grown w) (index : Nat) : Grown (w.endVariation index) := by
  unfold Walk.endVariation
  split
  · exact ⟨h.arena, h.line, h.current, h.rav, h.clocks⟩
  · next top rav hrav =>
    have hin : ∀ i ∈ top :: rav, i < w.nodes.length := by
      rw [← hrav]
      exact h.rav
    refine ⟨h.arena, ?_, hin top List.mem_cons_self, fun i hi => hin i (List.mem_cons_of_mem _ hi), h.clocks⟩
    have hbase : w.base = rav.getLast?.getD top := by
      unfold Walk.base
      rw [hrav, List.getLast?_cons]
      rfl
    show Line _ (rav.getLast?.getD top)
    rw [← hbase]
    exact h.line

theorem moveNode_spec {f : Frame} {w : Walk R} {group : Group} {token : Text} {mover : Mover} {node : MoveNode}
    (h : w.moveNode f group token mover = .ok node) :
    node.knot = ⟨w.nodes.length, some w.current, w.children w.current, (w.node w.current).ply + 1, w.rav.isEmpty⟩ ∧
      node.stored = w.pendingComments := by
  unfold Walk.moveNode at h
  dsimp only at h
  split at h
  · cases huci : uciFromDelta R w.game mover with
    | error e =>
      rw [huci] at h
      cases h
    | ok uci =>
      rw [huci] at h
      cases h
      exact ⟨rfl, List.append_nil _⟩
  · cases h
    exact ⟨rfl, List.append_nil _⟩

theorem grown_attach {w : Walk R} (h : Grown w) {node : MoveNode}
    (hnode : node.knot = ⟨w.nodes.length, some w.current, w.children w.current, (w.node w.current).ply + 1,
      w.rav.isEmpty⟩) : Grown (w.attach node) := by
  have hlen : (w.nodes.map MoveNode.knot).length = w.nodes.length := List.length_map _
  have htie : node.knot = tie (w.nodes.map MoveNode.knot) w.children w.current (w.node w.current).knot w.rav.isEmpty := by
    rw [hnode, tie, hlen]
    rfl
  have hindex : node.nodeIndex = w.nodes.length := congrArg Knot.index hnode
  have hslot : node.variationIndex = w.children w.current := congrArg Knot.slot hnode
  have hknots : (w.attach node).nodes.map MoveNode.knot = w.nodes.map MoveNode.knot ++ [node.knot] := by
    show (w.nodes ++ [node]).map MoveNode.knot = _
    rw [List.map_append]
    rfl
  have hbase : (w.attach node).base = if w.rav.isEmpty then (w.nodes.map MoveNode.knot).length else w.base := by
    show w.rav.getLast?.getD node.nodeIndex = _
    unfold Walk.base
    cases hrav : w.rav with
    | nil =>
      rw [hlen]
      exact hindex
    | cons top rav =>
      rw [List.getLast?_cons]
      rfl
  have hattached : (w.attach node).nodes.length = w.nodes.length + 1 := by
    show (w.nodes ++ [node]).length = _
    rw [List.length_append, List.length_singleton]
  refine ⟨?_, ?_, ?_, fun i hi => ?_, h.clocks⟩
  · rw [hknots, htie]
    show Arena _ (Function.update w.children w.current (node.variationIndex + 1))
    rw [hslot]
    exact h.arena.tie h.node_knot _
  · rw [hknots, htie, hbase]
    refine h.line.tie h.arena h.node_knot fun hempty => ?_
    unfold Walk.base
    rw [List.isEmpty_iff.mp hempty]
    rfl
  · show node.nodeIndex < _
    omega
  · have := h.rav i hi
    omega

theorem grown_move {f : Frame} {w w' : Walk R} {index : Nat} {group : Group} {token : Text} (h : Grown w)
    (hmove : w.move f index group token = .ok w') : Grown w' ∧ w'.stored = w.stored := by
  unfold Walk.move at hmove
  obtain ⟨mover, _, hmove⟩ := bind_ok hmove
  obtain ⟨node, hnode, hmove⟩ := bind_ok hmove
  cases hmove
  obtain ⟨hknot, hstored⟩ := moveNode_spec hnode
  have hgrown := grown_attach h hknot
  have hsame : (w.attach node).stored = w.stored := by
    show (w.nodes ++ [node]).flatMap MoveNode.stored ++ [] = w.stored
    unfold Walk.stored
    rw [List.append_nil, List.flatMap_append, List.flatMap_singleton, hstored]
  split
  · have hquiet : Quiet (w.attach node) (((w.attach node).interpret index .invalid).note (.invalidMove index token)) :=
      ⟨rfl, rfl, rfl, rfl, rfl, rfl, fun _ hc => Or.inl hc⟩
    exact ⟨hgrown.quiet hquiet, hquiet.stored_eq.trans hsame⟩
  · exact ⟨hgrown, hsame⟩

theorem grown_comment {w w' : Walk R} {index : Nat} {text : Text} (h : Grown w) (hc : w.comment index text = .ok w') :
    Grown w' ∧ w'.stored.Perm (w.stored ++ [text]) := by
  unfold Walk.comment at hc
  dsimp only at hc
  have hquiet := quiet_observations hc
  rw [hquiet.stored_eq]
  refine ⟨Grown.quiet ?_ hquiet, ?_⟩
  · split
    · exact ⟨h.arena, h.line, h.current, h.rav, h.clocks⟩
    · have hknots := map_modify (g := MoveNode.knot) (f := fun n => { n with comments := n.comments ++ [text] })
        (fun _ => rfl) w.nodes w.current
      have hlen := congrArg List.length hknots
      rw [List.length_map, List.length_map] at hlen
      refine ⟨?_, ?_, ?_, fun i hi => ?_, h.clocks⟩
      · show Arena ((w.nodes.modify w.current _).map MoveNode.knot) w.children
        rw [hknots]
        exact h.arena
      · show Line ((w.nodes.modify w.current _).map MoveNode.knot) w.base
        rw [hknots]
        exact h.line
      · show w.current < (w.nodes.modify w.current _).length
        rw [hlen]
        exact h.current
      · show i < (w.nodes.modify w.current _).length
        rw [hlen]
        exact h.rav i hi
  · split
    · show (w.nodes.flatMap MoveNode.stored ++ (w.pendingComments ++ [text])).Perm _
      rw [← List.append_assoc]
      exact List.Perm.refl _
    · show ((w.nodes.modify w.current _).flatMap MoveNode.stored ++ w.pendingComments).Perm _
      have hadd := flatMap_modify (f := fun n => { n with comments := n.comments ++ [text] }) (t := [text])
        (fun n => by unfold MoveNode.stored; rw [List.append_assoc]) w.nodes h.current
      refine (hadd.append_right _).trans ?_
      unfold Walk.stored
      rw [List.append_assoc, List.append_assoc]
      exact List.perm_append_comm.append_left _

/-! ## Runs of the loop -/

/-- The text of a comment token, without its marks. -/
def commentOf (kind : Kind) (text : Text) : List Text :=
  match kind with
  | .comment => [(text.drop 1).dropLast]
  | .commentEol => [text.drop 1]
  | _ => []

/-- The comments of a list of tokens. -/
def commentTexts (tokens : List Token) : List Text := tokens.flatMap fun t => commentOf t.kind t.text

theorem grown_interpretToken {f : Frame} {w w' : Walk R} {index : Nat} {group : Group} {token : Text} (h : Grown w)
    (hw : w.interpretToken f index group token = .ok w') :
    Grown w' ∧ w'.stored.Perm (w.stored ++ commentOf group.kind token) := by
  -- All branches but those of moves, variations and comments are quiet.
  have hrest : ∀ u : Walk R, Quiet w u → Grown u ∧ u.stored.Perm (w.stored ++ []) := by
    intro u hu
    rw [hu.stored_eq, List.append_nil]
    exact ⟨h.quiet hu, List.Perm.refl _⟩
  have hsame : ∀ u : Walk R, Grown u → u.stored = w.stored → Grown u ∧ u.stored.Perm (w.stored ++ []) := by
    intro u hu hstored
    rw [hstored, List.append_nil]
    exact ⟨hu, List.Perm.refl _⟩
  unfold Walk.interpretToken at hw
  split at hw
  · next hkind =>
    rw [hkind]
    cases hw
    refine hsame _ (grown_startVariation h index) ?_
    unfold Walk.startVariation
    dsimp only
    split <;> rfl
  · next hkind =>
    rw [hkind]
    cases hw
    refine hsame _ (grown_endVariation h index) ?_
    unfold Walk.endVariation
    split <;> rfl
  · next hkind =>
    rw [hkind]
    obtain ⟨hgrown, hstored⟩ := grown_move h hw
    exact hsame _ hgrown hstored
  · next hkind =>
    rw [hkind]
    exact grown_comment h hw
  · next hkind =>
    rw [hkind]
    exact grown_comment h hw
  · next hkind =>
    rw [hkind]
    obtain ⟨n, _, hw⟩ := bind_ok hw
    cases hw
    exact hrest _ (quiet_edit w w.current (fun _ => rfl) fun _ => rfl)
  · next hkind =>
    rw [hkind]
    cases hw
    exact hrest _ (quiet_edit w w.current (fun _ => rfl) fun _ => rfl)
  · next hkind =>
    rw [hkind]
    cases hw
    refine hrest _ ?_
    split
    · exact Quiet.refl w
    · exact quiet_edit w w.current (fun _ => rfl) fun _ => rfl
  · next hkind =>
    rw [hkind]
    cases hw
    refine hrest _ ?_
    unfold Walk.result
    dsimp only
    split <;> split <;> exact ⟨rfl, rfl, rfl, rfl, rfl, rfl, fun _ hc => Or.inl hc⟩
  · next hkind =>
    rw [hkind]
    cases hw
    exact hrest _ ⟨rfl, rfl, rfl, rfl, rfl, rfl, fun _ hc => Or.inl hc⟩
  · next hkind =>
    cases hw
    have hnone : commentOf group.kind token = [] := by
      unfold commentOf
      split
      · next hc => exact absurd hc (by assumption)
      · next hc => exact absurd hc (by assumption)
      · rfl
    rw [hnone]
    exact hrest _ (Quiet.refl w)

theorem commentTexts_lex (f : Frame) (w : Walk R) (m : Match) :
    commentTexts (w.lex f m).tokens = commentTexts w.tokens ++ commentOf m.group.kind (slice f.text m.start m.stop) := by
  have hpush : ∀ (u : Walk R) (i : Interpretation), commentTexts (u.push m.group.kind (slice f.text m.start m.stop) m.start
      m.stop i).tokens = commentTexts u.tokens ++ commentOf m.group.kind (slice f.text m.start m.stop) := by
    intro u i
    unfold Walk.push commentTexts
    rw [List.flatMap_append, List.flatMap_singleton]
  have hgap : commentTexts (w.gap f m.start).tokens = commentTexts w.tokens := by
    unfold Walk.gap
    split
    · rfl
    · unfold Walk.push Walk.note commentTexts
      rw [List.flatMap_append, List.flatMap_singleton]
      exact List.append_nil _
  rw [← hgap]
  unfold Walk.lex
  dsimp only
  split
  · split <;> exact hpush _ _
  · exact hpush _ _

theorem commentTexts_core {ts us : List Token} (h : us.map Token.core = ts.map Token.core) :
    commentTexts us = commentTexts ts := by
  have hmap : ∀ vs : List Token, commentTexts vs = (vs.map Token.core).flatMap fun c => commentOf c.2.1 c.2.2.1 := by
    intro vs
    rw [List.flatMap_map]
    rfl
  rw [hmap, hmap, h]

/-- Every comment of the tokens so far is stored or in the buffer, once. -/
def Walk.keepsComments (w : Walk R) : Prop := w.stored.Perm (commentTexts w.tokens)

theorem grown_step {f : Frame} {w w' : Walk R} {m : Match} (h : Grown w) (hc : w.keepsComments)
    (hw : w.step f m = .ok w') : Grown w' ∧ w'.keepsComments := by
  have hlex := quiet_lex f w m
  obtain ⟨hgrown, hstored⟩ := grown_interpretToken (h.quiet hlex) hw
  refine ⟨hgrown, hstored.trans ?_⟩
  rw [commentTexts_core (sameTokens_interpretToken hw).1, commentTexts_lex, hlex.stored_eq]
  exact hc.append_right _

theorem grown_run {f : Frame} {w w' : Walk R} {ms : List Match} (h : Grown w) (hc : w.keepsComments)
    (hrun : ms.foldlM (Walk.step f) w = .ok w') : Grown w' ∧ w'.keepsComments := by
  induction ms generalizing w with
  | nil =>
    cases hrun
    exact ⟨h, hc⟩
  | cons m ms ih =>
    rw [List.foldlM_cons] at hrun
    obtain ⟨v, hv, hrest⟩ := bind_ok hrun
    obtain ⟨hgrown, hcomments⟩ := grown_step h hc hv
    exact ih hgrown hcomments hrest

theorem grown_open (game : NormalizedGame) (text : Text) (headers : Headers) (startFen : Text) :
    Grown (openWalk R game text headers startFen).2 ∧ (openWalk R game text headers startFen).2.keepsComments := by
  refine ⟨⟨arena_root, line_root, Nat.zero_lt_one, ?_, ?_⟩, ?_⟩
  · intro i hi
    cases hi
  · intro c hc
    cases hc
  · show ([] : List Text).Perm (commentTexts (if decide (text.head? = some byteOrderMark) = true then _ else []))
    split <;> exact List.Perm.refl _

theorem close_spec {f : Frame} {w : Walk R} (h : Grown w) (hc : w.keepsComments) :
    (w.close f).nodes.map MoveNode.knot = w.nodes.map MoveNode.knot ∧ (w.close f).clocks = w.clocks ∧
      ((w.close f).nodes.flatMap MoveNode.stored).Perm (commentTexts (w.close f).tokens) := by
  have hnodes : (w.close f).nodes =
      w.nodes.modify 0 fun n => { n with startingComments := n.startingComments ++ w.pendingComments } := by
    unfold Walk.close
    dsimp only
    split <;> split <;> split <;> rfl
  have htokens : commentTexts (w.close f).tokens = commentTexts w.tokens := by
    unfold Walk.close Walk.push Walk.note Walk.edit commentTexts
    dsimp only
    split <;> split <;> split <;> simp [commentOf]
  refine ⟨?_, ?_, ?_⟩
  · rw [hnodes]
    apply map_modify
    intro n
    rfl
  · unfold Walk.close
    dsimp only
    split <;> split <;> split <;> rfl
  · rw [hnodes, htokens]
    refine (flatMap_modify (fun n => ?_) w.nodes (Nat.lt_of_le_of_lt (Nat.zero_le _) h.current)).trans hc
    unfold MoveNode.stored
    rw [List.append_assoc, List.append_assoc]
    exact List.perm_append_comm.append_left _

/-! ## The provider's observations -/

theorem mapM_forall₂ {κ α β : Type} {f : α → Except κ β} {as : List α} {bs : List β} (h : as.mapM f = .ok bs) :
    List.Forall₂ (fun a b => f a = .ok b) as bs := by
  induction as generalizing bs with
  | nil =>
    cases h
    exact .nil
  | cons a as ih =>
    rw [List.mapM_cons] at h
    obtain ⟨b, hb, h⟩ := bind_ok h
    obtain ⟨bs', hbs, h⟩ := bind_ok h
    cases h
    exact .cons hb (ih hbs)

/-- The index of a provider's clock. -/
def ClockObservation.providerIndex (c : ClockObservation) : Option Nat :=
  match c.source with
  | .pgn _ _ => none
  | .provider i => some i

theorem providerClock_spec {played : List MoveNode} {i : Nat} {v : Native} {c : ClockObservation}
    (h : providerClock played i v = .ok c) :
    c.source = .provider i ∧ c.nodeIndex = (played[i]?).map MoveNode.nodeIndex ∧
      c.status = if c.seconds.isNone then .invalid
        else if c.nodeIndex ≠ none ∧ c.nodeIndex ≠ some 0 then .parsed else .unmapped := by
  unfold providerClock at h
  obtain ⟨seconds, _, h⟩ := bind_ok h
  obtain ⟨raw, _, h⟩ := bind_ok h
  cases h
  refine ⟨rfl, rfl, ?_⟩
  dsimp only
  simp only [decide_eq_true_eq]

/-- There is one clock for every entry, in order, and it is the one at its index. -/
theorem providerClocks_spec {played : List MoveNode} {n : Nat} {vs : List Native} {cs : List ClockObservation}
    (h : List.Forall₂ (fun (p : Native × Nat) c => providerClock played p.2 p.1 = .ok c) (vs.zipIdx n) cs) :
    cs.filterMap ClockObservation.providerIndex = List.range' n vs.length ∧
      ∀ c ∈ cs, ∃ i v, providerClock played i v = .ok c := by
  induction vs generalizing n cs with
  | nil =>
    cases h
    exact ⟨rfl, fun c hc => by cases hc⟩
  | cons v vs ih =>
    rw [List.zipIdx_cons] at h
    cases h with
    | cons hc hrest =>
      obtain ⟨hindex, hall⟩ := ih hrest
      have hsource := (providerClock_spec hc).1
      refine ⟨?_, fun c hmem => ?_⟩
      · rw [List.filterMap_cons_some (show ClockObservation.providerIndex _ = some n by
          unfold ClockObservation.providerIndex; rw [hsource]), hindex, List.length_cons, List.range'_succ]
      · obtain rfl | hmem := List.mem_cons.mp hmem
        · exact ⟨n, v, hc⟩
        · exact hall c hmem

theorem analyse_keeps {α : Type} {g : MoveNode → α}
    (hg : ∀ (n : MoveNode) (as : List Annotation), g { n with annotations := as } = g n) (played : List MoveNode)
    (entries : List (Native × Nat)) (nodes : List MoveNode) :
    (entries.foldl (analyse played) nodes).map g = nodes.map g := by
  induction entries generalizing nodes with
  | nil => rfl
  | cons entry entries ih =>
    rw [List.foldl_cons, ih]
    exact map_modify (fun n => hg n _) nodes _

/-- The main line. -/
def mainline (nodes : List MoveNode) : List MoveNode := nodes.filter MoveNode.isMainline

theorem map_knot_mainline (nodes : List MoveNode) :
    (nodes.map MoveNode.knot).filter Knot.marked = (mainline nodes).map MoveNode.knot := by
  rw [List.filter_map]
  rfl

/-- What a list of nodes is when it is a tree with one main line. -/
structure MoveTree (nodes : List MoveNode) : Prop where
  index : ∀ (i : Nat) (n : MoveNode), nodes[i]? = some n → n.nodeIndex = i
  root : ∃ root, nodes[0]? = some root ∧ root.parentIndex = none ∧ root.ply = 0 ∧ root.isMainline = true
  parent : ∀ n ∈ nodes, 0 < n.nodeIndex → ∃ (p : Nat) (q : MoveNode),
    n.parentIndex = some p ∧ p < n.nodeIndex ∧ nodes[p]? = some q ∧ n.ply = q.ply + 1
  distinct : nodes.Pairwise fun a b => (a.parentIndex, a.variationIndex) ≠ (b.parentIndex, b.variationIndex)
  ply : ∀ (k : Nat) (n : MoveNode), (mainline nodes)[k]? = some n → n.ply = k
  chain : (mainline nodes).IsChain fun a b => b.parentIndex = some a.nodeIndex

theorem moveTree_of_arena {nodes : List MoveNode} {free : Nat → Nat} {last : Nat}
    (ha : Arena (nodes.map MoveNode.knot) free) (hl : Line (nodes.map MoveNode.knot) last) : MoveTree nodes := by
  have hget : ∀ (i : Nat) (n : MoveNode), nodes[i]? = some n → (nodes.map MoveNode.knot)[i]? = some n.knot := by
    intro i n hn
    rw [List.getElem?_map, hn]
    rfl
  have hback : ∀ (i : Nat) (k : Knot), (nodes.map MoveNode.knot)[i]? = some k → ∃ n, nodes[i]? = some n ∧ n.knot = k := by
    intro i k hk
    rwa [List.getElem?_map, Option.map_eq_some_iff] at hk
  refine ⟨fun i n hn => ha.index i _ (hget i n hn), ?_, fun n hn hpos => ?_,
    (List.pairwise_map (f := MoveNode.knot)).mp ha.distinct, ?_, ?_⟩
  · obtain ⟨root, hroot, hknot⟩ := hback 0 _ ha.root
    exact ⟨root, hroot, congrArg Knot.parent hknot, congrArg Knot.depth hknot, congrArg Knot.marked hknot⟩
  · obtain ⟨i, hi⟩ := List.getElem?_of_mem hn
    have hindex : n.nodeIndex = i := ha.index i _ (hget i n hi)
    obtain ⟨p, k, hp, hlt, hk, hdepth⟩ := ha.parent i _ (hget i n hi) (by omega)
    obtain ⟨q, hq, rfl⟩ := hback p k hk
    exact ⟨p, q, hp, by omega, hq, hdepth⟩
  · intro k n hn
    refine hl.depth k n.knot ?_
    rw [map_knot_mainline, List.getElem?_map, hn]
    rfl
  · have := hl.chain
    rw [map_knot_mainline, List.isChain_map] at this
    exact this

namespace MoveTree
variable {nodes : List MoveNode}

/-- The root is the first of the main line, and the other nodes on it are the played ones. -/
theorem mainline_eq (h : MoveTree nodes) :
    ∃ root, nodes[0]? = some root ∧ mainline nodes = root :: playedNodes nodes := by
  obtain ⟨root, hroot, _, _, hmain⟩ := h.root
  cases nodes with
  | nil => cases hroot
  | cons n ns =>
    cases hroot
    refine ⟨root, rfl, ?_⟩
    have hzero : root.nodeIndex = 0 := h.index 0 root rfl
    have hpos : ∀ m ∈ ns, 0 < m.nodeIndex := by
      intro m hm
      obtain ⟨i, hi⟩ := List.getElem?_of_mem hm
      rw [h.index (i + 1) m (by rw [List.getElem?_cons_succ]; exact hi)]
      exact Nat.succ_pos i
    unfold mainline playedNodes
    rw [List.filter_cons_of_pos hmain, List.filter_cons_of_neg (by simp [hzero])]
    congr 1
    refine List.filter_congr fun m hm => ?_
    simp [hpos m hm]

/-- The node that the provider's entry `i` belongs to. -/
theorem played_iff (h : MoveTree nodes) (i : Nat) (n : MoveNode) :
    (playedNodes nodes)[i]? = some n ↔ n ∈ nodes ∧ n.isMainline = true ∧ n.ply = i + 1 := by
  obtain ⟨root, _, hline⟩ := h.mainline_eq
  constructor
  · intro hn
    have hmain : (mainline nodes)[i + 1]? = some n := by
      rw [hline, List.getElem?_cons_succ]
      exact hn
    obtain ⟨hmem, hmarked⟩ := List.mem_filter.mp (List.mem_of_getElem? hmain)
    exact ⟨hmem, hmarked, h.ply _ n hmain⟩
  · rintro ⟨hmem, hmarked, hply⟩
    obtain ⟨k, hk⟩ := List.getElem?_of_mem (List.mem_filter.mpr ⟨hmem, hmarked⟩)
    have hk' : k = i + 1 := (h.ply k n hk).symm.trans hply
    have : (mainline nodes)[i + 1]? = some n := hk' ▸ hk
    rwa [hline, List.getElem?_cons_succ] at this

end MoveTree

theorem providerObservations_spec {game : NormalizedGame} {nodes nodes' : List MoveNode} {clocks : List ClockObservation}
    (h : providerObservations game nodes = .ok (nodes', clocks)) :
    nodes'.map MoveNode.knot = nodes.map MoveNode.knot ∧ nodes'.map MoveNode.stored = nodes.map MoveNode.stored ∧
      clocks.filterMap ClockObservation.providerIndex = List.range (game.clocks.getD []).length ∧
      ∀ c ∈ clocks, ∃ i v, providerClock (playedNodes nodes) i v = .ok c := by
  unfold providerObservations at h
  dsimp only at h
  obtain ⟨cs, hcs, h⟩ := bind_ok h
  cases h
  obtain ⟨hindex, hall⟩ := providerClocks_spec (mapM_forall₂ hcs)
  refine ⟨analyse_keeps (fun _ _ => rfl) _ _ _, analyse_keeps (fun _ _ => rfl) _ _ _, ?_, hall⟩
  rw [hindex, List.range_eq_range']

/-- Nodes with the same places have the same played indices. -/
theorem map_nodeIndex_played {nodes nodes' : List MoveNode} (h : nodes'.map MoveNode.knot = nodes.map MoveNode.knot) :
    (playedNodes nodes').map MoveNode.nodeIndex = (playedNodes nodes).map MoveNode.nodeIndex := by
  have hplayed : ∀ ns : List MoveNode, (playedNodes ns).map MoveNode.nodeIndex =
      ((ns.map MoveNode.knot).filter fun k => decide (0 < k.index) && k.marked).map Knot.index := by
    intro ns
    rw [List.filter_map, List.map_map]
    rfl
  rw [hplayed, hplayed, h]

/-! ## The whole tree -/

/-- A tree, and the comments of the tokens on its nodes. -/
theorem parse_spec {game : NormalizedGame} {ms : List Match} {e : GameEvidence} (h : parseGameEvidence R game ms = .ok e) :
    MoveTree e.nodes ∧ (e.nodes.flatMap MoveNode.stored).Perm (commentTexts e.tokens) ∧
      e.clocks.filterMap ClockObservation.providerIndex = List.range (game.clocks.getD []).length ∧
      ∀ c ∈ e.clocks, ∀ i, c.source = .provider i → ∃ v, providerClock (playedNodes e.nodes) i v = .ok c := by
  have hprovider : ∀ {nodes nodes' : List MoveNode} {clocks : List ClockObservation},
      providerObservations game nodes = .ok (nodes', clocks) → ∀ c ∈ clocks, ∀ i, c.source = .provider i →
      ∃ v, providerClock (playedNodes nodes') i v = .ok c := by
    intro nodes nodes' clocks hobs c hc i hsource
    obtain ⟨hknots, _, _, hall⟩ := providerObservations_spec hobs
    obtain ⟨j, v, hv⟩ := hall c hc
    have hij : j = i := by
      have := (providerClock_spec hv).1
      rw [hsource] at this
      exact (ClockSource.provider.inj this).symm
    subst hij
    refine ⟨v, ?_⟩
    have hindex : ((playedNodes nodes')[j]?).map MoveNode.nodeIndex = ((playedNodes nodes)[j]?).map MoveNode.nodeIndex := by
      rw [← List.getElem?_map, ← List.getElem?_map, map_nodeIndex_played hknots]
    unfold providerClock at hv ⊢
    rw [hindex]
    exact hv
  rcases hmove : moveText game with ⟨text, origin⟩
  unfold parseGameEvidence at h
  rw [hmove] at h
  dsimp only at h
  split at h
  · obtain ⟨startFen, _, h⟩ := bind_ok h
    obtain ⟨⟨nodes, clocks⟩, hobs, h⟩ := bind_ok h
    cases h
    obtain ⟨hknots, hstored, hrange, _⟩ := providerObservations_spec hobs
    have harena : Arena (nodes.map MoveNode.knot) fun _ => 0 := by
      rw [hknots]
      exact arena_root
    have hline : Line (nodes.map MoveNode.knot) 0 := by
      rw [hknots]
      exact line_root
    refine ⟨moveTree_of_arena harena hline, ?_, hrange, hprovider hobs⟩
    rw [List.flatMap_def, hstored]
    exact List.Perm.refl _
  · obtain ⟨startFen, _, h⟩ := bind_ok h
    obtain ⟨walked, hwalk, h⟩ := bind_ok h
    obtain ⟨⟨nodes, clocks⟩, hobs, h⟩ := bind_ok h
    cases h
    obtain ⟨hopen, hcomments⟩ :=
      grown_open (R := R) game text ((tagsOf ms).foldl (fun h p => Headers.set h p.1 p.2) []) startFen
    obtain ⟨hgrown, hkept⟩ := grown_run hopen hcomments hwalk
    obtain ⟨hclose, hclocks, hperm⟩ :=
      close_spec (f := (openWalk R game text ((tagsOf ms).foldl (fun h p => Headers.set h p.1 p.2) []) startFen).1) hgrown
        hkept
    obtain ⟨hknots, hstored, hrange, _⟩ := providerObservations_spec hobs
    have hnone : walked.clocks.filterMap ClockObservation.providerIndex = [] := by
      refine List.filterMap_eq_nil_iff.mpr fun c hc => ?_
      obtain ⟨token, index, hsource⟩ := hgrown.clocks c hc
      unfold ClockObservation.providerIndex
      rw [hsource]
    have harena : Arena (nodes.map MoveNode.knot) walked.children := by
      rw [hknots, hclose]
      exact hgrown.arena
    have hline : Line (nodes.map MoveNode.knot) walked.base := by
      rw [hknots, hclose]
      exact hgrown.line
    refine ⟨moveTree_of_arena harena hline, ?_, ?_, fun c hc i hsource => ?_⟩
    · rw [List.flatMap_def, hstored, ← List.flatMap_def]
      exact hperm
    · rw [List.filterMap_append, hclocks, hnone, hrange]
      rfl
    · obtain hc | hc := List.mem_append.mp hc
      · rw [hclocks] at hc
        obtain ⟨token, index, hpgn⟩ := hgrown.clocks c hc
        rw [hsource] at hpgn
        cases hpgn
      · exact hprovider hobs c hc i hsource

/-- For any matches whatever, the nodes are a tree with one main line, the provider's clock `i` belongs to the node of ply
`i + 1` on it, and every comment token is stored once. -/
theorem move_tree_wellFormed {game : NormalizedGame} {ms : List Match} {e : GameEvidence}
    (h : parseGameEvidence R game ms = .ok e) :
    MoveTree e.nodes ∧ (mainline e.nodes).head? = e.nodes[0]? ∧ (mainline e.nodes).length = e.playedPlyCount + 1 ∧
      e.clocks.filterMap ClockObservation.providerIndex = List.range (game.clocks.getD []).length ∧
      (∀ c ∈ e.clocks, ∀ i, c.source = .provider i →
        (∀ n ∈ e.nodes, n.isMainline = true → n.ply = i + 1 →
          c.nodeIndex = some n.nodeIndex ∧ c.status = if c.seconds.isNone then .invalid else .parsed) ∧
        ((∀ n ∈ e.nodes, n.isMainline = true → n.ply ≠ i + 1) →
          c.nodeIndex = none ∧ c.status = if c.seconds.isNone then .invalid else .unmapped)) ∧
      (e.nodes.flatMap MoveNode.stored).Perm (commentTexts e.tokens) := by
  obtain ⟨htree, hcomments, hrange, hclocks⟩ := parse_spec h
  obtain ⟨root, hroot, hline⟩ := htree.mainline_eq
  refine ⟨htree, ?_, ?_, hrange, fun c hc i hsource => ?_, hcomments⟩
  · rw [hline, hroot]
    rfl
  · have hcount : e.playedPlyCount = (playedNodes e.nodes).length := by
      unfold GameEvidence.playedPlyCount playedNodes
      congr 1
      refine List.filter_congr fun n _ => ?_
      exact Bool.and_comm _ _
    rw [hline, List.length_cons, hcount]
  · obtain ⟨v, hv⟩ := hclocks c hc i hsource
    obtain ⟨_, hindex, hstatus⟩ := providerClock_spec hv
    refine ⟨fun n hn hmain hply => ?_, fun hnone => ?_⟩
    · have hplayed := (htree.played_iff i n).mpr ⟨hn, hmain, hply⟩
      have hpos : n.nodeIndex ≠ 0 := by
        have := (List.mem_filter.mp (List.mem_of_getElem? hplayed)).2
        simp only [Bool.and_eq_true, decide_eq_true_eq] at this
        omega
      rw [hplayed] at hindex
      refine ⟨hindex, ?_⟩
      rw [hstatus, hindex]
      simp [hpos]
    · have hmiss : (playedNodes e.nodes)[i]? = none := by
        cases hp : (playedNodes e.nodes)[i]? with
        | none => rfl
        | some n =>
          obtain ⟨hn, hmain, hply⟩ := (htree.played_iff i n).mp hp
          exact absurd hply (hnone n hn hmain)
      rw [hmiss] at hindex
      refine ⟨hindex, ?_⟩
      rw [hstatus, hindex]
      simp

/-- Variations before the first move and with no end, an end with no start, and two clocks for one move. -/
def tangledGame : NormalizedGame :=
  ⟨some "( {a} e4 ) ) d4 ( {b}".toList, "crazyhouse".toList,
    [("clocks".toList, .arr [.num (.int 300), .num (.int 200)])]⟩

def tangledMatches : List Match :=
  [⟨0, 1, .startRav⟩, ⟨2, 5, .comment⟩, ⟨6, 8, .move⟩, ⟨9, 10, .endRav⟩, ⟨11, 12, .endRav⟩, ⟨13, 15, .move⟩,
    ⟨16, 17, .startRav⟩, ⟨18, 21, .comment⟩]

theorem move_tree_wellFormed_tangled : ∃ e, parseGameEvidence noRules tangledGame tangledMatches = .ok e ∧
    e.nodes.map MoveNode.knot = [Knot.root, ⟨1, some 0, 0, 1, false⟩, ⟨2, some 0, 1, 1, true⟩] ∧
    e.clocks.map ClockObservation.nodeIndex = [some 2, none] ∧ MoveTree e.nodes ∧
    (e.nodes.flatMap MoveNode.stored).Perm (commentTexts e.tokens) := by
  have hrun : ((parseGameEvidence noRules tangledGame tangledMatches).toOption.map fun e =>
      (e.nodes.map MoveNode.knot, e.clocks.map ClockObservation.nodeIndex)) =
      some ([Knot.root, ⟨1, some 0, 0, 1, false⟩, ⟨2, some 0, 1, 1, true⟩], [some 2, none]) := by decide +kernel
  obtain ⟨e, he, hresult⟩ := Option.map_eq_some_iff.mp hrun
  obtain ⟨hknots, hclocks⟩ := Prod.mk.inj hresult
  have he := toOption_some he
  obtain ⟨htree, _, _, _, _, hcomments⟩ := move_tree_wellFormed he
  exact ⟨e, he, hknots, hclocks, htree, hcomments⟩

end ChessCrawl.Evidence
