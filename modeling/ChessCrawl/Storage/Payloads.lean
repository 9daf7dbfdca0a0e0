import ChessCrawl.Storage.Preservation

/-! A raw payload through all moves: it is in one place, a read of it that starts once it is stored returns its bytes
whatever the other sessions do, and the object that it refers to has not been deleted. -/
namespace ChessCrawl.Storage
open ChessCrawl.Lib
set_option autoImplicit false

variable {cd : Codec} {s t : State}

/-- The places that the rows of a payload name. -/
def Db.locations (db : Db) (id : Nat) : List Content := (db.payloads.filter fun r => r.id = id).map RawPayload.content

/-- The body is in that place. -/
def Content.Holds (cd : Codec) (db : Db) (o : Objects) (body : Bytes) : Content → Prop
  | .inline compression rawBody => Db.decodeBody cd compression rawBody = some body
  | .external objectId => ∃ x, db.object objectId = some x ∧ o.readArchiveBody cd x.object = some body

/-- A step of the operation that a session is in. -/
def Event.stepsIn (n : Nat) : Event → Bool
  | .step m _ _ => m = n
  | _ => false

def Event.crashes (n : Nat) : Event → Bool
  | .crash m => m = n
  | _ => false

theorem locations_of_payload {db : Db} {o : Objects} (h : db.Ok cd o) {id : Nat} {row : RawPayload} (hrow : db.payload id = some row) :
    db.locations id = [row.content] := by
  obtain ⟨hmem, rfl⟩ := mem_of_payload hrow
  have hids := h.payloadIds
  unfold Db.locations
  generalize db.payloads = rows at hmem hids
  induction rows with
  | nil => cases hmem
  | cons r rows ih =>
    simp only [List.map_cons, List.nodup_cons] at hids
    obtain rfl | hmem := List.mem_cons.mp hmem
    · have hrest : rows.filter (fun r' => r'.id = row.id) = [] := by
        rw [List.filter_eq_nil_iff]
        intro r' hr' heq
        exact hids.1 (List.mem_map.mpr ⟨r', hr', of_decide_eq_true heq⟩)
      simp [hrest]
    · have hne : r.id ≠ row.id := fun heq => hids.1 (heq ▸ List.mem_map_of_mem hmem)
      simpa [hne] using ih hmem hids.2

/-- A payload that is read is in the one place that its row names. -/
theorem holds_of_read {db : Db} {o : Objects} (h : db.Ok cd o) {id : Nat} {body : Bytes}
    (hread : db.readRawPayload o cd id = some body) : ∃ content, db.locations id = [content] ∧ content.Holds cd db o body := by
  obtain ⟨row, hrow, hbody⟩ := Option.bind_eq_some_iff.mp hread
  refine ⟨row.content, locations_of_payload h hrow, ?_⟩
  obtain ⟨raw, hraw, hcheck⟩ := Option.bind_eq_some_iff.mp hbody
  have hsame : raw = body := by
    unfold Db.checkBody at hcheck
    split at hcheck
    · cases hcheck
    · exact Option.some.inj hcheck
  subst hsame
  cases hcontent : row.content with
  | inline compression rawBody =>
    rw [hcontent] at hraw
    exact hraw
  | external objectId =>
    rw [hcontent] at hraw
    exact Option.bind_eq_some_iff.mp hraw

/-! ## What a step leaves to the other sessions -/

/-- Other sessions stay where they are, the logs grow, and nothing that has a row is reported missing. -/
structure Beside (s : State) (n : Nat) (t : State) : Prop where
  sessions : ∀ m, m ≠ n → t.sessions m = s.sessions m
  stored : s.stored <+: t.stored
  reads : ∃ reads, t.reads = s.reads ++ reads ∧ ∀ e, (e, .missing) ∈ reads → s.db.fingerprint e = none

/-- A step that ends neither a store nor a read. -/
theorem Beside.quiet {n : Nat} {pc : Option Pc} (hsessions : t.sessions = Function.update s.sessions n pc)
    (hstored : t.stored = s.stored) (hreads : t.reads = s.reads) : Beside s n t where
  sessions m hm := by rw [hsessions, Function.update_of_ne hm]
  stored := hstored ▸ List.prefix_rfl
  reads := ⟨[], by simp [hreads], by simp⟩

theorem Beside.move (s : State) (n : Nat) (pc : Option Pc) : Beside s n (s.move n pc) := .quiet rfl rfl rfl

theorem Beside.commit (s : State) (n : Nat) (db : Db) (pc : Option Pc) : Beside s n (s.commit n db pc) := .quiet rfl rfl rfl

theorem Beside.keep (s : State) (n : Nat) (db : Db) (e : Evidence) (body : Bytes) : Beside s n (s.keep n db e body) where
  sessions := (Beside.move s n none).sessions
  stored := List.prefix_append s.stored [(e, body)]
  reads := ⟨[], by simp [State.keep, State.commit, State.move], by simp⟩

theorem Beside.answer {n v : Nat} {e : Evidence} {x : Outcome} (hx : x = .missing → s.db.fingerprint e = none)
    (reader : Reader) : Beside s n (s.answer cd n v e x reader) := by
  cases reader with
  | caller =>
    refine ⟨(Beside.move s n none).sessions, List.prefix_rfl, [(e, x)], rfl, fun e' he' => ?_⟩
    cases List.mem_singleton.mp he'
    exact hx rfl
  | relocation target rest =>
    unfold State.answer
    dsimp only
    split
    all_goals exact .move s n _

theorem Beside.select (n v : Nat) (e : Evidence) (reader : Reader) : Beside s n (s.select cd n v e reader) := by
  unfold State.select
  split
  · split
    · next hnone => exact .answer (fun _ => by simp [Db.fingerprint, hnone]) reader
    · split
      · split
        all_goals exact .answer (by simp) reader
      · exact .move s n _
  · split
    · next hnone => exact .answer (fun _ => by simp [Db.fingerprint, hnone]) reader
    · exact .move s n _

theorem Beside.register (n v : Nat) (admitted : Bool) (p : Prepared) (purpose : Purpose) :
    Beside s n (s.register cd n v admitted p purpose) := by
  unfold State.register
  split
  · split
    · exact .keep s n _ _ _
    · exact .move s n none
  · split
    · exact .commit s n _ _
    · exact .move s n none
  · split
    · exact .commit s n _ _
    · exact .move s n none
  · split
    · exact .keep s n _ _ _
    · exact .move s n none
  · split
    · exact .commit s n _ _
    · exact .move s n none

theorem Beside.advance (h : s.Inv cd) {n : Nat} {pc : Pc} (hn : s.sessions n = some pc) (v : Nat) (admitted : Bool) :
    Beside s n (s.advance cd n v admitted pc) := by
  cases pc with
  | storing record external =>
    unfold State.advance
    dsimp only
    split
    · exact .keep s n _ _ _
    · exact .move s n none
  | putting p encoded purpose =>
    unfold State.advance
    dsimp only
    split
    · exact .quiet rfl rfl rfl
    · exact .move s n none
  | registering p purpose => exact .register n v admitted p purpose
  | reading e reader => exact .select n v e reader
  | resolving e row objectId reader =>
    -- the row that names the object keeps it in the registry
    obtain ⟨x, hx, _⟩ := h.sessions n _ hn
    unfold State.advance
    simp only [hx]
    exact .move s n _
  | fetching e row p reader =>
    unfold State.advance
    dsimp only
    split
    all_goals exact .answer (by simp) reader
  | deleting workspaceId jobId row rest => exact .quiet rfl rfl rfl
  | removing workspaceId jobId row rest => exact .commit s n _ _
  | looking | verifying | checking =>
    unfold State.advance
    dsimp only
    split
    all_goals exact .move s n _
  | relocating | transferring =>
    unfold State.advance
    dsimp only
    split
    · exact .move s n none
    · split
      · exact .move s n none
      · split
        all_goals exact .move s n _
  | authorizing =>
    unfold State.advance
    dsimp only
    split
    · exact .move s n none
    · split
      all_goals exact .move s n _

/-- A step is of one session, which a new operation finds free. -/
theorem step_beside (h : s.Inv cd) {e : Event} (hstep : s.step cd e = some t) :
    ∃ n, Beside s n t ∧ (s.sessions n = none ∨ e = .crash n ∨ ∃ v admitted, e = .step n v admitted) := by
  unfold State.step at hstep
  split at hstep
  · obtain ⟨pc, hn, rfl⟩ := Option.map_eq_some_iff.mp hstep
    exact ⟨_, .advance h hn _ _, .inr (.inr ⟨_, _, rfl⟩)⟩
  · cases hstep
    exact ⟨_, .move s _ none, .inr (.inl rfl)⟩
  · obtain ⟨⟨n, pc⟩, _, hmove⟩ := Option.bind_eq_some_iff.mp hstep
    split at hmove
    · next hfree =>
      cases hmove
      exact ⟨n, .move s n _, .inl (by simpa using hfree)⟩
    · cases hmove

/-! ## Reads behind the store -/

/-- Every read that ends once its evidence is stored returns the bytes. -/
theorem reads_returned (hcd : cd.Lawful) (h : s.Inv cd) {e : Evidence} {body : Bytes} (hstored : (e, body) ∈ s.stored)
    {es : List Event} (hrun : Trace (evidence cd) (fun _ _ => True) s es t) :
    (t.Inv cd ∧ (e, body) ∈ t.stored) ∧ ∃ reads, t.reads = s.reads ++ reads ∧ ∀ x, (e, x) ∈ reads → x = .returned body := by
  refine Trace.keeps (I := fun t => (t.Inv cd ∧ (e, body) ∈ t.stored) ∧
    ∃ reads, t.reads = s.reads ++ reads ∧ ∀ x, (e, x) ∈ reads → x = .returned body) (fun t ev u _ ht _ hstep => ?_) hrun
    ⟨⟨h, hstored⟩, [], by simp, by simp⟩
  obtain ⟨⟨hinv, hmem⟩, reads, hreads, hall⟩ := ht
  obtain ⟨n, hbeside, _⟩ := step_beside hinv hstep
  obtain ⟨new, hnew, hmissing⟩ := hbeside.reads
  have hinv' : u.Inv cd := step_inv hcd hinv hstep
  have hmem' : (e, body) ∈ u.stored := hbeside.stored.subset hmem
  refine ⟨⟨hinv', hmem'⟩, reads ++ new, by rw [hnew, hreads, List.append_assoc], fun x hx => ?_⟩
  obtain hx | hx := List.mem_append.mp hx
  · exact hall x hx
  · have hanswers := hinv'.reads (e, x) (by rw [hnew]; exact List.mem_append_right _ hx)
    cases x with
    | returned b =>
      have hsame : some (fingerprintOf cd b) = some (fingerprintOf cd body) :=
        hanswers.symm.trans (hinv'.stored _ hmem')
      rw [fingerprintOf_injective hcd (Option.some.inj hsame)]
    | missing =>
      have hnone := hmissing e hx
      rw [hinv.stored _ hmem] at hnone
      cases hnone
    | corrupt => exact False.elim hanswers

theorem readSteps_pos {e : Evidence} {pc : Pc} {k : Nat} (hk : pc.readSteps e = some k) : 0 < k := by
  unfold Pc.readSteps at hk
  split at hk
  · split at hk
    all_goals cases hk
    omega
  · split at hk
    all_goals cases hk
    omega
  · split at hk
    all_goals cases hk
    omega
  · cases hk

/-- A read that does not crash returns within its remaining steps, whatever the other sessions do between them. -/
theorem read_ends (hcd : cd.Lawful) {e : Evidence} {body : Bytes} {n : Nat} {es : List Event} (h : s.Inv cd)
    (hstored : (e, body) ∈ s.stored) (hrun : Trace (evidence cd) (fun _ ev => ev.crashes n = false) s es t) {pc : Pc} {k : Nat}
    (hn : s.sessions n = some pc) (hk : pc.readSteps e = some k) (hsteps : k ≤ es.countP (Event.stepsIn n)) :
    ∃ reads, t.reads = s.reads ++ reads ∧ (e, .returned body) ∈ reads := by
  induction hrun generalizing pc k with
  | nil s =>
    have hpos := readSteps_pos hk
    simp only [List.countP_nil] at hsteps
    omega
  | @cons s u t ev es hcrash hstep hrest ih =>
    obtain ⟨m, hbeside, hwho⟩ := step_beside h hstep
    obtain ⟨new, hnew, _⟩ := hbeside.reads
    have hinv : u.Inv cd := step_inv hcd h hstep
    have hmem : (e, body) ∈ u.stored := hbeside.stored.subset hstored
    obtain ⟨_, later, hlater, _⟩ := reads_returned hcd hinv hmem (hrest.mono fun _ _ _ => trivial)
    by_cases hself : ev.stepsIn n = true
    · cases ev with
      | step m' v admitted =>
        obtain rfl : m' = n := of_decide_eq_true hself
        rw [List.countP_cons_of_pos hself] at hsteps
        obtain ⟨u', hu', hcases⟩ := read_advances hcd h hstored hn hk v admitted
        obtain rfl := Option.some.inj (hu'.symm.trans hstep)
        obtain hdone | ⟨pc', j, hpc', hj, hlt⟩ := hcases
        · exact ⟨(e, .returned body) :: later, by simp [hlater, hdone], List.mem_cons_self⟩
        · obtain ⟨reads, hreads, hmem⟩ := ih hinv hmem hpc' hj (by omega)
          exact ⟨new ++ reads, by rw [hreads, hnew, List.append_assoc], List.mem_append_right _ hmem⟩
      | _ => simp [Event.stepsIn] at hself
    · rw [List.countP_cons_of_neg hself] at hsteps
      have hne : n ≠ m := by
        rintro rfl
        obtain hfree | rfl | ⟨v, admitted, rfl⟩ := hwho
        · rw [hfree] at hn
          cases hn
        · simp [Event.crashes] at hcrash
        · simp [Event.stepsIn] at hself
      obtain ⟨reads, hreads, hmem⟩ := ih hinv hmem ((hbeside.sessions n hne).trans hn) hk hsteps
      exact ⟨new ++ reads, by rw [hreads, hnew, List.append_assoc], List.mem_append_right _ hmem⟩

/-- In every run of stores, relocations, transfers, imports, artifact publications and artifact deletions, with crashes
anywhere: a stored payload is in exactly one place and read there, at this moment and at every later one; no read of
it that ends from now on ends otherwise, and one that begins returns its bytes in three steps; and no object that a
payload names has been deleted. -/
theorem raw_payloads_kept (hcd : cd.Lawful) (h : Reachable (evidence cd) s) :
    (∀ row ∈ s.db.payloads, ∃ body, (.payload row.id, body) ∈ s.stored) ∧
    (∀ id body, (.payload id, body) ∈ s.stored → ∀ es t, Trace (evidence cd) (fun _ _ => True) s es t →
      (∃ content, t.db.locations id = [content] ∧ content.Holds cd t.db t.objects body) ∧
      t.db.readRawPayload t.objects cd id = some body ∧
      ∃ reads, t.reads = s.reads ++ reads ∧ ∀ x, (.payload id, x) ∈ reads → x = .returned body) ∧
    (∀ id body, (.payload id, body) ∈ s.stored → ∀ n s₁ es t, s.step cd (.read n (.payload id)) = some s₁ →
      Trace (evidence cd) (fun _ e => e.crashes n = false) s₁ es t → 3 ≤ es.countP (Event.stepsIn n) →
      ∃ reads, t.reads = s.reads ++ reads ∧ (.payload id, .returned body) ∈ reads) ∧
    ∀ q ∈ s.deleted, ∀ row ∈ s.db.payloads, ∀ x ∈ s.db.objects, row.content = .external x.id → x.object.place ≠ q := by
  have hinv := inv_of_reachable hcd h
  refine ⟨fun row hrow => ?_, fun id body hstored es t hrun => ?_,
    fun id body hstored n s₁ es t hread hrun hsteps => ?_, fun q hq row hrow x hx hcontent hplace => ?_⟩
  · exact logged_of_reachable h _ (List.mem_append_left _ (List.mem_map_of_mem hrow))
  · obtain ⟨⟨hinv', hstored'⟩, hreads⟩ := reads_returned hcd hinv hstored hrun
    have hbody := readEvidence_of_stored hcd hinv' hstored'
    exact ⟨holds_of_read hinv'.db hbody, hbody, hreads⟩
  · have hinv' := step_inv hcd hinv hread
    have hmove : s₁ = s.move n (some (.reading (.payload id) .caller)) := by
      simp only [State.step, Event.start, Option.bind_some] at hread
      split at hread
      · exact (Option.some.inj hread).symm
      · cases hread
    subst hmove
    have hn : (s.move n (some (.reading (.payload id) .caller))).sessions n = some (.reading (.payload id) .caller) :=
      Function.update_self ..
    exact read_ends (s := s.move n (some (.reading (.payload id) .caller))) hcd hinv' hstored hrun hn
      (by simp [Pc.readSteps]) hsteps
  · have href : s.db.referenced x.id = true := by
      simp only [Db.referenced, Bool.or_eq_true, List.any_eq_true, decide_eq_true_eq]
      exact .inl ⟨row, hrow, hcontent⟩
    have hsource := source_of_referenced hinv.db hx href
    have hkey := hinv.deleted q hq
    rw [← hplace] at hkey
    exact absurd hsource (by rw [show x.object.objectKey.isSource = false from hkey]; simp)

/-- A relocation of a payload crashes behind its publication and is run again; an artifact has a chunk of its own. -/
def relocated : List Event :=
  [.store 0 ⟨⟨"lichess", "user_games", "lichess:user:ann", "public"⟩, emptyObject, none⟩ none, .step 0 0 false,
    .chunk 3 0 "local" 7 1 0 [7] ⟨.localFiles, "/srv/archive"⟩, .step 3 0 false, .step 3 0 false, .step 3 0 true,
    .relocate 1 ⟨.localFiles, "/srv/archive"⟩ 100, .step 1 0 false, .step 1 0 false, .step 1 0 false, .crash 1,
    .relocate 1 ⟨.localFiles, "/srv/archive"⟩ 100, .step 1 0 false, .step 1 0 false, .step 1 0 false, .step 1 0 false,
    .step 1 0 false, .step 1 0 false]

/-- A transfer and a deletion of the artifact between the steps of a read. -/
def overtaken : List Event :=
  [.step 2 0 false, .transfer 1 ⟨.s3, "archive"⟩ 100 0, .step 1 0 false, .step 1 0 false, .step 1 0 false, .step 1 0 false,
    .step 2 0 false, .delete 4 "local" 7 64, .step 4 0 true, .step 4 0 true, .step 4 0 true, .crash 4, .step 2 0 false]

theorem raw_payloads_kept_overtaken : ∃ s s₁ t : State, Reachable (evidence sample) s ∧
    s.step sample (.read 2 (.payload 1)) = some s₁ ∧
    Trace (evidence sample) (fun _ e => e.crashes 2 = false) s₁ overtaken t ∧
    s.db.locations 1 = [.external 2] ∧ t.db.locations 1 = [.external 3] ∧ t.deleted.length = 1 ∧
    t.db.readRawPayload t.objects sample 1 = some emptyObject ∧
    ∃ reads, t.reads = s.reads ++ reads ∧ (.payload 1, .returned emptyObject) ∈ reads := by
  have htest : ((exec (evidence sample) (fun _ _ => True)
      ⟨.empty, fun _ => none, fun _ => none, [], [], []⟩ relocated).any fun s =>
        decide (s.stored = [(.payload 1, emptyObject)] ∧ s.db.locations 1 = [.external 2]) &&
        (s.step sample (.read 2 (.payload 1))).any fun s₁ =>
          (exec (evidence sample) (fun _ e => e.crashes 2 = false) s₁ overtaken).any fun t =>
            decide (t.db.locations 1 = [.external 3] ∧ t.deleted.length = 1)) = true := by decide +kernel
  obtain ⟨s, hs, htest⟩ := (Option.any_eq_true ..).mp htest
  obtain ⟨hstart, htest⟩ := Bool.and_eq_true_iff.mp htest
  obtain ⟨hstored, hbefore⟩ := of_decide_eq_true hstart
  obtain ⟨s₁, hread, htest⟩ := (Option.any_eq_true ..).mp htest
  obtain ⟨t, hrun, hend⟩ := (Option.any_eq_true ..).mp htest
  obtain ⟨hafter, hdeleted⟩ := of_decide_eq_true hend
  have hreach : Reachable (evidence sample) s := Reach.exec (.start rfl) relocated hs
  have htrace := Trace.of_exec overtaken hrun
  have hmem : (.payload 1, emptyObject) ∈ s.stored := hstored ▸ List.mem_singleton_self _
  have hall : Trace (evidence sample) (fun _ _ => True) s (.read 2 (.payload 1) :: overtaken) t :=
    .cons trivial hread (htrace.mono fun _ _ _ => trivial)
  obtain ⟨_, hlater, hends, _⟩ := raw_payloads_kept sample_lawful hreach
  exact ⟨s, s₁, t, hreach, hread, htrace, hbefore, hafter, hdeleted, (hlater 1 emptyObject hmem _ t hall).2.1,
    hends 1 emptyObject hmem 2 s₁ overtaken t hread htrace (by decide)⟩

end ChessCrawl.Storage
