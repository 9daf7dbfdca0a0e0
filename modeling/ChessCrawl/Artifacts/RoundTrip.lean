import ChessCrawl.Artifacts.Download
import ChessCrawl.Artifacts.Export
import ChessCrawl.Artifacts.Lifecycle

/-! The round trip of an export: what a worker publishes, downloads give back for as long as the artifact is ready. -/
namespace ChessCrawl.Artifacts
open ChessCrawl.Lib
set_option autoImplicit false

variable {cd : Codec} {ws : String} {job : Nat}

/-! ## A ready artifact keeps its parts -/

variable {s t : State} {n generation : Nat}

/-- What a step leaves of a ready artifact's parts. -/
structure Keeps (s t : State) (e : Event) : Prop where
  objects : ∀ key row, s.db.objects key = some row → t.db.objects key = some row
  store : ∀ key held, s.store key = some held → t.store key = some held ∨ ∃ n, e = .land n key
  chunks : ∀ job a, s.db.artifacts job = some a → a.state = .ready → t.db.chunks job = s.db.chunks job

theorem keeps_of_eq {e : Event} (hobjects : t.db.objects = s.db.objects) (hstore : t.store = s.store)
    (hchunks : t.db.chunks = s.db.chunks) : Keeps s t e :=
  ⟨fun _ _ h => hobjects ▸ h, fun _ _ h => .inl (hstore ▸ h), fun _ _ _ _ => by rw [hchunks]⟩

theorem removeChunk_keeps {e : Event} {db : Db} {ordinal : Nat} (h : s.db.removeChunk job ordinal = some db)
    (hdb : t.db = db) (hstore : t.store = s.store) : Keeps s t e := by
  rcases removeChunk_spec h with rfl | ⟨hstate, rows, _, rfl⟩
  · exact keeps_of_eq (by rw [hdb]) hstore (by rw [hdb])
  · refine ⟨fun _ _ h => hdb ▸ h, fun _ _ h => .inl (hstore ▸ h), fun j a ha hready => ?_⟩
    rw [hdb]
    refine setParts_of_ne fun hj => ?_
    subst hj
    exact hstate a ha hready

theorem publication_keeps {e : Event} {db : Db} {key : Key} {row : ObjectRow} {ordinal : Nat}
    (h : ((s.db.registerArchiveObject key row).bind fun d => d.insertChunk job ordinal key) = some db) (hdb : t.db = db)
    (hstore : t.store = s.store) : Keeps s t e := by
  obtain ⟨d, hd, hinsert⟩ := Option.bind_eq_some_iff.mp h
  have hregister : d.artifacts = s.db.artifacts ∧ d.chunks = s.db.chunks ∧
      ∀ k r, s.db.objects k = some r → d.objects k = some r := by
    unfold Db.registerArchiveObject at hd
    split at hd
    · next hnone =>
      cases hd
      refine ⟨rfl, rfl, fun k r hr => (Function.update_of_ne (fun hk => ?_) _ _).trans hr⟩
      rw [hk, hnone] at hr
      cases hr
    · split at hd <;> cases hd
      exact ⟨rfl, rfl, fun _ _ h => h⟩
  obtain ⟨hartifacts, hchunks, hobjects⟩ := hregister
  unfold Db.insertChunk at hinsert
  dsimp only at hinsert
  split at hinsert
  · cases hinsert
  · next hgo =>
    cases hinsert
    refine ⟨fun k r hr => ?_, fun _ _ h => .inl (hstore ▸ h), fun j a ha hready => ?_⟩
    · rw [hdb]
      exact hobjects k r hr
    · rw [hdb]
      refine (Function.update_of_ne (fun hj => hgo (.inl ?_)) _ _).trans (congrFun hchunks j)
      unfold Db.mutable
      rw [hartifacts, ← hj, ha, Option.any_some, hready]
      rfl

theorem commit_keeps {e : Event} {db : Option Db} {next : Option Session}
    (h : ∀ d, db = some d → d.objects = s.db.objects ∧ d.chunks = s.db.chunks) : Keeps s (s.commit n db next) e := by
  cases db with
  | none => exact keeps_of_eq rfl rfl rfl
  | some d =>
    obtain ⟨hobjects, hchunks⟩ := h d rfl
    cases next with
    | none => exact keeps_of_eq hobjects rfl hchunks
    | some x => exact keeps_of_eq hobjects rfl hchunks

theorem BuildPc.advance_keeps {pc : BuildPc} {i : Input} {e : Event} (h : pc.advance cd s n job generation i = some t) :
    Keeps s t e := by
  cases pc with
  | started =>
    cases h
    refine commit_keeps fun d hd => ?_
    cases hd
    unfold Db.setState
    split <;> exact ⟨rfl, rfl⟩
  | clearing =>
    rw [BuildPc.advance] at h
    split at h <;> cases h <;> exact keeps_of_eq rfl rfl rfl
  | writing x location ordinal rest =>
    cases rest with
    | nil =>
      cases h
      split <;> exact keeps_of_eq rfl rfl rfl
    | cons b rest =>
      cases h
      split
      · exact keeps_of_eq rfl rfl rfl
      · next hgo =>
        refine ⟨fun _ _ h => h, fun key held hheld => .inl ?_, fun _ _ _ _ => rfl⟩
        show Function.update s.store _ (some (cd.compress ((b :: rest).take chunkBytes))) key = some held
        rw [Function.update_apply]
        split
        · next hkey =>
          -- The object that is there already has the same bytes.
          by_contra hne
          refine hgo (.inr ((Option.any_eq_true _ _).mpr ⟨held, hkey ▸ hheld, decide_eq_true fun heq => ?_⟩))
          exact hne (congrArg some heq.symm)
        · exact hheld
  | inserting x location ordinal chunk rest =>
    rw [BuildPc.advance] at h
    dsimp only at h
    cases h
    cases hdb : (s.db.registerArchiveObject (objectOf cd location (s.db.workspace job) job generation chunk).1
        (objectOf cd location (s.db.workspace job) job generation chunk).2).bind fun db =>
          db.insertChunk job ordinal (objectOf cd location (s.db.workspace job) job generation chunk).1 with
    | none => exact keeps_of_eq rfl rfl rfl
    | some db => exact publication_keeps hdb rfl rfl
  | sealing x ordinal =>
    rw [BuildPc.advance] at h
    split at h <;> cases h
    refine commit_keeps fun d hd => ?_
    obtain ⟨a, _, hrest⟩ := Option.bind_eq_some_iff.mp hd
    split at hrest <;> cases hrest
    exact ⟨rfl, rfl⟩
  | _ =>
    cases h
    split <;> exact keeps_of_eq rfl rfl rfl

theorem DeletePc.advance_keeps {pc : DeletePc} {fenced : Bool} {i : Input} {at' : DeletePc → Session} {done : Session}
    {e : Event} (h : pc.advance s n job fenced i at' done = some t) : Keeps s t e := by
  cases pc with
  | deleting rows =>
    cases rows with
    | nil =>
      cases h
      exact keeps_of_eq rfl rfl rfl
    | cons row rows =>
      cases h
      split <;> exact keeps_of_eq rfl rfl rfl
  | authorized row rows =>
    cases h
    split <;> exact keeps_of_eq rfl rfl rfl
  | sent row rows =>
    rw [DeletePc.advance] at h
    split at h <;> cases h
    exact keeps_of_eq rfl rfl rfl
  | deleted row rows =>
    cases h
    split
    · cases hremove : s.db.removeChunk job row.ordinal with
      | none => exact keeps_of_eq rfl rfl rfl
      | some db => exact removeChunk_keeps hremove rfl rfl
    · exact keeps_of_eq rfl rfl rfl

theorem PrunePc.advance_keeps {pc : PrunePc} {i : Input} {e : Event} (h : pc.advance s n ws i = some t) :
    Keeps s t e := by
  cases pc with
  | marking before limit =>
    rw [PrunePc.advance] at h
    split at h
    · cases h
    · split at h <;> cases h
      exact keeps_of_eq rfl rfl rfl
  | pruning jobs =>
    cases jobs with
    | nil =>
      cases h
      exact keeps_of_eq rfl rfl rfl
    | cons job jobs =>
      cases h
      exact keeps_of_eq rfl rfl rfl
  | voiding job jobs =>
    rw [PrunePc.advance] at h
    split at h <;> cases h
    refine commit_keeps fun d hd => ?_
    obtain ⟨a, _, hrest⟩ := Option.bind_eq_some_iff.mp hd
    split at hrest <;> cases hrest
    exact ⟨rfl, rfl⟩
  | _ =>
    cases h
    exact keeps_of_eq rfl rfl rfl

theorem step_keeps {e : Event} (h : step cd s e = some t) : Keeps s t e := by
  cases e with
  | reserve job ws st =>
    rw [step] at h
    split at h
    · cases h
    · obtain ⟨db, hdb, rfl⟩ := Option.map_eq_some_iff.mp h
      unfold Db.reserveArtifact at hdb
      split at hdb
      · cases hdb
      · split at hdb <;> cases hdb
        exact keeps_of_eq rfl rfl rfl
  | release job =>
    rw [step] at h
    split at h
    · cases h
    · split at h <;> cases h
      exact keeps_of_eq rfl rfl rfl
  | advance n i =>
    obtain ⟨x, hx, hadvance⟩ := Option.bind_eq_some_iff.mp h
    cases x with
    | build job generation pc => exact BuildPc.advance_keeps hadvance
    | buildDrop job generation pc => exact DeletePc.advance_keeps hadvance
    | prune ws pc => exact PrunePc.advance_keeps hadvance
    | pruneDrop ws job jobs pc => exact DeletePc.advance_keeps hadvance
  | land n key =>
    rw [step] at h
    split at h <;> cases h
    refine ⟨fun _ _ h => h, fun k held hheld => ?_, fun _ _ _ _ => rfl⟩
    by_cases hk : k = key
    · subst hk
      exact .inr ⟨n, rfl⟩
    · exact .inl ((Function.update_of_ne hk _ _).trans hheld)
  | acquire job ws lease lifetime slots purged =>
    rw [step] at h
    split at h
    · cases h
    · obtain ⟨db, hdb, rfl⟩ := Option.map_eq_some_iff.mp h
      unfold Db.acquireDownload at hdb
      split at hdb
      · cases hdb
      · dsimp only at hdb
        split at hdb <;> cases hdb
        exact keeps_of_eq rfl rfl rfl
  | tick d =>
    cases h
    exact keeps_of_eq rfl rfl rfl
  | crash n =>
    cases h
    exact keeps_of_eq rfl rfl rfl
  | giveBack lease ws =>
    cases h
    exact keeps_of_eq rfl rfl rfl
  | _ =>
    rw [step] at h
    split at h <;> cases h
    exact keeps_of_eq rfl rfl rfl

/-! ## What is published stays -/

def Ready (job : Nat) (s : State) : Prop := ∃ a, s.db.artifacts job = some a ∧ a.state = .ready

/-- The artifact holds the export of a snapshot. -/
structure Published (cd : Codec) (s : State) (job : Nat) (x : Snapshot) (at' : Place) : Prop where
  row : ∃ a, s.db.artifacts job = some a ∧ a.state = .ready ∧ a.workspaceId = at'.workspaceId ∧
    a.manifest = some (manifestOf cd x (partsOf x.body).length) ∧ x.body.length ≤ a.reservedBytes
  whole : Whole cd s job at' x.body
  jobId : at'.jobId = job
  attempt : 1 ≤ at'.attempt
  rows : x.rows ≤ 10000000
  bytes : x.body.length ≤ 4 * 1024 ^ 3

section Published
variable {x : Snapshot} {at' : Place}

theorem Published.next {e : Event} (h : Published cd s job x at') (hr : Reachable (artifacts cd) s)
    (hstep : step cd s e = some t) (hready : Ready job t) : Published cd t job x at' := by
  obtain ⟨a, ha, hstate, hrest⟩ := h.row
  have hlife := artifact_lifecycle hr hstep
  have hkeeps := step_keeps hstep
  obtain ⟨a', ha', hfollows⟩ := hlife.follows job a ha
  obtain ⟨b, hb, hbready⟩ := hready
  obtain rfl : a' = b := Option.some.inj (ha'.symm.trans hb)
  obtain rfl := hfollows.ready hstate hbready
  refine ⟨⟨a', hb, hbready, hrest⟩, ⟨?_, fun part hpart => ?_⟩, h.jobId, h.attempt, h.rows, h.bytes⟩
  · rw [hkeeps.chunks job a' ha hstate]
    exact h.whole.rows
  · obtain ⟨hobject, hstored⟩ := h.whole.stored part hpart
    refine ⟨hkeeps.objects _ _ hobject, ?_⟩
    rcases hkeeps.store _ _ hstored with hkept | ⟨n, rfl⟩
    · exact hkept
    · -- A deletion would have to be of an attempt before the one that the row of this part is of.
      exfalso
      obtain ⟨before, after, hsplit⟩ := List.append_of_mem hpart
      have hmem : (⟨before.length + 1, at'.key cd part⟩ : ChunkRow) ∈ s.db.chunks job := by
        rw [h.whole.rows, hsplit, rowsOf_append, Nat.zero_add, rowsOf]
        exact List.mem_append_right _ List.mem_cons_self
      have hjob : (at'.key cd part).jobId = job := h.jobId
      have hspared := (hlife.spared n (at'.key cd part) a' rfl (hjob.symm ▸ ha)).1 (.inl hstate)
      rw [hjob] at hspared
      exact Nat.lt_irrefl _ (hspared _ hmem)

/-- A later state of a run in which the artifact stays ready. -/
def Later (cd : Codec) (job : Nat) (s t : State) : Prop :=
  Ready job t ∧ ∃ es, Trace (artifacts cd) (fun u _ => Ready job u) s es t

theorem ready_of_trace {es : List Event} (h : Trace (artifacts cd) (fun u _ => Ready job u) s es t)
    (hready : Ready job t) : Ready job s := by
  cases h with
  | nil => exact hready
  | cons hok _ _ => exact hok

theorem Published.later (h : Published cd s job x at') (hr : Reachable (artifacts cd) s) (hlater : Later cd job s t) :
    Published cd t job x at' := by
  obtain ⟨hready, es, hes⟩ := hlater
  induction hes with
  | nil => exact h
  | cons hok hstep htail ih =>
    exact ih (h.next hr hstep (ready_of_trace htail hready)) (reach_step hr hstep) hready

/-- The last step of `_prepare_export` publishes what it has written. -/
theorem published_of_seal {k : Nat} {i : Input} (hr : Reachable (artifacts cd) s)
    (hx : s.sessions n = some (.build job generation (.sealing x k))) (h : step cd s (.advance n i) = some t) :
    ∃ at', Published cd t job x at' := by
  obtain ⟨hpos, _, hsome, hheld, hok⟩ := (inv_of_reach hr).sessions n _ hx
  obtain ⟨⟨location, hw⟩, a, ha, hbuilding⟩ := hok (hheld (decide_eq_true rfl))
  obtain ⟨y, hy, hadvance⟩ := Option.bind_eq_some_iff.mp h
  obtain rfl : Session.build job generation (.sealing x k) = y := Option.some.inj (hx.symm.trans hy)
  have hkeeps := step_keeps h
  have hpublish : s.db.publish job (manifestOf cd x k) = some (s.db.setArtifact job (a.readyWith (manifestOf cd x k))) := by
    unfold Db.publish
    rw [ha]
    refine if_neg ?_
    rw [hbuilding]
    simp
  have ht : t = State.ends { s with db := s.db.setArtifact job (a.readyWith (manifestOf cd x k)) } n := by
    have hgo : (if (s.locks (s.db.workspace job)).isSome = true then none
        else some (s.commit n (s.db.publish job (manifestOf cd x k)) none)) = some t := hadvance
    split at hgo
    · cases hgo
    · rw [hpublish] at hgo
      exact (Option.some.inj hgo).symm
  obtain ⟨rfl, _⟩ := hw.complete
  obtain ⟨hrows, hbytes, parts, _, hcut, hparts, hstored, _⟩ := hw
  rw [partsOf_nil, List.append_nil] at hcut
  subst hcut
  subst ht
  have hws : s.db.workspace job = a.workspaceId := by
    unfold Db.workspace
    rw [ha]
    rfl
  exact ⟨placeOf s location job generation, ⟨_, Function.update_self job _ _, rfl, hws.symm, rfl, Nat.le_max_right _ _⟩,
    ⟨hparts, hstored⟩, rfl, hpos, hrows, hbytes⟩

/-- The manifest that was published is accepted. -/
theorem Published.validates (hlaw : cd.Lawful) (h : Published cd s job x at') {a : Artifact}
    (ha : s.db.artifacts job = some a) :
    validateArtifactManifest cd a = .ok (manifestOf cd x (partsOf x.body).length) := by
  obtain ⟨b, hb, _, _, hmanifest, hreserved⟩ := h.row
  obtain rfl : a = b := Option.some.inj (ha.symm.trans hb)
  have hcount := partsOf_length x.body
  have hmany : (partsOf x.body).length ≤ 4096 := by
    rw [hcount]
    have := h.bytes
    unfold chunkBytes
    omega
  unfold validateArtifactManifest
  rw [hmanifest]
  simp only [manifestOf, ne_eq, not_true_eq_false, if_false, or_self, hlaw.hex, Bool.true_eq_false, or_false]
  rw [if_neg (not_not_intro ⟨h.rows, h.bytes, hmany⟩), if_neg (Nat.not_lt.mpr hreserved), if_neg (not_not_intro hcount)]

end Published

/-! ## The round trip -/

/-- Whoever reads the record of the artifact while it stays ready finds its manifest valid, and a download whose calls see
such states yields the parts of the body, whose concatenation it is. -/
def Served (cd : Codec) (s : State) (job : Nat) (x : Snapshot) : Prop :=
  Ready job s ∧ ∀ u record, Later cd job s u → u.db.artifacts job = some record →
    validateArtifactManifest cd record = .ok (manifestOf cd x (partsOf x.body).length) ∧
    (∀ views : List View, (partsOf x.body).length < views.length →
      (∀ v ∈ views, Later cd job s v.page ∧ Later cd job s v.read ∧ Later cd job s v.again ∧ v.late = false ∧
        v.lateAfter = false) →
      download cd (manifestOf cd x (partsOf x.body).length).content record.workspaceId job views .start [] =
        .done (partsOf x.body)) ∧
    (partsOf x.body).flatten = x.body

theorem Published.served {x : Snapshot} {at' : Place} (hlaw : cd.Lawful) (hr : Reachable (artifacts cd) s)
    (h : Published cd s job x at') : Served cd s job x := by
  obtain ⟨a, ha, hstate, hws, _, _⟩ := h.row
  refine ⟨⟨a, ha, hstate⟩, fun u record hu hrecord => ?_⟩
  have hpublished := h.later hr hu
  refine ⟨hpublished.validates hlaw hrecord, fun views hcalls hviews => ?_, partsOf_flatten x.body⟩
  obtain ⟨b, hb, _, hbws, _, _⟩ := hpublished.row
  obtain rfl : record = b := Option.some.inj (hrecord.symm.trans hb)
  refine download_parts hlaw hbws.symm h.jobId h.attempt (fun v hv => ?_) hcalls (List.nil_append _).symm
    ⟨rfl, rfl, rfl, (fun _ h => by cases h), fun h => by cases h⟩
  obtain ⟨hpage, hread, hagain, hlate, hafter⟩ := hviews v hv
  exact ⟨(h.later hr hpage).whole, (h.later hr hread).whole, (h.later hr hagain).whole, hlate, hafter⟩

/-- A worker that nothing stops publishes its body whatever earlier attempts have left, whatever a worker publishes is
served, and a download that ends normally has yielded what its manifest says. -/
theorem export_round_trip (hlaw : cd.Lawful) :
    (∀ (s : State) (n job : Nat) (a : Artifact) (i : Input), Reachable (artifacts cd) s → s.sessions n = none →
      (s.jobs job).owner = none → s.db.artifacts job = some a → a.state = .pending ∨ a.state = .building →
      s.clock < a.expiresAt → s.locks a.workspaceId = none → i.refuse = false → i.snapshot.rows ≤ 10000000 →
      i.snapshot.body.length ≤ 4 * 1024 ^ 3 → i.snapshot.body.length ≤ a.reservedBytes → Distinct cd i.snapshot.body →
      ∃ t, Undisturbed cd n i s t ∧ Served cd t job i.snapshot) ∧
    (∀ (s t : State) (n job generation : Nat) (x : Snapshot) (k : Nat) (i : Input), Reachable (artifacts cd) s →
      s.sessions n = some (.build job generation (.sealing x k)) → step cd s (.advance n i) = some t →
      Served cd t job x) ∧
    ∀ (m : Unsigned) (ws : String) (job : Nat) (views : List View) (yielded : List Bytes),
      download cd m ws job views .start [] = .done yielded →
      yielded.flatten.length = m.bodyBytes ∧ cd.digest yielded.flatten = m.contentHash := by
  have hserved : ∀ (s t : State) (n job generation : Nat) (x : Snapshot) (k : Nat) (i : Input),
      Reachable (artifacts cd) s → s.sessions n = some (.build job generation (.sealing x k)) →
      step cd s (.advance n i) = some t → Served cd t job x := by
    intro s t n job generation x k i hr hx hstep
    obtain ⟨at', hpublished⟩ := published_of_seal hr hx hstep
    exact hpublished.served hlaw (reach_step hr hstep)
  refine ⟨fun s n job a i hr hn howner ha hstate hlive hfree hrefuse hrows hbytes hroom hdistinct => ?_, hserved,
    fun m ws job views yielded h => ?_⟩
  · obtain ⟨u, hrun, hu⟩ := export_run hr hn howner ha hstate hlive hfree hrefuse hrows hbytes hroom hdistinct
    obtain ⟨hseal, hat, t, hstep, _⟩ := seal_run (i := i) hu rfl hrefuse
    exact ⟨t, hrun.trans (hseal.trans (.cons hstep ⟨rfl, rfl⟩ (.refl t))),
      hserved _ t n job _ _ _ i hat.reach hat.session hstep⟩
  · exact download_whole ⟨rfl, rfl, fun h => by cases h⟩ h

/-! ## A run -/

/-- The line `{}`, and its gzip. -/
def emptyObject : Bytes := [123, 125, 10]

def emptyObjectGzip : Bytes :=
  [31, 139, 8, 0, 0, 0, 0, 0, 2, 3, 171, 174, 229, 2, 0, 6, 176, 161, 221, 3, 0, 0, 0]

def emptyObjects (n : Nat) : Bytes := (List.replicate n emptyObject).flatten

theorem emptyObjects_length (n : Nat) : (emptyObjects n).length = n * 3 := by
  unfold emptyObjects
  rw [List.length_flatten, List.map_replicate, List.sum_replicate_nat]
  rfl

theorem emptyObjects_succ (n : Nat) : emptyObjects (n + 1) = emptyObjects n ++ emptyObject := by
  unfold emptyObjects
  rw [List.replicate_succ', List.flatten_append, List.flatten_singleton]

/-- The two parts of 349526 lines: the first one ends inside the last line. -/
def front : Bytes := emptyObjects 349525 ++ [123]

def back : Bytes := [125, 10]

theorem front_length : front.length = chunkBytes := by
  unfold front
  rw [List.length_append, emptyObjects_length]
  rfl

theorem emptyObjects_cut : emptyObjects 349526 = front ++ back := by
  rw [emptyObjects_succ]
  unfold front
  rw [List.append_assoc]
  rfl

theorem partsOf_emptyObjects : partsOf (emptyObjects 349526) = [front, back] := by
  have hne : front ++ back ≠ [] := List.append_ne_nil_of_right_ne_nil _ (by decide)
  rw [emptyObjects_cut, partsOf_cons hne, List.take_left' front_length, List.drop_left' front_length,
    partsOf_cons (by decide), List.take_of_length_le (by decide), List.drop_eq_nil_of_le (by decide), partsOf_nil]

def frontGzip : Bytes :=
  [31, 139, 8, 0, 0, 0, 0, 0, 2, 3, 237, 194, 49, 13, 0, 0, 12, 3, 160, 127, 150, 155, 121, 175, 136, 190, 16, 242, 23] ++
    List.replicate 1015 85 ++ [213, 101, 1, 200, 104, 16, 31, 0, 0, 16, 0]

theorem frontGzip_length : frontGzip.length = 1055 := by
  unfold frontGzip
  rw [List.length_append, List.length_append, List.length_replicate]
  rfl

def backGzip : Bytes := [31, 139, 8, 0, 0, 0, 0, 0, 2, 3, 171, 229, 2, 0, 90, 252, 157, 59, 2, 0, 0, 0]

/-- `gzip` and `hashlib` at these bodies, and something that obeys the same laws elsewhere. -/
def sample : Codec where
  compress body :=
    if body = emptyObject then emptyObjectGzip
    else if body = back then backGzip
    else if body = front then frontGzip
    else 0 :: body
  decompress encoded :=
    if encoded = emptyObjectGzip then some emptyObject
    else if encoded = backGzip then some back
    else if encoded = frontGzip then some front
    else
      match encoded with
      | 0 :: body => some body
      | _ => none
  sha256 body :=
    if body = emptyObjectGzip then "37a641f5b71f361a83c4bb5aae7e62bb31dff4340708786bd20df2313b0f1173"
    else if body = backGzip then "05c960ce3dd99c20e669180f2598b388feacbce01f4ee35caba0d0cd7f0aad93"
    else if body = frontGzip then "9c07ebcd1e63e9b1f3d20be25361fd536b695d1c46eb01863f72eac2171a5e1d"
    else if body = emptyObject then "ca3d163bab055381827226140568f3bef7eaac187cebd76878e0b63e9e442356"
    else if body = back then "412ca345ccf75bf9c0806bce695be8de808b79984251a7a54d202cf6101dd451"
    else if body = front then "e07e84e55e109756f303484d5d8706ac015fb8b069bb5c1098cdc9ab7b467a86"
    else "f6e1939e942354ece7089cce6adbe09d08f475d7aa847cf814d58d9dfa05ec51"
  sign _ := "a081300af55c1beb5362df57d042ed56f5fab220ab5bdfaddcc50e1c7c775e97"

theorem sample_lawful : sample.Lawful where
  roundTrip body := by
    unfold sample
    dsimp only
    by_cases h : body = emptyObject
    · rw [if_pos h, if_pos rfl, h]
    · by_cases hback : body = back
      · rw [if_neg h, if_pos hback, if_neg (by decide), if_pos rfl, hback]
      · by_cases hfront : body = front
        · rw [if_neg h, if_neg hback, if_pos hfront, if_neg (by decide), if_neg (by decide), if_pos rfl, hfront]
        · -- No gzip starts with a zero.
          have hne : ∀ encoded : Bytes, encoded.head? = some 31 → ¬ (0 :: body = encoded) := by
            rintro _ hhead rfl
            cases hhead
          rw [if_neg h, if_neg hback, if_neg hfront, if_neg (hne _ rfl), if_neg (hne _ rfl), if_neg (hne _ rfl)]
          rfl
  bounded body hbody := by
    unfold sample
    dsimp only
    split
    · rw [show emptyObjectGzip.length = 23 from rfl]
      omega
    · split
      · rw [show backGzip.length = 22 from rfl]
        omega
      · split
        · next h =>
          rw [h, front_length, frontGzip_length]
          decide
        · rw [List.length_cons]
          omega
  header body := by
    unfold sample
    dsimp only
    split
    · decide
    · split
      · decide
      · split
        · rw [frontGzip_length]
          decide
        · exact Nat.le_add_left _ _
  hex body := by
    unfold Codec.digest sample
    dsimp only
    repeat' split
    all_goals decide +kernel

theorem sample_distinct : Distinct sample (emptyObjects 349526) := by
  have hcompress : sample.compress front = frontGzip := by
    unfold sample
    dsimp only
    rw [if_neg (by decide), if_neg (by decide), if_pos rfl]
  have hfront : sample.sha256 frontGzip = "9c07ebcd1e63e9b1f3d20be25361fd536b695d1c46eb01863f72eac2171a5e1d" := by
    unfold sample
    dsimp only
    rw [if_neg (by decide), if_neg (by decide), if_pos rfl]
  have hne : sample.digest (sample.compress front) ≠ sample.digest (sample.compress back) := by
    rw [hcompress]
    unfold Codec.digest
    rw [hfront]
    decide +kernel
  intro p hp q hq heq
  rw [partsOf_emptyObjects] at hp hq
  rcases List.mem_pair.mp hp with rfl | rfl <;> rcases List.mem_pair.mp hq with rfl | rfl
  · rfl
  · exact absurd heq hne
  · exact absurd heq.symm hne
  · rfl

def usual : Settings := ⟨256 * 1024 * 1024, 32, 1024 * 1024 * 1024, 86400, by decide⟩

def emptyObjectInput : Input := ⟨⟨.games, none, 1, emptyObject, 0⟩, "disk", [], false⟩

def emptyObjectsInput : Input := ⟨⟨.games, none, 349526, emptyObjects 349526, 0⟩, "disk", [], false⟩

/-- An attempt publishes the only part of an earlier snapshot and dies. -/
def failedTrace : List Event :=
  [.reserve 1 "w" usual, .claim 1 1] ++ List.replicate 8 (.advance 1 emptyObjectInput) ++ [.crash 1, .release 1]

theorem export_round_trip_sample : ∃ s t, Reachable (artifacts sample) s ∧
    s.db.chunks 1 = [⟨1, ⟨"disk", "w", 1, 1, sample.digest emptyObjectGzip⟩⟩] ∧
    Undisturbed sample 2 emptyObjectsInput s t ∧ Served sample t 1 emptyObjectsInput.snapshot ∧
    partsOf emptyObjectsInput.snapshot.body = [front, back] := by
  have hinit : (artifacts sample).init blank := ⟨rfl, fun _ => rfl, rfl, fun _ => rfl, fun _ => rfl, fun _ => rfl⟩
  obtain ⟨s, hreach, hs⟩ := Reach.of_exec (artifacts sample) (fun _ _ => True) hinit failedTrace
    (fun s => decide (s.sessions 2 = none ∧ (s.jobs 1).owner = none ∧
      s.db.artifacts 1 = some ⟨"w", .building, 256 * 1024 * 1024, 86400000000, none⟩ ∧ s.clock = 0 ∧ s.locks "w" = none ∧
      s.db.chunks 1 = [⟨1, ⟨"disk", "w", 1, 1, sample.digest emptyObjectGzip⟩⟩])) (by decide +kernel)
  obtain ⟨hn, howner, ha, hclock, hfree, hchunks⟩ := of_decide_eq_true hs
  have hlength : emptyObjectsInput.snapshot.body.length = 349526 * 3 := emptyObjects_length 349526
  obtain ⟨t, hrun, hserved⟩ := (export_round_trip sample_lawful).1 s 2 1 _ emptyObjectsInput hreach hn howner ha
    (.inr rfl) (by rw [hclock]; decide) hfree rfl (by decide) (by rw [hlength]; decide) (by rw [hlength]; decide)
    sample_distinct
  exact ⟨s, t, hreach, hchunks, hrun, hserved, partsOf_emptyObjects⟩

end ChessCrawl.Artifacts
