import ChessCrawl.Artifacts.Steps

/-! The life of an export artifact, in every run of builders, downloads and prunings. -/
namespace ChessCrawl.Artifacts
open ChessCrawl.Lib
set_option autoImplicit false

variable {cd : Codec} {s t : State} {n job generation : Nat}

/-! ## What a step writes -/

/-- What a step does to the artifact rows. -/
inductive RowStep (cd : Codec) (s t : State) : Prop
  | same (h : t.db.artifacts = s.db.artifacts)
  | started (n job generation : Nat) (hx : s.sessions n = some (.build job generation .started))
      (h : t.db.artifacts = (s.db.setState job .building).artifacts)
  | sealed (n job generation : Nat) (x : Snapshot) (ordinal : Nat)
      (hx : s.sessions n = some (.build job generation (.sealing x ordinal))) (db : Db)
      (hdb : s.db.publish job (manifestOf cd x ordinal) = some db) (h : t.db.artifacts = db.artifacts)
  | marked (n : Nat) (ws : String) (jobs : List Nat) (hx : s.sessions n = some (.prune ws (.marked jobs)))
      (h : t.db.artifacts = (s.db.markPruning jobs).artifacts)
  | voided (n : Nat) (ws : String) (job : Nat) (jobs : List Nat)
      (hx : s.sessions n = some (.prune ws (.voiding job jobs))) (db : Db) (hdb : s.db.expire job = some db)
      (h : t.db.artifacts = db.artifacts)
  | reserved (job : Nat) (ws : String) (st : Settings) (db : Db)
      (hdb : s.db.reserveArtifact job ws st s.clock = some db) (h : t.db.artifacts = db.artifacts)

theorem commit_artifacts (s : State) (n : Nat) (db : Option Db) (next : Option Session) :
    (s.commit n db next).db.artifacts = s.db.artifacts ∨
      ∃ d, db = some d ∧ (s.commit n db next).db.artifacts = d.artifacts := by
  cases db with
  | none => exact .inl rfl
  | some d =>
    cases next with
    | none => exact .inr ⟨d, rfl, rfl⟩
    | some x => exact .inr ⟨d, rfl, rfl⟩

theorem commit_store (s : State) (n : Nat) (db : Option Db) (next : Option Session) :
    (s.commit n db next).store = s.store := by
  cases db with
  | none => rfl
  | some d =>
    cases next with
    | none => rfl
    | some x => rfl

theorem removeChunk_artifacts {db db' : Db} {ordinal : Nat} (h : db.removeChunk job ordinal = some db') :
    db'.artifacts = db.artifacts := by
  rcases removeChunk_spec h with rfl | ⟨_, _, _, rfl⟩
  · rfl
  · rfl

theorem publication_artifacts {db db' : Db} {key : Key} {row : ObjectRow} {ordinal : Nat}
    (h : ((db.registerArchiveObject key row).bind fun d => d.insertChunk job ordinal key) = some db') :
    db'.artifacts = db.artifacts := by
  obtain ⟨d, hd, hinsert⟩ := Option.bind_eq_some_iff.mp h
  have hregister : d.artifacts = db.artifacts := by
    unfold Db.registerArchiveObject at hd
    split at hd
    · cases hd
      rfl
    · split at hd
      · cases hd
        rfl
      · cases hd
  unfold Db.insertChunk at hinsert
  dsimp only at hinsert
  split at hinsert
  · cases hinsert
  · cases hinsert
    exact hregister

theorem publish_artifacts {db db' : Db} {m : Manifest} (h : db.publish job m = some db') :
    ∃ a, db.artifacts job = some a ∧ db'.artifacts = (db.setArtifact job (a.readyWith m)).artifacts := by
  obtain ⟨a, ha, hrest⟩ := Option.bind_eq_some_iff.mp h
  split at hrest <;> cases hrest
  exact ⟨a, ha, rfl⟩

theorem expire_artifacts {db db' : Db} (h : db.expire job = some db') :
    ∃ a, db.artifacts job = some a ∧ db'.artifacts = (db.setArtifact job a.spent).artifacts := by
  obtain ⟨a, ha, hrest⟩ := Option.bind_eq_some_iff.mp h
  split at hrest <;> cases hrest
  exact ⟨a, ha, rfl⟩

theorem BuildPc.advance_rows {pc : BuildPc} {i : Input} (hx : s.sessions n = some (.build job generation pc))
    (h : pc.advance cd s n job generation i = some t) : RowStep cd s t := by
  cases pc with
  | opened =>
    cases h
    split <;> exact .same rfl
  | starting =>
    cases h
    split <;> exact .same rfl
  | started =>
    cases h
    exact .started n job generation hx rfl
  | clearing =>
    rw [BuildPc.advance] at h
    split at h <;> cases h <;> exact .same rfl
  | rendering =>
    cases h
    split <;> exact .same rfl
  | writing x location ordinal rest =>
    cases rest with
    | nil =>
      cases h
      split <;> exact .same rfl
    | cons b rest =>
      cases h
      split <;> exact .same rfl
  | published x location ordinal chunk rest =>
    cases h
    split <;> exact .same rfl
  | inserting x location ordinal chunk rest =>
    cases h
    rcases commit_artifacts s n _ _ with hsame | ⟨d, hd, hnew⟩
    · exact .same hsame
    · exact .same (hnew.trans (publication_artifacts hd))
  | sealing x ordinal =>
    rw [BuildPc.advance] at h
    split at h
    · cases h
    · cases h
      rcases commit_artifacts s n (s.db.publish job (manifestOf cd x ordinal)) none with hsame | ⟨d, hd, hnew⟩
      · exact .same hsame
      · exact .sealed n job generation x ordinal hx d hd hnew

theorem DeletePc.advance_rows {pc : DeletePc} {fenced : Bool} {i : Input} {at' : DeletePc → Session} {done : Session}
    (h : pc.advance s n job fenced i at' done = some t) : t.db.artifacts = s.db.artifacts := by
  cases pc with
  | deleting rows =>
    cases rows with
    | nil =>
      cases h
      rfl
    | cons row rows =>
      cases h
      split <;> rfl
  | authorized row rows =>
    cases h
    split <;> rfl
  | sent row rows =>
    rw [DeletePc.advance] at h
    split at h <;> cases h
    rfl
  | deleted row rows =>
    cases h
    split
    · cases hremove : s.db.removeChunk job row.ordinal with
      | none => rfl
      | some db' => exact removeChunk_artifacts hremove
    · rfl

theorem PrunePc.advance_rows {ws : String} {pc : PrunePc} {i : Input} (hx : s.sessions n = some (.prune ws pc))
    (h : pc.advance s n ws i = some t) : RowStep cd s t := by
  cases pc with
  | marking before limit =>
    rw [PrunePc.advance] at h
    split at h
    · cases h
    · split at h <;> cases h
      exact .same rfl
  | marked jobs =>
    cases h
    exact .marked n ws jobs hx rfl
  | pruning jobs =>
    cases jobs with
    | nil =>
      cases h
      exact .same rfl
    | cons job jobs =>
      cases h
      exact .same rfl
  | expiring job jobs =>
    cases h
    exact .same rfl
  | voiding job jobs =>
    rw [PrunePc.advance] at h
    split at h
    · cases h
    · cases h
      rcases commit_artifacts s n (s.db.expire job) (some (.prune ws (.pruning jobs))) with hsame | ⟨d, hd, hnew⟩
      · exact .same hsame
      · exact .voided n ws job jobs hx d hd hnew

theorem step_rows {e : Event} (h : step cd s e = some t) : RowStep cd s t := by
  cases e with
  | reserve job ws st =>
    rw [step] at h
    split at h
    · cases h
    · obtain ⟨db, hdb, rfl⟩ := Option.map_eq_some_iff.mp h
      exact .reserved job ws st db hdb rfl
  | release job =>
    rw [step] at h
    split at h
    · cases h
    · split at h <;> cases h
      exact .same rfl
  | advance n i =>
    obtain ⟨x, hx, hadvance⟩ := Option.bind_eq_some_iff.mp h
    cases x with
    | build job generation pc => exact BuildPc.advance_rows hx hadvance
    | buildDrop job generation pc => exact .same (DeletePc.advance_rows hadvance)
    | prune ws pc => exact PrunePc.advance_rows hx hadvance
    | pruneDrop ws job jobs pc => exact .same (DeletePc.advance_rows hadvance)
  | acquire job ws lease lifetime slots purged =>
    rw [step] at h
    split at h
    · cases h
    · obtain ⟨db, hdb, rfl⟩ := Option.map_eq_some_iff.mp h
      unfold Db.acquireDownload at hdb
      split at hdb
      · cases hdb
      · dsimp only at hdb
        split at hdb <;> cases hdb
        exact .same rfl
  | tick d =>
    cases h
    exact .same rfl
  | crash n =>
    cases h
    exact .same rfl
  | giveBack lease ws =>
    cases h
    exact .same rfl
  | _ =>
    rw [step] at h
    split at h <;> cases h
    exact .same rfl

/-! ## The path of a row -/

inductive Next : ArtifactState → ArtifactState → Prop
  | start : Next .pending .building
  | finish : Next .building .ready
  | prune : Next .ready .pruning
  | expire : Next .pruning .expired
  | prunePending : Next .pending .pruning
  | pruneBuilding : Next .building .pruning

/-- A row before and after a step. -/
structure Follows (a a' : Artifact) : Prop where
  state : a'.state = a.state ∨ Next a.state a'.state
  ready : a.state = .ready → a'.state = .ready → a' = a
  reserved : a'.reservedBytes ≤ a.reservedBytes

theorem Follows.refl (a : Artifact) : Follows a a := ⟨.inl rfl, fun _ _ => rfl, Nat.le_refl _⟩

theorem follows_pruning {a : Artifact} (h : a.state ≠ .expired) : Follows a { a with state := .pruning } := by
  refine ⟨?_, (fun _ h => by cases h), Nat.le_refl _⟩
  cases hstate : a.state with
  | pending => exact .inr .prunePending
  | building => exact .inr .pruneBuilding
  | ready => exact .inr .prune
  | pruning => exact .inl rfl
  | expired => exact absurd hstate h

theorem follows_setArtifact {db : Db} {a a' b : Artifact} {j : Nat} (ha : db.artifacts job = some a)
    (hfollows : Follows a a') (hb : db.artifacts j = some b) :
    ∃ b', (db.setArtifact job a').artifacts j = some b' ∧ Follows b b' := by
  by_cases hj : j = job
  · subst hj
    obtain rfl : a = b := Option.some.inj (ha.symm.trans hb)
    exact ⟨a', Function.update_self j _ _, hfollows⟩
  · exact ⟨b, (Function.update_of_ne hj _ _).trans hb, .refl b⟩

theorem RowStep.follows (hs : Inv cd s) (h : RowStep cd s t) {a : Artifact} (ha : s.db.artifacts job = some a) :
    ∃ a', t.db.artifacts job = some a' ∧ Follows a a' := by
  cases h with
  | same h =>
    rw [h]
    exact ⟨a, ha, .refl a⟩
  | started n job' generation hx h =>
    obtain ⟨_, _, _, hheld, hok⟩ := hs.sessions n _ hx
    obtain ⟨_, b, hb, hstate⟩ := hok (hheld (decide_eq_true rfl))
    rw [h]
    unfold Db.setState
    rw [hb]
    refine follows_setArtifact hb ⟨?_, (fun _ h => by cases h), Nat.le_refl _⟩ ha
    rcases hstate with hpending | hbuilding
    · rw [hpending]
      exact .inr .start
    · exact .inl hbuilding.symm
  | sealed n job' generation x ordinal hx db hdb h =>
    obtain ⟨_, _, _, hheld, hok⟩ := hs.sessions n _ hx
    obtain ⟨⟨location, hw⟩, b, hb, hstate⟩ := hok (hheld (decide_eq_true rfl))
    have htotal := hw.total
    have hpos := hs.world.reserved job' b hb
    obtain ⟨_, _, parts, _, hcut, hparts, hstored, hroom⟩ := hw
    unfold reservedOf at hroom
    rw [hb, Option.map_some, Option.getD_some] at hroom
    rw [partsOf_nil, List.append_nil] at hcut
    rw [hcut, partsOf_flatten] at hroom
    obtain ⟨b', hb', hrows⟩ := publish_artifacts hdb
    obtain rfl : b = b' := Option.some.inj (hb.symm.trans hb')
    rw [h, hrows]
    refine follows_setArtifact hb ⟨?_, fun hr => ?_, Nat.max_le.mpr ⟨hpos, hroom⟩⟩ ha
    · rw [hstate]
      exact .inr .finish
    · rw [hstate] at hr
      cases hr
  | marked n ws jobs hx h =>
    rw [h]
    by_cases hj : job ∈ jobs
    · obtain ⟨b, hb, _, hstate, _⟩ := (hs.sessions n _ hx).2 job hj
      obtain rfl : a = b := Option.some.inj (ha.symm.trans hb)
      exact ⟨_, markPruning_of_mem hj ha, follows_pruning hstate⟩
    · exact ⟨a, (markPruning_of_not_mem hj).trans ha, .refl a⟩
  | voided n ws job' jobs hx db hdb h =>
    obtain ⟨b, hb, _, hclosing⟩ := hs.sessions n _ hx job' List.mem_cons_self
    obtain ⟨b', hb', hrows⟩ := expire_artifacts hdb
    obtain rfl : b = b' := Option.some.inj (hb.symm.trans hb')
    rw [h, hrows]
    refine follows_setArtifact hb ⟨?_, (fun _ h => by cases h), hs.world.reserved job' b hb⟩ ha
    rcases hclosing with hpruning | hexpired
    · rw [hpruning]
      exact .inr .expire
    · exact .inl hexpired.symm
  | reserved job' ws st db hdb h =>
    rw [h]
    unfold Db.reserveArtifact at hdb
    split at hdb
    · cases hdb
    · next hnew =>
      split at hdb
      · cases hdb
      · cases hdb
        refine ⟨a, (Function.update_of_ne (fun hj => ?_) _ _).trans ha, .refl a⟩
        rw [← hj, ha] at hnew
        exact hnew rfl

theorem setArtifact_none {db : Db} {a a' : Artifact} {j : Nat} (ha : db.artifacts job = some a)
    (hj : db.artifacts j = none) : (db.setArtifact job a').artifacts j = none := by
  refine (Function.update_of_ne (fun h => ?_) _ _).trans hj
  rw [h, ha] at hj
  cases hj

/-- A row that a step adds is pending. -/
theorem RowStep.created (h : RowStep cd s t) {a : Artifact} (hnone : s.db.artifacts job = none)
    (ha : t.db.artifacts job = some a) : a.state = .pending := by
  have hcontra : t.db.artifacts job = none → a.state = .pending := by
    intro h
    rw [h] at ha
    cases ha
  cases h with
  | same h => exact hcontra ((congrFun h job).trans hnone)
  | started n job' generation hx h =>
    refine hcontra ?_
    rw [h]
    unfold Db.setState
    split
    · next b hb => exact setArtifact_none hb hnone
    · exact hnone
  | sealed n job' generation x ordinal hx db hdb h =>
    refine hcontra ?_
    obtain ⟨b, hb, hrows⟩ := publish_artifacts hdb
    rw [h, hrows]
    exact setArtifact_none hb hnone
  | marked n ws jobs hx h =>
    refine hcontra ?_
    rw [h]
    simp only [Db.markPruning, hnone, Option.map_none, ite_self]
  | voided n ws job' jobs hx db hdb h =>
    refine hcontra ?_
    obtain ⟨b, hb, hrows⟩ := expire_artifacts hdb
    rw [h, hrows]
    exact setArtifact_none hb hnone
  | reserved job' ws st db hdb h =>
    rw [h] at ha
    unfold Db.reserveArtifact at hdb
    split at hdb
    · cases hdb
    · split at hdb
      · cases hdb
      · cases hdb
        by_cases hj : job = job'
        · subst hj
          rw [← Option.some.inj ((Function.update_self job _ _).symm.trans ha)]
        · have := (Function.update_of_ne hj _ _).symm.trans ha
          rw [hnone] at this
          cases this

/-! ## Deletions -/

/-- The job whose part the session is about to delete. -/
def Session.authorizes : Session → Option Nat
  | .buildDrop job _ (.authorized _ _) => some job
  | .pruneDrop _ job _ (.authorized _ _) => some job
  | _ => none

/-- A step of a session that neither sends a deletion nor gets leave for one. -/
structure Quiet (s t : State) (n : Nat) : Prop where
  inflight : t.inflight = s.inflight
  store : ∀ key, (s.store key).isSome = true → (t.store key).isSome = true
  mute : ∀ y, t.sessions n = some y → y.authorizes = none

theorem quiet_ends (s : State) (n : Nat) : Quiet s (s.ends n) n := by
  refine ⟨rfl, fun _ h => h, fun y hy => ?_⟩
  rw [show (s.ends n).sessions n = none from Function.update_self n _ _] at hy
  cases hy

theorem quiet_at (s : State) (n : Nat) {x : Session} (hx : x.authorizes = none) : Quiet s (s.at n x) n := by
  refine ⟨rfl, fun _ h => h, fun y hy => ?_⟩
  rw [show (s.at n x).sessions n = some x from Function.update_self n _ _] at hy
  cases hy
  exact hx

theorem quiet_commit (s : State) (n : Nat) (db : Option Db) {next : Option Session}
    (hx : ∀ x, next = some x → x.authorizes = none) : Quiet s (s.commit n db next) n := by
  cases db with
  | none => exact quiet_ends s n
  | some d =>
    cases next with
    | none =>
      have h := quiet_ends { s with db := d } n
      exact ⟨h.inflight, h.store, h.mute⟩
    | some x =>
      have h := quiet_at { s with db := d } n (hx x rfl)
      exact ⟨h.inflight, h.store, h.mute⟩

theorem BuildPc.advance_quiet {pc : BuildPc} {i : Input} (h : pc.advance cd s n job generation i = some t) :
    Quiet s t n := by
  cases pc with
  | started =>
    cases h
    refine quiet_commit s n _ fun x hx => ?_
    cases hx
    rfl
  | clearing =>
    rw [BuildPc.advance] at h
    split at h <;> cases h <;> exact quiet_at s n rfl
  | writing x location ordinal rest =>
    cases rest with
    | nil =>
      cases h
      split
      · exact quiet_ends s n
      · exact quiet_at s n rfl
    | cons b rest =>
      cases h
      split
      · exact quiet_ends s n
      · refine ⟨rfl, fun key hkey => ?_, (quiet_at s n rfl).mute⟩
        show (Function.update s.store _ (some _) key).isSome = true
        rw [Function.update_apply]
        split
        · rfl
        · exact hkey
  | inserting x location ordinal chunk rest =>
    cases h
    refine quiet_commit s n _ fun x hx => ?_
    cases hx
    rfl
  | sealing x ordinal =>
    rw [BuildPc.advance] at h
    split at h <;> cases h
    exact quiet_commit s n _ fun x hx => by cases hx
  | _ =>
    cases h
    split <;> first | exact quiet_ends s n | exact quiet_at s n rfl

theorem PrunePc.advance_quiet {ws : String} {pc : PrunePc} {i : Input} (h : pc.advance s n ws i = some t) :
    Quiet s t n := by
  cases pc with
  | marking before limit =>
    rw [PrunePc.advance] at h
    split at h
    · cases h
    · split at h <;> cases h
      exact ⟨rfl, fun _ h => h, (quiet_at s n rfl).mute⟩
  | marked jobs =>
    cases h
    exact ⟨rfl, fun _ h => h, (quiet_at s n rfl).mute⟩
  | pruning jobs =>
    cases jobs with
    | nil =>
      cases h
      exact quiet_ends s n
    | cons job jobs =>
      cases h
      exact quiet_at s n rfl
  | expiring job jobs =>
    cases h
    exact quiet_at s n rfl
  | voiding job jobs =>
    rw [PrunePc.advance] at h
    split at h <;> cases h
    refine quiet_commit s n _ fun x hx => ?_
    cases hx
    rfl

/-- What a step of a deletion sends, and when it gets leave to send. -/
structure Sends (s t : State) (n job : Nat) (x : Session) (fenced : Bool) : Prop where
  store : t.store = s.store
  inflight : ∀ d ∈ t.inflight, d ∈ s.inflight ∨ d.1 = n ∧ d.2.jobId = job ∧ x.authorizes = some job
  leave : ∀ y j, t.sessions n = some y → y.authorizes = some j → j = job ∧ fenced = true

theorem Quiet.sends {x : Session} {fenced : Bool} (h : Quiet s t n) (hstore : t.store = s.store) :
    Sends s t n job x fenced := by
  refine ⟨hstore, fun d hd => .inl (h.inflight ▸ hd), fun y j hy hj => ?_⟩
  rw [h.mute y hy] at hj
  cases hj

theorem DeletePc.advance_sends {pc : DeletePc} {fenced : Bool} {i : Input} {at' : DeletePc → Session} {done : Session}
    (hdone : done.authorizes = none) (hdeleting : ∀ rows, (at' (.deleting rows)).authorizes = none)
    (hauthorized : ∀ row rows, (at' (.authorized row rows)).authorizes = some job)
    (hsent : ∀ row rows, (at' (.sent row rows)).authorizes = none)
    (hdeleted : ∀ row rows, (at' (.deleted row rows)).authorizes = none)
    (h : pc.advance s n job fenced i at' done = some t) : Sends s t n job (at' pc) fenced := by
  cases pc with
  | deleting rows =>
    cases rows with
    | nil =>
      cases h
      exact (quiet_at s n hdone).sends rfl
    | cons row rows =>
      rw [DeletePc.advance] at h
      cases h
      split
      · next hgo =>
        refine ⟨rfl, fun _ h => .inl h, fun y j hy hj => ?_⟩
        rw [show (s.at n (at' (.authorized row rows))).sessions n = some _ from Function.update_self n _ _] at hy
        cases hy
        rw [hauthorized] at hj
        rw [Bool.and_eq_true] at hgo
        exact ⟨(Option.some.inj hj).symm, hgo.1⟩
      · exact (quiet_ends s n).sends rfl
  | authorized row rows =>
    rw [DeletePc.advance] at h
    cases h
    split
    · exact (quiet_ends s n).sends rfl
    · next hgo =>
      refine ⟨rfl, fun d hd => ?_, fun y j hy hj => ?_⟩
      · rcases List.mem_cons.mp hd with rfl | hd
        · refine .inr ⟨rfl, ?_, hauthorized row rows⟩
          by_contra hne
          exact hgo (.inr (.inl hne))
        · exact .inl hd
      · rw [(quiet_at s n (hsent row rows)).mute y hy] at hj
        cases hj
  | sent row rows =>
    rw [DeletePc.advance] at h
    split at h <;> cases h
    exact (quiet_at s n (hdeleted row rows)).sends rfl
  | deleted row rows =>
    rw [DeletePc.advance] at h
    cases h
    split
    · refine (quiet_commit s n _ fun x hx => ?_).sends (commit_store s n _ _)
      cases hx
      exact hdeleting rows
    · exact (quiet_ends s n).sends rfl

theorem advance_sends {x : Session} {i : Input} (hx : s.sessions n = some x) (h : x.advance cd s n i = some t) :
    Quiet s t n ∨ ∃ job fenced, Sends s t n job x fenced ∧
      (fenced = true → ∀ a, s.db.artifacts job = some a → a.state = .building → Inv cd s →
        (s.jobs job).owner = some n) := by
  cases x with
  | build job generation pc => exact .inl (BuildPc.advance_quiet h)
  | prune ws pc => exact .inl (PrunePc.advance_quiet h)
  | buildDrop job generation pc =>
    refine .inr ⟨job, s.fenced n job generation, DeletePc.advance_sends rfl (fun _ => rfl) (fun _ _ => rfl)
      (fun _ _ => rfl) (fun _ _ => rfl) h, fun hfence _ _ _ _ => ?_⟩
    rw [of_decide_eq_true hfence]
  | pruneDrop ws job jobs pc =>
    refine .inr ⟨job, true, DeletePc.advance_sends rfl (fun _ => rfl) (fun _ _ => rfl) (fun _ _ => rfl)
      (fun _ _ => rfl) h, fun _ a ha hbuilding hs => ?_⟩
    obtain ⟨b, hb, _, hclosing⟩ := (hs.sessions n _ hx).1 job List.mem_cons_self
    obtain rfl : a = b := Option.some.inj (ha.symm.trans hb)
    exact absurd hclosing (building_not_closing hbuilding (.inr (.inl rfl)))

/-- A step that is not a session's neither sends a deletion nor lets an object go, but for a landing. -/
theorem env_quiet {e : Event} (hland : ∀ n key, e ≠ .land n key) (hadvance : ∀ n i, e ≠ .advance n i)
    (h : step cd s e = some t) : t.inflight = s.inflight ∧ t.store = s.store := by
  cases e with
  | advance n i => exact absurd rfl (hadvance n i)
  | land n key => exact absurd rfl (hland n key)
  | reserve job ws st =>
    rw [step] at h
    split at h
    · cases h
    · obtain ⟨db, hdb, rfl⟩ := Option.map_eq_some_iff.mp h
      exact ⟨rfl, rfl⟩
  | acquire job ws lease lifetime slots purged =>
    rw [step] at h
    split at h
    · cases h
    · obtain ⟨db, hdb, rfl⟩ := Option.map_eq_some_iff.mp h
      exact ⟨rfl, rfl⟩
  | release job =>
    rw [step] at h
    split at h
    · cases h
    · split at h <;> cases h
      exact ⟨rfl, rfl⟩
  | claim n job =>
    rw [step] at h
    split at h <;> cases h
    exact ⟨rfl, rfl⟩
  | prune n ws before limit =>
    rw [step] at h
    split at h <;> cases h
    exact ⟨rfl, rfl⟩
  | _ =>
    cases h
    exact ⟨rfl, rfl⟩

theorem step_gone {e : Event} (h : step cd s e = some t) {key : Key} (hkey : (s.store key).isSome = true)
    (hgone : t.store key = none) : ∃ n, e = .land n key := by
  by_cases hland : ∃ n k, e = .land n k
  · obtain ⟨n, k, rfl⟩ := hland
    refine ⟨n, ?_⟩
    rw [step] at h
    split at h <;> cases h
    by_cases hk : key = k
    · rw [hk]
    · have hnone : s.store key = none := (Function.update_of_ne hk _ _).symm.trans hgone
      rw [hnone] at hkey
      cases hkey
  · exfalso
    have hkept : (t.store key).isSome = true := by
      by_cases hadvance : ∃ n i, e = .advance n i
      · obtain ⟨n, i, rfl⟩ := hadvance
        obtain ⟨x, hx, hx'⟩ := Option.bind_eq_some_iff.mp h
        rcases advance_sends hx hx' with hquiet | ⟨job, fenced, hsends, _⟩
        · exact hquiet.store key hkey
        · rw [hsends.store]
          exact hkey
      · rw [(env_quiet (fun n k he => hland ⟨n, k, he⟩) (fun n i he => hadvance ⟨n, i, he⟩) h).2]
        exact hkey
    rw [hgone] at hkept
    cases hkept

theorem step_sent {e : Event} (h : step cd s e = some t) {key : Key} (hmem : (n, key) ∈ t.inflight) :
    (n, key) ∈ s.inflight ∨ ∃ i x, e = .advance n i ∧ s.sessions n = some x ∧ x.authorizes = some key.jobId := by
  by_cases hadvance : ∃ k i, e = .advance k i
  · obtain ⟨k, i, rfl⟩ := hadvance
    obtain ⟨x, hx, hx'⟩ := Option.bind_eq_some_iff.mp h
    rcases advance_sends hx hx' with hquiet | ⟨job, fenced, hsends, _⟩
    · exact .inl (hquiet.inflight ▸ hmem)
    · rcases hsends.inflight _ hmem with hold | ⟨rfl, hjob, hleave⟩
      · exact .inl hold
      · exact .inr ⟨i, x, rfl, hx, hleave.trans (congrArg some hjob.symm)⟩
  · by_cases hland : ∃ k key', e = .land k key'
    · obtain ⟨k, key', rfl⟩ := hland
      rw [step] at h
      split at h <;> cases h
      exact .inl (List.mem_of_mem_erase hmem)
    · rw [(env_quiet (fun k key' he => hland ⟨k, key', he⟩) (fun k i he => hadvance ⟨k, i, he⟩) h).1] at hmem
      exact .inl hmem

/-- Where a deletion lands, the artifact has no use for the object. -/
theorem Safe.spares (hs : Inv cd s) {key : Key} (hsafe : Safe s key) {a : Artifact}
    (ha : s.db.artifacts key.jobId = some a) :
    (a.state = .ready ∨ (∃ l ∈ s.db.leases, l.jobId = key.jobId ∧ s.clock < l.expiresAt) →
      ∀ row ∈ s.db.chunks key.jobId, key.attempt < row.key.attempt) ∧
    (a.state = .building → key.attempt < (s.jobs key.jobId).generation) := by
  obtain ⟨b, hb, hcase⟩ := hsafe
  obtain rfl : a = b := Option.some.inj (ha.symm.trans hb)
  refine ⟨fun huse => ?_, fun hbuilding => ?_⟩
  · have hready : a.state = .ready := by
      rcases huse with hready | ⟨l, hl, hjob, hfuture⟩
      · exact hready
      · obtain ⟨c, hc, hle, hstate⟩ := hs.world.leased l hl
        rw [hjob, ha] at hc
        cases hc
        refine hstate.resolve_right fun hclosing => ?_
        have := hs.world.elapsed key.jobId a ha hclosing
        omega
    rcases hcase with hclosing | ⟨_, hless⟩
    · exact absurd hclosing (building_not_closing hready (.inr (.inr rfl)))
    · exact hless hready
  · rcases hcase with hclosing | ⟨hlt, _⟩
    · exact absurd hclosing (building_not_closing hbuilding (.inr (.inl rfl)))
    · exact hlt

/-! ## Admission -/

theorem reserve_retained (hs : Inv cd s) {ws : String} {st : Settings} {db : Db}
    (h : s.db.reserveArtifact job ws st s.clock = some db) :
    (db.retained ws).length ≤ st.artifactMaxCount ∧ db.retainedBytes ws ≤ st.artifactMaxBytes := by
  unfold Db.reserveArtifact at h
  split at h
  · cases h
  next hnew =>
  split at h
  · cases h
  next hroom =>
  cases h
  have hnone : s.db.artifacts job = none := Option.not_isSome_iff_eq_none.mp hnew
  obtain ⟨a, ha⟩ : ∃ a : Artifact, a = ⟨ws, .pending, st.asyncExportMaxBytes,
    wholeSecond s.clock + st.artifactTtlSeconds * 1000000, none⟩ := ⟨_, rfl⟩
  rw [← ha]
  -- The rows that were there are the same, and the new one comes last.
  have hold : s.db.jobIds.filterMap (Function.update s.db.artifacts job (some a)) =
      s.db.jobIds.filterMap s.db.artifacts := by
    refine List.filterMap_congr fun j hj => Function.update_of_ne (fun h => ?_) _ _
    have hsome := hs.world.listed j hj
    rw [h, hnone] at hsome
    cases hsome
  have hretained : Db.retained { s.db.setArtifact job a with jobIds := s.db.jobIds ++ [job] } ws =
      s.db.retained ws ++ [a] := by
    show List.filter _ ((s.db.jobIds ++ [job]).filterMap (Function.update s.db.artifacts job (some a))) = _
    rw [List.filterMap_append, hold, List.filter_append]
    refine congrArg (s.db.retained ws ++ ·) ?_
    rw [List.filterMap_cons, Function.update_self, List.filterMap_nil, ha]
    simp
  unfold Db.retainedBytes
  rw [hretained, List.length_append, List.map_append, List.sum_append, ha]
  unfold Db.retainedBytes at hroom
  simp only [List.length_singleton, List.map_cons, List.map_nil, List.sum_cons, List.sum_nil, Nat.add_zero]
  omega

/-! ## Every step of every run -/

/-- The life of the artifacts over one step. -/
structure Lifecycle (s : State) (e : Event) (t : State) : Prop where
  created : ∀ job a, s.db.artifacts job = none → t.db.artifacts job = some a → a.state = .pending
  follows : ∀ job a, s.db.artifacts job = some a → ∃ a', t.db.artifacts job = some a' ∧ Follows a a'
  whole : ∀ job a, t.db.artifacts job = some a → a.state = .ready → ∃ m, a.manifest = some m ∧
    (t.db.chunks job).length = m.content.chunkCount ∧ t.db.chunkTotal job = m.content.bodyBytes
  /-- An object goes by the landing of a deletion only. -/
  gone : ∀ key, (s.store key).isSome = true → t.store key = none → ∃ n, e = .land n key
  /-- A deletion lands on no object that a ready or leased artifact refers to, and on none of the current attempt of one
  that is being built. -/
  spared : ∀ n key a, e = .land n key → s.db.artifacts key.jobId = some a →
    (a.state = .ready ∨ (∃ l ∈ s.db.leases, l.jobId = key.jobId ∧ s.clock < l.expiresAt) →
      ∀ row ∈ s.db.chunks key.jobId, key.attempt < row.key.attempt) ∧
    (a.state = .building → key.attempt < (s.jobs key.jobId).generation)
  /-- A deletion is sent by a session that has got leave for it. -/
  sent : ∀ n key, (n, key) ∈ t.inflight → (n, key) ∈ s.inflight ∨
    ∃ i x, e = .advance n i ∧ s.sessions n = some x ∧ x.authorizes = some key.jobId
  /-- While an artifact is being built only the owner of its job gets leave. -/
  leave : ∀ n i y job a, e = .advance n i → t.sessions n = some y → y.authorizes = some job →
    s.db.artifacts job = some a → a.state = .building → (s.jobs job).owner = some n
  admitted : ∀ job ws st, e = .reserve job ws st →
    (t.db.retained ws).length ≤ st.artifactMaxCount ∧ t.db.retainedBytes ws ≤ st.artifactMaxBytes

/-- A finished export has the count and the total of its manifest. -/
theorem Finished.totals {a : Artifact} (h : Finished cd s job a) : ∃ m, a.manifest = some m ∧
    (s.db.chunks job).length = m.content.chunkCount ∧ s.db.chunkTotal job = m.content.bodyBytes := by
  obtain ⟨x, location, attempt, _, _, _, hmanifest, _, hparts, hstored⟩ := h
  refine ⟨_, hmanifest, ?_, ?_⟩
  · rw [hparts, rowsOf_length]
    rfl
  · unfold Db.chunkTotal
    rw [hparts, rowsOf_total fun part hpart => (hstored part hpart).1, partsOf_flatten]
    rfl

/-- Whatever builders, downloads and prunings do, and wherever they stop, an artifact keeps to its path, keeps what it
promised once it is ready, and never holds more than it was admitted with. -/
theorem artifact_lifecycle {e : Event} (hr : Reachable (artifacts cd) s) (h : step cd s e = some t) :
    Lifecycle s e t := by
  have hs := inv_of_reach hr
  have ht := step_inv hs h
  have hrows := step_rows h
  refine ⟨fun job a hnone ha => hrows.created hnone ha, fun job a ha => hrows.follows hs ha,
    fun job a ha hready => (ht.world.finished job a ha hready).totals, fun key => step_gone h,
    fun n key a he ha => ?_, fun n key => step_sent h, fun n i y job a he hy hy' ha hbuilding => ?_,
    fun job ws st he => ?_⟩
  · subst he
    rw [step] at h
    split at h
    · next hmem => exact (hs.world.inflight _ hmem).spares hs ha
    · cases h
  · subst he
    obtain ⟨x, hx, hx'⟩ := Option.bind_eq_some_iff.mp h
    rcases advance_sends hx hx' with hquiet | ⟨job', fenced, hsends, hleave⟩
    · rw [hquiet.mute y hy] at hy'
      cases hy'
    · obtain ⟨rfl, hfenced⟩ := hsends.leave y job hy hy'
      exact hleave hfenced a ha hbuilding hs
  · subst he
    rw [step] at h
    split at h
    · cases h
    · obtain ⟨db, hdb, rfl⟩ := Option.map_eq_some_iff.mp h
      exact reserve_retained hs hdb

/-! ## A deletion that outlives its sender's claim -/

/-- A codec that stores bodies as they are. -/
def plain : Codec := ⟨fun body => body, some, fun body => toString (body.map UInt8.toNat), fun _ => ""⟩

def blank : State := ⟨Db.empty, fun _ => none, [], fun _ => ⟨none, 0⟩, fun _ => none, fun _ => none, 0⟩

theorem blank_init : (artifacts plain).init blank := ⟨rfl, fun _ => rfl, rfl, fun _ => rfl, fun _ => rfl, fun _ => rfl⟩

def oneByte : Input := ⟨⟨.games, none, 1, [7], 0⟩, "disk", [], false⟩

def small : Settings := ⟨10, 1, 10, 60, by decide⟩

/-- One attempt leaves a part; the next one sends its deletion and loses the job to a third. -/
def lateTrace : List Event :=
  [.reserve 1 "w" small, .claim 1 1] ++ List.replicate 8 (.advance 1 oneByte) ++ [.crash 1, .release 1, .claim 2 1] ++
    List.replicate 6 (.advance 2 oneByte) ++ [.release 1, .claim 3 1]

/-- The part of the first attempt. -/
def latePart : Key := ⟨"disk", "w", 1, 1, "sha256:[7]"⟩

theorem late_reached : ∃ s, Reachable (artifacts plain) s ∧ (2, latePart) ∈ s.inflight ∧
    (s.store latePart).isSome = true ∧ (s.db.artifacts 1).map Artifact.state = some .building ∧
    ⟨1, latePart⟩ ∈ s.db.chunks 1 ∧ (s.jobs 1).owner = some 3 := by
  obtain ⟨s, hreach, hs⟩ := Reach.of_exec (artifacts plain) (fun _ _ => True) blank_init lateTrace
    (fun s => decide ((2, latePart) ∈ s.inflight ∧ (s.store latePart).isSome = true ∧
      (s.db.artifacts 1).map Artifact.state = some .building ∧ ⟨1, latePart⟩ ∈ s.db.chunks 1 ∧
      (s.jobs 1).owner = some 3)) (by decide +kernel)
  exact ⟨s, hreach, of_decide_eq_true hs⟩

/-- The law at the landing. -/
theorem artifact_lifecycle_late : ∃ s t, step plain s (.land 2 latePart) = some t ∧
    (s.store latePart).isSome = true ∧ Lifecycle s (.land 2 latePart) t := by
  obtain ⟨s, hreach, hinflight, hstore, _⟩ := late_reached
  have hland : step plain s (.land 2 latePart) = some _ := if_pos hinflight
  exact ⟨s, _, hland, hstore, artifact_lifecycle hreach hland⟩

/-- While an artifact is being built, a former owner of its job deletes a part that it refers to. -/
theorem former_owner_deletes : ∃ s t n key a row, Reachable (artifacts plain) s ∧ s.db.artifacts 1 = some a ∧
    a.state = .building ∧ row ∈ s.db.chunks 1 ∧ row.key = key ∧ (s.store key).isSome = true ∧
    step plain s (.land n key) = some t ∧ t.store key = none ∧ (s.jobs 1).owner.isSome = true ∧
    (s.jobs 1).owner ≠ some n := by
  obtain ⟨s, hreach, hinflight, hstore, hstate, hrow, howner⟩ := late_reached
  obtain ⟨a, ha, hbuilding⟩ := Option.map_eq_some_iff.mp hstate
  have hland : step plain s (.land 2 latePart) = some _ := if_pos hinflight
  refine ⟨s, _, 2, latePart, a, _, hreach, ha, hbuilding, hrow, rfl, hstore, hland, ?_, ?_, ?_⟩
  · exact Function.update_self latePart none s.store
  · rw [howner]
    rfl
  · rw [howner]
    decide

end ChessCrawl.Artifacts
