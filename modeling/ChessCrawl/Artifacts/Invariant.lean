import ChessCrawl.Artifacts.Parts

/-! The invariant of the export artifacts. Each session knows something of its own job only while the job is in progress
in it; a stale session knows no more than that the deletions it may still send are harmless. -/
namespace ChessCrawl.Artifacts
set_option autoImplicit false

/-! ## What a session may rely on -/

def Closing (state : ArtifactState) : Prop := state = .pruning ∨ state = .expired

/-- The deletion of an object is harmless: its artifact is on its way out, or the object is of an attempt before the
current one and before the one whose parts are ready. -/
def Safe (s : State) (key : Key) : Prop :=
  ∃ a, s.db.artifacts key.jobId = some a ∧ (Closing a.state ∨
    key.attempt < (s.jobs key.jobId).generation ∧
      (a.state = .ready → ∀ row ∈ s.db.chunks key.jobId, key.attempt < row.key.attempt))

def Closed (s : State) (ws : String) (job : Nat) : Prop :=
  ∃ a, s.db.artifacts job = some a ∧ a.workspaceId = ws ∧ Closing a.state

/-- The artifact is expired by the clock, and nobody has finished to prune it. -/
def Due (s : State) (ws : String) (job : Nat) : Prop :=
  ∃ a, s.db.artifacts job = some a ∧ a.workspaceId = ws ∧ a.state ≠ .expired ∧ a.expiresAt ≤ s.clock

def Building (s : State) (job : Nat) : Prop := ∃ a, s.db.artifacts job = some a ∧ a.state = .building

def Startable (s : State) (job : Nat) : Prop :=
  ∃ a, s.db.artifacts job = some a ∧ (a.state = .pending ∨ a.state = .building)

/-- The parts that are there are of earlier attempts. -/
def Older (s : State) (job generation : Nat) : Prop := ∀ row ∈ s.db.chunks job, row.key.attempt < generation

def placeOf (s : State) (location : String) (job generation : Nat) : Place :=
  ⟨location, s.db.workspace job, job, generation⟩

def reservedOf (s : State) (job : Nat) : Nat := ((s.db.artifacts job).map Artifact.reservedBytes).getD 0

/-- The parts of the body up to `rest` are written, and nothing else is. -/
def Written (cd : Codec) (s : State) (job generation : Nat) (x : Snapshot) (location : String) (ordinal : Nat)
    (rest : Bytes) : Prop :=
  x.rows ≤ 10000000 ∧ x.body.length ≤ 4 * 1024 ^ 3 ∧ ∃ parts, parts.length = ordinal ∧
    parts ++ partsOf rest = partsOf x.body ∧
    s.db.chunks job = rowsOf cd (placeOf s location job generation) 0 parts ∧
    (∀ part ∈ parts, Stored cd s (placeOf s location job generation) part) ∧ parts.flatten.length ≤ reservedOf s job

/-- The next part is written but for its row. -/
def Uploaded (cd : Codec) (s : State) (job generation : Nat) (x : Snapshot) (location : String) (ordinal : Nat)
    (chunk rest : Bytes) : Prop :=
  ∃ left k, left ≠ [] ∧ chunk = left.take chunkBytes ∧ rest = left.drop chunkBytes ∧ ordinal = k + 1 ∧
    Written cd s job generation x location k left ∧
    s.store ((placeOf s location job generation).key cd chunk) = some (cd.compress chunk)

/-- What a worker knows at a point while the job is in progress in it. -/
def BuildPc.Ok (cd : Codec) (s : State) (job generation : Nat) : BuildPc → Prop
  | .opened => Older s job generation
  | .starting => Older s job generation
  | .started => Older s job generation ∧ Startable s job
  | .clearing => Older s job generation ∧ Building s job
  | .rendering => s.db.chunks job = [] ∧ Building s job
  | .writing x location ordinal rest => Written cd s job generation x location ordinal rest ∧ Building s job
  | .published x location ordinal chunk rest =>
    Uploaded cd s job generation x location ordinal chunk rest ∧ Building s job
  | .inserting x location ordinal chunk rest =>
    Uploaded cd s job generation x location ordinal chunk rest ∧ Building s job ∧
      s.db.chunkTotal job + chunk.length ≤ reservedOf s job
  | .sealing x ordinal => (∃ location, Written cd s job generation x location ordinal []) ∧ Building s job

/-- The rows that a deletion still holds. -/
def DeletePc.rows : DeletePc → List ChunkRow
  | .deleting rows => rows
  | .authorized row rows => row :: rows
  | .sent row rows => row :: rows
  | .deleted row rows => row :: rows

def PrunePc.Ok (s : State) (n : Nat) (ws : String) : PrunePc → Prop
  | .marking _ _ => True
  | .marked jobs => s.locks ws = some n ∧ ∀ job ∈ jobs, Due s ws job
  | .pruning jobs => ∀ job ∈ jobs, Closed s ws job
  | .expiring job jobs => ∀ j ∈ job :: jobs, Closed s ws j
  | .voiding job jobs => ∀ j ∈ job :: jobs, Closed s ws j

/-- The session is a worker on this claim of the job. -/
def Session.On (job generation : Nat) : Session → Prop
  | .build j g _ => j = job ∧ g = generation
  | .buildDrop j g _ => j = job ∧ g = generation
  | _ => False

/-- A worker that has passed the check of `start_artifact`. -/
def Session.Past (job generation : Nat) : Session → Prop
  | .build j g pc => j = job ∧ g = generation ∧ pc ≠ .opened ∧ pc ≠ .starting
  | .buildDrop j g _ => j = job ∧ g = generation
  | _ => False

def Session.Ok (cd : Codec) (s : State) (n : Nat) : Session → Prop
  | .build job generation pc =>
    1 ≤ generation ∧ generation ≤ (s.jobs job).generation ∧ (s.db.artifacts job).isSome = true ∧
      ((Session.build job generation pc).holds job = true → s.fenced n job generation = true) ∧
      (s.fenced n job generation = true → pc.Ok cd s job generation)
  | .buildDrop job generation pc =>
    1 ≤ generation ∧ generation ≤ (s.jobs job).generation ∧ (s.db.artifacts job).isSome = true ∧
      (∀ row ∈ pc.rows, row.key.jobId = job) ∧ (∀ row rows, pc = .authorized row rows → Safe s row.key) ∧
      (s.fenced n job generation = true →
        (∀ row ∈ pc.rows, row.key.attempt < generation) ∧ Older s job generation ∧ Building s job)
  | .prune ws pc => pc.Ok s n ws
  | .pruneDrop ws job jobs pc =>
    (∀ j ∈ job :: jobs, Closed s ws j) ∧ ∀ row ∈ pc.rows, row.key.jobId = job

/-! ## The tables -/

/-- What a finished export is. -/
def Finished (cd : Codec) (s : State) (job : Nat) (a : Artifact) : Prop :=
  ∃ x location attempt, x.rows ≤ 10000000 ∧ x.body.length ≤ 4 * 1024 ^ 3 ∧ 1 ≤ attempt ∧
    a.manifest = some (manifestOf cd x (partsOf x.body).length) ∧ a.reservedBytes = max 1 x.body.length ∧
    s.db.chunks job = rowsOf cd (placeOf s location job attempt) 0 (partsOf x.body) ∧
    ∀ part ∈ partsOf x.body, Stored cd s (placeOf s location job attempt) part

structure World (cd : Codec) (s : State) : Prop where
  listed : ∀ job ∈ s.db.jobIds, (s.db.artifacts job).isSome = true
  keyed : ∀ job, ∀ row ∈ s.db.chunks job, row.key.jobId = job ∧ row.key.attempt ≤ (s.jobs job).generation ∧
    (s.db.artifacts job).isSome = true ∧ 1 ≤ row.ordinal ∧ row.key.workspaceId = s.db.workspace job
  elapsed : ∀ job a, s.db.artifacts job = some a → Closing a.state → a.expiresAt ≤ s.clock
  leased : ∀ l ∈ s.db.leases, ∃ a, s.db.artifacts l.jobId = some a ∧ l.expiresAt ≤ a.expiresAt ∧
    (a.state = .ready ∨ Closing a.state)
  inflight : ∀ e ∈ s.inflight, Safe s e.2
  finished : ∀ job a, s.db.artifacts job = some a → a.state = .ready → Finished cd s job a
  reserved : ∀ job a, s.db.artifacts job = some a → 1 ≤ a.reservedBytes

structure Inv (cd : Codec) (s : State) : Prop where
  world : World cd s
  sessions : ∀ n x, s.sessions n = some x → x.Ok cd s n
  apart : ∀ n ws jobs, s.sessions n = some (.prune ws (.marked jobs)) → ∀ job ∈ jobs, ∀ m x generation,
    s.sessions m = some x → x.Past job generation → s.fenced m job generation = false

/-! ## Steps of others -/

/-- What a step of session `m`, or of none, leaves to the other sessions. -/
structure Frame (s t : State) (m : Option Nat) : Prop where
  generation : ∀ job, (s.jobs job).generation ≤ (t.jobs job).generation
  clock : s.clock ≤ t.clock
  artifacts : ∀ job a, s.db.artifacts job = some a → ∃ a', t.db.artifacts job = some a' ∧
    a'.workspaceId = a.workspaceId ∧ a'.expiresAt = a.expiresAt ∧ (Closing a.state → Closing a'.state)
  objects : ∀ key row, s.db.objects key = some row → t.db.objects key = some row
  store : ∀ key body, s.store key = some body → t.store key = some body ∨ Safe s key
  safe : ∀ key, Safe s key → Safe t key
  others : ∀ n x job generation, m ≠ some n → s.sessions n = some x → x.On job generation →
    t.fenced n job generation = true → s.fenced n job generation = true ∧
      (∀ row ∈ t.db.chunks job, row ∈ s.db.chunks job) ∧ (x.Past job generation →
        t.db.chunks job = s.db.chunks job ∧ t.db.artifacts job = s.db.artifacts job)
  held : ∀ n x job generation, m ≠ some n → s.sessions n = some x → x.holds job = true →
    s.fenced n job generation = true → t.fenced n job generation = true
  due : ∀ n ws jobs, m ≠ some n → s.sessions n = some (.prune ws (.marked jobs)) →
    s.locks ws = some n → (∀ job ∈ jobs, Due s ws job) → t.locks ws = some n ∧ ∀ job ∈ jobs, Due t ws job

variable {cd : Codec} {s t : State} {m : Option Nat} {job generation : Nat}

theorem Frame.isSome (h : Frame s t m) (hs : (s.db.artifacts job).isSome = true) :
    (t.db.artifacts job).isSome = true := by
  obtain ⟨a, ha⟩ := Option.isSome_iff_exists.mp hs
  obtain ⟨a', ha', _⟩ := h.artifacts job a ha
  rw [ha']
  rfl

theorem Frame.workspace (h : Frame s t m) (hs : (s.db.artifacts job).isSome = true) :
    t.db.workspace job = s.db.workspace job := by
  obtain ⟨a, ha⟩ := Option.isSome_iff_exists.mp hs
  obtain ⟨a', ha', hws, _⟩ := h.artifacts job a ha
  unfold Db.workspace
  rw [ha, ha']
  exact hws

theorem Frame.place (h : Frame s t m) (hs : (s.db.artifacts job).isSome = true) (location : String) :
    placeOf t location job generation = placeOf s location job generation := by
  unfold placeOf
  rw [h.workspace hs]

theorem Frame.closed (h : Frame s t m) {ws : String} (hs : Closed s ws job) : Closed t ws job := by
  obtain ⟨a, ha, hws, hclosing⟩ := hs
  obtain ⟨a', ha', hws', _, hkeeps⟩ := h.artifacts job a ha
  exact ⟨a', ha', hws'.trans hws, hkeeps hclosing⟩

/-- An object of the current attempt is not one whose deletion is harmless while its artifact is being built. -/
theorem not_safe_current {key : Key} {n : Nat} (hfence : s.fenced n key.jobId key.attempt = true)
    (hbuilding : Building s key.jobId) : ¬ Safe s key := by
  rintro ⟨a, ha, hclosing | ⟨hlt, _⟩⟩
  · obtain ⟨a', ha', hstate⟩ := hbuilding
    rw [ha] at ha'
    cases ha'
    rw [hstate] at hclosing
    rcases hclosing with h | h <;> cases h
  · rw [of_decide_eq_true hfence] at hlt
    exact Nat.lt_irrefl _ hlt

/-- Nor is an object of a ready artifact. -/
theorem not_safe_ready {a : Artifact} {row : ChunkRow} (ha : s.db.artifacts job = some a) (hready : a.state = .ready)
    (hrow : row ∈ s.db.chunks job) (hjob : row.key.jobId = job) : ¬ Safe s row.key := by
  subst hjob
  rintro ⟨a', ha', hclosing | ⟨_, hless⟩⟩
  · rw [ha] at ha'
    cases ha'
    rw [hready] at hclosing
    rcases hclosing with h | h <;> cases h
  · rw [ha] at ha'
    cases ha'
    exact Nat.lt_irrefl _ (hless hready row hrow)

theorem Frame.stored (h : Frame s t m) {at' : Place} {part : Bytes} (hs : Stored cd s at' part)
    (hsafe : ¬ Safe s (at'.key cd part)) : Stored cd t at' part := by
  refine ⟨h.objects _ _ hs.1, ?_⟩
  rcases h.store _ _ hs.2 with hkept | hgone
  · exact hkept
  · exact absurd hgone hsafe

section Current
variable {n : Nat} {x : Snapshot} {location : String} {ordinal : Nat} {rest : Bytes}

/-- What is written stays written while the job stays with its worker. -/
theorem Frame.written (h : Frame s t m) (hfence : s.fenced n job generation = true) (hbuilding : Building s job)
    (hchunks : t.db.chunks job = s.db.chunks job) (hart : t.db.artifacts job = s.db.artifacts job)
    (hw : Written cd s job generation x location ordinal rest) :
    Written cd t job generation x location ordinal rest := by
  obtain ⟨hrows, hbytes, parts, hlen, hcut, hparts, hstored, hreserved⟩ := hw
  have hsome : (s.db.artifacts job).isSome = true := by
    obtain ⟨a, ha, _⟩ := hbuilding
    rw [ha]
    rfl
  refine ⟨hrows, hbytes, parts, hlen, hcut, ?_, fun part hpart => ?_, ?_⟩
  · rw [hchunks, h.place hsome, hparts]
  · rw [h.place hsome]
    exact h.stored (hstored part hpart) (not_safe_current (n := n) hfence hbuilding)
  · unfold reservedOf
    rw [hart]
    exact hreserved

theorem Frame.uploaded (h : Frame s t m) {chunk : Bytes} (hfence : s.fenced n job generation = true)
    (hbuilding : Building s job) (hchunks : t.db.chunks job = s.db.chunks job)
    (hart : t.db.artifacts job = s.db.artifacts job)
    (hu : Uploaded cd s job generation x location ordinal chunk rest) :
    Uploaded cd t job generation x location ordinal chunk rest := by
  obtain ⟨left, k, hne, hchunk, hrest, hk, hw, hstore⟩ := hu
  have hsome : (s.db.artifacts job).isSome = true := by
    obtain ⟨a, ha, _⟩ := hbuilding
    rw [ha]
    rfl
  refine ⟨left, k, hne, hchunk, hrest, hk, h.written hfence hbuilding hchunks hart hw, ?_⟩
  rw [h.place hsome]
  rcases h.store _ _ hstore with hkept | hgone
  · exact hkept
  · exact absurd hgone (not_safe_current (n := n) hfence hbuilding)

end Current

/-- The rows of what is written add up to it. -/
theorem Written.total {x : Snapshot} {location : String} {ordinal : Nat} {rest : Bytes}
    (h : Written cd s job generation x location ordinal rest) :
    s.db.chunkTotal job + rest.length = x.body.length := by
  obtain ⟨_, _, parts, _, hcut, hparts, hstored, _⟩ := h
  have htotal : s.db.chunkTotal job = parts.flatten.length := by
    unfold Db.chunkTotal
    rw [hparts]
    exact rowsOf_total fun part hpart => (hstored part hpart).1
  have hbody := congrArg List.flatten hcut
  rw [List.flatten_append, partsOf_flatten, partsOf_flatten] at hbody
  rw [htotal, ← hbody, List.length_append]

theorem Frame.buildOk (h : Frame s t m) {n : Nat} {pc : BuildPc} (hs : pc.Ok cd s job generation)
    (hfence : s.fenced n job generation = true) (hrows : ∀ row ∈ t.db.chunks job, row ∈ s.db.chunks job)
    (hpast : pc ≠ .opened → pc ≠ .starting →
      t.db.chunks job = s.db.chunks job ∧ t.db.artifacts job = s.db.artifacts job) : pc.Ok cd t job generation := by
  have holder : Older s job generation → Older t job generation := fun ho row hrow => ho row (hrows row hrow)
  cases pc with
  | opened => exact holder hs
  | starting => exact holder hs
  | started =>
    obtain ⟨ho, a, ha, hstate⟩ := hs
    exact ⟨holder ho, a, (hpast (by simp) (by simp)).2.trans ha, hstate⟩
  | clearing =>
    obtain ⟨ho, a, ha, hstate⟩ := hs
    exact ⟨holder ho, a, (hpast (by simp) (by simp)).2.trans ha, hstate⟩
  | rendering =>
    obtain ⟨hnil, a, ha, hstate⟩ := hs
    exact ⟨(hpast (by simp) (by simp)).1.trans hnil, a, (hpast (by simp) (by simp)).2.trans ha, hstate⟩
  | writing x location ordinal rest =>
    obtain ⟨hchunks, hart'⟩ := hpast (by simp) (by simp)
    obtain ⟨hw, a, ha, hstate⟩ := hs
    exact ⟨h.written hfence ⟨a, ha, hstate⟩ hchunks hart' hw, a, hart'.trans ha, hstate⟩
  | published x location ordinal chunk rest =>
    obtain ⟨hchunks, hart'⟩ := hpast (by simp) (by simp)
    obtain ⟨hu, a, ha, hstate⟩ := hs
    exact ⟨h.uploaded hfence ⟨a, ha, hstate⟩ hchunks hart' hu, a, hart'.trans ha, hstate⟩
  | inserting x location ordinal chunk rest =>
    obtain ⟨hchunks, hart'⟩ := hpast (by simp) (by simp)
    obtain ⟨hu, ⟨a, ha, hstate⟩, hroom⟩ := hs
    have hu' := h.uploaded hfence ⟨a, ha, hstate⟩ hchunks hart' hu
    refine ⟨hu', ⟨a, hart'.trans ha, hstate⟩, ?_⟩
    obtain ⟨left, k, _, hchunk, hrest, _, hw, _⟩ := hu
    have hw' := h.written hfence ⟨a, ha, hstate⟩ hchunks hart' hw
    have htotal := hw.total
    have htotal' := hw'.total
    unfold reservedOf at hroom ⊢
    rw [hart']
    omega
  | sealing x ordinal =>
    obtain ⟨hchunks, hart'⟩ := hpast (by simp) (by simp)
    obtain ⟨⟨location, hw⟩, a, ha, hstate⟩ := hs
    exact ⟨⟨location, h.written hfence ⟨a, ha, hstate⟩ hchunks hart' hw⟩, a, hart'.trans ha, hstate⟩

/-- What another session knows survives a step. -/
theorem Frame.sessionOk (h : Frame s t m) {n : Nat} {x : Session} (hn : m ≠ some n) (hx : s.sessions n = some x)
    (hs : x.Ok cd s n) : x.Ok cd t n := by
  cases x with
  | build job generation pc =>
    obtain ⟨hpos, hgen, hsome, hheld, hok⟩ := hs
    refine ⟨hpos, Nat.le_trans hgen (h.generation job), h.isSome hsome, fun hholds => ?_, fun hfence => ?_⟩
    · exact h.held n _ job generation hn hx hholds (hheld hholds)
    · obtain ⟨hfence', hrows, hpast⟩ := h.others n _ job generation hn hx ⟨rfl, rfl⟩ hfence
      exact h.buildOk (hok hfence') hfence' hrows fun ho hst => hpast ⟨rfl, rfl, ho, hst⟩
  | buildDrop job generation pc =>
    obtain ⟨hpos, hgen, hsome, hrows, htarget, hok⟩ := hs
    refine ⟨hpos, Nat.le_trans hgen (h.generation job), h.isSome hsome, hrows,
      fun row rows hpc => h.safe _ (htarget row rows hpc), fun hfence => ?_⟩
    obtain ⟨hfence', hsub, hpast⟩ := h.others n _ job generation hn hx ⟨rfl, rfl⟩ hfence
    obtain ⟨hattempts, ho, a, ha, hstate⟩ := hok hfence'
    exact ⟨hattempts, fun row hrow => ho row (hsub row hrow), a, (hpast ⟨rfl, rfl⟩).2.trans ha, hstate⟩
  | prune ws pc =>
    cases pc with
    | marking before limit => trivial
    | marked jobs => exact h.due n ws jobs hn hx hs.1 hs.2
    | pruning jobs => exact fun job hjob => h.closed (hs job hjob)
    | expiring job jobs => exact fun j hj => h.closed (hs j hj)
    | voiding job jobs => exact fun j hj => h.closed (hs j hj)
  | pruneDrop ws job jobs pc => exact ⟨fun j hj => h.closed (hs.1 j hj), hs.2⟩

/-- A finished export stays one as long as its row stays. -/
theorem Frame.finished (h : Frame s t m) {a : Artifact} (ha : s.db.artifacts job = some a) (hready : a.state = .ready)
    (hs : Finished cd s job a) (hchunks : t.db.chunks job = s.db.chunks job) : Finished cd t job a := by
  obtain ⟨x, location, attempt, hrows, hbytes, hpos, hmanifest, hreserved, hparts, hstored⟩ := hs
  have hsome : (s.db.artifacts job).isSome = true := by
    rw [ha]
    rfl
  refine ⟨x, location, attempt, hrows, hbytes, hpos, hmanifest, hreserved, ?_, fun part hpart => ?_⟩
  · rw [hchunks, h.place hsome, hparts]
  · rw [h.place hsome]
    obtain ⟨before, after, hsplit⟩ := List.append_of_mem hpart
    have hmem : (⟨before.length + 1, (placeOf s location job attempt).key cd part⟩ : ChunkRow) ∈ s.db.chunks job := by
      rw [hparts, hsplit, rowsOf_append, Nat.zero_add, rowsOf]
      exact List.mem_append_right _ List.mem_cons_self
    exact h.stored (hstored part hpart) (not_safe_ready ha hready hmem rfl)

/-! ## One step -/

theorem Frame.refl (s : State) (m : Option Nat) : Frame s s m where
  generation _ := Nat.le_refl _
  clock := Int.le_refl _
  artifacts _ a ha := ⟨a, ha, rfl, rfl, fun h => h⟩
  objects _ _ h := h
  store _ _ h := .inl h
  safe _ h := h
  others _ _ _ _ _ _ _ h := ⟨h, fun _ hrow => hrow, fun _ => ⟨rfl, rfl⟩⟩
  held _ _ _ _ _ _ _ h := h
  due _ _ _ _ _ hlock hdue := ⟨hlock, hdue⟩

theorem World.of_frame {w : State} (hw : World cd s) (hf : Frame s w m)
    (hlisted : ∀ job ∈ w.db.jobIds, job ∈ s.db.jobIds ∨ (w.db.artifacts job).isSome = true)
    (hkeyed : ∀ job, ∀ row ∈ w.db.chunks job, row ∈ s.db.chunks job ∨
      row.key.jobId = job ∧ row.key.attempt ≤ (w.jobs job).generation ∧ (w.db.artifacts job).isSome = true ∧
        1 ≤ row.ordinal ∧ row.key.workspaceId = w.db.workspace job)
    (helapsed : ∀ job a, w.db.artifacts job = some a → Closing a.state →
      (∃ old, s.db.artifacts job = some old ∧ old.expiresAt = a.expiresAt ∧ Closing old.state) ∨ a.expiresAt ≤ w.clock)
    (hleased : ∀ l ∈ w.db.leases, ∃ a, w.db.artifacts l.jobId = some a ∧ l.expiresAt ≤ a.expiresAt ∧
      (a.state = .ready ∨ Closing a.state))
    (hinflight : ∀ e ∈ w.inflight, e ∈ s.inflight ∨ Safe w e.2)
    (hready : ∀ job a, w.db.artifacts job = some a → a.state = .ready →
      s.db.artifacts job = some a ∧ w.db.chunks job = s.db.chunks job ∨ Finished cd w job a)
    (hreserved : ∀ job a, w.db.artifacts job = some a → 1 ≤ a.reservedBytes) : World cd w where
  listed job hjob := by
    rcases hlisted job hjob with hold | hnew
    · exact hf.isSome (hw.listed job hold)
    · exact hnew
  keyed job row hrow := by
    rcases hkeyed job row hrow with hold | hnew
    · obtain ⟨hjob, hattempt, hsome, hordinal, hws⟩ := hw.keyed job row hold
      exact ⟨hjob, Nat.le_trans hattempt (hf.generation job), hf.isSome hsome, hordinal,
        hws.trans (hf.workspace hsome).symm⟩
    · exact hnew
  elapsed job a ha hclosing := by
    rcases helapsed job a ha hclosing with ⟨old, hold, hsame, hclosing'⟩ | hnow
    · rw [← hsame]
      exact Int.le_trans (hw.elapsed job old hold hclosing') hf.clock
    · exact hnow
  leased := hleased
  inflight e he := by
    rcases hinflight e he with hold | hnew
    · exact hf.safe e.2 (hw.inflight e hold)
    · exact hnew
  finished job a ha hstate := by
    rcases hready job a ha hstate with ⟨hold, hchunks⟩ | hnew
    · exact hf.finished hold hstate (hw.finished job a hold hstate) hchunks
    · exact hnew
  reserved := hreserved

/-- The leases of a table whose rows change only by the path of a frame. -/
theorem World.leased_of_frame {w : State} (hw : World cd s) (hf : Frame s w m)
    (hready : ∀ job a, s.db.artifacts job = some a → a.state = .ready → ∃ a', w.db.artifacts job = some a' ∧
      (a'.state = .ready ∨ Closing a'.state)) :
    ∀ l ∈ s.db.leases, ∃ a, w.db.artifacts l.jobId = some a ∧ l.expiresAt ≤ a.expiresAt ∧
      (a.state = .ready ∨ Closing a.state) := by
  intro l hl
  obtain ⟨a, ha, hle, hstate⟩ := hw.leased l hl
  obtain ⟨a', ha', _, hexpires, hclosing⟩ := hf.artifacts l.jobId a ha
  refine ⟨a', ha', hexpires ▸ hle, ?_⟩
  rcases hstate with hr | hc
  · obtain ⟨a'', ha'', hstate⟩ := hready l.jobId a ha hr
    rw [ha'] at ha''
    cases ha''
    exact hstate
  · exact .inr (hclosing hc)

/-- A step of session `n`: the world changes within its frame, and the session goes on as `next`. -/
theorem Inv.next {w : State} {n : Nat} (hs : Inv cd s) (hf : Frame s w (some n)) (hw : World cd w)
    (hsame : w.sessions = s.sessions) (next : Option Session) (hnext : ∀ x, next = some x → x.Ok cd w n)
    (hmarked : ∀ ws jobs, next = some (.prune ws (.marked jobs)) → ∀ job ∈ jobs, (w.jobs job).owner = none)
    (hpast : ∀ x job generation, next = some x → x.Past job generation → w.fenced n job generation = true →
      ∀ m ws jobs, m ≠ n → s.sessions m = some (.prune ws (.marked jobs)) → job ∉ jobs) :
    Inv cd { w with sessions := Function.update w.sessions n next } where
  world := ⟨hw.listed, hw.keyed, hw.elapsed, hw.leased, hw.inflight, hw.finished, hw.reserved⟩
  sessions k x hk := by
    by_cases hkn : k = n
    · subst hkn
      exact hnext x ((Function.update_self k _ _).symm.trans hk)
    · have hold : s.sessions k = some x := by
        rw [← hsame]
        exact (Function.update_of_ne hkn _ _).symm.trans hk
      exact hf.sessionOk (fun h => hkn (Option.some.inj h).symm) hold (hs.sessions k x hold)
  apart k ws jobs hk job hjob l x generation hl hx := by
    by_cases hfence : w.fenced l job generation = true
    · exfalso
      by_cases hkn : k = n
      · subst hkn
        have howner := hmarked ws jobs ((Function.update_self k _ _).symm.trans hk) job hjob
        rw [of_decide_eq_true hfence] at howner
        cases howner
      · have hmark : s.sessions k = some (.prune ws (.marked jobs)) := by
          rw [← hsame]
          exact (Function.update_of_ne hkn _ _).symm.trans hk
        by_cases hln : l = n
        · subst hln
          exact hpast x job generation ((Function.update_self l _ _).symm.trans hl) hx hfence k ws jobs hkn hmark hjob
        · have hold : s.sessions l = some x := by
            rw [← hsame]
            exact (Function.update_of_ne hln _ _).symm.trans hl
          have hon : x.On job generation := by
            cases x with
            | build j g pc => exact ⟨hx.1, hx.2.1⟩
            | buildDrop j g pc => exact hx
            | _ => exact hx
          have hfence' := (hf.others l x job generation (fun h => hln (Option.some.inj h).symm) hold hon hfence).1
          rw [hs.apart k ws jobs hmark job hjob l x generation hold hx] at hfence'
          cases hfence'
    · exact Bool.eq_false_iff.mpr hfence

/-- A step of the surroundings. -/
theorem Inv.env {w : State} (hs : Inv cd s) (hf : Frame s w none) (hw : World cd w) (hsame : w.sessions = s.sessions) :
    Inv cd w where
  world := hw
  sessions k x hk := by
    rw [hsame] at hk
    exact hf.sessionOk (by simp) hk (hs.sessions k x hk)
  apart k ws jobs hk job hjob l x generation hl hx := by
    rw [hsame] at hk hl
    by_cases hfence : w.fenced l job generation = true
    · have hon : x.On job generation := by
        cases x with
        | build j g pc => exact ⟨hx.1, hx.2.1⟩
        | buildDrop j g pc => exact hx
        | _ => exact hx
      have hfence' := (hf.others l x job generation (by simp) hl hon hfence).1
      rw [hs.apart k ws jobs hk job hjob l x generation hl hx] at hfence'
      cases hfence'
    · exact Bool.eq_false_iff.mpr hfence

end ChessCrawl.Artifacts
