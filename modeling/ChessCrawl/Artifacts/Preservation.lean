import ChessCrawl.Artifacts.Invariant

/-! Every step keeps the invariant of the export artifacts. -/
namespace ChessCrawl.Artifacts
open ChessCrawl.Lib
set_option autoImplicit false

variable {cd : Codec} {s t : State} {n job generation : Nat}

theorem fenced_owner {k g : Nat} (h : s.fenced n job generation = true) (h' : s.fenced k job g = true) : n = k := by
  have := (of_decide_eq_true h).symm.trans (of_decide_eq_true h')
  cases this
  rfl

theorem building_not_closing {a : Artifact} {state : ArtifactState} (h : a.state = state)
    (hstate : state = .pending ∨ state = .building ∨ state = .ready) : ¬ Closing a.state := by
  rw [h]
  rintro (rfl | rfl)
  · rcases hstate with h | h | h <;> cases h
  · rcases hstate with h | h | h <;> cases h

/-! ## Moves without a write -/

theorem Inv.moveTo (hs : Inv cd s) (x : Session) (hx : x.Ok cd s n)
    (hmarked : ∀ ws jobs, x ≠ .prune ws (.marked jobs))
    (hpast : ∀ job generation, x.Past job generation → s.fenced n job generation = true →
      ∀ m ws jobs, m ≠ n → s.sessions m = some (.prune ws (.marked jobs)) → job ∉ jobs) : Inv cd (s.at n x) := by
  refine hs.next (.refl s (some n)) hs.world rfl (some x) (fun y hy => ?_) (fun ws jobs h => ?_) fun y j g hy => ?_
  · cases hy
    exact hx
  · exact absurd (Option.some.inj h) (hmarked ws jobs)
  · cases hy
    exact hpast j g

/-- A session that was past the start check already stays clear of the marked jobs. -/
theorem Inv.past_clear (hs : Inv cd s) {x : Session} (hx : s.sessions n = some x) (hpast : x.Past job generation)
    (hfence : s.fenced n job generation = true) (m : Nat) (ws : String) (jobs : List Nat)
    (hm : s.sessions m = some (.prune ws (.marked jobs))) : job ∉ jobs := by
  intro hjob
  rw [hs.apart m ws jobs hm job hjob n x generation hx hpast] at hfence
  cases hfence

theorem Inv.ends (hs : Inv cd s) (n : Nat) : Inv cd (s.ends n) := by
  have hframe : Frame s { s with locks := fun ws => if s.locks ws = some n then none else s.locks ws } (some n) := by
    refine { Frame.refl s (some n) with due := fun k ws jobs hk hsession hlock hdue => ⟨?_, hdue⟩ }
    have hne : ¬ some k = some n := fun h => hk h.symm
    show (if s.locks ws = some n then none else s.locks ws) = some k
    rw [hlock, if_neg hne]
  have hw := hs.world
  exact hs.next hframe ⟨hw.listed, hw.keyed, hw.elapsed, hw.leased, hw.inflight, hw.finished, hw.reserved⟩ rfl none
    (fun _ h => by cases h) (fun _ _ h => by cases h) fun _ _ _ h => by cases h

theorem ends_update (w : State) (next : Option Session) :
    State.ends { w with sessions := Function.update w.sessions n next } n = w.ends n := by
  unfold State.ends
  simp only [Function.update_idem]

/-! ## Rows of the owner -/

/-- The owner of a job writes its artifact row. -/
theorem frame_setArtifact {a a' : Artifact} (hfence : s.fenced n job generation = true)
    (ha : s.db.artifacts job = some a) (hopen : ¬ Closing a.state)
    (hclear : ∀ m ws jobs, s.sessions m = some (.prune ws (.marked jobs)) → job ∉ jobs)
    (hws : a'.workspaceId = a.workspaceId) (hexpires : a'.expiresAt = a.expiresAt)
    (hready : a'.state = .ready → ∀ row ∈ s.db.chunks job, row.key.attempt = generation) :
    Frame s { s with db := s.db.setArtifact job a' } (some n) := by
  have hother : ∀ j, j ≠ job → (s.db.setArtifact job a').artifacts j = s.db.artifacts j := fun j hj =>
    Function.update_of_ne hj _ _
  have hself : (s.db.setArtifact job a').artifacts job = some a' := Function.update_self job _ _
  refine { Frame.refl s (some n) with
    artifacts := fun j b hb => ?_, safe := fun key hsafe => ?_,
    others := fun k x j g hk hx hon hfence' => ?_, due := fun m ws jobs hm hmark hlock hdue => ⟨hlock, fun j hj => ?_⟩ }
  · by_cases hj : j = job
    · subst hj
      rw [ha] at hb
      cases hb
      exact ⟨a', hself, hws, hexpires, fun h => absurd h hopen⟩
    · exact ⟨b, (hother j hj).trans hb, rfl, rfl, fun h => h⟩
  · obtain ⟨b, hb, hcase⟩ := hsafe
    by_cases hj : key.jobId = job
    · rw [hj, ha] at hb
      cases hb
      refine ⟨a', (congrArg _ hj).trans hself, .inr ?_⟩
      rcases hcase with hclosing | ⟨hlt, _⟩
      · exact absurd hclosing hopen
      · refine ⟨hlt, fun hr row hrow => ?_⟩
        rw [hj] at hrow hlt
        rw [hready hr row hrow]
        rw [of_decide_eq_true hfence] at hlt
        exact hlt
    · exact ⟨b, (hother _ hj).trans hb, hcase⟩
  · refine ⟨hfence', fun _ h => h, fun _ => ⟨rfl, hother j fun hj => ?_⟩⟩
    subst hj
    exact hk (congrArg some (fenced_owner hfence hfence'))
  · obtain ⟨b, hb, hrest⟩ := hdue j hj
    refine ⟨b, (hother j fun h => ?_).trans hb, hrest⟩
    subst h
    exact hclear m ws jobs hmark hj

/-- The tables after the owner of a job, or nobody but the pruners, wrote its artifact row. -/
theorem world_setArtifact {a a' : Artifact} {leases : List Lease} {m : Option Nat} (hw : World cd s)
    (ha : s.db.artifacts job = some a) (hexpires : a'.expiresAt = a.expiresAt)
    (hf : Frame s { s with db := { s.db.setArtifact job a' with leases := leases } } m)
    (hleases : ∀ l ∈ leases, l ∈ s.db.leases) (hclosing : Closing a'.state → Closing a.state)
    (hkept : a.state = .ready → a'.state = .ready ∨ Closing a'.state)
    (hready : a'.state = .ready → Finished cd { s with db := { s.db.setArtifact job a' with leases := leases } } job a')
    (hreserved : 1 ≤ a'.reservedBytes) :
    World cd { s with db := { s.db.setArtifact job a' with leases := leases } } := by
  have hother : ∀ j, j ≠ job → (s.db.setArtifact job a').artifacts j = s.db.artifacts j := fun j hj =>
    Function.update_of_ne hj _ _
  have hself : (s.db.setArtifact job a').artifacts job = some a' := Function.update_self job _ _
  refine hw.of_frame hf (fun _ h => .inl h) (fun _ _ h => .inl h) (fun j b hb hc => ?_) (fun l hl => ?_)
    (fun _ h => .inl h) (fun j b hb hr => ?_) fun j b hb => ?_
  · by_cases hj : j = job
    · subst hj
      obtain rfl : a' = b := Option.some.inj (hself.symm.trans hb)
      exact .inl ⟨a, ha, hexpires.symm, hclosing hc⟩
    · exact .inl ⟨b, (hother j hj).symm.trans hb, rfl, hc⟩
  · refine hw.leased_of_frame hf (fun j b hb hr => ?_) l (hleases l hl)
    by_cases hj : j = job
    · subst hj
      obtain rfl : a = b := Option.some.inj (ha.symm.trans hb)
      exact ⟨a', hself, hkept hr⟩
    · exact ⟨b, (hother j hj).trans hb, .inl hr⟩
  · by_cases hj : j = job
    · subst hj
      obtain rfl : a' = b := Option.some.inj (hself.symm.trans hb)
      exact .inr (hready hr)
    · exact .inl ⟨(hother j hj).symm.trans hb, rfl⟩
  · by_cases hj : j = job
    · subst hj
      obtain rfl : a' = b := Option.some.inj (hself.symm.trans hb)
      exact hreserved
    · exact hw.reserved j b ((hother j hj).symm.trans hb)

theorem Inv.started (hs : Inv cd s) (hx : s.sessions n = some (.build job generation .started)) :
    Inv cd (s.commit n (some (s.db.setState job .building)) (some (.build job generation .clearing))) := by
  obtain ⟨hpos, hgen, hsome, hheld, hok⟩ := hs.sessions n _ hx
  have hfence := hheld (decide_eq_true rfl)
  obtain ⟨holder, a, ha, hstate⟩ := hok hfence
  have hclear := hs.past_clear hx ⟨rfl, rfl, by simp, by simp⟩ hfence
  have hopen : ¬ Closing a.state := by
    rcases hstate with h | h
    · exact building_not_closing h (.inl rfl)
    · exact building_not_closing h (.inr (.inl rfl))
  have hdb : s.db.setState job .building = s.db.setArtifact job { a with state := .building } := by
    unfold Db.setState
    rw [ha]
  rw [hdb]
  have hself : (s.db.setArtifact job { a with state := .building }).artifacts job = some { a with state := .building } :=
    Function.update_self job _ _
  have hf : Frame s { s with db := s.db.setArtifact job { a with state := .building } } (some n) :=
    frame_setArtifact hfence ha hopen hclear rfl rfl fun h => by cases h
  have hworld : World cd { s with db := s.db.setArtifact job { a with state := .building } } := by
    refine world_setArtifact hs.world ha rfl hf (fun _ h => h) (fun h => ?_) (fun h => ?_) (fun h => ?_)
      (hs.world.reserved job a ha)
    · rcases h with h | h <;> cases h
    · rcases hstate with h' | h' <;> rw [h'] at h <;> cases h
    · cases h
  refine hs.next hf hworld rfl (some _) (fun y hy => ?_) (fun ws jobs h => ?_) fun y j g hy hp hfence' m ws jobs _ hm => ?_
  · cases hy
    exact ⟨hpos, hgen, Option.isSome_iff_exists.mpr ⟨_, hself⟩, (fun h => by cases h), fun _ => ⟨holder, _, hself, rfl⟩⟩
  · cases h
  · cases hy
    obtain ⟨rfl, rfl, _⟩ := hp
    exact hclear m ws jobs hm

/-- What is written in full is a finished export. -/
theorem Written.finished {x : Snapshot} {location : String} {ordinal : Nat} {a : Artifact} {w : State}
    (h : Written cd s job generation x location ordinal []) (hpos : 1 ≤ generation)
    (hchunks : w.db.chunks job = s.db.chunks job) (hobjects : w.db.objects = s.db.objects) (hstore : w.store = s.store)
    (hws : w.db.workspace job = s.db.workspace job) (hmanifest : a.manifest = some (manifestOf cd x ordinal))
    (hreserved : a.reservedBytes = max 1 x.body.length) : Finished cd w job a := by
  obtain ⟨hrows, hbytes, parts, rfl, hcut, hparts, hstored, _⟩ := h
  rw [partsOf_nil, List.append_nil] at hcut
  subst hcut
  have hplace : placeOf w location job generation = placeOf s location job generation := by
    unfold placeOf
    rw [hws]
  refine ⟨x, location, generation, hrows, hbytes, hpos, hmanifest, hreserved, ?_, fun part hpart => ?_⟩
  · rw [hchunks, hparts, hplace]
  · obtain ⟨hrow, hobject⟩ := hstored part hpart
    unfold Stored
    rw [hplace, hobjects, hstore]
    exact ⟨hrow, hobject⟩

theorem Inv.sealed (hs : Inv cd s) {x : Snapshot} {ordinal : Nat}
    (hx : s.sessions n = some (.build job generation (.sealing x ordinal))) :
    Inv cd (s.commit n (s.db.publish job (manifestOf cd x ordinal)) none) := by
  obtain ⟨hpos, hgen, hsome, hheld, hok⟩ := hs.sessions n _ hx
  have hfence := hheld (decide_eq_true rfl)
  obtain ⟨⟨location, hw⟩, a, ha, hstate⟩ := hok hfence
  have hclear := hs.past_clear hx ⟨rfl, rfl, by simp, by simp⟩ hfence
  have hopen : ¬ Closing a.state := building_not_closing hstate (.inr (.inl rfl))
  have hpublish : s.db.publish job (manifestOf cd x ordinal) =
      some (s.db.setArtifact job (a.readyWith (manifestOf cd x ordinal))) := by
    unfold Db.publish
    rw [ha]
    show (if a.state = .ready then none else _) = _
    rw [hstate]
    rfl
  rw [hpublish]
  have hattempt : ∀ row ∈ s.db.chunks job, row.key.attempt = generation := by
    obtain ⟨_, _, parts, _, _, hparts, _, _⟩ := hw
    intro row hrow
    rw [hparts] at hrow
    obtain ⟨_, _, part, _, hkey⟩ := mem_rowsOf hrow
    rw [hkey]
    rfl
  have hf : Frame s { s with db := s.db.setArtifact job (a.readyWith (manifestOf cd x ordinal)) } (some n) :=
    frame_setArtifact hfence ha hopen hclear rfl rfl fun _ => hattempt
  have hworld : World cd { s with db := s.db.setArtifact job (a.readyWith (manifestOf cd x ordinal)) } := by
    refine world_setArtifact hs.world ha rfl hf (fun _ h => h) (fun h => ?_) (fun _ => .inl rfl)
      (fun _ => hw.finished hpos rfl rfl rfl (hf.workspace hsome) rfl rfl) (Nat.le_max_left _ _)
    rcases h with h | h <;> cases h
  have hnext := hs.next hf hworld rfl none (fun _ h => by cases h) (fun _ _ h => by cases h) fun _ _ _ h => by cases h
  have hends := hnext.ends n
  rw [ends_update] at hends
  exact hends

/-! ## Parts of the owner -/

theorem Inv.put (hs : Inv cd s) {x : Snapshot} {location : String} {ordinal : Nat} {rest : Bytes} (hrest : rest ≠ [])
    (hx : s.sessions n = some (.build job generation (.writing x location ordinal rest)))
    (hfree : ∀ held, s.store ((placeOf s location job generation).key cd (rest.take chunkBytes)) = some held →
      held = cd.compress (rest.take chunkBytes)) :
    Inv cd (State.at { s with
        store := Function.update s.store ((placeOf s location job generation).key cd (rest.take chunkBytes))
          (some (cd.compress (rest.take chunkBytes))) } n
      (.build job generation (.published x location (ordinal + 1) (rest.take chunkBytes) (rest.drop chunkBytes)))) := by
  obtain ⟨hpos, hgen, hsome, hheld, hok⟩ := hs.sessions n _ hx
  obtain ⟨key, hkey⟩ : ∃ key, (placeOf s location job generation).key cd (rest.take chunkBytes) = key := ⟨_, rfl⟩
  rw [hkey] at hfree ⊢
  have hstore : ∀ k body, s.store k = some body →
      Function.update s.store key (some (cd.compress (rest.take chunkBytes))) k = some body := by
    intro k body hk
    by_cases hkk : k = key
    · subst hkk
      rw [Function.update_self, hfree body hk]
    · rw [Function.update_of_ne hkk, hk]
  have hf : Frame s { s with store := Function.update s.store key (some (cd.compress (rest.take chunkBytes))) }
      (some n) := { Frame.refl s (some n) with store := fun k body hk => .inl (hstore k body hk) }
  have hw := hs.world
  have hworld : World cd { s with store := Function.update s.store key (some (cd.compress (rest.take chunkBytes))) } :=
    hw.of_frame hf (fun _ h => .inl h) (fun _ _ h => .inl h) (fun j b hb hc => .inl ⟨b, hb, rfl, hc⟩) hw.leased
      (fun _ h => .inl h) (fun _ _ hb _ => .inl ⟨hb, rfl⟩) hw.reserved
  refine hs.next hf hworld rfl (some _) (fun y hy => ?_) (fun ws jobs h => ?_) fun y j g hy hp hfence m ws jobs _ hm => ?_
  · cases hy
    refine ⟨hpos, hgen, hsome, (fun h => by cases h), fun hfence => ?_⟩
    obtain ⟨hwritten, hbuilding⟩ := hok hfence
    refine ⟨⟨rest, ordinal, hrest, rfl, rfl, rfl, hf.written hfence hbuilding rfl rfl hwritten, ?_⟩, hbuilding⟩
    show Function.update s.store key _ ((placeOf s location job generation).key cd (rest.take chunkBytes)) = _
    rw [hkey]
    exact Function.update_self key _ _
  · cases h
  · cases hy
    obtain ⟨rfl, rfl, _⟩ := hp
    exact hs.past_clear hx ⟨rfl, rfl, by simp, by simp⟩ hfence m ws jobs hm

/-- The parts of a job and the registry after a write. -/
def Db.setParts (db : Db) (job : Nat) (rows : List ChunkRow) (objects : Key → Option ObjectRow) : Db :=
  { db with chunks := Function.update db.chunks job rows, objects := objects }

theorem setParts_self {db : Db} {rows : List ChunkRow} {objects : Key → Option ObjectRow} {row : ChunkRow}
    (h : row ∈ (db.setParts job rows objects).chunks job) : row ∈ rows := by
  rw [show (db.setParts job rows objects).chunks job = rows from Function.update_self job _ _] at h
  exact h

theorem setParts_of_ne {db : Db} {rows : List ChunkRow} {objects : Key → Option ObjectRow} {j : Nat} (hj : j ≠ job) :
    (db.setParts job rows objects).chunks j = db.chunks j :=
  Function.update_of_ne hj _ _

/-- A session writes the parts of a job that no other session works on. -/
theorem frame_chunks {rows : List ChunkRow} {objects : Key → Option ObjectRow}
    (hobjects : ∀ key row, s.db.objects key = some row → objects key = some row)
    (hstate : ∀ a, s.db.artifacts job = some a → a.state ≠ .ready)
    (hothers : ∀ k x g, k ≠ n → s.sessions k = some x → x.On job g → s.fenced k job g = true →
      (∀ row ∈ rows, row ∈ s.db.chunks job) ∧ ¬ x.Past job g) :
    Frame s { s with db := s.db.setParts job rows objects } (some n) := by
  refine { Frame.refl s (some n) with
    objects := hobjects, safe := fun key hsafe => ?_, others := fun k x j g hk hx hon hfence => ?_ }
  · obtain ⟨a, ha, hclosing | ⟨hlt, hready⟩⟩ := hsafe
    · exact ⟨a, ha, .inl hclosing⟩
    · refine ⟨a, ha, .inr ⟨hlt, fun hr row hrow => ?_⟩⟩
      by_cases hj : key.jobId = job
      · rw [hj] at ha
        exact absurd hr (hstate a ha)
      · rw [show (s.db.setParts job rows objects).chunks _ = _ from setParts_of_ne hj] at hrow
        exact hready hr row hrow
  · by_cases hj : j = job
    · subst hj
      obtain ⟨hsub, hnot⟩ := hothers k x g (fun h => hk (congrArg some h.symm)) hx hon hfence
      refine ⟨hfence, fun row hrow => ?_, fun hpast => absurd hpast hnot⟩
      exact hsub row (setParts_self hrow)
    · refine ⟨hfence, fun row hrow => ?_, fun _ => ⟨setParts_of_ne hj, rfl⟩⟩
      rw [show (s.db.setParts job rows objects).chunks _ = _ from setParts_of_ne hj] at hrow
      exact hrow

theorem world_chunks {rows : List ChunkRow} {objects : Key → Option ObjectRow} {m : Option Nat} (hw : World cd s)
    (hf : Frame s { s with db := s.db.setParts job rows objects } m)
    (hstate : ∀ a, s.db.artifacts job = some a → a.state ≠ .ready)
    (hrows : ∀ row ∈ rows, row ∈ s.db.chunks job ∨ row.key.jobId = job ∧
      row.key.attempt ≤ (s.jobs job).generation ∧ (s.db.artifacts job).isSome = true ∧ 1 ≤ row.ordinal ∧
      row.key.workspaceId = s.db.workspace job) :
    World cd { s with db := s.db.setParts job rows objects } := by
  refine hw.of_frame hf (fun _ h => .inl h) (fun j row hrow => ?_) (fun j b hb hc => .inl ⟨b, hb, rfl, hc⟩) hw.leased
    (fun _ h => .inl h) (fun j a ha hr => .inl ⟨ha, ?_⟩) hw.reserved
  · by_cases hj : j = job
    · subst hj
      exact hrows row (setParts_self hrow)
    · rw [show (s.db.setParts job rows objects).chunks _ = _ from setParts_of_ne hj] at hrow
      exact .inl hrow
  · refine setParts_of_ne fun hj => ?_
    subst hj
    exact hstate a ha hr

/-- The row that follows the rows of the written parts goes to their end. -/
theorem insertChunk_rowsOf {db : Db} {at' : Place} {parts : List Bytes} {key : Key}
    (hparts : db.chunks job = rowsOf cd at' 0 parts) (hmutable : db.mutable job = true) :
    db.insertChunk job (parts.length + 1) key =
      some (db.setParts job (rowsOf cd at' 0 parts ++ [⟨parts.length + 1, key⟩]) db.objects) := by
  have hle : ∀ row ∈ rowsOf cd at' 0 parts, row.ordinal < parts.length + 1 := by
    intro row hrow
    have := (mem_rowsOf hrow).2.1
    omega
  have hany : (rowsOf cd at' 0 parts).any (fun r => r.ordinal = parts.length + 1) = false := by
    refine List.any_eq_false.mpr fun row hrow => ?_
    have := hle row hrow
    simp
    omega
  unfold Db.insertChunk
  dsimp only
  rw [hparts, hmutable, hany]
  simp only [Bool.true_eq_false, Bool.false_eq_true, or_self, if_false]
  rw [List.filter_eq_self.mpr fun row hrow => decide_eq_true (hle row hrow), List.filter_eq_nil_iff.mpr, List.append_nil]
  · rfl
  · intro row hrow
    have := hle row hrow
    simp
    omega

theorem Inv.inserted (hs : Inv cd s) {x : Snapshot} {location : String} {ordinal : Nat} {chunk rest : Bytes}
    (hx : s.sessions n = some (.build job generation (.inserting x location ordinal chunk rest))) :
    Inv cd (s.commit n
      ((s.db.registerArchiveObject ((placeOf s location job generation).key cd chunk)
        ((placeOf s location job generation).row cd chunk)).bind fun db =>
          db.insertChunk job ordinal ((placeOf s location job generation).key cd chunk))
      (some (.build job generation (.writing x location ordinal rest)))) := by
  obtain ⟨hpos, hgen, hsome, hheld, hok⟩ := hs.sessions n _ hx
  have hfence := hheld (decide_eq_true rfl)
  obtain ⟨⟨left, k, hleft, rfl, rfl, rfl, hwritten, hobject⟩, ⟨a, ha, hstate⟩, hroom⟩ := hok hfence
  obtain ⟨at', hat⟩ : ∃ at', placeOf s location job generation = at' := ⟨_, rfl⟩
  have htotal := hwritten.total
  obtain ⟨hrows, hbytes, parts, rfl, hcut, hparts, hstored, hreserved⟩ := hwritten
  rw [hat] at hobject hparts hstored ⊢
  obtain ⟨chunk, hchunk⟩ : ∃ chunk, left.take chunkBytes = chunk := ⟨_, rfl⟩
  have hcut' : (parts ++ [chunk]) ++ partsOf (left.drop chunkBytes) = partsOf x.body := by
    rw [← hcut, partsOf_cons hleft, hchunk, List.append_assoc]
    rfl
  rw [hchunk] at hobject hroom ⊢
  -- The registry takes the object or knows it with the same row.
  cases hreg : s.db.registerArchiveObject (at'.key cd chunk) (at'.row cd chunk) with
  | none => exact hs.ends n
  | some db =>
    obtain ⟨objects, rfl, hgrow, hnew⟩ : ∃ objects, db = { s.db with objects := objects } ∧
        (∀ key row, s.db.objects key = some row → objects key = some row) ∧
        objects (at'.key cd chunk) = some (at'.row cd chunk) := by
      unfold Db.registerArchiveObject at hreg
      split at hreg
      · next hnone =>
        cases hreg
        refine ⟨_, rfl, fun key row hkey => ?_, Function.update_self _ _ _⟩
        rw [Function.update_of_ne, hkey]
        rintro rfl
        rw [hnone] at hkey
        cases hkey
      · next old hold =>
        split at hreg
        · next hsame =>
          cases hreg
          subst hsame
          exact ⟨s.db.objects, rfl, fun _ _ h => h, hold⟩
        · cases hreg
    have hmutable : ({ s.db with objects := objects } : Db).mutable job = true := by
      unfold Db.mutable
      rw [show ({ s.db with objects := objects } : Db).artifacts job = some a from ha]
      exact decide_eq_true (.inl hstate)
    have hinsert : ({ s.db with objects := objects } : Db).insertChunk job (parts.length + 1) (at'.key cd chunk) =
        some (s.db.setParts job (rowsOf cd at' 0 parts ++ [⟨parts.length + 1, at'.key cd chunk⟩]) objects) :=
      insertChunk_rowsOf hparts hmutable
    show Inv cd (s.commit n (Db.insertChunk _ _ _ _) _)
    rw [hinsert]
    have hnot : ∀ b, s.db.artifacts job = some b → b.state ≠ .ready := by
      intro b hb
      rw [ha] at hb
      cases hb
      rw [hstate]
      simp
    obtain ⟨rows, hrowsEq⟩ : ∃ rows, rowsOf cd at' 0 parts ++ [⟨parts.length + 1, at'.key cd chunk⟩] = rows := ⟨_, rfl⟩
    rw [hrowsEq]
    have hf : Frame s { s with db := s.db.setParts job rows objects } (some n) :=
      frame_chunks hgrow hnot fun m y g hm hy hon hfence' => absurd (fenced_owner hfence hfence').symm hm
    have hworld := world_chunks hs.world hf hnot fun row hrow => by
      rw [← hrowsEq] at hrow
      rcases List.mem_append.mp hrow with hold | hlast
      · exact .inl (hparts ▸ hold)
      · rw [List.mem_singleton.mp hlast, ← hat]
        exact .inr ⟨rfl, hgen, hsome, Nat.le_add_left _ _, rfl⟩
    refine hs.next hf hworld rfl (some _) (fun y hy => ?_) (fun ws jobs h => ?_)
      fun y j g hy hp hfence' m ws jobs _ hm => ?_
    · cases hy
      refine ⟨hpos, hgen, hsome, (fun h => by cases h), fun _ => ⟨⟨hrows, hbytes, parts ++ [chunk], ?_, hcut', ?_, ?_, ?_⟩,
        a, ha, hstate⟩⟩
      · rw [List.length_append, List.length_singleton]
      · show Function.update s.db.chunks job _ job = rowsOf cd (placeOf s location job generation) 0 (parts ++ [chunk])
        rw [Function.update_self, hat, rowsOf_append, Nat.zero_add, ← hrowsEq]
        rfl
      · intro part hpart
        show Stored cd _ (placeOf s location job generation) part
        rw [hat]
        rcases List.mem_append.mp hpart with hold | hlast
        · exact ⟨hgrow _ _ (hstored part hold).1, (hstored part hold).2⟩
        · rw [List.mem_singleton.mp hlast]
          exact ⟨hnew, hobject⟩
      · show _ ≤ reservedOf s job
        have hflat : parts.flatten.length + left.length = x.body.length := by
          have := congrArg List.flatten hcut
          rw [List.flatten_append, partsOf_flatten, partsOf_flatten] at this
          rw [← this, List.length_append]
        rw [List.flatten_append, List.length_append, List.flatten_cons, List.flatten_nil, List.append_nil]
        omega
    · cases h
    · cases hy
      obtain ⟨rfl, rfl, _⟩ := hp
      exact hs.past_clear hx ⟨rfl, rfl, by simp, by simp⟩ hfence m ws jobs hm

/-! ## Deletions -/

theorem Inv.send (hs : Inv cd s) {x : Session} {key : Key} (hsafe : Safe s key) (hx : x.Ok cd s n)
    (hmarked : ∀ ws jobs, x ≠ .prune ws (.marked jobs))
    (hpast : ∀ job generation, x.Past job generation → s.fenced n job generation = true →
      ∀ m ws jobs, m ≠ n → s.sessions m = some (.prune ws (.marked jobs)) → job ∉ jobs) :
    Inv cd (State.at { s with inflight := (n, key) :: s.inflight } n x) := by
  have hf : Frame s { s with inflight := (n, key) :: s.inflight } (some n) := { Frame.refl s (some n) with }
  have hw := hs.world
  have hworld : World cd { s with inflight := (n, key) :: s.inflight } := by
    refine hw.of_frame hf (fun _ h => .inl h) (fun _ _ h => .inl h) (fun j b hb hc => .inl ⟨b, hb, rfl, hc⟩) hw.leased
      (fun e he => ?_) (fun _ _ hb _ => .inl ⟨hb, rfl⟩) hw.reserved
    rcases List.mem_cons.mp he with rfl | he
    · exact .inr hsafe
    · exact .inl he
  refine hs.next hf hworld rfl (some x) (fun y hy => ?_) (fun ws jobs h => ?_) fun y j g hy => ?_
  · cases hy
    cases x with
    | _ => exact hx
  · exact absurd (Option.some.inj h) (hmarked ws jobs)
  · cases hy
    exact hpast j g

/-- What the removal of a part leaves: the rest, and the part only if it was of a finished artifact. -/
theorem removeChunk_spec {db db' : Db} {ordinal : Nat} (h : db.removeChunk job ordinal = some db') :
    db' = db ∨ (∀ a, db.artifacts job = some a → a.state ≠ .ready) ∧
      ∃ rows, (∀ row ∈ rows, row ∈ db.chunks job) ∧ db' = db.setParts job rows db.objects := by
  unfold Db.removeChunk at h
  split at h
  · exact .inl (Option.some.inj h).symm
  · split at h
    · next hmutable =>
      refine .inr ⟨fun a ha hr => ?_, _, fun row hrow => ?_, (Option.some.inj h).symm⟩
      · unfold Db.mutable at hmutable
        rw [ha, Option.any_some, hr] at hmutable
        cases hmutable
      · exact List.mem_of_mem_filter hrow
    · cases h

theorem Inv.remove (hs : Inv cd s) {x : Session} {ordinal : Nat} {db' : Db}
    (hremove : s.db.removeChunk job ordinal = some db')
    (hothers : ∀ k y g, k ≠ n → s.sessions k = some y → y.On job g → s.fenced k job g = true → ¬ y.Past job g)
    (hx : ∀ w : State, w.db.artifacts = s.db.artifacts → w.jobs = s.jobs → w.locks = s.locks →
      (∀ row ∈ w.db.chunks job, row ∈ s.db.chunks job) → x.Ok cd w n)
    (hmarked : ∀ ws jobs, x ≠ .prune ws (.marked jobs))
    (hpast : ∀ job generation, x.Past job generation → s.fenced n job generation = true →
      ∀ m ws jobs, m ≠ n → s.sessions m = some (.prune ws (.marked jobs)) → job ∉ jobs) :
    Inv cd (State.at { s with db := db' } n x) := by
  rcases removeChunk_spec hremove with rfl | ⟨hstate, rows, hsub, rfl⟩
  · exact hs.moveTo x (hx s rfl rfl rfl fun _ h => h) hmarked hpast
  · have hf : Frame s { s with db := s.db.setParts job rows s.db.objects } (some n) :=
      frame_chunks (fun _ _ h => h) hstate fun k y g hk hy hon hfence => ⟨hsub, hothers k y g hk hy hon hfence⟩
    have hworld := world_chunks hs.world hf hstate fun row hrow => .inl (hsub row hrow)
    refine hs.next hf hworld rfl (some x) (fun y hy => ?_) (fun ws jobs h => ?_) fun y j g hy => ?_
    · cases hy
      exact hx _ rfl rfl rfl fun row hrow => hsub row (setParts_self hrow)
    · exact absurd (Option.some.inj h) (hmarked ws jobs)
    · cases hy
      exact hpast j g

theorem Inv.buildDrop_step (hs : Inv cd s) {pc : DeletePc} {i : Input}
    (hx : s.sessions n = some (.buildDrop job generation pc))
    (h : pc.advance s n job (s.fenced n job generation) i (.buildDrop job generation)
      (.build job generation .clearing) = some t) : Inv cd t := by
  obtain ⟨hpos, hgen, hsome, hrows, htarget, hok⟩ := hs.sessions n _ hx
  have hclear : s.fenced n job generation = true → ∀ m ws jobs, s.sessions m = some (.prune ws (.marked jobs)) →
      job ∉ jobs := fun hfence => hs.past_clear hx ⟨rfl, rfl⟩ hfence
  have hpast : ∀ pc' job' g, (Session.buildDrop job generation pc').Past job' g → s.fenced n job' g = true →
      ∀ m ws jobs, m ≠ n → s.sessions m = some (.prune ws (.marked jobs)) → job' ∉ jobs := by
    rintro pc' job' g ⟨rfl, rfl⟩ hfence m ws jobs _ hm
    exact hclear hfence m ws jobs hm
  cases pc with
  | deleting rows =>
    cases rows with
    | nil =>
      cases h
      refine hs.moveTo _ ⟨hpos, hgen, hsome, (fun h => by cases h), fun hfence => (hok hfence).2⟩
        (fun _ _ h => by cases h) ?_
      rintro j g ⟨rfl, rfl, _⟩ hfence m ws jobs _ hm
      exact hclear hfence m ws jobs hm
    | cons row rows =>
      cases h
      split
      · next hgo =>
        rw [Bool.and_eq_true] at hgo
        obtain ⟨hattempts, _, a, ha, hstate⟩ := hok hgo.1
        have hjob := hrows row List.mem_cons_self
        have hattempt := hattempts row List.mem_cons_self
        refine hs.moveTo _ ⟨hpos, hgen, hsome, hrows, fun row' rows' hpc => ?_, hok⟩ (fun _ _ h => by cases h) (hpast _)
        cases hpc
        refine ⟨a, hjob.symm ▸ ha, .inr ⟨?_, fun hr => ?_⟩⟩
        · rw [hjob]
          exact Nat.lt_of_lt_of_le hattempt hgen
        · rw [hstate] at hr
          cases hr
      · exact hs.ends n
  | authorized row rows =>
    cases h
    split
    · exact hs.ends n
    · exact hs.send (htarget row rows rfl) ⟨hpos, hgen, hsome, hrows, (fun _ _ h => by cases h), hok⟩
        (fun _ _ h => by cases h) (hpast _)
  | sent row rows =>
    rw [DeletePc.advance] at h
    split at h
    · cases h
    · cases h
      exact hs.moveTo _ ⟨hpos, hgen, hsome, hrows, (fun _ _ h => by cases h), hok⟩ (fun _ _ h => by cases h) (hpast _)
  | deleted row rows =>
    cases h
    split
    · next hfence =>
      cases hremove : s.db.removeChunk job row.ordinal with
      | none => exact hs.ends n
      | some db' =>
        refine hs.remove hremove (fun k y g hk _ _ hfence' => absurd (fenced_owner hfence hfence').symm hk)
          (fun w hart hjobs hlocks hsub => ?_) (fun _ _ h => by cases h) (hpast _)
        refine ⟨hpos, ?_, ?_, fun r hr => hrows r (List.mem_cons_of_mem _ hr), (fun _ _ h => by cases h), fun _ => ?_⟩
        · rw [hjobs]
          exact hgen
        · rw [hart]
          exact hsome
        · obtain ⟨hattempts, holder, a, ha, hstate⟩ := hok hfence
          exact ⟨fun r hr => hattempts r (List.mem_cons_of_mem _ hr), fun r hr => holder r (hsub r hr), a,
            (congrFun hart job).trans ha, hstate⟩
    · exact hs.ends n

/-- Where an artifact is closed, no worker in progress is past its start. -/
theorem Inv.closed_not_past (hs : Inv cd s) {ws : String} (hclosed : Closed s ws job) {k g : Nat} {y : Session}
    (hy : s.sessions k = some y) (hfence : s.fenced k job g = true) : ¬ y.Past job g := by
  intro hpast
  obtain ⟨a, ha, _, hclosing⟩ := hclosed
  have hopen : ∀ b, s.db.artifacts job = some b → b.state = .pending ∨ b.state = .building → False := by
    intro b hb hstate
    rw [ha] at hb
    cases hb
    rcases hstate with h | h
    · exact building_not_closing h (.inl rfl) hclosing
    · exact building_not_closing h (.inr (.inl rfl)) hclosing
  cases y with
  | build j g' pc =>
    obtain ⟨rfl, rfl, ho, hst⟩ := hpast
    have hok := (hs.sessions k _ hy).2.2.2.2 hfence
    cases pc with
    | opened => exact ho rfl
    | starting => exact hst rfl
    | started =>
      obtain ⟨_, b, hb, hstate⟩ := hok
      exact hopen b hb hstate
    | inserting x location ordinal chunk rest =>
      obtain ⟨_, ⟨b, hb, hstate⟩, _⟩ := hok
      exact hopen b hb (.inr hstate)
    | _ =>
      obtain ⟨_, b, hb, hstate⟩ := hok
      exact hopen b hb (.inr hstate)
  | buildDrop j g' pc =>
    obtain ⟨rfl, rfl⟩ := hpast
    obtain ⟨_, _, b, hb, hstate⟩ := (hs.sessions k _ hy).2.2.2.2.2 hfence
    exact hopen b hb (.inr hstate)
  | _ => exact hpast

theorem Inv.pruneDrop_step (hs : Inv cd s) {ws : String} {jobs : List Nat} {pc : DeletePc} {i : Input}
    (hx : s.sessions n = some (.pruneDrop ws job jobs pc))
    (h : pc.advance s n job true i (.pruneDrop ws job jobs) (.prune ws (.expiring job jobs)) = some t) : Inv cd t := by
  obtain ⟨hclosed, hrows⟩ := hs.sessions n _ hx
  have hnopast : ∀ pc' job' g, (Session.pruneDrop ws job jobs pc').Past job' g → s.fenced n job' g = true →
      ∀ m ws jobs, m ≠ n → s.sessions m = some (.prune ws (.marked jobs)) → job' ∉ jobs := fun _ _ _ h => absurd h id
  cases pc with
  | deleting rows =>
    cases rows with
    | nil =>
      cases h
      exact hs.moveTo _ hclosed (fun _ _ h => by cases h) fun _ _ h => absurd h id
    | cons row rows =>
      cases h
      split
      · exact hs.moveTo _ ⟨hclosed, hrows⟩ (fun _ _ h => by cases h) (hnopast _)
      · exact hs.ends n
  | authorized row rows =>
    cases h
    split
    · exact hs.ends n
    · obtain ⟨a, ha, _, hclosing⟩ := hclosed job List.mem_cons_self
      have hsafe : Safe s row.key := ⟨a, (hrows row List.mem_cons_self).symm ▸ ha, .inl hclosing⟩
      exact hs.send hsafe ⟨hclosed, hrows⟩ (fun _ _ h => by cases h) (hnopast _)
  | sent row rows =>
    rw [DeletePc.advance] at h
    split at h
    · cases h
    · cases h
      exact hs.moveTo _ ⟨hclosed, hrows⟩ (fun _ _ h => by cases h) (hnopast _)
  | deleted row rows =>
    cases h
    rw [if_pos rfl]
    cases hremove : s.db.removeChunk job row.ordinal with
    | none => exact hs.ends n
    | some db' =>
      refine hs.remove hremove
        (fun k y g _ hy _ hfence => hs.closed_not_past (hclosed job List.mem_cons_self) hy hfence)
        (fun w hart _ _ _ => ⟨fun j hj => ?_, fun r hr => hrows r (List.mem_cons_of_mem _ hr)⟩) (fun _ _ h => by cases h)
        (hnopast _)
      obtain ⟨a, ha, hrest⟩ := hclosed j hj
      exact ⟨a, (congrFun hart j).trans ha, hrest⟩

end ChessCrawl.Artifacts
