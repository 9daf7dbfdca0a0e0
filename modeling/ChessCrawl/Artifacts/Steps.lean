import ChessCrawl.Artifacts.Preservation

/-! The invariant of the export artifacts holds in every reachable state. -/
namespace ChessCrawl.Artifacts
open ChessCrawl.Lib
set_option autoImplicit false

variable {cd : Codec} {s t : State} {n job generation : Nat}

/-! ## A worker -/

theorem chunks_of_page_nil (hw : World cd s) (h : s.db.chunkPage job 0 256 = []) : s.db.chunks job = [] := by
  unfold Db.chunkPage at h
  rw [List.take_eq_nil_iff] at h
  have hnone := List.filter_eq_nil_iff.mp (h.resolve_left (by omega))
  refine List.eq_nil_iff_forall_not_mem.mpr fun row hrow => ?_
  have hpos := (hw.keyed job row hrow).2.2.2.1
  exact hnone row hrow (decide_eq_true (by omega))

theorem mem_of_chunkPage {row : ChunkRow} {after limit : Nat} (h : row ∈ s.db.chunkPage job after limit) :
    row ∈ s.db.chunks job :=
  List.mem_of_mem_filter (List.mem_of_mem_take h)

/-- An artifact that may still be started is not due, so no pruning has selected it. -/
theorem Inv.startable_clear (hs : Inv cd s) (h : s.db.mayStart job s.clock = true) (m : Nat) (ws : String)
    (jobs : List Nat) (hm : s.sessions m = some (.prune ws (.marked jobs))) : job ∉ jobs := by
  intro hjob
  obtain ⟨a, ha, _, _, hdue⟩ := (hs.sessions m _ hm).2 job hjob
  unfold Db.mayStart at h
  rw [ha, Option.any_some] at h
  have hlt := (of_decide_eq_true h).1
  omega

/-- The move of a worker to a point after its start, from a point after its start. -/
theorem Inv.build_moveTo (hs : Inv cd s) {pc pc' : BuildPc} (hx : s.sessions n = some (.build job generation pc))
    (hpast : pc ≠ .opened ∧ pc ≠ .starting)
    (hheld : (Session.build job generation pc').holds job = true → s.fenced n job generation = true)
    (hok : s.fenced n job generation = true → pc'.Ok cd s job generation) :
    Inv cd (s.at n (.build job generation pc')) := by
  obtain ⟨hpos, hgen, hsome, _, _⟩ := hs.sessions n _ hx
  refine hs.moveTo _ ⟨hpos, hgen, hsome, hheld, hok⟩ (fun _ _ h => by cases h) ?_
  rintro j g ⟨rfl, rfl, _⟩ hfence m ws jobs _ hm
  exact hs.past_clear hx ⟨rfl, rfl, hpast⟩ hfence m ws jobs hm

theorem Inv.build_clearing (hs : Inv cd s) {i : Input} (hx : s.sessions n = some (.build job generation .clearing))
    (h : BuildPc.clearing.advance cd s n job generation i = some t) : Inv cd t := by
  obtain ⟨hpos, hgen, hsome, hheld, hok⟩ := hs.sessions n _ hx
  rw [BuildPc.advance] at h
  split at h
  · next hpage =>
    cases h
    refine hs.build_moveTo hx ⟨by simp, by simp⟩ (fun h => by cases h) fun hfence => ?_
    exact ⟨chunks_of_page_nil hs.world hpage, (hok hfence).2⟩
  · cases h
    refine hs.moveTo _ ⟨hpos, hgen, hsome, fun row hrow => ?_, (fun _ _ h => by cases h), fun hfence => ⟨fun row hrow => ?_,
      hok hfence⟩⟩ (fun _ _ h => by cases h) ?_
    · exact (hs.world.keyed job row (mem_of_chunkPage hrow)).1
    · exact (hok hfence).1 row (mem_of_chunkPage hrow)
    · rintro j g ⟨rfl, rfl⟩ hfence m ws jobs _ hm
      exact hs.past_clear hx ⟨rfl, rfl, by simp, by simp⟩ hfence m ws jobs hm

theorem Inv.build_step (hs : Inv cd s) {pc : BuildPc} {i : Input} (hx : s.sessions n = some (.build job generation pc))
    (h : pc.advance cd s n job generation i = some t) : Inv cd t := by
  obtain ⟨hpos, hgen, hsome, hheld, hok⟩ := hs.sessions n _ hx
  cases pc with
  | opened =>
    cases h
    split
    · exact hs.ends n
    · refine hs.moveTo _ ⟨hpos, hgen, hsome, (fun h => by cases h), hok⟩ (fun _ _ h => by cases h) ?_
      rintro j g ⟨_, _, _, hst⟩
      exact absurd rfl hst
  | starting =>
    cases h
    split
    · next hgo =>
      rw [Bool.and_eq_true] at hgo
      obtain ⟨hfence, hstart⟩ := hgo
      have hopen : Startable s job := by
        obtain ⟨a, ha⟩ := Option.isSome_iff_exists.mp hsome
        unfold Db.mayStart at hstart
        rw [ha, Option.any_some] at hstart
        exact ⟨a, ha, (of_decide_eq_true hstart).2⟩
      refine hs.moveTo _ ⟨hpos, hgen, hsome, fun _ => hfence, fun _ => ⟨hok hfence, hopen⟩⟩ (fun _ _ h => by cases h) ?_
      rintro j g ⟨rfl, rfl, _⟩ _ m ws jobs _ hm
      exact hs.startable_clear hstart m ws jobs hm
    · exact hs.ends n
  | started =>
    cases h
    exact hs.started hx
  | clearing => exact hs.build_clearing hx h
  | rendering =>
    cases h
    split
    · exact hs.ends n
    · next hgo =>
      refine hs.build_moveTo hx ⟨by simp, by simp⟩ (fun h => by cases h) fun hfence => ?_
      obtain ⟨hnil, hbuilding⟩ := hok hfence
      refine ⟨⟨by omega, by omega, [], rfl, List.nil_append _, hnil, fun part hpart => ?_, Nat.zero_le _⟩, hbuilding⟩
      cases hpart
  | writing x location ordinal rest =>
    cases rest with
    | nil =>
      cases h
      split
      · exact hs.ends n
      · next hgo =>
        refine hs.build_moveTo hx ⟨by simp, by simp⟩ (fun _ => ?_) fun hfence => ?_
        · have hgo' := Bool.of_not_eq_false fun hfalse => hgo (.inr hfalse)
          rw [Bool.and_eq_true, Bool.and_eq_true] at hgo'
          exact hgo'.1.1
        · obtain ⟨hw, hbuilding⟩ := hok hfence
          exact ⟨⟨location, hw⟩, hbuilding⟩
    | cons b rest =>
      cases h
      split
      · exact hs.ends n
      · next hgo =>
        refine hs.put (List.cons_ne_nil b rest) hx fun held hheld => ?_
        by_contra hne
        refine hgo (.inr ?_)
        exact Option.any_eq_true _ _ |>.mpr ⟨held, hheld, decide_eq_true hne⟩
  | published x location ordinal chunk rest =>
    cases h
    split
    · next hgo =>
      rw [Bool.and_eq_true, Bool.and_eq_true] at hgo
      obtain ⟨⟨hfence, _⟩, hroom⟩ := hgo
      refine hs.build_moveTo hx ⟨by simp, by simp⟩ (fun _ => hfence) fun _ => ?_
      obtain ⟨hu, hbuilding⟩ := hok hfence
      exact ⟨hu, hbuilding, (of_decide_eq_true hroom).2⟩
    · exact hs.ends n
  | inserting x location ordinal chunk rest =>
    cases h
    exact hs.inserted hx
  | sealing x ordinal =>
    rw [BuildPc.advance] at h
    split at h
    · cases h
    · cases h
      exact hs.sealed hx

/-! ## A pruning -/

theorem Inv.marking (hs : Inv cd s) {ws : String} {before : Int} {jobs : List Nat} (hfree : s.locks ws = none)
    (hjobs : jobs.all (s.db.prunable ws before s.clock fun job => (s.jobs job).owner.isNone) = true) :
    Inv cd (State.at { s with locks := Function.update s.locks ws (some n) } n (.prune ws (.marked jobs))) := by
  have hselected : ∀ job ∈ jobs, Due s ws job ∧ (s.jobs job).owner = none := by
    intro job hjob
    obtain ⟨a, ha, hrest⟩ := (Option.any_eq_true _ _).mp (List.all_eq_true.mp hjobs job hjob)
    rw [Bool.and_eq_true, Bool.and_eq_true] at hrest
    obtain ⟨⟨hrow, hidle⟩, _⟩ := hrest
    obtain ⟨hws, hstate, hexpires⟩ := of_decide_eq_true hrow
    have hwhole := wholeSecond_le s.clock
    exact ⟨⟨a, ha, hws, hstate, by omega⟩, Option.isNone_iff_eq_none.mp hidle⟩
  have hf : Frame s { s with locks := Function.update s.locks ws (some n) } (some n) := by
    refine { Frame.refl s (some n) with due := fun k ws' jobs' hk hsession hlock hdue => ⟨?_, hdue⟩ }
    show Function.update s.locks ws (some n) ws' = some k
    rw [Function.update_of_ne, hlock]
    rintro rfl
    rw [hfree] at hlock
    cases hlock
  have hw := hs.world
  have hworld : World cd { s with locks := Function.update s.locks ws (some n) } :=
    ⟨hw.listed, hw.keyed, hw.elapsed, hw.leased, hw.inflight, hw.finished, hw.reserved⟩
  refine hs.next hf hworld rfl (some _) (fun y hy => ?_) (fun ws' jobs' h => ?_) fun y j g hy hp => ?_
  · cases hy
    exact ⟨Function.update_self ws _ _, fun job hjob => (hselected job hjob).1⟩
  · cases h
    exact fun job hjob => (hselected job hjob).2
  · cases hy
    exact absurd hp id

theorem markPruning_of_mem {db : Db} {jobs : List Nat} {a : Artifact} (hjob : job ∈ jobs)
    (ha : db.artifacts job = some a) : (db.markPruning jobs).artifacts job = some { a with state := .pruning } := by
  simp only [Db.markPruning, if_pos hjob, ha, Option.map_some]

theorem markPruning_of_not_mem {db : Db} {jobs : List Nat} (hjob : job ∉ jobs) :
    (db.markPruning jobs).artifacts job = db.artifacts job := by
  simp only [Db.markPruning, if_neg hjob]

theorem Inv.frame_marked (hs : Inv cd s) {ws : String} {jobs : List Nat}
    (hx : s.sessions n = some (.prune ws (.marked jobs))) :
    Frame s { s with db := s.db.markPruning jobs, locks := Function.update s.locks ws none } (some n) := by
  obtain ⟨hlock, hdue⟩ := hs.sessions n _ hx
  refine { Frame.refl s (some n) with
    artifacts := fun j a ha => ?_, safe := fun key hsafe => ?_, others := fun k x j g hk hx' hon hfence => ?_,
    due := fun k ws' jobs' hk hsession hlock' hdue' => ?_ }
  · by_cases hj : j ∈ jobs
    · exact ⟨_, markPruning_of_mem hj ha, rfl, rfl, fun _ => .inl rfl⟩
    · exact ⟨a, (markPruning_of_not_mem hj).trans ha, rfl, rfl, fun h => h⟩
  · obtain ⟨a, ha, hcase⟩ := hsafe
    by_cases hj : key.jobId ∈ jobs
    · exact ⟨_, markPruning_of_mem hj ha, .inl (.inl rfl)⟩
    · exact ⟨a, (markPruning_of_not_mem hj).trans ha, hcase⟩
  · refine ⟨hfence, fun _ h => h, fun hpast => ⟨rfl, markPruning_of_not_mem fun hj => ?_⟩⟩
    have hfence' : s.fenced k j g = true := hfence
    rw [hs.apart n ws jobs hx j hj k x g hx' hpast] at hfence'
    cases hfence'
  · -- Another pruning at this point is one of another workspace.
    have hws : ws' ≠ ws := by
      rintro rfl
      rw [hlock] at hlock'
      exact hk hlock'
    refine ⟨(Function.update_of_ne hws _ _).trans hlock', fun job hjob => ?_⟩
    obtain ⟨a, ha, haws, hrest⟩ := hdue' job hjob
    refine ⟨a, (markPruning_of_not_mem fun hmem => ?_).trans ha, haws, hrest⟩
    obtain ⟨b, hb, hbws, _⟩ := hdue job hmem
    rw [ha] at hb
    cases hb
    exact hws (haws.symm.trans hbws)

theorem Inv.marked (hs : Inv cd s) {ws : String} {jobs : List Nat}
    (hx : s.sessions n = some (.prune ws (.marked jobs))) :
    Inv cd (State.at { s with db := s.db.markPruning jobs, locks := Function.update s.locks ws none } n
      (.prune ws (.pruning jobs))) := by
  obtain ⟨hlock, hdue⟩ := hs.sessions n _ hx
  have hf := hs.frame_marked hx
  have hw := hs.world
  have hback : ∀ j b, (s.db.markPruning jobs).artifacts j = some b → ∃ a, s.db.artifacts j = some a ∧
      (j ∈ jobs ∧ b = { a with state := .pruning } ∨ j ∉ jobs ∧ b = a) := by
    intro j b hb
    by_cases hj : j ∈ jobs
    · obtain ⟨a, ha, _⟩ := hdue j hj
      exact ⟨a, ha, .inl ⟨hj, Option.some.inj (hb.symm.trans (markPruning_of_mem hj ha))⟩⟩
    · exact ⟨b, (markPruning_of_not_mem hj).symm.trans hb, .inr ⟨hj, rfl⟩⟩
  have hworld : World cd { s with db := s.db.markPruning jobs, locks := Function.update s.locks ws none } := by
    refine hw.of_frame hf (fun _ h => .inl h) (fun _ _ h => .inl h) (fun j b hb hc => ?_)
      (hw.leased_of_frame hf fun j a ha hr => ?_) (fun _ h => .inl h) (fun j b hb hr => ?_) fun j b hb => ?_
    · obtain ⟨a, ha, ⟨hj, rfl⟩ | ⟨_, rfl⟩⟩ := hback j b hb
      · obtain ⟨a', ha', _, _, hexpires⟩ := hdue j hj
        rw [ha] at ha'
        cases ha'
        exact .inr hexpires
      · exact .inl ⟨b, ha, rfl, hc⟩
    · by_cases hj : j ∈ jobs
      · exact ⟨_, markPruning_of_mem hj ha, .inr (.inl rfl)⟩
      · exact ⟨a, (markPruning_of_not_mem hj).trans ha, .inl hr⟩
    · obtain ⟨a, ha, ⟨_, rfl⟩ | ⟨_, rfl⟩⟩ := hback j b hb
      · cases hr
      · exact .inl ⟨ha, rfl⟩
    · obtain ⟨a, ha, ⟨_, rfl⟩ | ⟨_, rfl⟩⟩ := hback j b hb
      · exact hw.reserved j a ha
      · exact hw.reserved j b ha
  refine hs.next hf hworld rfl (some _) (fun y hy => ?_) (fun ws' jobs' h => ?_) fun y j g hy hp => ?_
  · cases hy
    intro job hjob
    obtain ⟨a, ha, haws, _⟩ := hdue job hjob
    exact ⟨_, markPruning_of_mem hjob ha, haws, .inl rfl⟩
  · cases h
  · cases hy
    exact absurd hp id

/-- The end of an artifact, when nobody prunes in its workspace. -/
theorem Inv.voided (hs : Inv cd s) {ws : String} {jobs : List Nat} (hfree : s.locks ws = none)
    (hx : s.sessions n = some (.prune ws (.voiding job jobs))) :
    Inv cd (s.commit n (s.db.expire job) (some (.prune ws (.pruning jobs)))) := by
  have hclosed := hs.sessions n _ hx
  obtain ⟨a, ha, haws, hclosing⟩ := hclosed job List.mem_cons_self
  have hready : a.state ≠ .ready := fun h => building_not_closing h (.inr (.inr rfl)) hclosing
  obtain ⟨leases, hleases⟩ : ∃ leases, s.db.leases.filter (fun l => l.jobId ≠ job) = leases := ⟨_, rfl⟩
  have hexpire : s.db.expire job = some { s.db.setArtifact job a.spent with leases := leases } := by
    unfold Db.expire
    rw [ha, hleases]
    show (if a.state = .ready then none else _) = _
    rw [if_neg hready]
  rw [hexpire]
  have hother : ∀ j, j ≠ job → (s.db.setArtifact job a.spent).artifacts j = s.db.artifacts j := fun j hj =>
    Function.update_of_ne hj _ _
  have hself : (s.db.setArtifact job a.spent).artifacts job = some a.spent := Function.update_self job _ _
  have hf : Frame s { s with db := { s.db.setArtifact job a.spent with leases := leases } } (some n) := by
    refine { Frame.refl s (some n) with
      artifacts := fun j b hb => ?_, safe := fun key hsafe => ?_, others := fun k x j g hk hx' hon hfence => ?_,
      due := fun k ws' jobs' hk hsession hlock' hdue' => ⟨hlock', fun j hj => ?_⟩ }
    · by_cases hj : j = job
      · subst hj
        rw [ha] at hb
        cases hb
        exact ⟨_, hself, rfl, rfl, fun _ => .inr rfl⟩
      · exact ⟨b, (hother j hj).trans hb, rfl, rfl, fun h => h⟩
    · obtain ⟨b, hb, hcase⟩ := hsafe
      by_cases hj : key.jobId = job
      · exact ⟨a.spent, (congrArg _ hj).trans hself, .inl (.inr rfl)⟩
      · exact ⟨b, (hother _ hj).trans hb, hcase⟩
    · refine ⟨hfence, fun _ h => h, fun hpast => ⟨rfl, hother j fun hj => ?_⟩⟩
      subst hj
      exact hs.closed_not_past (hclosed j List.mem_cons_self) hx' hfence hpast
    · obtain ⟨b, hb, hbws, hrest⟩ := hdue' j hj
      refine ⟨b, (hother j fun h => ?_).trans hb, hbws, hrest⟩
      subst h
      rw [ha] at hb
      cases hb
      rw [← hbws, haws, hfree] at hlock'
      cases hlock'
  have hworld : World cd { s with db := { s.db.setArtifact job a.spent with leases := leases } } := by
    refine world_setArtifact hs.world ha rfl hf (fun l hl => ?_) (fun _ => hclosing) (fun _ => .inr (.inr rfl))
      (fun h => by cases h) (Nat.le_refl 1)
    rw [← hleases] at hl
    exact List.mem_of_mem_filter hl
  refine hs.next hf hworld rfl (some _) (fun y hy => ?_) (fun ws' jobs' h => ?_) fun y j g hy hp => ?_
  · cases hy
    exact fun j hj => hf.closed (hclosed j (List.mem_cons_of_mem _ hj))
  · cases h
  · cases hy
    exact absurd hp id

theorem Inv.prune_step (hs : Inv cd s) {ws : String} {pc : PrunePc} {i : Input} (hx : s.sessions n = some (.prune ws pc))
    (h : pc.advance s n ws i = some t) : Inv cd t := by
  have hok := hs.sessions n _ hx
  cases pc with
  | marking before limit =>
    rw [PrunePc.advance] at h
    split at h
    · cases h
    · next hfree =>
      split at h
      · next hgo =>
        cases h
        exact hs.marking (Option.not_isSome_iff_eq_none.mp hfree) hgo.2.2
      · cases h
  | marked jobs =>
    cases h
    exact hs.marked hx
  | pruning jobs =>
    cases jobs with
    | nil =>
      cases h
      exact hs.ends n
    | cons job jobs =>
      cases h
      refine hs.moveTo _ ⟨hok, fun row hrow => ?_⟩ (fun _ _ h => by cases h) fun _ _ h => absurd h id
      exact (hs.world.keyed job row (mem_of_chunkPage hrow)).1
  | expiring job jobs =>
    cases h
    split
    · exact hs.moveTo _ hok (fun _ _ h => by cases h) fun _ _ h => absurd h id
    · exact hs.moveTo _ (fun j hj => hok j (List.mem_cons_of_mem _ hj)) (fun _ _ h => by cases h) fun _ _ h => absurd h id
  | voiding job jobs =>
    rw [PrunePc.advance] at h
    split at h
    · cases h
    · next hfree =>
      cases h
      exact hs.voided (Option.not_isSome_iff_eq_none.mp hfree) hx

/-! ## The surroundings -/

theorem Inv.tick (hs : Inv cd s) (d : Nat) : Inv cd { s with clock := s.clock + d } := by
  have hf : Frame s { s with clock := s.clock + d } none := by
    refine { Frame.refl s none with
      clock := Int.le_add_of_nonneg_right (Int.natCast_nonneg d),
      due := fun k ws jobs _ _ hlock hdue => ⟨hlock, fun j hj => ?_⟩ }
    obtain ⟨a, ha, hws, hstate, hexpires⟩ := hdue j hj
    exact ⟨a, ha, hws, hstate, Int.le_trans hexpires (Int.le_add_of_nonneg_right (Int.natCast_nonneg d))⟩
  have hw := hs.world
  exact hs.env hf (hw.of_frame hf (fun _ h => .inl h) (fun _ _ h => .inl h) (fun j b hb hc => .inl ⟨b, hb, rfl, hc⟩)
    hw.leased (fun _ h => .inl h) (fun _ _ hb _ => .inl ⟨hb, rfl⟩) hw.reserved) rfl

theorem Inv.reserve (hs : Inv cd s) {ws : String} {st : Settings} {db : Db}
    (h : s.db.reserveArtifact job ws st s.clock = some db) : Inv cd { s with db := db } := by
  unfold Db.reserveArtifact at h
  split at h
  · cases h
  next hnew =>
  split at h
  · cases h
  cases h
  have hnone : s.db.artifacts job = none := Option.not_isSome_iff_eq_none.mp hnew
  obtain ⟨a, ha⟩ : ∃ a : Artifact, a = ⟨ws, .pending, st.asyncExportMaxBytes,
    wholeSecond s.clock + st.artifactTtlSeconds * 1000000, none⟩ := ⟨_, rfl⟩
  rw [← ha]
  have hother : ∀ j b, s.db.artifacts j = some b → (s.db.setArtifact job a).artifacts j = s.db.artifacts j := by
    intro j b hb
    refine Function.update_of_ne (fun hj => ?_) _ _
    subst hj
    rw [hnone] at hb
    cases hb
  have hself : (s.db.setArtifact job a).artifacts job = some a := Function.update_self job _ _
  have hback : ∀ j b, (s.db.setArtifact job a).artifacts j = some b → s.db.artifacts j = some b ∨ j = job ∧ b = a := by
    intro j b hb
    by_cases hj : j = job
    · subst hj
      exact .inr ⟨rfl, Option.some.inj (hb.symm.trans hself)⟩
    · exact .inl ((Function.update_of_ne hj _ _).symm.trans hb)
  have hf : Frame s { s with db := { s.db.setArtifact job a with jobIds := s.db.jobIds ++ [job] } } none := by
    refine { Frame.refl s none with
      artifacts := fun j b hb => ⟨b, (hother j b hb).trans hb, rfl, rfl, fun h => h⟩, safe := fun key hsafe => ?_,
      others := fun k x j g _ hx hon hfence => ⟨hfence, fun _ h => h, fun _ => ⟨rfl, ?_⟩⟩,
      due := fun k ws jobs _ _ hlock hdue => ⟨hlock, fun j hj => ?_⟩ }
    · obtain ⟨b, hb, hcase⟩ := hsafe
      exact ⟨b, (hother _ b hb).trans hb, hcase⟩
    · have hsome : (s.db.artifacts j).isSome = true := by
        have hok := hs.sessions k x hx
        cases x with
        | build j' g' pc =>
          obtain ⟨rfl, rfl⟩ := hon
          exact hok.2.2.1
        | buildDrop j' g' pc =>
          obtain ⟨rfl, rfl⟩ := hon
          exact hok.2.2.1
        | _ => exact absurd hon id
      obtain ⟨b, hb⟩ := Option.isSome_iff_exists.mp hsome
      exact hother j b hb
    · obtain ⟨b, hb, hrest⟩ := hdue j hj
      exact ⟨b, (hother j b hb).trans hb, hrest⟩
  have hw := hs.world
  refine hs.env hf (hw.of_frame hf (fun j hj => ?_) (fun _ _ h => .inl h) (fun j b hb hc => ?_)
    (hw.leased_of_frame hf fun j b hb hr => ⟨b, (hother j b hb).trans hb, .inl hr⟩) (fun _ h => .inl h)
    (fun j b hb hr => ?_) fun j b hb => ?_) rfl
  · rcases List.mem_append.mp hj with hold | hlast
    · exact .inl hold
    · rw [List.mem_singleton.mp hlast]
      exact .inr (Option.isSome_iff_exists.mpr ⟨a, hself⟩)
  · rcases hback j b hb with hold | ⟨rfl, rfl⟩
    · exact .inl ⟨b, hold, rfl, hc⟩
    · rw [ha] at hc
      rcases hc with h | h <;> cases h
  · rcases hback j b hb with hold | ⟨rfl, rfl⟩
    · exact .inl ⟨hold, rfl⟩
    · rw [ha] at hr
      cases hr
  · rcases hback j b hb with hold | ⟨rfl, rfl⟩
    · exact hw.reserved j b hold
    · rw [ha]
      exact st.positive

theorem Inv.claim (hs : Inv cd s) (hfree : (s.jobs job).owner = none) (hsome : (s.db.artifacts job).isSome = true) :
    Inv cd (State.at { s with
      jobs := Function.update s.jobs job ⟨some n, (s.jobs job).generation + 1⟩ } n
      (.build job ((s.jobs job).generation + 1) .opened)) := by
  have hother : ∀ j, j ≠ job → Function.update s.jobs job ⟨some n, (s.jobs job).generation + 1⟩ j = s.jobs j := fun j hj =>
    Function.update_of_ne hj _ _
  have hself : Function.update s.jobs job ⟨some n, (s.jobs job).generation + 1⟩ job =
      ⟨some n, (s.jobs job).generation + 1⟩ := Function.update_self job _ _
  obtain ⟨jobs, hjobs⟩ : ∃ jobs, Function.update s.jobs job ⟨some n, (s.jobs job).generation + 1⟩ = jobs := ⟨_, rfl⟩
  rw [hjobs] at hother hself ⊢
  have hgrow : ∀ j, (s.jobs j).generation ≤ (jobs j).generation := by
    intro j
    by_cases hj : j = job
    · rw [hj, hself]
      exact Nat.le_succ _
    · exact Nat.le_of_eq (congrArg JobRow.generation (hother j hj).symm)
  have hf : Frame s { s with jobs := jobs } (some n) := by
    refine { Frame.refl s (some n) with
      generation := hgrow, safe := fun key hsafe => ?_, others := fun k x j g hk hx hon hfence => ?_,
      held := fun k x j g hk hx hholds hfence => ?_ }
    · obtain ⟨a, ha, hclosing | ⟨hlt, hready⟩⟩ := hsafe
      · exact ⟨a, ha, .inl hclosing⟩
      · exact ⟨a, ha, .inr ⟨Nat.lt_of_lt_of_le hlt (hgrow _), hready⟩⟩
    · have hrow : jobs j = ⟨some k, g⟩ := of_decide_eq_true hfence
      have hj : j ≠ job := by
        rintro rfl
        rw [hself] at hrow
        exact hk (JobRow.mk.inj hrow).1
      rw [hother j hj] at hrow
      exact ⟨decide_eq_true hrow, fun _ h => h, fun _ => ⟨rfl, rfl⟩⟩
    · have hj : j ≠ job := by
        rintro rfl
        rw [of_decide_eq_true hfence] at hfree
        cases hfree
      exact decide_eq_true ((hother j hj).trans (of_decide_eq_true hfence))
  have hw := hs.world
  have hworld : World cd { s with jobs := jobs } :=
    hw.of_frame hf (fun _ h => .inl h) (fun _ _ h => .inl h) (fun j b hb hc => .inl ⟨b, hb, rfl, hc⟩) hw.leased
      (fun _ h => .inl h) (fun _ _ hb _ => .inl ⟨hb, rfl⟩) hw.reserved
  refine hs.next hf hworld rfl (some _) (fun y hy => ?_) (fun ws' jobs' h => ?_) fun y j g hy hp => ?_
  · cases hy
    refine ⟨Nat.le_add_left _ _, ?_, hsome, (fun h => by cases h), fun _ row hrow => ?_⟩
    · exact Nat.le_of_eq (congrArg JobRow.generation hself.symm)
    · exact Nat.lt_succ_of_le (hw.keyed job row hrow).2.1
  · cases h
  · cases hy
    exact absurd rfl hp.2.2.1

theorem Inv.release (hs : Inv cd s) (hfree : ∀ k x, s.sessions k = some x → x.holds job = true →
      (s.jobs job).owner ≠ some k) :
    Inv cd { s with jobs := Function.update s.jobs job ⟨none, (s.jobs job).generation⟩ } := by
  obtain ⟨jobs, hjobs⟩ : ∃ jobs, Function.update s.jobs job ⟨none, (s.jobs job).generation⟩ = jobs := ⟨_, rfl⟩
  have hother : ∀ j, j ≠ job → jobs j = s.jobs j := fun j hj => hjobs ▸ Function.update_of_ne hj _ _
  have hself : jobs job = ⟨none, (s.jobs job).generation⟩ := hjobs ▸ Function.update_self job _ _
  rw [hjobs]
  have hsame : ∀ j, (jobs j).generation = (s.jobs j).generation := by
    intro j
    by_cases hj : j = job
    · rw [hj, hself]
    · rw [hother j hj]
  have hf : Frame s { s with jobs := jobs } none := by
    refine { Frame.refl s none with
      generation := fun j => Nat.le_of_eq (hsame j).symm, safe := fun key hsafe => ?_,
      others := fun k x j g _ hx hon hfence => ?_, held := fun k x j g _ hx hholds hfence => ?_ }
    · obtain ⟨a, ha, hclosing | ⟨hlt, hready⟩⟩ := hsafe
      · exact ⟨a, ha, .inl hclosing⟩
      · refine ⟨a, ha, .inr ⟨?_, hready⟩⟩
        show key.attempt < (jobs key.jobId).generation
        rw [hsame]
        exact hlt
    · have hrow : jobs j = ⟨some k, g⟩ := of_decide_eq_true hfence
      have hj : j ≠ job := by
        rintro rfl
        rw [hself] at hrow
        cases hrow
      rw [hother j hj] at hrow
      exact ⟨decide_eq_true hrow, fun _ h => h, fun _ => ⟨rfl, rfl⟩⟩
    · have hrow := of_decide_eq_true hfence
      have hj : j ≠ job := by
        rintro rfl
        refine hfree k x hx hholds ?_
        rw [hrow]
      exact decide_eq_true ((hother j hj).trans hrow)
  have hw := hs.world
  exact hs.env hf (hw.of_frame hf (fun _ h => .inl h) (fun _ _ h => .inl h) (fun j b hb hc => .inl ⟨b, hb, rfl, hc⟩)
    hw.leased (fun _ h => .inl h) (fun _ _ hb _ => .inl ⟨hb, rfl⟩) hw.reserved) rfl

/-- A deletion lands where it is harmless. -/
theorem Inv.land (hs : Inv cd s) {key : Key} (he : (n, key) ∈ s.inflight) :
    Inv cd { s with store := Function.update s.store key none, inflight := s.inflight.erase (n, key) } := by
  have hf : Frame s { s with store := Function.update s.store key none, inflight := s.inflight.erase (n, key) } none := by
    refine { Frame.refl s none with store := fun k body hk => ?_ }
    by_cases hkey : k = key
    · rw [hkey]
      exact .inr (hs.world.inflight _ he)
    · exact .inl ((Function.update_of_ne hkey _ _).trans hk)
  have hw := hs.world
  exact hs.env hf (hw.of_frame hf (fun _ h => .inl h) (fun _ _ h => .inl h) (fun j b hb hc => .inl ⟨b, hb, rfl, hc⟩)
    hw.leased (fun _ h => .inl (List.mem_of_mem_erase h)) (fun _ _ hb _ => .inl ⟨hb, rfl⟩) hw.reserved) rfl

theorem Inv.leases (hs : Inv cd s) {leases : List Lease}
    (h : ∀ l ∈ leases, l ∈ s.db.leases ∨ ∃ a, s.db.artifacts l.jobId = some a ∧ l.expiresAt ≤ a.expiresAt ∧
      a.state = .ready) : Inv cd { s with db := { s.db with leases := leases } } := by
  have hf : Frame s { s with db := { s.db with leases := leases } } none := { Frame.refl s none with }
  have hw := hs.world
  refine hs.env hf (hw.of_frame hf (fun _ h => .inl h) (fun _ _ h => .inl h) (fun j b hb hc => .inl ⟨b, hb, rfl, hc⟩)
    (fun l hl => ?_) (fun _ h => .inl h) (fun _ _ hb _ => .inl ⟨hb, rfl⟩) hw.reserved) rfl
  rcases h l hl with hold | ⟨a, ha, hle, hready⟩
  · exact hw.leased l hold
  · exact ⟨a, ha, hle, .inl hready⟩

theorem Inv.acquire (hs : Inv cd s) {ws : String} {lease slots : Nat} {lifetime : Int} {purged : List Nat} {db : Db}
    (h : s.db.acquireDownload job ws lease lifetime s.clock slots purged = some db) : Inv cd { s with db := db } := by
  unfold Db.acquireDownload at h
  split at h
  · cases h
  · next a ha =>
    dsimp only at h
    split at h
    · cases h
    · next hgo =>
      cases h
      refine hs.leases fun l hl => ?_
      rcases List.mem_append.mp hl with hold | hlast
      · exact .inl (List.mem_of_mem_filter hold)
      · rw [List.mem_singleton.mp hlast]
        refine .inr ⟨a, ha, Int.min_le_right _ _, ?_⟩
        by_contra hne
        exact hgo (.inr (.inl hne))

/-! ## Runs -/

theorem step_inv {e : Event} (hs : Inv cd s) (h : step cd s e = some t) : Inv cd t := by
  cases e with
  | tick d =>
    cases h
    exact hs.tick d
  | reserve job ws st =>
    rw [step] at h
    split at h
    · cases h
    · obtain ⟨db, hdb, rfl⟩ := Option.map_eq_some_iff.mp h
      exact hs.reserve hdb
  | claim n job =>
    rw [step] at h
    split at h
    · cases h
    · next hgo =>
      cases h
      refine hs.claim (Option.not_isSome_iff_eq_none.mp fun h => hgo (.inr (.inl h))) ?_
      cases hart : s.db.artifacts job with
      | none => exact absurd (.inr (.inr (by rw [hart]; rfl))) hgo
      | some a => rfl
  | release job =>
    rw [step] at h
    split at h
    · cases h
    · next k howner =>
      split at h
      · cases h
      · next hgo =>
        cases h
        refine hs.release fun k' x hx hholds hk => ?_
        rw [howner] at hk
        cases hk
        rw [hx] at hgo
        exact hgo hholds
  | prune n ws before limit =>
    rw [step] at h
    split at h
    · cases h
    · cases h
      exact hs.moveTo _ trivial (fun _ _ h => by cases h) fun _ _ h => absurd h id
  | advance n i =>
    obtain ⟨x, hx, hadvance⟩ := Option.bind_eq_some_iff.mp h
    cases x with
    | build job generation pc => exact hs.build_step hx hadvance
    | buildDrop job generation pc => exact hs.buildDrop_step hx hadvance
    | prune ws pc => exact hs.prune_step hx hadvance
    | pruneDrop ws job jobs pc => exact hs.pruneDrop_step hx hadvance
  | crash n =>
    cases h
    exact hs.ends n
  | land n key =>
    rw [step] at h
    split at h
    · next he =>
      cases h
      exact hs.land he
    · cases h
  | acquire job ws lease lifetime slots purged =>
    rw [step] at h
    split at h
    · cases h
    · obtain ⟨db, hdb, rfl⟩ := Option.map_eq_some_iff.mp h
      exact hs.acquire hdb
  | giveBack lease ws =>
    cases h
    exact hs.leases fun l hl => .inl (List.mem_of_mem_filter hl)

theorem init_inv (h : (artifacts cd).init s) : Inv cd s := by
  obtain ⟨hdb, hstore, hinflight, hjobs, hlocks, hsessions⟩ := h
  have hart : ∀ job a, s.db.artifacts job ≠ some a := by
    intro job a ha
    rw [hdb] at ha
    cases ha
  refine ⟨⟨fun job hjob => ?_, fun job row hrow => ?_, fun job a ha => absurd ha (hart job a), fun l hl => ?_,
    fun e he => ?_, fun job a ha => absurd ha (hart job a), fun job a ha => absurd ha (hart job a)⟩,
    fun n x hx => ?_, fun n ws jobs hx => ?_⟩
  · rw [hdb] at hjob
    cases hjob
  · rw [hdb] at hrow
    cases hrow
  · rw [hdb] at hl
    cases hl
  · rw [hinflight] at he
    cases he
  · rw [hsessions n] at hx
    cases hx
  · rw [hsessions n] at hx
    cases hx

theorem inv_of_reach (h : Reachable (artifacts cd) s) : Inv cd s :=
  h.invariant (fun _ => init_inv) fun _ _ _ => step_inv

end ChessCrawl.Artifacts
