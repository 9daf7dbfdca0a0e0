import ChessCrawl.Jobs.ActiveCap
import ChessCrawl.Jobs.Lifecycle

/-! What the events of the workers leave of a job that somebody owns: only a claim gives a row to an owner, only a
checkpoint writes its parameters, and only a capture gives it a child. -/
namespace ChessCrawl.Jobs
open ChessCrawl.Lib
set_option autoImplicit false

/-! ## Rows and their origin -/

/-- Every row of the tables was there, with its state if it was through, or is the row of a request. -/
theorem Writes.back {T : Text} {maxRetries : Nat} {P : Db → Enqueue → Prop} {db db' : Db}
    (h : Writes T maxRetries P db db') :
    ∀ j' ∈ db'.jobs, (∃ j ∈ db.jobs, j.Same j' ∧ (j.state.terminal = true → j'.state = j.state)) ∨
      ∃ db₁ e id owner, P db₁ e ∧ Job.Same (e.row T id owner) j' := by
  refine h.keeps (I := fun db' => ∀ j' ∈ db'.jobs,
    (∃ j ∈ db.jobs, j.Same j' ∧ (j.state.terminal = true → j'.state = j.state)) ∨
      ∃ db₁ e id owner, P db₁ e ∧ Job.Same (e.row T id owner) j') ?_ ?_ ?_
    fun j hj => .inl ⟨j, hj, .refl j, fun _ => rfl⟩
  · intro db₁ db₂ hI ht j' hj'
    rw [ht.jobs] at hj'
    exact hI j' hj'
  · intro db₁ sel set hI hset j' hj'
    obtain ⟨k, hk, rfl⟩ := List.mem_map.mp hj'
    have hsame := Rewritten.same hset hk
    rcases hI k hk with ⟨j, hj, hjk, hstate⟩ | ⟨db₂, e, id, owner, hP, hek⟩
    · refine .inl ⟨j, hj, hjk.trans hsame, fun hterm => ?_⟩
      rcases Rewritten.row hset hk with hrow | hrow
      · rw [hrow, hstate hterm]
      · rw [hrow.terminal (by rw [hstate hterm]; exact hterm), hstate hterm]
    · exact .inr ⟨db₂, e, id, owner, hP, hek.trans hsame⟩
  · intro db₁ e owner hI hP _ _ j' hj'
    rcases List.mem_append.mp hj' with hj' | hj'
    · exact hI j' hj'
    · rw [List.mem_singleton.mp hj']
      exact .inr ⟨db₁, e, _, owner, hP, .refl _⟩

/-! ## Parameters and owners -/

/-- Rows keep their parameters, and none gets an owner. -/
structure Db.Steady (db db' : Db) : Prop where
  seq : db.jobSeq ≤ db'.jobSeq
  rows : ∀ j' ∈ db'.jobs, (db.jobSeq < j'.id ∧ j'.state ≠ .inProgress) ∨
    ∃ j ∈ db.jobs, j.id = j'.id ∧ j.params = j'.params ∧
      (j'.state = .inProgress → j.state = .inProgress ∧ j.ownershipToken = j'.ownershipToken)

section Steady
variable {T : Text} {w : WorkerSettings} {db db' db'' : Db}

theorem Db.Steady.trans (h : db.Steady db') (h' : db'.Steady db'') : db.Steady db'' := by
  refine ⟨Nat.le_trans h.seq h'.seq, fun j'' hj'' => ?_⟩
  rcases h'.rows j'' hj'' with ⟨hid, hs⟩ | ⟨j', hj', hid', hparams', hback'⟩
  · exact .inl ⟨Nat.lt_of_le_of_lt h.seq hid, hs⟩
  rcases h.rows j' hj' with ⟨hid, hs⟩ | ⟨j, hj, hid, hparams, hback⟩
  · exact .inl ⟨by rw [← hid']; exact hid, fun hbusy => hs (hback' hbusy).1⟩
  · refine .inr ⟨j, hj, hid.trans hid', hparams.trans hparams', fun hbusy => ?_⟩
    obtain ⟨hs', htoken'⟩ := hback' hbusy
    obtain ⟨hs, htoken⟩ := hback hs'
    exact ⟨hs, htoken.trans htoken'⟩

theorem Db.Tables.steady (h : db.Tables db') : db.Steady db' := by
  refine ⟨Nat.le_of_eq h.jobSeq.symm, fun j hj => ?_⟩
  rw [h.jobs] at hj
  exact .inr ⟨j, hj, rfl, rfl, fun hs => ⟨hs, rfl⟩⟩

theorem update_steady {sel : Job → Bool} {set : Job → Job}
    (hset : ∀ j ∈ db.jobs, sel j = true → (set j).id = j.id ∧ (set j).params = j.params ∧
      ((set j).state = .inProgress → j.state = .inProgress ∧ (set j).ownershipToken = j.ownershipToken)) :
    db.Steady (db.updateJobs sel set) := by
  refine ⟨Nat.le_refl _, fun j' hj' => ?_⟩
  obtain ⟨j, hj, rfl⟩ := List.mem_map.mp hj'
  refine .inr ⟨j, hj, ?_⟩
  split
  · next hsel =>
    obtain ⟨hid, hparams, hback⟩ := hset j hj hsel
    exact ⟨hid.symm, hparams.symm, fun hs => ⟨(hback hs).1, (hback hs).2.symm⟩⟩
  · exact ⟨rfl, rfl, fun hs => ⟨hs, rfl⟩⟩

theorem enqueueJob_steady {e : Enqueue} {res : EnqueueResult} (h : db.enqueueJob T e = .ok (res, db')) :
    db.Steady db' := by
  rcases enqueueJob_cases h with ⟨rfl, _⟩ | ⟨_, owner, _, rfl⟩
  · exact (Db.Tables.refl _).steady
  refine ⟨Nat.le_succ _, fun j hj => ?_⟩
  rcases List.mem_append.mp hj with hj | hj
  · exact .inr ⟨j, hj, rfl, rfl, fun hs => ⟨hs, rfl⟩⟩
  · rw [List.mem_singleton.mp hj]
    exact .inl ⟨Nat.lt_succ_self _, nofun⟩

theorem enqueueExpansionAt_steady {parent : Job} {depth : Nat} {now : Int} {res : EnqueueResult}
    (h : db.enqueueExpansionAt T parent depth now = .ok (res, db')) : db.Steady db' := by
  unfold Db.enqueueExpansionAt at h
  split at h
  · cases h
  · exact enqueueJob_steady h

theorem promoteCrawlDepth_steady {runId depth : Nat} {provider username : String} {r : Race} {now : Int}
    (h : db.promoteCrawlDepth T runId provider username depth r now = .ok db') : db.Steady db' := by
  unfold Db.promoteCrawlDepth at h
  dsimp only at h
  refine foldlM_keeps (I := db.Steady) (fun parent _ db₁ db₂ hI h₁ => ?_) h
    (update_steady fun j _ _ => ⟨rfl, rfl, fun hs => ⟨hs, rfl⟩⟩)
  obtain ⟨_, h₂⟩ := map_snd_ok h₁
  exact hI.trans (enqueueExpansionAt_steady h₂)

theorem discover_steady {parent : Job} {runId nextDepth : Nat} {provider username : String} {params : Params}
    {b : CrawlBounds} {r : Race} {now : Int}
    (h : db.discover T parent runId provider params b nextDepth r now username = .ok db') : db.Steady db' := by
  unfold Db.discover at h
  split at h
  · split at h
    · cases h
      exact (Db.Tables.refl _).steady
    · exact promoteCrawlDepth_steady h
  · split at h
    · cases h
      exact (Db.Tables.refl _).steady
    split at h
    · cases h
      exact (Db.Tables.refl _).steady
    · obtain ⟨_, h₁⟩ := map_snd_ok h
      exact enqueueJob_steady h₁

theorem expandOpponentFrontier_steady {parent : Job} {depth : Nat} {edges : List String} {r : Race} {now : Int}
    (h : db.expandOpponentFrontier T parent depth edges r now = .ok db') : db.Steady db' := by
  unfold Db.expandOpponentFrontier at h
  split at h
  · obtain ⟨b, _, h⟩ := bind_ok h
    split at h
    · cases h
      exact (Db.Tables.refl _).steady
    unfold Db.enqueueOpponentChildren at h
    obtain ⟨b', _, h⟩ := bind_ok h
    split at h
    · cases h
      exact (Db.Tables.refl _).steady
    · exact foldlM_keeps (I := db.Steady) (fun _ _ db₁ db₂ hI h₁ => hI.trans (discover_steady h₁)) h
        (Db.Tables.refl db).steady
  · cases h

theorem finishAttempt_steady {jobId : Nat} {o : Outcome} {now : Int}
    (hrow : ∀ j ∈ db.jobs, j.id = jobId → j.state = .inProgress) (h : db.finishAttempt T w jobId o now = .ok db') :
    db.Steady db' := by
  unfold Db.finishAttempt at h
  split at h
  · cases h
  next j _ =>
  cases h
  have hdefer : db.Steady (db.deferFor w j o now) := (db.deferFor_tables w j o now).steady
  have hfinished : (db.deferFor w j o now).Steady
      ((db.deferFor w j o now).updateJob jobId fun row => row.finished w o now) := by
    refine update_steady fun k hk hid => ?_
    rw [(db.deferFor_tables w j o now).jobs] at hk
    have hs := hrow k hk (by simpa using hid)
    unfold Job.finished
    split
    · split
      · exact ⟨rfl, rfl, nofun⟩
      · exact ⟨rfl, rfl, nofun⟩
    · exact ⟨rfl, rfl, fun _ => ⟨hs, rfl⟩⟩
  have hmerged : ∀ db₁ : Db, db₁.Steady (db₁.mergeDepth T j) := by
    intro db₁
    unfold Db.mergeDepth
    split
    · split
      · exact update_steady fun _ _ _ => ⟨rfl, rfl, fun hs => ⟨hs, rfl⟩⟩
      · exact (Db.Tables.refl _).steady
    · exact (Db.Tables.refl _).steady
  have hall := (hdefer.trans hfinished).trans (hmerged _)
  split
  · exact hall.trans (Db.refreshRunStatus_tables _ _ _).steady
  · exact hall

def Event.isCheckpoint : Event → Bool
  | .checkpoint .. => true
  | _ => false

/-- Every event of the workers but a claim and a checkpoint. -/
theorem step_steady {s t : World} {ev : Event} (hids : s.db.Ids) (hclaim : ev.isClaim = false)
    (hcheck : ev.isCheckpoint = false) (h : s.step T w ev = some t) : s.db.Steady t.db := by
  cases ev with
  | createRun =>
    obtain ⟨⟨_, db⟩, hr, rfl⟩ := Option.map_eq_some_iff.mp h
    obtain ⟨_, rfl⟩ := createCrawlRun_ok (toOption_some hr)
    exact (Db.opened_tables _ _ _ _).steady
  | createOpponentCrawl =>
    obtain ⟨⟨_, db⟩, hr, rfl⟩ := Option.map_eq_some_iff.mp h
    obtain ⟨_, _, _, _, hjob⟩ := createOpponentCrawl_ok (toOption_some hr)
    exact (Db.opened_tables _ _ _ _).steady.trans (enqueueJob_steady hjob)
  | enqueue e =>
    obtain ⟨⟨_, db⟩, hr, rfl⟩ := Option.map_eq_some_iff.mp h
    exact enqueueJob_steady (toOption_some hr)
  | admitBudget runId b =>
    obtain ⟨db, hr, rfl⟩ := Option.map_eq_some_iff.mp h
    unfold Db.admitRunBudget at hr
    split at hr
    · cases hr
      have htables : s.db.Tables { s.db with
          budgets := s.db.budgets ++ [b]
          runs := s.db.runs.map fun (r : Run) => if r.id = runId then { r with workBudgetId := some b.id } else r } :=
        ⟨rfl, rfl, Nat.le_refl _⟩
      exact htables.steady.trans (update_steady fun _ _ _ => ⟨rfl, rfl, fun hs => ⟨hs, rfl⟩⟩)
    · cases hr
  | cancel =>
    cases h
    exact Db.Tables.steady ⟨rfl, rfl, Nat.le_refl _⟩
  | claim => cases hclaim
  | capture =>
    obtain ⟨a, db, _, hr, rfl⟩ := World.fencedBy_some h
    obtain ⟨_, hr⟩ := map_snd_ok hr
    exact enqueueJob_steady hr
  | checkpoint => cases hcheck
  | readDepth =>
    obtain ⟨a, _, h⟩ := Option.bind_eq_some_iff.mp h
    obtain ⟨parent, _, rfl⟩ := Option.map_eq_some_iff.mp h
    exact (Db.Tables.refl _).steady
  | expansion =>
    obtain ⟨a, db, _, hr, rfl⟩ := World.fencedBy_some h
    split at hr
    · obtain ⟨_, hr⟩ := map_snd_ok hr
      exact enqueueExpansionAt_steady hr
    · cases hr
  | expand =>
    obtain ⟨a, db, _, hr, rfl⟩ := World.fencedBy_some h
    split at hr
    · split at hr
      · exact expandOpponentFrontier_steady hr
      · cases hr
    · cases hr
  | finish =>
    obtain ⟨a, db, howns, hr, rfl⟩ := World.fencedBy_some h
    exact finishAttempt_steady (fun j hj hid => (howns.inProgress hids hj hid).1) hr
  | mark =>
    obtain ⟨a, db, howns, hr, rfl⟩ := World.fencedBy_some h
    cases hr
    exact update_steady fun j hj hid =>
      ⟨rfl, rfl, fun _ => ⟨(howns.inProgress hids hj (by simpa using hid)).1, rfl⟩⟩
  | release =>
    cases h
    exact (Db.Tables.refl _).steady
  | resumeStale =>
    cases h
    exact update_steady fun _ _ _ => ⟨rfl, rfl, nofun⟩
  | unblock =>
    cases h
    exact update_steady fun _ _ _ => ⟨rfl, rfl, nofun⟩
  | resumeRunBudget =>
    obtain ⟨db, hr, rfl⟩ := Option.map_eq_some_iff.mp h
    replace hr := toOption_some hr
    unfold Db.resumeRunBudget at hr
    split at hr
    · cases hr
    split at hr
    · cases hr
      exact update_steady fun _ _ _ => ⟨rfl, rfl, nofun⟩
    · cases hr
  | refresh =>
    cases h
    exact (s.db.refreshCrawlRuns_tables _ _).steady

/-- The row of an owner before a step that claims nothing. -/
theorem step_busy {s t : World} {ev : Event} (hids : s.db.Ids) (hclaim : ev.isClaim = false)
    (h : s.step T w ev = some t) {j' : Job} (hj' : j' ∈ t.db.jobs) (hbusy : j'.state = .inProgress) :
    ∃ j ∈ s.db.jobs, j.id = j'.id ∧ j.state = .inProgress ∧ j.ownershipToken = j'.ownershipToken := by
  cases hcheck : ev.isCheckpoint with
  | false =>
    rcases (step_steady hids hclaim hcheck h).rows j' hj' with ⟨_, hidle⟩ | ⟨j, hj, hid, _, hback⟩
    · exact (hidle hbusy).elim
    · exact ⟨j, hj, hid, hback hbusy⟩
  | true =>
    cases ev with
    | checkpoint worker key value =>
      obtain ⟨a, db, _, hr, rfl⟩ := World.fencedBy_some h
      split at hr
      · cases hr
        obtain ⟨j, hj, rfl⟩ := List.mem_map.mp hj'
        refine ⟨j, hj, ?_⟩
        split at hbusy
        · next hsel =>
          rw [if_pos hsel]
          exact ⟨rfl, hbusy, rfl⟩
        · next hsel =>
          rw [if_neg hsel]
          exact ⟨rfl, hbusy, rfl⟩
      · cases hr
    | _ => cases hcheck

/-- Only the checkpoint of its owner writes the parameters of a job. -/
theorem step_params {s t : World} {ev : Event} (hids : s.db.Ids) (h : s.step T w ev = some t) {j j' : Job}
    (hj : j ∈ s.db.jobs) (hj' : j' ∈ t.db.jobs) (hid : j'.id = j.id) :
    j'.params = j.params ∨ ∃ worker key value a, ev = .checkpoint worker key value ∧ s.Owns worker a ∧
      a.job.id = j.id ∧ j'.params = a.job.params.set key value := by
  cases hclaim : ev.isClaim with
  | true =>
    cases ev with
    | claim worker jobId now maxActiveJobs token =>
      replace h : (if _ then _ else _) = some t := h
      split at h
      · obtain ⟨⟨_, db⟩, hr, rfl⟩ := Option.map_eq_some_iff.mp h
        obtain ⟨row, _, _, _, _, rfl⟩ := claim_row hr
        obtain ⟨k, hk, rfl⟩ := List.mem_map.mp hj'
        split at hid
        · next hsel =>
          rw [if_pos hsel, hids.unique hk hj hid]
          exact .inl rfl
        · next hsel =>
          rw [if_neg hsel, hids.unique hk hj hid]
          exact .inl rfl
      · cases h
    | _ => cases hclaim
  | false =>
  cases hcheck : ev.isCheckpoint with
  | false =>
    rcases (step_steady hids hclaim hcheck h).rows j' hj' with ⟨hnew, _⟩ | ⟨k, hk, hkid, hparams, _⟩
    · have := hids.issued j hj
      omega
    · rw [← hparams, hids.unique hk hj (hkid.trans hid)]
      exact .inl rfl
  | true =>
    cases ev with
    | checkpoint worker key value =>
      obtain ⟨a, db, howns, hr, rfl⟩ := World.fencedBy_some h
      split at hr
      · cases hr
        obtain ⟨k, hk, rfl⟩ := List.mem_map.mp hj'
        split at hid
        · next hsel =>
          rw [if_pos hsel]
          exact .inr ⟨worker, key, value, a, rfl, howns, (of_decide_eq_true hsel).symm.trans hid, rfl⟩
        · next hsel =>
          rw [if_neg hsel, hids.unique hk hj hid]
          exact .inl rfl
      · cases hr
    | _ => cases hcheck

/-- An owner owned its job before the step, or has claimed it. -/
theorem step_owns {s t : World} {ev : Event} (hids : s.db.Ids) (h : s.step T w ev = some t)
    (hfresh : ∀ n b, s.attempts n = some b → ∀ worker jobId now maxActiveJobs,
      ev ≠ .claim worker jobId now maxActiveJobs b.token) {worker : Nat} {a : Attempt} (howns : t.Owns worker a) :
    (∃ b, s.Owns worker b ∧ a.job = b.job ∧ a.token = b.token) ∨
      ∃ jobId now maxActiveJobs, ev = .claim worker jobId now maxActiveJobs a.token ∧
        s.db.claim jobId now maxActiveJobs (some a.token) = some (a.job, t.db) := by
  rcases step_attempts h howns.attempt with ⟨b, hb, hcont⟩ | ⟨jobId, now, maxActiveJobs, hev, hclaim, _⟩
  · refine .inl ⟨b, ⟨hb, ?_⟩, hcont.job, hcont.token⟩
    obtain ⟨k, hk, hrow⟩ := List.any_eq_true.mp howns.fenced
    simp only [Bool.and_eq_true, decide_eq_true_eq, hcont.job, hcont.token] at hrow
    have hback : ∃ j ∈ s.db.jobs, j.id = k.id ∧ j.state = .inProgress ∧ j.ownershipToken = k.ownershipToken := by
      cases hclaim : ev.isClaim with
      | false => exact step_busy hids hclaim h hk hrow.1.2
      | true =>
        cases ev with
        | claim worker' jobId now maxActiveJobs token =>
          replace h : (if _ then _ else _) = some t := h
          split at h
          · obtain ⟨⟨_, db⟩, hr, rfl⟩ := Option.map_eq_some_iff.mp h
            obtain ⟨row, _, _, _, _, rfl⟩ := claim_row hr
            obtain ⟨j, hj, rfl⟩ := List.mem_map.mp hk
            refine ⟨j, hj, ?_⟩
            split at hrow
            · -- the token of the claim is not the one of an attempt
              have htoken : token = b.token := Option.some.inj hrow.2
              rw [htoken] at hfresh
              exact (hfresh worker b hb worker' jobId now maxActiveJobs rfl).elim
            · next hsel =>
              rw [if_neg hsel]
              exact ⟨rfl, hrow.1.2, rfl⟩
          · cases h
        | _ => cases hclaim
    obtain ⟨j, hj, hid, hs, htoken⟩ := hback
    exact List.any_eq_true.mpr ⟨j, hj, by simp [hid, hrow.1.1, hs, htoken, hrow.2]⟩
  · exact .inr ⟨jobId, now, maxActiveJobs, hev, hclaim⟩

end Steady

/-! ## Children -/

section Children
variable {T : Text} {w : WorkerSettings}

/-- The key of a normalization belongs to a normalization. -/
theorem reach_normalizationKey {s : World} (h : Reach (workers T w) (fun _ ev => ev.LeavesNormalization T) s) :
    ∀ j ∈ s.db.jobs, j.dedupKey.kind = .normalizePayload → j.kind = .normalizePayload := by
  refine Reach.invariant (I := fun s => ∀ j ∈ s.db.jobs, j.dedupKey.kind = .normalizePayload →
    j.kind = .normalizePayload) (fun s hs => by rw [hs.1]; simp) (fun s ev t hr hI hev hstep => ?_) h
  intro j' hj' hkey
  rcases (step_writes (reach_sound hr) hstep).back j' hj' with ⟨j, hj, hsame, _⟩ | ⟨db₁, e, id, owner, hasked, hsame⟩
  · rw [hsame.kind]
    exact hI j hj (by rw [← hsame.dedupKey]; exact hkey)
  · rw [hsame.dedupKey] at hkey
    replace hkey : (e.key T).kind = .normalizePayload := hkey
    rw [hsame.kind]
    show e.kind = .normalizePayload
    cases ev with
    | createOpponentCrawl =>
      cases hasked
      cases hkey
    | enqueue e' =>
      cases hasked
      exact (hev.2 hkey).elim
    | capture =>
      obtain ⟨a, _, rfl⟩ := hasked
      rfl
    | expansion =>
      obtain ⟨_, _, _, _, _, _, rfl⟩ := hasked
      cases hkey
    | expand =>
      obtain ⟨_, _, _, _, _, _, _, _, _, hfor⟩ := hasked
      cases hfor <;> cases hkey
    | _ => cases hasked

theorem normalizationKey_inj {parent parent' : Job} {raw raw' : Nat} {log log' : Option Nat} {parser parser' : String}
    (h : normalizationKey T parent raw log parser = normalizationKey T parent' raw' log' parser') :
    parent'.id = parent.id ∧ raw' = raw := by
  simp only [normalizationKey, makeDedupKey, normalizeTarget, Target.map, DedupKey.mk.injEq, List.cons.injEq,
    Prod.mk.injEq, Value.int.injEq, Target.ref.injEq, Int.natCast_inj] at h
  exact ⟨h.2.2.2.1.2.1.2.symm, h.2.2.1.symm⟩

/-- The child of an occurrence is in the table behind its capture. -/
theorem capture_enqueued {s t : World} {worker raw : Nat} {log : Option Nat} {maxGames : Option Int}
    {parserVersion : String} {now : Int} {a : Attempt}
    (hreach : Reach (workers T w) (fun _ ev => ev.LeavesNormalization T) s) (howns : s.Owns worker a)
    (h : s.step T w (.capture worker raw log maxGames parserVersion now) = some t) :
    ∃ c ∈ t.db.jobs, c.Normalizes T a.job raw log parserVersion := by
  obtain ⟨b, db, howns', hr, rfl⟩ := World.fencedBy_some h
  cases Option.some.inj (howns.attempt.symm.trans howns'.attempt)
  obtain ⟨_, hr⟩ := map_snd_ok hr
  rcases enqueueJob_cases hr with ⟨rfl, j, hj, hkey, _⟩ | ⟨_, owner, _, rfl⟩
  · replace hkey : j.dedupKey = normalizationKey T a.job raw log parserVersion := hkey
    have hkind := reach_normalizationKey hreach j hj (by rw [hkey]; rfl)
    obtain ⟨parent, _, raw', log', parser', hnorm⟩ := reach_normalizes hreach j hj hkind
    obtain ⟨hid, hraw⟩ := normalizationKey_inj (hkey.symm.trans hnorm.key)
    exact ⟨j, hj, hkind, by rw [hnorm.child, hid], by rw [hnorm.target, hraw], hkey⟩
  · exact ⟨_, List.mem_append_right _ List.mem_cons_self, rfl, rfl, rfl, rfl⟩

/-- The capture of an occurrence that has its child changes nothing. -/
theorem capture_again {s t : World} {worker raw : Nat} {log : Option Nat} {maxGames : Option Int}
    {parserVersion : String} {now : Int} {a : Attempt} {c : Job} (howns : s.Owns worker a) (hc : c ∈ s.db.jobs)
    (hnorm : c.Normalizes T a.job raw log parserVersion)
    (h : s.step T w (.capture worker raw log maxGames parserVersion now) = some t) : t = s := by
  obtain ⟨b, db, howns', hr, rfl⟩ := World.fencedBy_some h
  cases Option.some.inj (howns.attempt.symm.trans howns'.attempt)
  obtain ⟨_, hr⟩ := map_snd_ok hr
  rcases enqueueJob_cases hr with ⟨rfl, _⟩ | ⟨hnone, _⟩
  · rfl
  · have hmiss := List.find?_eq_none.mp hnone c hc
    simp only [Bool.true_or, Bool.and_true, decide_eq_true_eq] at hmiss
    exact (hmiss hnorm.key).elim

end Children
end ChessCrawl.Jobs
