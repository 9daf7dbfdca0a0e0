import ChessCrawl.Collection.Room
import ChessCrawl.Collection.Termination

/-! When a job raises that a timestamp boundary exceeds its budget. The next limit is `page_size` and the ties of the oldest
millisecond together, so also a boundary without ties may exceed the budget; the error comes exactly when the numbers of
games at the milliseconds of a gap leave no room for one of them. -/
namespace ChessCrawl.Collection
open ChessCrawl.Lib
set_option autoImplicit false

variable {env : Env} {P : Finset ProviderGame} {job : Nat} {x₀ : Exec} {since : Option Int} {upto : Int} {params : Params}
  {s t : State}

/-- A job whose budget is enough for what it has ahead, or that has ended. -/
def Paid (P : Finset ProviderGame) (env : Env) (job : Nat) (x₀ : Exec) (since : Option Int) (upto : Int) (s : State) : Prop :=
  (Solitary (Shows P) env job x₀ since upto s ∧ s.db.affords P job x₀ since upto (s.calls job)) ∨
    (Completed job s ∧ s.calls job = none)

theorem Paid.not_overflows (h : Paid P env job x₀ since upto s) : ¬ Overflows job s := by
  rintro ⟨x, c, k, raw, done, p, ts, oldest, hcall, hp, hts, hd, hlast, hmore⟩
  rcases h with ⟨hsolo, hfits⟩ | ⟨_, hnone⟩
  · have htrack := hsolo.track
    rw [hcall] at htrack hfits
    have hnext := ((pageFits_full hp hts hd hlast).mp hfits).1
    rw [htrack.1.page, htrack.1.most] at hmore
    omega
  · rw [hnone] at hcall
    cases hcall

/-- A finished job only finds that it is done. -/
theorem completed_step (hdone : Completed job s) (hnone : s.calls job = none) (h : Solo P env job params s t) :
    Completed job t ∧ t.calls job = none := by
  obtain ⟨c, hc, hd⟩ := hdone
  cases h with
  | enter ms ht =>
    obtain ⟨next, hnext, rfl⟩ := Option.map_eq_some_iff.mp ht
    refine ⟨⟨c, hc, hd⟩, ?_⟩
    rw [show State.calls _ job = next from Function.update_self _ _ _]
    cases next with
    | none => rfl
    | some call =>
      obtain ⟨x', _, _, ⟨_, hfresh⟩ | ⟨c', hc', _, hopen, _⟩⟩ := enter_begun hnext
      · rw [show Db.checkpoints _ job = some c from hc] at hfresh
        cases hfresh
      · rw [show Db.checkpoints _ job = some c from hc] at hc'
        cases hc'
        rw [hd] at hopen
        cases hopen
  | advance ms i hstop hserved ht =>
    obtain ⟨call, hcall, _⟩ := Option.bind_eq_some_iff.mp ht
    rw [show State.calls _ job = none from hnone] at hcall
    cases hcall

theorem Paid.step (hS : Steady env P (Shows P)) (hb : Begun env job params x₀) (h : Paid P env job x₀ since upto s)
    (hstep : Solo P env job params s t) : Paid P env job x₀ since upto t := by
  have hnot := h.not_overflows
  rcases h with ⟨hsolo, hfits⟩ | ⟨hdone, hnone⟩
  · obtain ⟨hreach, ⟨hnext, hdone, _⟩ | ⟨hsame, hlogs, htrack, _⟩⟩ := (solo_progress hS hb hsolo hnot).2 t hstep
    · exact .inr ⟨hdone, hnext⟩
    · exact .inl ⟨⟨hreach, hlogs, htrack⟩, (hsame fun _ _ h => h.1).mpr hfits⟩
  · exact .inr (completed_step hdone hnone hstep)

theorem paid_completes (hS : Steady env P (Shows P)) (hb : Begun env job params x₀) (h : Paid P env job x₀ since upto s) :
    Inevitable (Solo P env job params) (Completed job) s := by
  refine Inevitable.of_counters (Paid P env job x₀ since upto) (fun s => s.db.left job x₀ (s.calls job))
    (fun s hpaid hnot => ?_) h
  obtain ⟨hsolo, _⟩ := hpaid.resolve_right fun hend => hnot hend.1
  obtain ⟨hstep, hnext⟩ := solo_progress hS hb hsolo hpaid.not_overflows
  refine ⟨hstep, fun t ht => ⟨hpaid.step hS hb ht, ?_⟩⟩
  obtain ⟨_, ⟨_, hdone, _⟩ | ⟨_, _, _, hless⟩⟩ := hnext t ht
  · exact .inl hdone
  · exact .inr hless

/-- A job that never raises the error had the budget for it. -/
theorem affords_of_never (hS : Steady env P (Shows P)) (hb : Begun env job params x₀)
    (h : Solitary (Shows P) env job x₀ since upto s)
    (hnever : ∀ t, Relation.ReflTransGen (Solo P env job params) s t → ¬ Overflows job t) :
    s.db.affords P job x₀ since upto (s.calls job) := by
  have key : ∀ m s, s.db.left job x₀ (s.calls job) = m → Solitary (Shows P) env job x₀ since upto s →
      (∀ t, Relation.ReflTransGen (Solo P env job params) s t → ¬ Overflows job t) →
      s.db.affords P job x₀ since upto (s.calls job) := by
    intro m
    induction m using before_wf.induction with
    | _ m ih =>
      rintro s rfl hsolo hnever
      obtain ⟨⟨t, ht⟩, hnext⟩ := solo_progress hS hb hsolo (hnever s .refl)
      obtain ⟨hreach, ⟨_, _, hfits⟩ | ⟨hsame, hlogs, htrack, hless⟩⟩ := hnext t ht
      · exact hfits
      · exact (hsame fun _ _ h => h.1).mp (ih _ hless t rfl ⟨hreach, hlogs, htrack⟩ fun u hu => hnever u (.head ht hu))
  exact key _ s rfl h hnever

theorem anyProvider_shows (hP : ∀ g ∈ P, 0 ≤ g.createdAt) (jobRun : Nat → Option Nat) (runParams : Nat → Params) :
    Steady (anyProvider jobRun runParams) P (Shows P) := ⟨fun _ _ _ => rfl, fun _ _ h => h, fun _ _ h => h.legal hP⟩

/-- A new job completes without the error, in any archive, exactly when the budget has room for the milliseconds of every
gap of its window. -/
theorem page_budget_suffices_iff (P : Finset ProviderGame) (hP : ∀ g ∈ P, 0 ≤ g.createdAt) (jobRun : Nat → Option Nat)
    (runParams : Nat → Params) (s s₁ : State) (h : Reachable (lichess (anyProvider jobRun runParams)) s) (job : Nat)
    (params : Params) (x : Exec) (henter : step (anyProvider jobRun runParams) s (.enter job params false) = some s₁)
    (hcall : s₁.calls job = some (.creating x)) (since : Option Int) (upto : Int) (ha : Accepted x since upto) :
    (Inevitable (Solo P (anyProvider jobRun runParams) job params) (Completed job) s₁ ∧
      ∀ t, Relation.ReflTransGen (Solo P (anyProvider jobRun runParams) job params) s₁ t → ¬ Overflows job t) ↔
    Budgeted P x since upto s.db := by
  obtain ⟨next, hentered, rfl⟩ := Option.map_eq_some_iff.mp henter
  rw [show State.calls _ job = next from Function.update_self _ _ _] at hcall
  subst hcall
  have hS := anyProvider_shows hP jobRun runParams
  obtain ⟨x', hb, _, ⟨heq, hfresh⟩ | ⟨c, _, _, _, heq⟩⟩ := enter_begun hentered
  · cases heq
    have hsolo := solitary_creating (Q := Shows P) h hentered hfresh ha
    have hstart : Db.affords P job x since upto s.db (Function.update s.calls job (some (.creating x)) job) ↔
        Budgeted P x since upto s.db := by
      rw [Function.update_self]
      exact affordable_iff (ofParams_sized hb.settings) since upto s.db
    constructor
    · rintro ⟨_, hnever⟩
      exact hstart.mp (affords_of_never hS hb hsolo hnever)
    · intro hfits
      have hpaid : Paid P (anyProvider jobRun runParams) job x since upto _ := .inl ⟨hsolo, hstart.mpr hfits⟩
      refine ⟨paid_completes hS hb hpaid, fun t ht => ?_⟩
      have hkeeps : Paid P (anyProvider jobRun runParams) job x since upto t := by
        induction ht with
        | refl => exact hpaid
        | tail _ hlast ih => exact ih.step hS hb hlast
      exact hkeeps.not_overflows
  · cases heq

theorem page_budget_suffices_iff_tied :
    Inevitable (Solo tiedGames (anyProvider (fun _ => none) fun _ => tiedParams) 7 tiedParams) (Completed 7)
      ⟨Db.empty, 10, Function.update (fun _ => none) 7 (some (.creating ⟨tiedParams, 4, 1, 10000, 10, 0⟩))⟩ := by
  have hfew : ∀ t, tied tiedGames t ≤ 3 := fun t => (Finset.card_filter_le _ _).trans (by decide)
  refine ((page_budget_suffices_iff tiedGames (by decide) (fun _ => none) (fun _ => tiedParams)
    ⟨Db.empty, 10, fun _ => none⟩ _ (.start ⟨rfl, fun _ => rfl⟩) 7 tiedParams ⟨tiedParams, 4, 1, 10000, 10, 0⟩ rfl rfl
    none 10 ⟨none, rfl, rfl, rfl, fun _ h => nomatch h⟩).mpr ?_).1
  refine budgeted_of_room ⟨by decide, by decide, by decide⟩ (fun t => ?_) none 10 Db.empty
  have := hfew t
  dsimp only
  omega

/-! ## A boundary without ties -/

def State.overflowing (s : State) (job : Nat) : Bool :=
  match s.calls job with
  | some (.running x _ (.judged k raw _)) =>
    match (s.db.rawPayload raw).bind fun p => (pageTimestamps k p.body).map fun ts => (p, ts) with
    | some (p, ts) => !rangeDone k p.body &&
        ts.getLast?.any fun oldest => decide (x.maxPageSize < (nextPage x.pageSize k ts oldest).2)
    | none => false
  | _ => false

theorem overflows_of_overflowing (h : s.overflowing job = true) : Overflows job s := by
  unfold State.overflowing at h
  split at h
  · next x c k raw done hcall =>
    split at h
    · next p ts hpage =>
      obtain ⟨q, hq, hpage⟩ := Option.bind_eq_some_iff.mp hpage
      obtain ⟨us, hus, heq⟩ := Option.map_eq_some_iff.mp hpage
      cases heq
      rw [Bool.and_eq_true, Bool.not_eq_true', Option.any_eq_true] at h
      obtain ⟨hd, oldest, hlast, hmore⟩ := h
      exact ⟨x, c, k, raw, done, p, ts, oldest, hcall, hq, hus, hd, hlast, of_decide_eq_true hmore⟩
    · cases h
  · cases h

instance (P : Finset ProviderGame) (k : PageKey) (body : List GameObject) : Decidable (Shows P k body) :=
  inferInstanceAs (Decidable (_ ∧ _))

/-- An event of the job by itself. -/
def soloEvent (P : Finset ProviderGame) (job : Nat) (params : Params) (s : State) : Event → Bool
  | .enter j p stop => decide (j = job ∧ p = params) && !stop
  | .advance j i => decide (j = job) && !i.stop &&
      match s.calls job, i.response with
      | some (.running _ _ (.requested (.page k) _)), .ok body => decide (Shows P k body)
      | some (.running _ _ (.requested _ _)), _ => false
      | _, _ => true
  | _ => false

theorem solo_of_event {e : Event} (he : soloEvent P job params s e = true) (hs : step env s e = some t) :
    Solo P env job params s t := by
  have hclock : { s with clock := s.clock + (0 : Nat) } = s := by
    simp
  cases e with
  | enter j p stop =>
    simp only [soloEvent, Bool.and_eq_true, decide_eq_true_eq, Bool.not_eq_true'] at he
    obtain ⟨⟨rfl, rfl⟩, rfl⟩ := he
    refine .enter 0 ?_
    rw [hclock]
    exact hs
  | advance j i =>
    simp only [soloEvent, Bool.and_eq_true, decide_eq_true_eq, Bool.not_eq_true'] at he
    obtain ⟨⟨rfl, hstop⟩, hserved⟩ := he
    refine .advance 0 i hstop (fun x c target requestedAt hcall => ?_) ?_
    · rw [hcall] at hserved
      cases target with
      | page k =>
        cases hresponse : i.response with
        | ok body =>
          rw [hresponse] at hserved
          exact (of_decide_eq_true hserved : Shows P k body)
        | failed status message =>
          rw [hresponse] at hserved
          cases hserved
      | followup ref rows full => cases hserved
    · rw [hclock]
      exact hs
  | tick ms => cases he
  | crash j => cases he
  | child n e => cases he

theorem solo_of_trace {es : List Event} (h : Trace (lichess env) (fun s e => soloEvent P job params s e = true) s es t) :
    Relation.ReflTransGen (Solo P env job params) s t := by
  induction h with
  | nil => exact .refl
  | cons hok hstep _ ih => exact .head (solo_of_event hok hstep) ih

/-- Three games of three milliseconds. -/
def sparseGames : Finset ProviderGame := {⟨1, 7⟩, ⟨2, 5⟩, ⟨3, 3⟩}

def sparseParams : Params := ⟨.full, none, none, none, none, none, some 2, some 2, none⟩

def sparseTrace : List Event :=
  List.replicate 5 (.advance 7 quiet) ++ (pageTrace 7 [tiedObject 1 7, tiedObject 2 5]).take 6

/-- No two games share a millisecond, and the job still raises that the boundary exceeds its budget of two games. -/
theorem untied_boundary_overflows : (∀ t, tied sparseGames t < 2) ∧
    ∃ t, Relation.ReflTransGen (Solo sparseGames (anyProvider (fun _ => none) fun _ => sparseParams) 7 sparseParams)
      ⟨Db.empty, 10, Function.update (fun _ => none) 7 (some (.creating ⟨sparseParams, 4, 2, 2, 10, 0⟩))⟩ t ∧
      Overflows 7 t := by
  refine ⟨fun t => ?_, ?_⟩
  · refine Nat.lt_succ_of_le (Finset.card_le_one.mpr fun a ha b hb => ?_)
    obtain ⟨ha, hat⟩ := Finset.mem_filter.mp ha
    obtain ⟨hb, hbt⟩ := Finset.mem_filter.mp hb
    have hdistinct : ∀ a ∈ sparseGames, ∀ b ∈ sparseGames, a.createdAt = b.createdAt → a = b := by decide
    exact hdistinct a ha b hb (hat.trans hbt.symm)
  · have hrun : (exec (lichess (anyProvider (fun _ => none) fun _ => sparseParams))
        (fun s e => soloEvent sparseGames 7 sparseParams s e = true)
        ⟨Db.empty, 10, Function.update (fun _ => none) 7 (some (.creating ⟨sparseParams, 4, 2, 2, 10, 0⟩))⟩
        sparseTrace).map (fun s => s.overflowing 7) = some true := by
      decide +kernel
    obtain ⟨t, ht, hover⟩ := Option.map_eq_some_iff.mp hrun
    exact ⟨t, solo_of_trace (Trace.of_exec _ ht), overflows_of_overflowing hover⟩

end ChessCrawl.Collection
