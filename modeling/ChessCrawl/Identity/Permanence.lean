import ChessCrawl.Identity.Archive
import ChessCrawl.Lib.Run

/-! Stable identities are permanent: an account that carries a stable id keeps it and its row, and only
placeholders are merged away. -/
namespace ChessCrawl.Identity
open ChessCrawl.Lib
set_option autoImplicit false

/-! ## What a merge does to the accounts -/

/-- The columns that say which account a row is. -/
def ProviderUser.Same (u v : ProviderUser) : Prop :=
  u.id = v.id ∧ u.provider = v.provider ∧ u.providerUserId = v.providerUserId ∧
    u.usernameNormalized = v.usernameNormalized

/-- Only the dates of the survivor change. -/
def Touched (survivor : Nat) (db db' : Archive) : Prop :=
  db'.userSeq = db.userSeq ∧ ∃ g : ProviderUser → ProviderUser, (∀ u, (g u).Same u) ∧
    (∀ u, u.id ≠ survivor → g u = u) ∧ db'.users = db.users.map g

section
variable {normalize : String → String} {survivor : Nat} {db db' db'' : Archive}

theorem Touched.of_users (hu : db'.users = db.users) (hs : db'.userSeq = db.userSeq) : Touched survivor db db' :=
  ⟨hs, fun u => u, fun _ => ⟨rfl, rfl, rfl, rfl⟩, fun _ _ => rfl, by simp [hu]⟩

theorem Touched.trans (h : Touched survivor db db') (h' : Touched survivor db' db'') : Touched survivor db db'' := by
  obtain ⟨hseq, g, hg, hother, hu⟩ := h
  obtain ⟨hseq', g', hg', hother', hu'⟩ := h'
  refine ⟨hseq'.trans hseq, g' ∘ g, fun u => ?_, fun u hne => ?_, by rw [hu', hu, List.map_map]⟩
  · obtain ⟨h1, h2, h3, h4⟩ := hg' (g u)
    obtain ⟨k1, k2, k3, k4⟩ := hg u
    exact ⟨h1.trans k1, h2.trans k2, h3.trans k3, h4.trans k4⟩
  · rw [Function.comp_apply, hother u hne, hother' u hne]

theorem Touched.foldl {β : Type} {f : Archive → β → Archive} (hf : ∀ db b, Touched survivor db (f db b)) (bs : List β)
    (db : Archive) : Touched survivor db (bs.foldl f db) := by
  induction bs generalizing db with
  | nil => exact Touched.of_users rfl rfl
  | cons b bs ih => exact (hf db b).trans (ih (f db b))

theorem updateUser_touched (db : Archive) (survivor : Nat) (first last : Option Int) :
    Touched survivor db (db.updateUser survivor fun u => u.seen first last) := by
  refine ⟨rfl, fun u => if u.id = survivor then u.seen first last else u, fun u => ?_, fun u hne => if_neg hne, rfl⟩
  dsimp only
  split <;> exact ⟨rfl, rfl, rfl, rfl⟩

theorem mergeAlias_touched (survivor : Nat) (db : Archive) (a : Alias) :
    Touched survivor db (db.mergeAlias normalize survivor a) := by
  have hrecord : ∀ (db : Archive) (t : Int),
      Touched survivor db (db.recordAlias normalize survivor a.displayUsername t a.rawPayloadId) := by
    intro db t
    exact (Touched.of_users rfl rfl).trans (updateUser_touched _ _ _ _)
  exact (hrecord db _).trans (hrecord _ _)

theorem mergeResourceSnapshot_touched (survivor : Nat) (db : Archive) (s : ResourceSnapshot) :
    Touched survivor db (db.mergeResourceSnapshot survivor s) := by
  unfold Archive.mergeResourceSnapshot
  split <;> exact Touched.of_users rfl rfl

theorem mergePlayerEvidence_touched (db : Archive) (survivor replaced : Nat) :
    Touched survivor db (db.mergePlayerEvidence normalize survivor replaced) := by
  unfold Archive.mergePlayerEvidence
  refine Touched.trans ?_ (Touched.foldl (mergeResourceSnapshot_touched survivor) _ _)
  refine Touched.trans ?_ (Touched.of_users rfl rfl)
  refine Touched.trans ?_ (Touched.of_users rfl rfl)
  refine Touched.trans ?_ (Touched.of_users rfl rfl)
  refine Touched.trans ?_ (Touched.foldl (mergeAlias_touched survivor) _ _)
  exact Touched.of_users rfl rfl

theorem mergeSnapshot_touched (survivor : Nat) (db : Archive) (s : UserSnapshot) :
    Touched survivor db (db.mergeSnapshot survivor s) := by
  unfold Archive.mergeSnapshot
  split
  · exact Touched.of_users rfl rfl
  · next matching _ =>
    have hfacts : Touched survivor db (db.keepLaterFacts matching s) := by
      unfold Archive.keepLaterFacts
      split <;> exact Touched.of_users rfl rfl
    exact hfacts.trans (Touched.of_users rfl rfl)

theorem mergeUserEdges_users (db : Archive) (survivor replaced : Nat) :
    (db.mergeUserEdges survivor replaced).1.users = db.users ∧
      (db.mergeUserEdges survivor replaced).1.userSeq = db.userSeq := by
  have hedge : ∀ (state : Archive × List Nat) (e : DiscoveryEdge),
      (Archive.mergeEdge survivor replaced state e).1.users = state.1.users ∧
        (Archive.mergeEdge survivor replaced state e).1.userSeq = state.1.userSeq := by
    intro state e
    unfold Archive.mergeEdge
    dsimp only
    split <;> exact ⟨rfl, rfl⟩
  have hfold : ∀ (es : List DiscoveryEdge) (state : Archive × List Nat),
      (es.foldl (Archive.mergeEdge survivor replaced) state).1.users = state.1.users ∧
        (es.foldl (Archive.mergeEdge survivor replaced) state).1.userSeq = state.1.userSeq := by
    intro es
    induction es with
    | nil => exact fun state => ⟨rfl, rfl⟩
    | cons e es ih =>
      intro state
      obtain ⟨hu, hs⟩ := ih (Archive.mergeEdge survivor replaced state e)
      exact ⟨hu.trans (hedge state e).1, hs.trans (hedge state e).2⟩
  exact hfold _ (db, [])

/-- A merge removes the placeholder's row and touches the others' dates at most. -/
theorem mergeUserPlaceholder_users (normalize : String → String) (db : Archive) (survivor replaced : Nat) (now : Int) :
    (db.mergeUserPlaceholder normalize survivor replaced now).userSeq = db.userSeq ∧
      ∃ g : ProviderUser → ProviderUser, (∀ u, (g u).Same u) ∧ (∀ u, u.id ≠ survivor → g u = u) ∧
        (db.mergeUserPlaceholder normalize survivor replaced now).users =
          (db.users.map g).filter fun u => u.id ≠ replaced := by
  unfold Archive.mergeUserPlaceholder
  dsimp only
  have hruns : ∀ (runs : List Nat) (db : Archive), (runs.foldl (Archive.refreshCounters now) db).users = db.users ∧
      (runs.foldl (Archive.refreshCounters now) db).userSeq = db.userSeq := by
    intro runs
    induction runs with
    | nil => exact fun db => ⟨rfl, rfl⟩
    | cons r runs ih => exact fun db => ih (Archive.refreshCounters now db r)
  rw [(hruns _ _).1, (hruns _ _).2]
  generalize hevidence : Archive.mergePlayerEvidence normalize
    { db with participants := db.participants.map fun p =>
        if p.providerUserId = some replaced then { p with providerUserId := some survivor } else p }
    survivor replaced = db₁
  have h₁ : Touched survivor db db₁ := by
    rw [← hevidence]
    exact (Touched.of_users rfl rfl).trans (mergePlayerEvidence_touched _ _ _)
  generalize hsnap : (db₁.snapshots.filter fun s => s.providerUserId = replaced).foldl
    (Archive.mergeSnapshot survivor) db₁ = db₂
  have h₂ : Touched survivor db db₂ := by
    rw [← hsnap]
    exact h₁.trans (Touched.foldl (mergeSnapshot_touched survivor) _ _)
  have h₃ : Touched survivor db (db₂.mergeSourceRecords .user survivor replaced) := h₂.trans (Touched.of_users rfl rfl)
  generalize db₂.mergeSourceRecords .user survivor replaced = db₃ at h₃ ⊢
  have hedges := mergeUserEdges_users db₃ survivor replaced
  generalize (db₃.mergeUserEdges survivor replaced) = out at hedges ⊢
  have h₄ : Touched survivor db out.1 := h₃.trans (Touched.of_users hedges.1 hedges.2)
  obtain ⟨hseq, g, hg, hother, hu⟩ := h₄.trans (updateUser_touched out.1 survivor
    ((out.1.users.find? fun u => u.id = replaced).bind (·.firstSeenAt))
    ((out.1.users.find? fun u => u.id = replaced).bind (·.updatedAt)))
  exact ⟨hseq, g, hg, hother, by rw [hu]⟩

end

/-! ## The system -/

inductive AccountEvent
  | observe (o : Observed) (now : Int)
  | resolveCaptureAccount (provider username : String) (observedAt : Int) (isPublic : Bool) (now : Int)
  /-- any change of the other tables -/
  | evidence (db : Archive)

def Archive.accountStep (normalize : String → String) (db : Archive) : AccountEvent → Archive
  | .observe o now => (db.upsertProviderUserLocked normalize o now).2
  | .resolveCaptureAccount provider username observedAt isPublic now =>
    (db.resolveCaptureAccount normalize provider username observedAt isPublic now).2
  | .evidence other => { other with users := db.users, userSeq := db.userSeq }

def accounts (normalize : String → String) : System Archive AccountEvent where
  init db := db.users = [] ∧ db.userSeq = 0
  step db e := some (db.accountStep normalize e)

/-! ## The invariant -/

/-- The unique indexes of `provider_users`, and its sequence. -/
structure AccountsOk (db : Archive) : Prop where
  ids : ∀ u ∈ db.users, ∀ v ∈ db.users, u.id = v.id → u = v
  seq : ∀ u ∈ db.users, u.id ≤ db.userSeq
  names : ∀ u ∈ db.users, ∀ v ∈ db.users, u.provider = v.provider →
    u.usernameNormalized = v.usernameNormalized → u = v
  stable : ∀ u ∈ db.users, ∀ v ∈ db.users, u.provider = v.provider → u.providerUserId = v.providerUserId →
    u.providerUserId.isSome → u = v

/-- What a step does to the rows there were: a stable id stays with its row, and a row that goes had none. -/
structure Permanent (db db' : Archive) : Prop where
  stable : ∀ u ∈ db.users, ∀ id, u.providerUserId = some id →
    ∃ u' ∈ db'.users, u'.id = u.id ∧ u'.provider = u.provider ∧ u'.providerUserId = some id
  deleted : ∀ u ∈ db.users, (∀ u' ∈ db'.users, u'.id ≠ u.id) → u.providerUserId = none

section
variable {normalize : String → String} {db db' db'' : Archive}

theorem Permanent.refl (db : Archive) : Permanent db db :=
  ⟨fun u hu _ hid => ⟨u, hu, rfl, rfl, hid⟩, fun u hu hgone => absurd rfl (hgone u hu)⟩

theorem Permanent.of_stable
    (h : ∀ u ∈ db.users, ∀ id, u.providerUserId = some id →
      ∃ u' ∈ db'.users, u'.id = u.id ∧ u'.provider = u.provider ∧ u'.providerUserId = some id) : Permanent db db' := by
  refine ⟨h, fun u hu hgone => ?_⟩
  cases hid : u.providerUserId with
  | none => rfl
  | some id =>
    obtain ⟨u', hu', heq, _⟩ := h u hu id hid
    exact absurd heq (hgone u' hu')

theorem Permanent.trans (h : Permanent db db') (h' : Permanent db' db'') : Permanent db db'' := by
  refine Permanent.of_stable fun u hu id hid => ?_
  obtain ⟨u', hu', heq, hprov, hid'⟩ := h.stable u hu id hid
  obtain ⟨u'', hu'', heq', hprov', hid''⟩ := h'.stable u' hu' id hid'
  exact ⟨u'', hu'', heq'.trans heq, hprov'.trans hprov, hid''⟩

theorem insertUser_ok (h : AccountsOk db) {w : ProviderUser}
    (hname : ∀ u ∈ db.users, u.provider = w.provider → u.usernameNormalized ≠ w.usernameNormalized)
    (hstable : ∀ u ∈ db.users, u.provider = w.provider → w.providerUserId.isSome → u.providerUserId ≠ w.providerUserId) :
    AccountsOk (db.insertUser w) ∧ Permanent db (db.insertUser w) := by
  have hmem : ∀ u, u ∈ (db.insertUser w).users ↔ u ∈ db.users ∨ u = { w with id := db.userSeq + 1 } := by
    intro u
    simp [Archive.insertUser]
  refine ⟨⟨fun u hu v hv heq => ?_, fun u hu => ?_, fun u hu v hv hp hn => ?_, fun u hu v hv hp hs hsome => ?_⟩,
    Permanent.of_stable fun u hu _ hid => ⟨u, (hmem u).mpr (.inl hu), rfl, rfl, hid⟩⟩
  · rcases (hmem u).mp hu with hu | rfl <;> rcases (hmem v).mp hv with hv | rfl
    · exact h.ids u hu v hv heq
    · have := h.seq u hu
      simp only at heq
      omega
    · have := h.seq v hv
      simp only at heq
      omega
    · rfl
  · change u.id ≤ db.userSeq + 1
    rcases (hmem u).mp hu with hu | rfl
    · exact Nat.le_succ_of_le (h.seq u hu)
    · exact Nat.le_refl _
  · rcases (hmem u).mp hu with hu | rfl <;> rcases (hmem v).mp hv with hv | rfl
    · exact h.names u hu v hv hp hn
    · exact absurd hn (hname u hu hp)
    · exact absurd hn.symm (hname v hv hp.symm)
    · rfl
  · rcases (hmem u).mp hu with hu | rfl <;> rcases (hmem v).mp hv with hv | rfl
    · exact h.stable u hu v hv hp hs hsome
    · exact absurd hs (hstable u hu hp (hs ▸ hsome))
    · exact absurd hs.symm (hstable v hv hp.symm hsome)
    · rfl

/-- An update that gives one row a name and a stable id that no other row of its provider has. -/
theorem updateUser_ok (h : AccountsOk db) {id : Nat} {f : ProviderUser → ProviderUser}
    (hid : ∀ u, (f u).id = u.id) (hprov : ∀ u, (f u).provider = u.provider)
    (hkeeps : ∀ u ∈ db.users, u.id = id → u.providerUserId.isSome → (f u).providerUserId = u.providerUserId)
    (hname : ∀ u ∈ db.users, u.id = id → ∀ v ∈ db.users, v.id ≠ id → v.provider = u.provider →
      v.usernameNormalized ≠ (f u).usernameNormalized)
    (hstable : ∀ u ∈ db.users, u.id = id → ∀ v ∈ db.users, v.id ≠ id → v.provider = u.provider →
      (f u).providerUserId.isSome → v.providerUserId ≠ (f u).providerUserId) :
    AccountsOk (db.updateUser id f) ∧ Permanent db (db.updateUser id f) := by
  have hmem : ∀ w, w ∈ (db.updateUser id f).users ↔
      (∃ u ∈ db.users, u.id = id ∧ w = f u) ∨ w ∈ db.users ∧ w.id ≠ id := by
    intro w
    simp only [Archive.updateUser, List.mem_map]
    constructor
    · rintro ⟨u, hu, rfl⟩
      split
      · next heq => exact .inl ⟨u, hu, heq, rfl⟩
      · next hne => exact .inr ⟨hu, hne⟩
    · rintro (⟨u, hu, heq, rfl⟩ | ⟨hw, hne⟩)
      · exact ⟨u, hu, if_pos heq⟩
      · exact ⟨w, hw, if_neg hne⟩
  refine ⟨⟨fun w hw x hx heq => ?_, fun w hw => ?_, fun w hw x hx hp hn => ?_, fun w hw x hx hp hs hsome => ?_⟩,
    Permanent.of_stable fun u hu i hi => ?_⟩
  · rcases (hmem w).mp hw with ⟨u, hu, hui, rfl⟩ | ⟨hw, hwi⟩ <;>
      rcases (hmem x).mp hx with ⟨v, hv, hvi, rfl⟩ | ⟨hx, hxi⟩
    · rw [h.ids u hu v hv (hui.trans hvi.symm)]
    · exact absurd (heq.symm.trans ((hid u).trans hui)) hxi
    · exact absurd (heq.trans ((hid v).trans hvi)) hwi
    · exact h.ids w hw x hx heq
  · change w.id ≤ db.userSeq
    rcases (hmem w).mp hw with ⟨u, hu, _, rfl⟩ | ⟨hw, _⟩
    · rw [hid]
      exact h.seq u hu
    · exact h.seq w hw
  · rcases (hmem w).mp hw with ⟨u, hu, hui, rfl⟩ | ⟨hw, hwi⟩ <;>
      rcases (hmem x).mp hx with ⟨v, hv, hvi, rfl⟩ | ⟨hx, hxi⟩
    · rw [h.ids u hu v hv (hui.trans hvi.symm)]
    · rw [hprov] at hp
      exact absurd hn.symm (hname u hu hui x hx hxi hp.symm)
    · rw [hprov] at hp
      exact absurd hn (hname v hv hvi w hw hwi hp)
    · exact h.names w hw x hx hp hn
  · rcases (hmem w).mp hw with ⟨u, hu, hui, rfl⟩ | ⟨hw, hwi⟩ <;>
      rcases (hmem x).mp hx with ⟨v, hv, hvi, rfl⟩ | ⟨hx, hxi⟩
    · rw [h.ids u hu v hv (hui.trans hvi.symm)]
    · rw [hprov] at hp
      exact absurd hs.symm (hstable u hu hui x hx hxi hp.symm hsome)
    · rw [hprov] at hp
      exact absurd hs (hstable v hv hvi w hw hwi hp (hs ▸ hsome))
    · exact h.stable w hw x hx hp hs hsome
  · by_cases hui : u.id = id
    · refine ⟨f u, (hmem _).mpr (.inl ⟨u, hu, hui, rfl⟩), hid u, hprov u, ?_⟩
      rw [hkeeps u hu hui (by rw [hi]; rfl), hi]
    · exact ⟨u, (hmem u).mpr (.inr ⟨hu, hui⟩), rfl, rfl, hi⟩

/-- A merge of a placeholder. -/
theorem mergeUserPlaceholder_ok (normalize : String → String) (h : AccountsOk db) {replaced : ProviderUser} (hr : replaced ∈ db.users)
    (hnone : replaced.providerUserId = none) (survivor : Nat) (now : Int) :
    AccountsOk (db.mergeUserPlaceholder normalize survivor replaced.id now) ∧
      Permanent db (db.mergeUserPlaceholder normalize survivor replaced.id now) ∧
      ∀ w ∈ (db.mergeUserPlaceholder normalize survivor replaced.id now).users,
        w.id ≠ replaced.id ∧ ∃ u ∈ db.users, w.Same u := by
  obtain ⟨hseq, g, hg, _, husers⟩ := mergeUserPlaceholder_users normalize db survivor replaced.id now
  generalize db.mergeUserPlaceholder normalize survivor replaced.id now = db' at hseq husers
  have hmem : ∀ w ∈ db'.users, w.id ≠ replaced.id ∧ ∃ u ∈ db.users, w = g u := by
    intro w hw
    rw [husers] at hw
    obtain ⟨hw, hne⟩ := List.mem_filter.mp hw
    obtain ⟨u, hu, rfl⟩ := List.mem_map.mp hw
    exact ⟨of_decide_eq_true hne, u, hu, rfl⟩
  refine ⟨⟨fun w hw x hx heq => ?_, fun w hw => ?_, fun w hw x hx hp hn => ?_, fun w hw x hx hp hs hsome => ?_⟩,
    Permanent.of_stable fun u hu i hi => ?_, fun w hw => ?_⟩
  · obtain ⟨_, u, hu, rfl⟩ := hmem w hw
    obtain ⟨_, v, hv, rfl⟩ := hmem x hx
    rw [(hg u).1, (hg v).1] at heq
    rw [h.ids u hu v hv heq]
  · obtain ⟨_, u, hu, rfl⟩ := hmem w hw
    rw [(hg u).1, hseq]
    exact h.seq u hu
  · obtain ⟨_, u, hu, rfl⟩ := hmem w hw
    obtain ⟨_, v, hv, rfl⟩ := hmem x hx
    rw [(hg u).2.1, (hg v).2.1] at hp
    rw [(hg u).2.2.2, (hg v).2.2.2] at hn
    rw [h.names u hu v hv hp hn]
  · obtain ⟨_, u, hu, rfl⟩ := hmem w hw
    obtain ⟨_, v, hv, rfl⟩ := hmem x hx
    rw [(hg u).2.1, (hg v).2.1] at hp
    rw [(hg u).2.2.1] at hs hsome
    rw [(hg v).2.2.1] at hs
    rw [h.stable u hu v hv hp hs hsome]
  · have hne : u.id ≠ replaced.id := by
      intro heq
      rw [h.ids u hu replaced hr heq, hnone] at hi
      cases hi
    refine ⟨g u, ?_, (hg u).1, (hg u).2.1, (hg u).2.2.1.trans hi⟩
    rw [husers]
    refine List.mem_filter.mpr ⟨List.mem_map_of_mem hu, ?_⟩
    rw [(hg u).1]
    exact decide_eq_true hne
  · obtain ⟨hne, u, hu, rfl⟩ := hmem w hw
    exact ⟨hne, u, hu, hg u⟩

theorem named_spec {o : Observed} {v : ProviderUser} (h : db.named normalize o = some v) :
    v ∈ db.users ∧ v.provider = o.provider ∧ v.usernameNormalized = normalize o.username := by
  have hfound := List.find?_some h
  simp only [decide_eq_true_eq] at hfound
  exact ⟨List.mem_of_find?_eq_some h, hfound⟩

theorem named_none {o : Observed} (h : db.named normalize o = none) :
    ∀ v ∈ db.users, v.provider = o.provider → v.usernameNormalized ≠ normalize o.username := by
  intro v hv hp hn
  have := List.find?_eq_none.mp h v hv
  simp [hp, hn] at this

theorem identified_spec {o : Observed} {v : ProviderUser} (h : db.identified o = some v) :
    v ∈ db.users ∧ v.provider = o.provider ∧ o.providerUserId.isSome ∧ v.providerUserId = o.providerUserId := by
  obtain ⟨id, hid, hfind⟩ := Option.bind_eq_some_iff.mp h
  have hfound := List.find?_some hfind
  simp only [decide_eq_true_eq] at hfound
  exact ⟨List.mem_of_find?_eq_some hfind, hfound.1, by rw [hid]; rfl, hfound.2.trans hid.symm⟩

theorem identified_none {o : Observed} (h : db.identified o = none) :
    ∀ v ∈ db.users, v.provider = o.provider → o.providerUserId.isSome → v.providerUserId ≠ o.providerUserId := by
  intro v hv hp hsome heq
  obtain ⟨id, hid⟩ := Option.isSome_iff_exists.mp hsome
  rw [Archive.identified, hid] at h
  have := List.find?_eq_none.mp h v hv
  simp [hp, heq, hid] at this

/-- Observing an account whose name and stable id no other row of the provider has. -/
theorem observe_ok (h : AccountsOk db) {o : Observed} {id : Nat}
    (hown : ∀ u ∈ db.users, u.id = id → u.provider = o.provider ∧
      (u.providerUserId.isSome → o.providerUserId.isSome → u.providerUserId = o.providerUserId))
    (hname : ∀ v ∈ db.users, v.id ≠ id → v.provider = o.provider → v.usernameNormalized ≠ normalize o.username)
    (hstable : ∀ v ∈ db.users, v.id ≠ id → v.provider = o.provider → o.providerUserId.isSome →
      v.providerUserId ≠ o.providerUserId) :
    AccountsOk (db.updateUser id (ProviderUser.observe normalize o)) ∧
      Permanent db (db.updateUser id (ProviderUser.observe normalize o)) := by
  refine updateUser_ok h (fun _ => rfl) (fun _ => rfl) (fun u hu hui hsome => ?_) (fun u hu hui v hv hvi hp => ?_)
    fun u hu hui v hv hvi hp hsome heq => ?_
  · change o.providerUserId.or u.providerUserId = u.providerUserId
    cases hpid : o.providerUserId with
    | none => rfl
    | some i =>
      rw [(hown u hu hui).2 hsome (by rw [hpid]; rfl), hpid]
      rfl
  · exact hname v hv hvi (hp.trans (hown u hu hui).1)
  · change v.providerUserId = o.providerUserId.or u.providerUserId at heq
    change (o.providerUserId.or u.providerUserId).isSome = true at hsome
    cases hpid : o.providerUserId with
    | none =>
      rw [hpid] at heq hsome
      have := h.stable u hu v hv hp.symm heq.symm hsome
      exact hvi (this ▸ hui)
    | some i =>
      rw [hpid] at heq
      refine hstable v hv hvi (hp.trans (hown u hu hui).1) (by rw [hpid]; rfl) ?_
      rw [heq, hpid]
      rfl

/-- What the caller has looked up about the account it found. -/
structure Found (normalize : String → String) (db : Archive) (o : Observed) (existing : ProviderUser) : Prop where
  mem : existing ∈ db.users
  provider : existing.provider = o.provider
  agrees : existing.providerUserId.isSome → o.providerUserId.isSome → existing.providerUserId = o.providerUserId
  stable : ∀ v ∈ db.users, v.id ≠ existing.id → v.provider = o.provider → o.providerUserId.isSome →
    v.providerUserId ≠ o.providerUserId

theorem observeExisting_ok (h : AccountsOk db) {o : Observed} {now : Int} {existing : ProviderUser}
    {identified : Option ProviderUser} (hf : Found normalize db o existing) :
    AccountsOk (db.observeExisting normalize o now existing (db.named normalize o) identified).2 ∧
      Permanent db (db.observeExisting normalize o now existing (db.named normalize o) identified).2 := by
  have hrow : ∀ u ∈ db.users, u.id = existing.id → u = existing := fun u hu hui => h.ids u hu existing hf.mem hui
  have hown : ∀ u ∈ db.users, u.id = existing.id → u.provider = o.provider ∧
      (u.providerUserId.isSome → o.providerUserId.isSome → u.providerUserId = o.providerUserId) := by
    intro u hu hui
    rw [hrow u hu hui]
    exact ⟨hf.provider, hf.agrees⟩
  unfold Archive.observeExisting
  split
  · exact ⟨h, Permanent.refl db⟩
  split
  · exact ⟨h, Permanent.refl db⟩
  dsimp only
  cases hnamed : db.named normalize o with
  | none => exact observe_ok h hown (fun v hv _ hp => named_none hnamed v hv hp) hf.stable
  | some other =>
    obtain ⟨hother, hprov, hname⟩ := named_spec hnamed
    have hunique : ∀ v ∈ db.users, v.provider = o.provider → v.usernameNormalized = normalize o.username → v = other :=
      fun v hv hp hn => h.names v hv other hother (hp.trans hprov.symm) (hn.trans hname.symm)
    dsimp only
    split
    · split
      · exact ⟨h, Permanent.refl db⟩
      · next hplaceholder =>
        split
        · exact ⟨h, Permanent.refl db⟩
        · -- the placeholder that had the name is merged away before the account takes it
          have hnone : other.providerUserId = none := by simpa using hplaceholder
          obtain ⟨hok, hperm, hrows⟩ := mergeUserPlaceholder_ok normalize h hother hnone existing.id now
          generalize db.mergeUserPlaceholder normalize existing.id other.id now = merged at hok hperm hrows
          have hobserved : AccountsOk (merged.updateUser existing.id (ProviderUser.observe normalize o)) ∧
              Permanent merged (merged.updateUser existing.id (ProviderUser.observe normalize o)) := by
            refine observe_ok hok (fun w hw hwi => ?_) (fun w hw hwi hp hn => ?_) fun w hw hwi hp hsome heq => ?_
            · obtain ⟨_, u, hu, hsame⟩ := hrows w hw
              obtain ⟨hp, hagree⟩ := hown u hu (hsame.1 ▸ hwi)
              rw [hsame.2.1, hsame.2.2.1]
              exact ⟨hp, hagree⟩
            · obtain ⟨hne, u, hu, hsame⟩ := hrows w hw
              have := hunique u hu (hsame.2.1 ▸ hp) (hsame.2.2.2 ▸ hn)
              exact hne (hsame.1.trans (congrArg ProviderUser.id this))
            · obtain ⟨_, u, hu, hsame⟩ := hrows w hw
              exact hf.stable u hu (hsame.1 ▸ hwi) (hsame.2.1 ▸ hp) hsome (hsame.2.2.1 ▸ heq)
          exact ⟨hobserved.1, hperm.trans hobserved.2⟩
    · next hsame =>
      refine observe_ok h hown (fun v hv hvi hp hn => hvi ?_) hf.stable
      rw [hunique v hv hp hn]
      exact not_not.mp hsame

theorem upsertProviderUserLocked_ok (h : AccountsOk db) (o : Observed) (now : Int) :
    AccountsOk (db.upsertProviderUserLocked normalize o now).2 ∧
      Permanent db (db.upsertProviderUserLocked normalize o now).2 := by
  unfold Archive.upsertProviderUserLocked
  dsimp only
  split
  · exact ⟨h, Permanent.refl db⟩
  next hagree =>
  cases hid : db.identified o with
  | some existing =>
    obtain ⟨hmem, hprov, hsome, heq⟩ := identified_spec hid
    refine observeExisting_ok h ⟨hmem, hprov, fun _ _ => heq, fun v hv hvi hp hs hv' => hvi ?_⟩
    rw [h.stable v hv existing hmem (hp.trans hprov.symm) (hv'.trans heq.symm) (hv' ▸ hs)]
  | none =>
    cases hnamed : db.named normalize o with
    | some existing =>
      obtain ⟨hmem, hprov, _⟩ := named_spec hnamed
      have hagrees : existing.providerUserId.isSome → o.providerUserId.isSome →
          existing.providerUserId = o.providerUserId := by
        intro hs ho
        simpa [hid, hnamed, hs, ho] using hagree
      have hfound : Found normalize db o existing :=
        ⟨hmem, hprov, hagrees, fun v hv _ hp hs => identified_none hid v hv hp hs⟩
      have hok : AccountsOk (db.observeExisting normalize o now existing (db.named normalize o) none).2 ∧
          Permanent db (db.observeExisting normalize o now existing (db.named normalize o) none).2 :=
        observeExisting_ok h hfound
      rw [hnamed] at hok
      exact hok
    | none =>
      exact insertUser_ok h (fun u hu hp => named_none hnamed u hu hp) fun u hu hp hs => identified_none hid u hu hp hs

theorem accountStep_ok (h : AccountsOk db) (e : AccountEvent) :
    AccountsOk (db.accountStep normalize e) ∧ Permanent db (db.accountStep normalize e) := by
  cases e with
  | observe o now => exact upsertProviderUserLocked_ok h o now
  | resolveCaptureAccount provider username observedAt isPublic now =>
    unfold Archive.accountStep Archive.resolveCaptureAccount
    dsimp only
    split
    · exact ⟨h, Permanent.refl db⟩
    · next hnone =>
      split
      · exact upsertProviderUserLocked_ok h _ now
      · refine insertUser_ok h (fun u hu hp hn => ?_) fun u hu hp hs => nomatch hs
        have := List.find?_eq_none.mp hnone u hu
        simp [hp, hn] at this
  | evidence other => exact ⟨⟨h.ids, h.seq, h.names, h.stable⟩, ⟨(Permanent.refl db).stable, (Permanent.refl db).deleted⟩⟩

theorem accountsOk_of_reachable (h : Reachable (accounts normalize) db) : AccountsOk db := by
  refine Reachable.invariant (I := AccountsOk) ?_ ?_ h
  · rintro db ⟨hu, hs⟩
    exact ⟨by simp [hu], by simp [hu], by simp [hu], by simp [hu]⟩
  · intro db e db' hok hstep
    cases hstep
    exact (accountStep_ok hok e).1

theorem observeExisting_error {o : Observed} {now : Int} {existing : ProviderUser} {named identified : Option ProviderUser}
    {message : String} (h : (db.observeExisting normalize o now existing named identified).1 = .error message) :
    (db.observeExisting normalize o now existing named identified).2 = db := by
  unfold Archive.observeExisting at h ⊢
  split at h
  · cases h
  next hstale =>
  rw [if_neg hstale]
  split at h
  · cases h
  next hearlier =>
  rw [if_neg hearlier]
  dsimp only at h ⊢
  split at h
  · split at h
    · next hne =>
      rw [if_pos hne]
      split at h
      · next hsome => rw [if_pos hsome]
      · split at h <;> cases h
    · cases h
  · cases h

/-- A call that raises has not written anything yet. -/
theorem upsertProviderUserLocked_error {o : Observed} {now : Int} {message : String}
    (h : (db.upsertProviderUserLocked normalize o now).1 = .error message) :
    (db.upsertProviderUserLocked normalize o now).2 = db := by
  unfold Archive.upsertProviderUserLocked at h ⊢
  dsimp only at h ⊢
  split at h
  · next hc => rw [if_pos hc]
  next hc =>
  rw [if_neg hc]
  split at h
  · exact observeExisting_error h
  · cases h

/-- In every state reached by observations of accounts, with anything else happening to the other tables in
between, a provider's name and a provider's stable id each find at most one account. In everything that follows,
a row with a stable id keeps it and is never deleted or merged away, only rows without one are deleted, and an
observation that contradicts what is known raises without changing a table. -/
theorem stable_identity_permanent (normalize : String → String) {db : Archive}
    (h : Reachable (accounts normalize) db) :
    (∀ u ∈ db.users, ∀ v ∈ db.users, u.provider = v.provider → u.usernameNormalized = v.usernameNormalized → u = v) ∧
    (∀ u ∈ db.users, ∀ v ∈ db.users, ∀ id, u.provider = v.provider → u.providerUserId = some id →
      v.providerUserId = some id → u = v) ∧
    (∀ es db', Trace (accounts normalize) (fun _ _ => True) db es db' →
      (∀ u ∈ db.users, ∀ id, u.providerUserId = some id →
        ∃ u' ∈ db'.users, u'.id = u.id ∧ u'.provider = u.provider ∧ u'.providerUserId = some id) ∧
      ∀ u ∈ db.users, (∀ u' ∈ db'.users, u'.id ≠ u.id) → u.providerUserId = none) ∧
    ∀ o now message db', db.upsertProviderUserLocked normalize o now = (.error message, db') → db' = db := by
  have hok := accountsOk_of_reachable h
  refine ⟨hok.names, fun u hu v hv id hp hui hvi => ?_, fun es db' ht => ?_, fun o now message db' hraise => ?_⟩
  · exact hok.stable u hu v hv hp (hui.trans hvi.symm) (by rw [hui]; rfl)
  · have hperm : Permanent db db' ∧ AccountsOk db' := by
      clear h
      induction ht with
      | nil => exact ⟨Permanent.refl _, hok⟩
      | cons _ hstep _ ih =>
        cases hstep
        obtain ⟨hok', hperm⟩ := accountStep_ok hok _
        exact ⟨hperm.trans (ih hok').1, (ih hok').2⟩
    exact ⟨hperm.1.stable, hperm.1.deleted⟩
  · have hmessage : (db.upsertProviderUserLocked normalize o now).1 = .error message := by rw [hraise]
    have herr := upsertProviderUserLocked_error hmessage
    rw [hraise] at herr
    exact herr

end

def emptyArchive : Archive := ⟨[], 0, [], [], [], [], [], [], [], [], [], [], [], [], [], 0, [], [], [], fun _ => []⟩

/-- A placeholder `ann` and an account `bob` with a stable id, which then turns out to be called `ann`. -/
def renames : List AccountEvent :=
  [.observe ⟨"lichess", "ann", none, none, none, none, 1, none⟩ 1,
    .observe ⟨"lichess", "bob", some "x1", none, none, none, 2, none⟩ 2,
    .observe ⟨"lichess", "ann", some "x1", none, none, none, 3, none⟩ 3]

theorem stable_identity_permanent_renamed :
    ∃ db, Reachable (accounts fun s => s) db ∧
      db.users.map (fun u => (u.id, u.providerUserId, u.usernameNormalized)) = [(2, some "x1", "ann")] ∧
      (db.upsertProviderUserLocked (fun s => s) ⟨"lichess", "ann", some "x2", none, none, none, 4, none⟩ 4).2 = db := by
  obtain ⟨db, hr, hp⟩ := Reach.of_exec (accounts fun s => s) (fun _ _ => True) (s := emptyArchive) ⟨rfl, rfl⟩ renames
    (fun db => db.users.map (fun u => (u.id, u.providerUserId, u.usernameNormalized)) = [(2, some "x1", "ann")] &&
      decide ((db.upsertProviderUserLocked (fun s => s) ⟨"lichess", "ann", some "x2", none, none, none, 4, none⟩ 4).1 =
        .error "Cannot reconcile lichess/ann: conflicting provider user IDs"))
    (by decide +kernel)
  simp only [Bool.and_eq_true, decide_eq_true_eq] at hp
  obtain ⟨husers, hraise⟩ := hp
  exact ⟨db, hr, husers, (stable_identity_permanent _ hr).2.2.2 _ _ _ _ (Prod.ext hraise rfl)⟩

end ChessCrawl.Identity
