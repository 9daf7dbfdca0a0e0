import ChessCrawl.Identity.Evidence

/-! Where the discovery edges of a placeholder go, and the memberships of runs in them. -/
namespace ChessCrawl.Identity
open ChessCrawl.Lib
set_option autoImplicit false

variable {survivor replaced : Nat} {known : Nat → Nat → String → Int}

def DiscoveryEdge.key (e : DiscoveryEdge) : String × Nat × Nat := (e.provider, e.fromUserId, e.toUserId)

/-- The edge with the placeholder's name replaced at both ends. -/
def DiscoveryEdge.rename (survivor replaced : Nat) (e : DiscoveryEdge) : DiscoveryEdge :=
  { e with
    fromUserId := renamed survivor replaced e.fromUserId
    toUserId := renamed survivor replaced e.toUserId }

/-- Edges are renamed; those that coincide become one. -/
def edgeMoving (survivor replaced : Nat) (known : Nat → Nat → String → Int) : Moving DiscoveryEdge (String × Nat × Nat) where
  id := DiscoveryEdge.id
  key := DiscoveryEdge.key
  move := DiscoveryEdge.rename survivor replaced
  absorb m e := m.absorb (known (renamed survivor replaced e.fromUserId) (renamed survivor replaced e.toUserId) e.provider) e

theorem edgeMoving_lawful (hne : survivor ≠ replaced) : (edgeMoving survivor replaced known).Lawful where
  move_id _ := rfl
  move_key a b h := by
    simp only [edgeMoving, DiscoveryEdge.key, DiscoveryEdge.rename, Prod.mk.injEq] at h ⊢
    obtain ⟨h₁, h₂, h₃⟩ := h
    exact ⟨h₁, by rw [h₂], by rw [h₃]⟩
  move_move a := by
    simp only [edgeMoving, DiscoveryEdge.key, DiscoveryEdge.rename, renamed_renamed hne]
  absorb_id _ _ := rfl
  absorb_key _ _ := rfl

/-- An edge that stands for another: no deeper, no fewer games, seen no later. -/
def Stands (b a : DiscoveryEdge) : Prop :=
  b.depth ≤ a.depth ∧ a.gameCount ≤ b.gameCount ∧ b.firstSeenAt ≤ a.firstSeenAt

theorem edgeMoving_respects {ν : Type} {val : DiscoveryEdge → ν}
    (hmove : ∀ e, val (e.rename survivor replaced) = val e)
    (habsorb : ∀ n (m e : DiscoveryEdge), val (m.absorb n e) = val m ∨ val (m.absorb n e) = val e) :
    (edgeMoving survivor replaced known).Respects Stands val where
  refl _ := ⟨Int.le_refl _, Int.le_refl _, Int.le_refl _⟩
  trans _ _ _ h h' := ⟨Int.le_trans h.1 h'.1, Int.le_trans h'.2.1 h.2.1, Int.le_trans h.2.2 h'.2.2⟩
  move _ := ⟨Int.le_refl _, Int.le_refl _, Int.le_refl _⟩
  absorbs m e := by
    simp only [Stands, edgeMoving, DiscoveryEdge.absorb]
    omega
  absorbed m e := by
    simp only [Stands, edgeMoving, DiscoveryEdge.absorb]
    omega
  val_move := hmove
  val_absorb m e := habsorb _ m e

theorem absorb_depth (n : Int) (m e : DiscoveryEdge) :
    (m.absorb n e).depth = m.depth ∨ (m.absorb n e).depth = e.depth := by
  simp only [DiscoveryEdge.absorb]
  omega

theorem absorb_firstSeenAt (n : Int) (m e : DiscoveryEdge) :
    (m.absorb n e).firstSeenAt = m.firstSeenAt ∨ (m.absorb n e).firstSeenAt = e.firstSeenAt := by
  simp only [DiscoveryEdge.absorb]
  omega

theorem edge_affected (hne : survivor ≠ replaced) (e : DiscoveryEdge) :
    (edgeMoving survivor replaced known).Affected e ↔ e.fromUserId = replaced ∨ e.toUserId = replaced := by
  unfold Moving.Affected
  simp only [edgeMoving, DiscoveryEdge.key, DiscoveryEdge.rename, ne_eq, Prod.mk.injEq, true_and]
  constructor
  · intro h
    by_contra hc
    rw [not_or] at hc
    exact h ⟨renamed_of_ne hc.1, renamed_of_ne hc.2⟩
  · rintro (h | h) ⟨hf, ht⟩
    · rw [h, renamed_self] at hf
      exact hne hf
    · rw [h, renamed_self] at ht
      exact hne ht

def DiscoveryEdge.Mentions (survivor replaced : Nat) (e : DiscoveryEdge) : Prop :=
  (e.fromUserId = survivor ∨ e.fromUserId = replaced) ∨ e.toUserId = survivor ∨ e.toUserId = replaced

/-- The runs of one edge become members of another. -/
theorem runEdges_moved {rows : List RunEdge} {kept gone : Nat} (hne : kept ≠ gone) (run n : Nat) :
    (⟨run, n⟩ : RunEdge) ∈ (upsertAll (fun r : RunEdge => r) (fun old _ => old) rows
        ((rows.filter fun r => r.discoveryEdgeId = gone).map fun r => { r with discoveryEdgeId := kept })).filter
          (fun r => r.discoveryEdgeId ≠ gone) ↔
      ∃ n₀, (if n₀ = gone then kept else n₀) = n ∧ (⟨run, n₀⟩ : RunEdge) ∈ rows := by
  have hkeys : ∀ (l : List RunEdge) (k : RunEdge), k ∈ l ↔ k ∈ l.map fun r => r := by simp
  rw [List.mem_filter, hkeys, upsertAll_keys fun _ _ h => h, ← hkeys, ← hkeys, decide_eq_true_iff]
  constructor
  · rintro ⟨hk | hk, hnot⟩
    · exact ⟨n, if_neg hnot, hk⟩
    · obtain ⟨r, hr, heq⟩ := List.mem_map.mp hk
      obtain ⟨hr, hgone⟩ := List.mem_filter.mp hr
      cases heq
      exact ⟨gone, if_pos rfl, by rw [← of_decide_eq_true hgone]; exact hr⟩
  · rintro ⟨n₀, rfl, hk⟩
    split
    · next h =>
      subst h
      exact ⟨.inr (List.mem_map.mpr ⟨_, List.mem_filter.mpr ⟨hk, decide_eq_true rfl⟩, rfl⟩), hne⟩
    · next h => exact ⟨.inl hk, h⟩

/-! ## The loop -/

/-- The tables that merging edges leaves alone. -/
def Archive.besideEdges (db : Archive) : Archive := { db with edges := [], runEdges := [] }

/-- The memberships of runs follow a redirection; `I` holds of the edges that mention one of the two accounts. -/
structure EdgesFollow (I : Nat → Prop) (st st' : Archive × List Nat) (ρ : Nat → Nat) : Prop where
  runEdges : ∀ run n, (⟨run, n⟩ : RunEdge) ∈ st'.1.runEdges ↔ ∃ n₀, ρ n₀ = n ∧ (⟨run, n₀⟩ : RunEdge) ∈ st.1.runEdges
  fixed : ∀ n, ¬ I n → ρ n = n
  closed : ∀ n, I n → I (ρ n)
  beside : st'.1.besideEdges = st.1.besideEdges

theorem EdgesFollow.refl (I : Nat → Prop) {st st' : Archive × List Nat} (h : st'.1.runEdges = st.1.runEdges)
    (hb : st'.1.besideEdges = st.1.besideEdges) : EdgesFollow I st st' fun n => n :=
  ⟨fun run n => by simp [h], fun _ _ => rfl, fun _ h => h, hb⟩

theorem EdgesFollow.trans {I : Nat → Prop} {st st' st'' : Archive × List Nat} {ρ ρ' : Nat → Nat}
    (h : EdgesFollow I st st' ρ) (h' : EdgesFollow I st' st'' ρ') : EdgesFollow I st st'' (ρ' ∘ ρ) where
  runEdges run n := by
    rw [h'.runEdges]
    constructor
    · rintro ⟨n₁, rfl, hk⟩
      obtain ⟨n₀, rfl, hk₀⟩ := (h.runEdges run n₁).mp hk
      exact ⟨n₀, rfl, hk₀⟩
    · rintro ⟨n₀, rfl, hk⟩
      exact ⟨ρ n₀, rfl, (h.runEdges run _).mpr ⟨n₀, rfl, hk⟩⟩
  fixed n hn := by rw [Function.comp_apply, h.fixed n hn, h'.fixed n hn]
  closed n hn := h'.closed _ (h.closed n hn)
  beside := h'.beside.trans h.beside

/-- What the loop over the edges keeps: the games it counts, and the runs it has marked had an edge that mentions
one of the accounts. -/
structure GraphKept (survivor replaced : Nat) (known : Nat → Nat → String → Int) (I : Nat → Prop) (rows : List RunEdge)
    (st : Archive × List Nat) : Prop where
  games : ∀ source target provider, st.1.knownGames source target provider = known source target provider
  mentioned : ∀ e ∈ st.1.edges, e.Mentions survivor replaced → I e.id
  members : ∀ run n, (⟨run, n⟩ : RunEdge) ∈ st.1.runEdges → I n → ∃ n₀, I n₀ ∧ (⟨run, n₀⟩ : RunEdge) ∈ rows
  marked : ∀ run ∈ st.2, ∃ n, I n ∧ (⟨run, n⟩ : RunEdge) ∈ rows

theorem mergeEdge_step {I : Nat → Prop} {rows : List RunEdge} {st : Archive × List Nat} {e : DiscoveryEdge}
    (hk : GraphKept survivor replaced known I rows st) (hids : (st.1.edges.map DiscoveryEdge.id).Nodup)
    (he : e ∈ st.1.edges) (hr : e.fromUserId = replaced ∨ e.toUserId = replaced) :
    (Archive.mergeEdge survivor replaced st e).1.edges = (edgeMoving survivor replaced known).step st.1.edges e ∧
      EdgesFollow I st (Archive.mergeEdge survivor replaced st e)
        ((edgeMoving survivor replaced known).redirect st.1.edges e) ∧
      GraphKept survivor replaced known I rows (Archive.mergeEdge survivor replaced st e) := by
  have hinj := List.inj_on_of_nodup_map hids
  have hIe : I e.id := hk.mentioned e he (hr.elim (fun h => .inl (.inr h)) fun h => .inr (.inr h))
  have hfind : (st.1.edges.find? fun m => m.provider = e.provider ∧
      m.fromUserId = renamed survivor replaced e.fromUserId ∧ m.toUserId = renamed survivor replaced e.toUserId ∧
      m.id ≠ e.id) = (edgeMoving survivor replaced known).matching st.1.edges e := by
    refine List.find?_congr fun m _ => ?_
    simp only [edgeMoving, DiscoveryEdge.key, DiscoveryEdge.rename, Prod.mk.injEq, and_assoc]
  unfold Archive.mergeEdge Moving.step Moving.redirect
  dsimp only
  rw [hfind]
  cases hm : (edgeMoving survivor replaced known).matching st.1.edges e with
  | none =>
    have hmap : ∀ x ∈ st.1.edges,
        (if x.id = e.id then { x with
          fromUserId := renamed survivor replaced e.fromUserId
          toUserId := renamed survivor replaced e.toUserId } else x) =
          if x.id = e.id then (edgeMoving survivor replaced known).move x else x := by
      intro x hx
      split
      · next hid =>
        cases hinj hx he hid
        rfl
      · rfl
    refine ⟨List.map_congr_left hmap, EdgesFollow.refl I rfl rfl, hk.games, fun x hx hown => ?_, hk.members, hk.marked⟩
    obtain ⟨y, hy, rfl⟩ := List.mem_map.mp hx
    by_cases hid : y.id = e.id
    · rw [if_pos hid]
      exact hid ▸ hIe
    · rw [if_neg hid] at hown ⊢
      exact hk.mentioned y hy hown
  | some m =>
    have hmem : m ∈ st.1.edges := List.mem_of_find?_eq_some hm
    have hfound := List.find?_some hm
    simp only [edgeMoving, DiscoveryEdge.key, DiscoveryEdge.rename, Prod.mk.injEq, decide_eq_true_eq] at hfound
    have hme : m.id ≠ e.id := hfound.2
    have hIm : I m.id := by
      refine hk.mentioned m hmem ?_
      rcases hr with h | h
      · exact .inl (.inl (by rw [hfound.1.2.1, h, renamed_self]))
      · exact .inr (.inl (by rw [hfound.1.2.2, h, renamed_self]))
    have hruns : ∀ run n, I n → (⟨run, n⟩ : RunEdge) ∈ st.1.runEdges → ∃ n₀, I n₀ ∧ (⟨run, n₀⟩ : RunEdge) ∈ rows :=
      fun run n hn h => hk.members run n h hn
    refine ⟨?_, ⟨fun run n => runEdges_moved hme run n, fun n hn => ?_, fun n hn => ?_, rfl⟩, hk.games,
      fun x hx hown => ?_, fun run n hrun hn => ?_, fun run hrun => ?_⟩
    · dsimp only
      rw [hk.games]
      rfl
    · have hne : n ≠ e.id := fun heq => hn (heq ▸ hIe)
      exact if_neg hne
    · change I (if n = e.id then m.id else n)
      split
      · exact hIm
      · exact hn
    · obtain ⟨y, hy, rfl⟩ := List.mem_map.mp (List.mem_filter.mp hx).1
      by_cases hid : y.id = m.id
      · rw [if_pos hid]
        exact (show I y.id from hid ▸ hIm)
      · rw [if_neg hid] at hown ⊢
        exact hk.mentioned y hy hown
    · obtain ⟨n₀, hn₀, hmem₀⟩ := (runEdges_moved hme run n).mp hrun
      by_cases hgone : n₀ = e.id
      · exact hruns run n₀ (hgone ▸ hIe) hmem₀
      · rw [if_neg hgone] at hn₀
        exact hruns run n₀ (hn₀ ▸ hn) hmem₀
    · rcases List.mem_append.mp hrun with hrun | hrun
      · exact hk.marked run hrun
      · obtain ⟨r, hr', rfl⟩ := List.mem_map.mp hrun
        obtain ⟨hr', hor⟩ := List.mem_filter.mp hr'
        rcases of_decide_eq_true hor with h | h
        · exact hruns _ _ (h ▸ hIe) hr'
        · exact hruns _ _ (h ▸ hIm) hr'

end ChessCrawl.Identity
