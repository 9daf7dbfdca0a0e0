import ChessCrawl.Collection.Store

/-! What one stream page proves. A provider answers a request with the newest games of the window;
the collector checks the page's shape and takes a saturated page as complete only strictly above
its oldest millisecond, because further games may share that millisecond. -/
namespace ChessCrawl.Collection
open ChessCrawl.Lib
set_option autoImplicit false

structure ProviderGame where
  ref : GameRef
  createdAt : Int
deriving DecidableEq, Repr

/-- The provider game that a response object presents. -/
def GameObject.game? (g : GameObject) : Option ProviderGame :=
  match g.id, g.createdAt with
  | some ref, some t => some ⟨ref, t⟩
  | _, _ => none

def presented (body : List GameObject) : List ProviderGame := body.filterMap GameObject.game?

def window (P : Finset ProviderGame) (k : PageKey) : Finset ProviderGame :=
  P.filter fun p => p.createdAt ∈ k.span

/-- The `limit` newest games of the window, newest first, ties in any order. -/
structure IsPage (P : Finset ProviderGame) (k : PageKey) (body : List GameObject) : Prop where
  shown : ∀ g ∈ body, (g.game?).isSome
  nodup : (presented body).Nodup
  inside : ∀ p ∈ presented body, p ∈ window P k
  count : (presented body).length = min k.limit (window P k).card
  newest : ∀ p ∈ window P k, p ∉ presented body → ∀ q ∈ presented body, p.createdAt ≤ q.createdAt
  descending : (presented body).Pairwise fun p q => q.createdAt ≤ p.createdAt

instance (P : Finset ProviderGame) (k : PageKey) (body : List GameObject) :
    Decidable (IsPage P k body) :=
  decidable_of_iff
    ((∀ g ∈ body, (g.game?).isSome) ∧ (presented body).Nodup ∧
      (∀ p ∈ presented body, p ∈ window P k) ∧
      (presented body).length = min k.limit (window P k).card ∧
      (∀ p ∈ window P k, p ∉ presented body → ∀ q ∈ presented body, p.createdAt ≤ q.createdAt) ∧
      (presented body).Pairwise fun p q => q.createdAt ≤ p.createdAt)
    ⟨fun ⟨a, b, c, d, e, f⟩ => ⟨a, b, c, d, e, f⟩, fun ⟨a, b, c, d, e, f⟩ => ⟨a, b, c, d, e, f⟩⟩

/-! ## The collector's reading of a page -/

/-- The creation times of a page, in page order, when every object has one inside the window. -/
def creationTimes (k : PageKey) : List GameObject → Option (List Int)
  | [] => some []
  | g :: gs =>
    match g.createdAt with
    | some t => if t ∈ k.span then (creationTimes k gs).map (t :: ·) else none
    | none => none

def pageTimestamps (k : PageKey) (body : List GameObject) : Option (List Int) :=
  if k.limit < body.length then none
  else (creationTimes k body).filter fun ts => ts.Pairwise (· ≥ ·)

def rangeDone (k : PageKey) (body : List GameObject) : Bool := decide (body.length < k.limit)

/-- The part of the window that the page proves complete; an empty saturated page has no oldest
time to start from. -/
def provenSpan (k : PageKey) (body : List GameObject) (timestamps : List Int) : Option Span :=
  if rangeDone k body then some k.span
  else timestamps.getLast?.map fun oldest => ⟨some (oldest + 1), k.upto⟩

/-! ## Soundness of one page -/

theorem creationTimes_eq_map {k : PageKey} {body : List GameObject} {ts : List Int}
    (h : creationTimes k body = some ts) : body.map GameObject.createdAt = ts.map some := by
  induction body generalizing ts with
  | nil =>
    cases h
    rfl
  | cons g gs ih =>
    rw [creationTimes] at h
    split at h
    · next t ht =>
      split at h
      · obtain ⟨us, hus, rfl⟩ := Option.map_eq_some_iff.mp h
        rw [List.map_cons, List.map_cons, ht, ih hus]
      · cases h
    · cases h

theorem creationTimes_mem {k : PageKey} {body : List GameObject} {ts : List Int}
    (h : creationTimes k body = some ts) : ∀ t ∈ ts, t ∈ k.span := by
  induction body generalizing ts with
  | nil =>
    cases h
    exact fun t ht => absurd ht List.not_mem_nil
  | cons g gs ih =>
    rw [creationTimes] at h
    split at h
    · split at h
      · next hin =>
        obtain ⟨us, hus, rfl⟩ := Option.map_eq_some_iff.mp h
        intro t ht
        rcases List.mem_cons.mp ht with rfl | ht
        · exact hin
        · exact ih hus t ht
      · cases h
    · cases h

structure PageTimes (k : PageKey) (body : List GameObject) (ts : List Int) : Prop where
  fits : body.length ≤ k.limit
  times : body.map GameObject.createdAt = ts.map some
  inside : ∀ t ∈ ts, t ∈ k.span
  descending : ts.Pairwise (· ≥ ·)

theorem pageTimestamps_spec {k : PageKey} {body : List GameObject} {ts : List Int}
    (h : pageTimestamps k body = some ts) : PageTimes k body ts := by
  unfold pageTimestamps at h
  split at h
  · cases h
  · next hfit =>
    obtain ⟨hc, hp⟩ := Option.filter_eq_some_iff.mp h
    exact ⟨by omega, creationTimes_eq_map hc, creationTimes_mem hc, of_decide_eq_true hp⟩

theorem PageTimes.length_eq {k : PageKey} {body : List GameObject} {ts : List Int}
    (h : PageTimes k body ts) : ts.length = body.length := by
  have hl := congrArg List.length h.times
  simpa using hl.symm

theorem presented_length {body : List GameObject} (h : ∀ g ∈ body, (g.game?).isSome) :
    (presented body).length = body.length := by
  induction body with
  | nil => rfl
  | cons g gs ih =>
    have hg := h g List.mem_cons_self
    obtain ⟨p, hp⟩ := Option.isSome_iff_exists.mp hg
    have hrest := ih fun x hx => h x (List.mem_cons_of_mem g hx)
    rw [presented] at hrest ⊢
    rw [List.filterMap_cons_some hp, List.length_cons, List.length_cons, hrest]

theorem game?_createdAt {g : GameObject} {p : ProviderGame} (h : g.game? = some p) :
    g.createdAt = some p.createdAt := by
  unfold GameObject.game? at h
  split at h
  · next ht =>
    cases h
    exact ht
  · cases h

/-- An unsaturated legal page holds the whole window. -/
theorem IsPage.mem_of_rangeDone {P : Finset ProviderGame} {k : PageKey} {body : List GameObject}
    (h : IsPage P k body) (hd : rangeDone k body = true) {p : ProviderGame} (hp : p ∈ window P k) :
    p ∈ presented body := by
  have hlen : (presented body).length = body.length := presented_length h.shown
  have hlt : body.length < k.limit := of_decide_eq_true hd
  have hcard : (window P k).card ≤ (presented body).toFinset.card := by
    rw [List.toFinset_card_of_nodup h.nodup]
    have hcount := h.count
    omega
  have hsub : (presented body).toFinset ⊆ window P k := by
    intro q hq
    exact h.inside q (List.mem_toFinset.mp hq)
  have heq := Finset.eq_of_subset_of_card_le hsub hcard
  rw [← heq] at hp
  exact List.mem_toFinset.mp hp

/-- On a saturated legal page every game strictly newer than the oldest entry is present. -/
theorem IsPage.mem_of_newer {P : Finset ProviderGame} {k : PageKey} {body : List GameObject}
    (h : IsPage P k body) {p q : ProviderGame} (hp : p ∈ window P k) (hq : q ∈ presented body)
    (hlt : q.createdAt < p.createdAt) : p ∈ presented body := by
  by_contra hn
  have hle := h.newest p hp hn q hq
  omega

theorem exists_presented_of_time {body : List GameObject} {ts : List Int}
    (hshown : ∀ g ∈ body, (g.game?).isSome) (ht : body.map GameObject.createdAt = ts.map some)
    {t : Int} (hmem : t ∈ ts) : ∃ q ∈ presented body, q.createdAt = t := by
  have hsome : some t ∈ body.map GameObject.createdAt := by
    rw [ht]
    exact List.mem_map_of_mem hmem
  obtain ⟨g, hg, hgt⟩ := List.mem_map.mp hsome
  obtain ⟨q, hq⟩ := Option.isSome_iff_exists.mp (hshown g hg)
  refine ⟨q, List.mem_filterMap.mpr ⟨g, hg, hq⟩, ?_⟩
  have hc := game?_createdAt hq
  rw [hgt] at hc
  exact (Option.some.inj hc).symm

/-- Every provider game in the part a legal page proves is an object of the page. -/
theorem IsPage.mem_of_provenSpan {P : Finset ProviderGame} {k : PageKey} {body : List GameObject}
    {ts : List Int} {r : Span} (h : IsPage P k body) (ht : PageTimes k body ts)
    (hr : provenSpan k body ts = some r) {p : ProviderGame} (hp : p ∈ P) (hin : p.createdAt ∈ r) :
    p ∈ presented body := by
  unfold provenSpan at hr
  split at hr
  · next hd =>
    cases hr
    exact h.mem_of_rangeDone hd (Finset.mem_filter.mpr ⟨hp, hin⟩)
  · obtain ⟨oldest, hlast, rfl⟩ := Option.map_eq_some_iff.mp hr
    have hmem : oldest ∈ ts := List.mem_of_getLast? hlast
    have hnewer : oldest + 1 ≤ p.createdAt := hin.1
    have hwin : p ∈ window P k := by
      refine Finset.mem_filter.mpr ⟨hp, ?_, hin.2⟩
      have hlow := (ht.inside oldest hmem).1
      cases hs : k.span.lower with
      | none => exact Span.aboveLower_none _
      | some a =>
        rw [hs, Span.aboveLower_some] at hlow
        rw [Span.aboveLower_some]
        omega
    obtain ⟨q, hq, hqt⟩ := exists_presented_of_time h.shown ht.times hmem
    exact h.mem_of_newer hwin hq (by omega)

theorem provenSpan_upper {k : PageKey} {body : List GameObject} {ts : List Int} {r : Span}
    (h : provenSpan k body ts = some r) : r.upper = k.upto := by
  unfold provenSpan at h
  split at h
  · cases h
    rfl
  · obtain ⟨_, _, rfl⟩ := Option.map_eq_some_iff.mp h
    rfl

end ChessCrawl.Collection
