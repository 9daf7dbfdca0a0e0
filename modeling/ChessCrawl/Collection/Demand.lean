import ChessCrawl.Collection.Solo
import Mathlib.Data.Multiset.Sort

/-! The page budget that the games of a gap demand. Which pages a gap takes, and with which limits, is decided by the
creation times in it; `Fits` says that none of the limits exceeds the budget. -/
namespace ChessCrawl.Collection
open ChessCrawl.Lib
set_option autoImplicit false

variable {P : Finset ProviderGame} {k : PageKey} {body : List GameObject}

/-- The creation times of the games in a span, newest first. -/
def gameTimes (P : Finset ProviderGame) (r : Span) : List Int :=
  ((P.filter fun g => g.createdAt ∈ r).val.map ProviderGame.createdAt).sort (· ≥ ·)

theorem gameTimes_length (P : Finset ProviderGame) (k : PageKey) : (gameTimes P k.span).length = (window P k).card := by
  unfold gameTimes window
  rw [Multiset.length_sort, Multiset.card_map]
  rfl

/-- A page shows the first times of its window. -/
theorem IsPage.times_eq (h : IsPage P k body) :
    (presented body).map ProviderGame.createdAt = (gameTimes P k.span).take k.limit := by
  -- the games that the page leaves out follow the ones it shows
  obtain ⟨rest, hrest⟩ : ∃ rest, rest = (window P k).val - ((presented body : List ProviderGame) : Multiset ProviderGame) :=
    ⟨_, rfl⟩
  have hsub : ((presented body : List ProviderGame) : Multiset ProviderGame) ≤ (window P k).val := by
    refine (Multiset.le_iff_subset (Multiset.coe_nodup.mpr h.nodup)).mpr fun p hp => ?_
    exact h.inside p (Multiset.mem_coe.mp hp)
  have hsplit : (presented body : Multiset ProviderGame) + rest = (window P k).val := by
    rw [hrest, Multiset.add_comm]
    exact Multiset.add_sub_cancel hsub
  have hout : ∀ p ∈ rest, p ∈ window P k ∧ p ∉ presented body := by
    intro p hp
    rw [hrest] at hp
    have hnodup : (window P k).val.Nodup := (window P k).nodup
    have hmem := (Multiset.mem_sub_of_nodup hnodup).mp hp
    exact ⟨hmem.1, fun hin => hmem.2 (Multiset.mem_coe.mpr hin)⟩
  have hperm : ((presented body).map ProviderGame.createdAt ++ (rest.map ProviderGame.createdAt).sort (· ≥ ·)).Perm
      (gameTimes P k.span) := by
    refine Multiset.coe_eq_coe.mp ?_
    rw [← Multiset.coe_add, Multiset.sort_eq, gameTimes, Multiset.sort_eq, ← Multiset.map_coe, ← Multiset.map_add, hsplit]
    rfl
  have hsorted : ((presented body).map ProviderGame.createdAt ++ (rest.map ProviderGame.createdAt).sort (· ≥ ·)).Pairwise
      (· ≥ ·) := by
    refine List.pairwise_append.mpr ⟨List.pairwise_map.mpr h.descending, Multiset.pairwise_sort _ _, fun a ha b hb => ?_⟩
    obtain ⟨q, hq, rfl⟩ := List.mem_map.mp ha
    obtain ⟨p, hp, rfl⟩ := Multiset.mem_map.mp ((Multiset.mem_sort (· ≥ ·)).mp hb)
    obtain ⟨hwin, hnot⟩ := hout p hp
    exact h.newest p hwin hnot q hq
  have heq : _ = gameTimes P k.span := hperm.eq_of_pairwise' hsorted (Multiset.pairwise_sort _ _)
  have hlen := h.count
  rw [← gameTimes_length, ← List.length_map ProviderGame.createdAt] at hlen
  rw [List.take_eq_take_min, ← hlen, ← heq, List.take_left]

theorem IsPage.length_eq (h : IsPage P k body) : body.length = min k.limit (gameTimes P k.span).length := by
  rw [← presented_length h.shown, h.count, gameTimes_length]

/-! ## Budgets -/

/-- No page of the gap exceeds the budget: a page with room left ends it, a full one goes on below its oldest game. -/
inductive Fits (P : Finset ProviderGame) (pageSize most : Nat) : PageKey → Prop
  | whole {k : PageKey} (h : (gameTimes P k.span).length < k.limit) : Fits P pageSize most k
  | more {k : PageKey} {oldest : Int} (hfull : k.limit ≤ (gameTimes P k.span).length)
      (hlast : ((gameTimes P k.span).take k.limit).getLast? = some oldest)
      (hbudget : (nextPage pageSize k ((gameTimes P k.span).take k.limit) oldest).2 ≤ most)
      (hrest : Fits P pageSize most
        ⟨k.since, oldest + 1, (nextPage pageSize k ((gameTimes P k.span).take k.limit) oldest).2⟩) : Fits P pageSize most k

theorem fits_more {pageSize most : Nat} {oldest : Int} (hfull : k.limit ≤ (gameTimes P k.span).length)
    (hlast : ((gameTimes P k.span).take k.limit).getLast? = some oldest) : Fits P pageSize most k ↔
      (nextPage pageSize k ((gameTimes P k.span).take k.limit) oldest).2 ≤ most ∧ Fits P pageSize most
        ⟨k.since, oldest + 1, (nextPage pageSize k ((gameTimes P k.span).take k.limit) oldest).2⟩ := by
  constructor
  · intro h
    cases h with
    | whole h => exact absurd h (not_lt.mpr hfull)
    | more _ hlast' hbudget hrest =>
      rw [hlast] at hlast'
      cases hlast'
      exact ⟨hbudget, hrest⟩
  · rintro ⟨hbudget, hrest⟩
    exact .more hfull hlast hbudget hrest

theorem fits_empty {pageSize most : Nat} {r : Span} (h : r.isEmpty = true) {limit : Nat} (hlimit : 1 ≤ limit) :
    Fits P pageSize most ⟨r.lower, r.upper, limit⟩ := by
  refine .whole ?_
  have hnil : window P ⟨r.lower, r.upper, limit⟩ = ∅ := by
    refine Finset.filter_eq_empty_iff.mpr fun g _ => ?_
    exact Span.not_mem_of_isEmpty h g.createdAt
  rw [gameTimes_length, hnil]
  exact hlimit

/-! ## What a run has ahead of it -/

def GapFits (P : Finset ProviderGame) (x₀ : Exec) (limit : Nat) (g : Span) : Prop :=
  Fits P x₀.pageSize x₀.maxPageSize ⟨g.lower, g.upper, limit⟩

/-- The gaps of a job that plans its first page. -/
def Affordable (P : Finset ProviderGame) (x₀ : Exec) (since : Option Int) (upto : Int) (db : Db) : Prop :=
  if x₀.params.mode = .backfill then GapFits P x₀ x₀.pageSize ⟨since, upto⟩
  else ∀ g ∈ db.missingWindows since upto, GapFits P x₀ x₀.pageSize g

/-- The newest gap takes the limit of a cursor that is for it. -/
def Ahead (P : Finset ProviderGame) (x₀ : Exec) (limit : Nat) (w : Span) : List Span → Prop
  | [] => True
  | g :: gs => GapFits P x₀ (if g = w then limit else x₀.pageSize) g ∧ ∀ r ∈ gs, GapFits P x₀ x₀.pageSize r

theorem ahead_pageSize {x₀ : Exec} {w : Span} {gs : List Span} :
    Ahead P x₀ x₀.pageSize w gs ↔ ∀ g ∈ gs, GapFits P x₀ x₀.pageSize g := by
  cases gs with
  | nil => simp [Ahead]
  | cons g gs => simp [Ahead]

theorem ahead_other {x₀ : Exec} {limit : Nat} {w : Span} {gs : List Span} (h : gs.head? ≠ some w) :
    Ahead P x₀ limit w gs ↔ ∀ g ∈ gs, GapFits P x₀ x₀.pageSize g := by
  cases gs with
  | nil => simp [Ahead]
  | cons g gs =>
    have hne : g ≠ w := fun heq => h (by rw [heq]; rfl)
    simp [Ahead, hne]

def CursorFits (P : Finset ProviderGame) (x₀ : Exec) (db : Db) (c : Cursor) : Prop :=
  if x₀.params.mode = .backfill then GapFits P x₀ c.limit ⟨c.sinceMs, c.untilMs⟩
  else Ahead P x₀ c.limit ⟨c.sinceMs, c.untilMs⟩ (db.missingWindows c.requestedSinceMs c.upperMs)

/-- The page is recorded and the cursor has not moved. -/
def PageFits (P : Finset ProviderGame) (x₀ : Exec) (db : Db) (c : Cursor) (k : PageKey) (raw : Nat) : Prop :=
  ∀ p ts, db.rawPayload raw = some p → pageTimestamps k p.body = some ts →
    (rangeDone k p.body = true → x₀.params.mode ≠ .backfill →
      ∀ g ∈ db.missingWindows c.requestedSinceMs c.upperMs, GapFits P x₀ x₀.pageSize g) ∧
    ∀ oldest, rangeDone k p.body = false → ts.getLast? = some oldest →
      (nextPage x₀.pageSize k ts oldest).2 ≤ x₀.maxPageSize ∧
      GapFits P x₀ (nextPage x₀.pageSize k ts oldest).2 ⟨c.sinceMs, oldest + 1⟩ ∧
      (x₀.params.mode ≠ .backfill →
        ∀ g ∈ (db.missingWindows c.requestedSinceMs c.upperMs).tail, GapFits P x₀ x₀.pageSize g)

section Recorded
variable {x₀ : Exec} {db : Db} {c : Cursor} {raw : Nat} {p : RawPayload} {ts : List Int}

theorem pageFits_whole (hp : db.rawPayload raw = some p) (hts : pageTimestamps k p.body = some ts)
    (hd : rangeDone k p.body = true) : PageFits P x₀ db c k raw ↔ (x₀.params.mode ≠ .backfill →
      ∀ g ∈ db.missingWindows c.requestedSinceMs c.upperMs, GapFits P x₀ x₀.pageSize g) := by
  constructor
  · intro h
    exact (h p ts hp hts).1 hd
  · intro h q us hq hus
    rw [hp] at hq
    cases hq
    refine ⟨fun _ => h, fun oldest hfull => ?_⟩
    rw [hd] at hfull
    cases hfull

theorem pageFits_full (hp : db.rawPayload raw = some p) (hts : pageTimestamps k p.body = some ts)
    (hd : rangeDone k p.body = false) {oldest : Int} (hlast : ts.getLast? = some oldest) : PageFits P x₀ db c k raw ↔
      (nextPage x₀.pageSize k ts oldest).2 ≤ x₀.maxPageSize ∧
      GapFits P x₀ (nextPage x₀.pageSize k ts oldest).2 ⟨c.sinceMs, oldest + 1⟩ ∧
      (x₀.params.mode ≠ .backfill →
        ∀ g ∈ (db.missingWindows c.requestedSinceMs c.upperMs).tail, GapFits P x₀ x₀.pageSize g) := by
  constructor
  · intro h
    exact (h p ts hp hts).2 oldest hd hlast
  · intro h q us hq hus
    rw [hp] at hq
    cases hq
    rw [hts] at hus
    cases hus
    refine ⟨fun hwhole => ?_, fun last _ hlast' => ?_⟩
    · rw [hd] at hwhole
      cases hwhole
    · rw [hlast] at hlast'
      cases hlast'
      exact h

end Recorded

/-- The budget is enough for what the job has ahead of it. -/
def Db.affords (P : Finset ProviderGame) (job : Nat) (x₀ : Exec) (since : Option Int) (upto : Int) (db : Db) :
    Option Call → Prop
  | none => ∀ c, db.checkpoints job = some c → CursorFits P x₀ db c
  | some (.creating _) | some (.pinning _ _ _ _) => Affordable P x₀ since upto db
  | some (.saving _ c) => CursorFits P x₀ db c
  | some (.running _ c (.recorded k raw)) | some (.running _ c (.judged k raw _)) => PageFits P x₀ db c k raw
  | some (.running _ c _) => CursorFits P x₀ db c

end ChessCrawl.Collection
