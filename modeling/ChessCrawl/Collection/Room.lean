import ChessCrawl.Collection.Demand
import Mathlib.Algebra.Ring.Nat
import Mathlib.Data.Nat.Log

/-! The page budget from the times of the games alone: how many games each millisecond of a gap holds decides whether its
pages fit. -/
namespace ChessCrawl.Collection
open ChessCrawl.Lib
set_option autoImplicit false

variable {P : Finset ProviderGame} {k : PageKey} {pageSize most : Nat}

/-- The games of one millisecond. -/
def tied (P : Finset ProviderGame) (t : Int) : Nat := (P.filter fun g => g.createdAt = t).card

/-- The milliseconds of a span that hold games, newest first. -/
def moments (P : Finset ProviderGame) (r : Span) : List Int := (gameTimes P r).dedup

/-- The least page that holds more than `games`, doubling from `limit`. -/
def doubled (limit games : Nat) : Nat := limit * 2 ^ Nat.clog 2 (games / limit + 1)

/-- Whether a page with room for `room` games gets past milliseconds with so many games each. One that fits leaves room for
older games; one that does not is asked for again, with `pageSize` and the room, doubled until it fits. -/
def Roomy (pageSize most : Nat) : Nat → List Nat → Prop
  | _, [] => True
  | room, games :: older =>
    if games < room then Roomy pageSize most (room - games) older
    else doubled (pageSize + room) games ≤ most ∧ Roomy pageSize most (doubled (pageSize + room) games - games) older

/-! ## Doubling -/

theorem doubled_of_lt {limit games : Nat} (h : games < limit) : doubled limit games = limit := by
  unfold doubled
  rw [Nat.div_eq_of_lt h, Nat.clog_one_right, pow_zero, mul_one]

theorem doubled_double {limit games : Nat} (hpos : 0 < limit) (h : limit ≤ games) :
    doubled limit games = doubled (limit * 2) games := by
  have hquot : 1 ≤ games / limit := (Nat.one_le_div_iff hpos).mpr h
  have hclog : Nat.clog 2 (games / limit + 1) = Nat.clog 2 (games / (limit * 2) + 1) + 1 := by
    rw [Nat.clog_of_two_le Nat.one_lt_two (by omega), ← Nat.div_div_eq_div_mul]
    congr 2
    omega
  unfold doubled
  rw [hclog, pow_succ', mul_assoc]

theorem le_doubled (limit games : Nat) : limit ≤ doubled limit games := Nat.le_mul_of_pos_right limit (Nat.two_pow_pos _)

theorem doubled_le {limit games : Nat} (hpos : 0 < limit) (hlimit : limit ≤ most) (hgames : games * 2 ≤ most) :
    doubled limit games ≤ most := by
  by_cases h : games < limit
  · rw [doubled_of_lt h]
    exact hlimit
  · rw [doubled_double hpos (not_lt.mp h)]
    exact doubled_le (by omega) (by omega) hgames
termination_by games + 1 - limit

/-- A budget with room for a page and the games of a millisecond, and for those twice, is enough. -/
theorem roomy_of_room (hpage : 0 < pageSize) {sizes : List Nat} (h : ∀ n ∈ sizes, pageSize + n ≤ most ∧ n * 2 ≤ most)
    (room : Nat) : Roomy pageSize most room sizes := by
  induction sizes generalizing room with
  | nil => trivial
  | cons games older ih =>
    have hrest := ih fun n hn => h n (List.mem_cons_of_mem _ hn)
    obtain ⟨hsum, hdouble⟩ := h games List.mem_cons_self
    unfold Roomy
    split
    · exact hrest _
    · exact ⟨doubled_le (by omega) (by omega) hdouble, hrest _⟩

/-! ## The times of a gap -/

theorem mem_moments {r : Span} {t : Int} : t ∈ moments P r ↔ t ∈ r ∧ ∃ g ∈ P, g.createdAt = t := by
  unfold moments gameTimes
  rw [List.mem_dedup, Multiset.mem_sort, Multiset.mem_map]
  constructor
  · rintro ⟨g, hg, rfl⟩
    obtain ⟨hP, hin⟩ := Finset.mem_filter.mp hg
    exact ⟨hin, g, hP, rfl⟩
  · rintro ⟨hin, g, hP, rfl⟩
    exact ⟨g, Finset.mem_filter.mpr ⟨hP, hin⟩, rfl⟩

theorem moments_descending (P : Finset ProviderGame) (r : Span) : (moments P r).Pairwise (· > ·) := by
  have hsorted : (moments P r).Pairwise (· ≥ ·) := (Multiset.pairwise_sort _ _).sublist (List.dedup_sublist _)
  have hnodup : (moments P r).Nodup := List.nodup_dedup _
  exact (hsorted.and hnodup).imp fun h => lt_of_le_of_ne h.1 h.2.symm

/-- The span below a millisecond with games. -/
theorem moments_below {since : Option Int} {upto v : Int} {passed rest : List Int}
    (h : moments P ⟨since, upto⟩ = passed ++ v :: rest) : moments P ⟨since, v + 1⟩ = v :: rest := by
  have hdesc := moments_descending P ⟨since, upto⟩
  rw [h] at hdesc
  obtain ⟨_, htail, hpassed⟩ := List.pairwise_append.mp hdesc
  have hbelow := (List.pairwise_cons.mp htail).1
  have hv : v ∈ moments P ⟨since, upto⟩ := by
    rw [h]
    exact List.mem_append_right _ List.mem_cons_self
  have hnodup : (v :: rest).Nodup := htail.imp fun h => ne_of_gt h
  refine List.Perm.eq_of_pairwise' (r := (· ≥ ·)) ((moments_descending P _).imp le_of_lt) (htail.imp le_of_lt) ?_
  refine (List.perm_ext_iff_of_nodup (List.nodup_dedup _) hnodup).mpr fun t => ?_
  have hmem : t ∈ moments P ⟨since, upto⟩ ↔ t ∈ passed ∨ t ∈ v :: rest := by rw [h, List.mem_append]
  constructor
  · intro ht
    obtain ⟨⟨hlow, hup⟩, hgame⟩ := mem_moments.mp ht
    have hle : t < v + 1 := hup
    have hwide : t < upto := lt_of_lt_of_le hle (mem_moments.mp hv).1.2
    refine (hmem.mp (mem_moments.mpr ⟨⟨hlow, hwide⟩, hgame⟩)).resolve_left fun hin => ?_
    have := hpassed t hin v List.mem_cons_self
    omega
  · intro ht
    obtain ⟨⟨hlow, _⟩, hgame⟩ := mem_moments.mp (hmem.mpr (.inr ht))
    refine mem_moments.mpr ⟨⟨hlow, ?_⟩, hgame⟩
    change t < v + 1
    rcases List.mem_cons.mp ht with rfl | ht
    · omega
    · have := hbelow t ht
      omega

/-- The times of all games at some milliseconds. -/
def timesAt (P : Finset ProviderGame) (ts : List Int) : List Int := ts.flatMap fun t => List.replicate (tied P t) t

theorem timesAt_cons (t : Int) (ts : List Int) :
    timesAt P (t :: ts) = List.replicate (tied P t) t ++ timesAt P ts := List.flatMap_cons

theorem timesAt_append (ts us : List Int) : timesAt P (ts ++ us) = timesAt P ts ++ timesAt P us := List.flatMap_append

theorem mem_timesAt {ts : List Int} {t : Int} (h : t ∈ timesAt P ts) : t ∈ ts := by
  obtain ⟨u, hu, ht⟩ := List.mem_flatMap.mp h
  rw [List.eq_of_mem_replicate ht]
  exact hu

theorem count_timesAt {ts : List Int} (h : ts.Nodup) (t : Int) :
    (timesAt P ts).count t = if t ∈ ts then tied P t else 0 := by
  induction ts with
  | nil => rfl
  | cons u us ih =>
    obtain ⟨hout, hus⟩ := List.nodup_cons.mp h
    rw [timesAt_cons, List.count_append, List.count_replicate, ih hus]
    by_cases heq : u = t
    · subst heq
      simp [hout]
    · have hne : t ≠ u := fun h => heq h.symm
      simp [heq, hne]

theorem count_gameTimes (r : Span) (t : Int) : (gameTimes P r).count t = if t ∈ r then tied P t else 0 := by
  unfold gameTimes tied
  rw [← Multiset.coe_count, Multiset.sort_eq, Multiset.count_map]
  change (((P.filter fun g => g.createdAt ∈ r).filter fun g => t = g.createdAt).card : Nat) = _
  rw [Finset.filter_filter]
  split
  · next h =>
    refine congrArg Finset.card (Finset.filter_congr fun g _ => ?_)
    exact ⟨fun hg => hg.2.symm, fun hg => ⟨hg ▸ h, hg.symm⟩⟩
  · next h =>
    refine Finset.card_eq_zero.mpr (Finset.filter_eq_empty_iff.mpr fun g _ hg => h ?_)
    rw [hg.2]
    exact hg.1

theorem gameTimes_eq (P : Finset ProviderGame) (r : Span) : gameTimes P r = timesAt P (moments P r) := by
  have hdesc : (timesAt P (moments P r)).Pairwise (· ≥ ·) := by
    refine List.pairwise_flatMap.mpr ⟨fun t _ => ?_, (moments_descending P r).imp fun hlt a ha b hb => ?_⟩
    · exact List.pairwise_replicate.mpr (.inr (le_refl t))
    · rw [List.eq_of_mem_replicate ha, List.eq_of_mem_replicate hb]
      exact le_of_lt hlt
  refine List.Perm.eq_of_pairwise' (r := (· ≥ ·)) (Multiset.pairwise_sort _ _) hdesc (List.perm_iff_count.mpr fun t => ?_)
  have hnodup : (moments P r).Nodup := List.nodup_dedup _
  rw [count_gameTimes, count_timesAt hnodup]
  by_cases h : t ∈ moments P r
  · rw [if_pos h, if_pos (mem_moments.mp h).1]
  · rw [if_neg h]
    split
    · next hin =>
      refine Finset.card_eq_zero.mpr (Finset.filter_eq_empty_iff.mpr fun g hg heq => ?_)
      exact h (mem_moments.mpr ⟨hin, g, hg, heq⟩)
    · rfl

/-! ## The pages of a gap -/

/-- A page that shows the games of some milliseconds and ends among those of the next one. -/
theorem take_passed {k : PageKey} {v : Int} {passed rest : List Int} {room : Nat}
    (hlist : moments P k.span = passed ++ v :: rest) (hsplit : k.limit = (timesAt P passed).length + room)
    (hroom : 0 < room) (hle : room ≤ tied P v) :
    (gameTimes P k.span).take k.limit = timesAt P passed ++ List.replicate room v ∧
      k.limit ≤ (gameTimes P k.span).length ∧ ((gameTimes P k.span).take k.limit).getLast? = some v := by
  have htimes : gameTimes P k.span = timesAt P passed ++ (List.replicate (tied P v) v ++ timesAt P rest) := by
    rw [gameTimes_eq, hlist, timesAt_append, timesAt_cons]
  have htake : (gameTimes P k.span).take k.limit = timesAt P passed ++ List.replicate room v := by
    rw [htimes, hsplit, List.take_length_add_append,
      List.take_append_of_le_length (by rw [List.length_replicate]; exact hle), List.take_replicate, Nat.min_eq_left hle]
  refine ⟨htake, ?_, ?_⟩
  · rw [htimes, List.length_append, List.length_append, List.length_replicate]
    omega
  · rw [htake, List.getLast?_append, List.getLast?_replicate, if_neg (by omega)]
    rfl

/-- The limit after such a page. The newer milliseconds are above `v`, so a page that has passed any does not end just below
its upper bound. -/
theorem nextPage_passed {k : PageKey} {v : Int} {passed rest : List Int} {room : Nat}
    (hlist : moments P k.span = passed ++ v :: rest) (hsplit : k.limit = (timesAt P passed).length + room)
    (hstart : passed ≠ [] ∨ k.limit = pageSize) :
    (nextPage pageSize k (timesAt P passed ++ List.replicate room v) v).2 = pageSize + room := by
  have hdesc := moments_descending P k.span
  rw [hlist] at hdesc
  have habove := fun t ht => (List.pairwise_append.mp hdesc).2.2 t ht v List.mem_cons_self
  have hcount : (timesAt P passed ++ List.replicate room v).count v = room := by
    rw [List.count_append, List.count_replicate_self, List.count_eq_zero.mpr fun hv => ?_, Nat.zero_add]
    exact lt_irrefl v (habove v (mem_timesAt hv))
  rw [nextPage, hcount]
  dsimp only
  split
  · next hup =>
    have hnone : passed = [] := by
      refine List.eq_nil_iff_forall_not_mem.mpr fun t ht => ?_
      have hin : t ∈ moments P k.span := hlist ▸ List.mem_append_left _ ht
      have hbelow : t < k.upto := (mem_moments.mp hin).1.2
      have := habove t ht
      omega
    have hlimit := hstart.resolve_left fun hne => hne hnone
    rw [hnone] at hsplit
    change k.limit = 0 + room at hsplit
    rw [max_eq_left (by omega)]
  · rfl

/-- A millisecond that fills its page is asked for again until a page has room for more. -/
theorem fits_tight {since : Option Int} {v : Int} {rest : List Int} (hlist : moments P ⟨since, v + 1⟩ = v :: rest)
    (hpage : 0 < pageSize) {limit : Nat} (hsize : pageSize ≤ limit) (hmost : limit ≤ most)
    (hrest : ∀ limit, tied P v < limit → (Fits P pageSize most ⟨since, v + 1, limit⟩ ↔
      Roomy pageSize most (limit - tied P v) (rest.map (tied P)))) :
    Fits P pageSize most ⟨since, v + 1, limit⟩ ↔ doubled limit (tied P v) ≤ most ∧
      Roomy pageSize most (doubled limit (tied P v) - tied P v) (rest.map (tied P)) := by
  by_cases h : tied P v < limit
  · rw [doubled_of_lt h, hrest limit h]
    exact ⟨fun hr => ⟨hmost, hr⟩, fun hr => hr.2⟩
  · have hle := not_lt.mp h
    obtain ⟨htake, hfull, hlast⟩ := @take_passed P ⟨since, v + 1, limit⟩ v [] rest limit hlist (Nat.zero_add _).symm
      (by omega) hle
    replace htake : (gameTimes P ⟨since, v + 1⟩).take limit = List.replicate limit v := htake
    have hnext : (nextPage pageSize ⟨since, v + 1, limit⟩ ((gameTimes P ⟨since, v + 1⟩).take limit) v).2 = limit * 2 := by
      rw [htake, nextPage, List.count_replicate_self, if_pos (le_refl _)]
      dsimp only
      omega
    have hmore := @fits_more P ⟨since, v + 1, limit⟩ pageSize most v hfull hlast
    rw [show (⟨since, v + 1, limit⟩ : PageKey).span = ⟨since, v + 1⟩ from rfl, hnext] at hmore
    rw [hmore, doubled_double (by omega) hle]
    by_cases hfits : limit * 2 ≤ most
    · rw [fits_tight hlist hpage (by omega) hfits hrest]
      exact and_iff_right hfits
    · have hbig := le_doubled (limit * 2) (tied P v)
      exact iff_of_false (fun hr => hfits hr.1) fun hr => hfits (hbig.trans hr.1)
termination_by tied P v + 1 - limit

/-- A page that has shown the games of some milliseconds and has room left. -/
theorem fits_passed (hpage : 0 < pageSize) {left : List Int} {k : PageKey} {passed : List Int}
    (hlist : moments P k.span = passed ++ left) (hroom : (timesAt P passed).length < k.limit)
    (hstart : passed ≠ [] ∨ k.limit = pageSize) : Fits P pageSize most k ↔
      Roomy pageSize most (k.limit - (timesAt P passed).length) (left.map (tied P)) := by
  induction left generalizing k passed with
  | nil =>
    refine iff_of_true (.whole ?_) trivial
    rw [gameTimes_eq, hlist, List.append_nil]
    exact hroom
  | cons v rest ih =>
    rw [List.map_cons, Roomy]
    split
    · next hfew =>
      have hlonger : (timesAt P (passed ++ [v])).length = (timesAt P passed).length + tied P v := by
        rw [timesAt_append, List.length_append, timesAt_cons, List.length_append, List.length_replicate]
        rfl
      have hmoved : moments P k.span = (passed ++ [v]) ++ rest := by rw [hlist, List.append_assoc]; rfl
      rw [ih hmoved (by omega) (.inl (by simp)), hlonger, Nat.sub_sub]
    · next hmany =>
      obtain ⟨room, hsplit⟩ : ∃ room, k.limit = (timesAt P passed).length + room := ⟨_, (Nat.add_sub_of_le hroom.le).symm⟩
      have hleft : k.limit - (timesAt P passed).length = room := by omega
      rw [hleft] at hmany ⊢
      have hle := not_lt.mp hmany
      obtain ⟨htake, hfull, hlast⟩ := take_passed hlist hsplit (by omega) hle
      have hnext : (nextPage pageSize k ((gameTimes P k.span).take k.limit) v).2 = pageSize + room := by
        rw [htake]
        exact nextPage_passed hlist hsplit hstart
      have hmore := @fits_more P k pageSize most v hfull hlast
      rw [hnext] at hmore
      rw [hmore]
      by_cases hfits : pageSize + room ≤ most
      · have hbelow : moments P ⟨k.since, v + 1⟩ = v :: rest := moments_below hlist
        have hone : timesAt P [v] = List.replicate (tied P v) v := by
          rw [timesAt_cons]
          exact List.append_nil _
        rw [fits_tight hbelow hpage (by omega) hfits fun limit hlimit => ?_]
        · exact and_iff_right hfits
        · have hlen : (timesAt P [v]).length = tied P v := by rw [hone, List.length_replicate]
          have hnewest := @ih ⟨k.since, v + 1, limit⟩ [v] hbelow (by rw [hlen]; exact hlimit) (.inl (by simp))
          rw [hlen] at hnewest
          exact hnewest
      · have hbig := le_doubled (pageSize + room) (tied P v)
        exact iff_of_false (fun hr => hfits hr.1) fun hr => hfits (hbig.trans hr.1)

/-! ## The budget of a job -/

/-- The pages of a gap, the first of `page_size`, get past all its milliseconds. -/
def GapRoomy (P : Finset ProviderGame) (x : Exec) (g : Span) : Prop :=
  Roomy x.pageSize x.maxPageSize x.pageSize ((moments P g).map (tied P))

/-- For a backfill the requested window is one gap. -/
def Budgeted (P : Finset ProviderGame) (x : Exec) (since : Option Int) (upto : Int) (db : Db) : Prop :=
  if x.params.mode = .backfill then GapRoomy P x ⟨since, upto⟩ else ∀ g ∈ db.missingWindows since upto, GapRoomy P x g

theorem gapFits_iff {x : Exec} (hx : x.Sized) (g : Span) : GapFits P x x.pageSize g ↔ GapRoomy P x g :=
  @fits_passed P x.pageSize x.maxPageSize hx.page _ ⟨g.lower, g.upper, x.pageSize⟩ [] rfl hx.page (.inr rfl)

theorem affordable_iff {x : Exec} (hx : x.Sized) (since : Option Int) (upto : Int) (db : Db) :
    Affordable P x since upto db ↔ Budgeted P x since upto db := by
  unfold Affordable Budgeted
  split
  · exact gapFits_iff hx _
  · exact forall₂_congr fun g _ => gapFits_iff hx g

/-- A budget with room for a page and the ties of every millisecond, and for those twice, is enough. -/
theorem budgeted_of_room {x : Exec} (hx : x.Sized)
    (hroom : ∀ t, x.pageSize + tied P t ≤ x.maxPageSize ∧ tied P t * 2 ≤ x.maxPageSize) (since : Option Int) (upto : Int)
    (db : Db) : Budgeted P x since upto db := by
  have hgap : ∀ g, GapRoomy P x g := by
    refine fun g => roomy_of_room hx.page (fun n hn => ?_) _
    obtain ⟨t, _, rfl⟩ := List.mem_map.mp hn
    exact hroom t
  unfold Budgeted
  split
  · exact hgap _
  · exact fun g _ => hgap g

end ChessCrawl.Collection
