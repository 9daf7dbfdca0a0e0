import ChessCrawl.Lib.Run
import ChessCrawl.Lib.Truth
import ChessCrawl.WorkingSets.Canonical

/-! `create_working_set`: which games a filter selects, the members that are stored of them, and the text that the input
signature is the digest of. -/
namespace ChessCrawl.WorkingSets
open ChessCrawl.Lib
set_option autoImplicit false

/-! ## Games and players -/

structure Participant where
  providerUserId : Option Nat
  usernameNormalized : Option Text
deriving DecidableEq, Repr

/-- A row of `games` with its time control, its variant and its participants. -/
structure Game where
  id : Nat
  provider : Text
  endedAt : Option Int
  timeClass : Text
  variant : Text
  rated : Int
  currentVersionId : Option Nat
  participants : List Participant
deriving DecidableEq, Repr

/-- A row of `provider_users` with its names in `provider_user_aliases`. -/
structure User where
  id : Nat
  provider : Text
  usernameNormalized : Text
  aliases : List Text
deriving DecidableEq, Repr

/-- The tables that are selected from, with their keys: a version is of one game. -/
structure Archive where
  games : List Game
  users : List User
  ids : (games.map Game.id).Nodup
  versions : (games.filterMap Game.currentVersionId).Nodup
  accounts : (users.map User.id).Nodup

/-- `SelectionFilters`; a player is one of a provider. -/
structure Filters where
  provider : Option Text
  username : Option Text
  since : Option Int
  untilAt : Option Int
  timeClass : Option Text
  variant : Option Text
  rated : Option Bool
  player : username.isSome = true → provider.isSome = true
deriving DecidableEq

/-! ## Players -/

/-- `current_name` -/
def User.current (u : User) (username : Text) : Bool := decide (u.usernameNormalized = username)

/-- `ORDER BY current_name DESC, pu.id` -/
def candidateBefore (username : Text) (u v : User) : Prop :=
  u.current username = true ∧ v.current username = false ∨ u.current username = v.current username ∧ u.id ≤ v.id

instance (username : Text) : DecidableRel (candidateBefore username) := fun _ _ =>
  inferInstanceAs (Decidable (_ ∨ _))

def candidates (users : List User) (provider username : Text) : List User :=
  ((users.filter fun u => decide (u.provider = provider) && (u.current username || u.aliases.contains username)).insertionSort
    (candidateBefore username)).take 2

/-- The player of a filter; `none` when nobody has the name. -/
def playerOf (users : List User) (f : Filters) : Except Refusal (Option Nat) :=
  match f.username, f.provider with
  | some username, some provider =>
    match candidates users provider username with
    | [] => .ok none
    | [u] => .ok (some u.id)
    | u :: _ :: _ => if u.current username then .ok (some u.id) else .error .ambiguousPlayerAlias
  | _, _ => .ok none

/-! ## Selection -/

/-- The condition of the `INSERT … SELECT`. -/
def condition (f : Filters) (playerId : Option Nat) (g : Game) : Truth :=
  Truth.conj [
    (Truth.isNull g.currentVersionId).not,
    (Truth.isNull f.provider).or (Truth.eq (some g.provider) f.provider),
    (Truth.isNull f.since).or (Truth.compare (fun a b => decide (b ≤ a)) g.endedAt f.since),
    (Truth.isNull f.untilAt).or (Truth.compare (fun a b => decide (a < b)) g.endedAt f.untilAt),
    (Truth.isNull f.timeClass).or (Truth.eq (some g.timeClass) f.timeClass),
    (Truth.isNull f.variant).or (Truth.eq (some g.variant) f.variant),
    (Truth.isNull f.rated).or (Truth.eq (some g.rated) (f.rated.map fun b => if b then 1 else 0)),
    (Truth.isNull f.username).or (Truth.any g.participants fun p =>
      (Truth.eq p.providerUserId playerId).or ((Truth.isNull p.providerUserId).and (Truth.eq p.usernameNormalized f.username)))]

/-- The selected games in the order of their ids. -/
def selected (games : List Game) (f : Filters) (playerId : Option Nat) : List Game :=
  (games.filter fun g => decide (condition f playerId g = some true)).insertionSort fun g h => g.id ≤ h.id

structure Member where
  workingSetId : Nat
  ordinal : Nat
  gameVersionId : Nat
deriving DecidableEq, Repr

/-- `row_number() OVER (ORDER BY g.id)` and `LIMIT` -/
def memberRows (games : List Game) (f : Filters) (playerId : Option Nat) (setId limit : Nat) : List Member :=
  (((selected games f playerId).zipIdx 1).take limit).filterMap fun p =>
    p.1.currentVersionId.map fun version => ⟨setId, p.2, version⟩

/-! ## Signatures -/

section Signatures
variable {D : Floats}

def field (name : String) (value : Option (Json (Number D))) : List (Text × Json (Number D)) :=
  match value with
  | none => []
  | some v => [(name.toList, v)]

/-- `filters.model_dump(exclude_none=True)` -/
def Filters.fields (f : Filters) : List (Text × Json (Number D)) :=
  field "provider" (f.provider.map .str) ++ field "username" (f.username.map .str) ++
    field "since" (f.since.map fun n => .num (.int n)) ++ field "until" (f.untilAt.map fun n => .num (.int n)) ++
    field "time_class" (f.timeClass.map .str) ++ field "variant" (f.variant.map .str) ++ field "rated" (f.rated.map .bool)

def Filters.json (f : Filters) : Json (Number D) := .obj f.fields

/-- `{"schema": 1, "filters": filters}` -/
def signatureHead (f : Filters) : Json (Number D) :=
  .obj [("schema".toList, .num (.int 1)), ("filters".toList, f.json)]

/-- The part of the signature's text that is one member's. -/
def memberLine (m : Member) : Text :=
  '\n' :: (Nat.toDigits 10 m.ordinal ++ ':' :: Nat.toDigits 10 m.gameVersionId)

/-- A page of members behind an ordinal. -/
def memberPage (members : List Member) (after : Nat) : List Member :=
  ((members.filter fun m => decide (after < m.ordinal)).insertionSort fun m n => m.ordinal ≤ n.ordinal).take 1000

/-- The pages of a set, to the text and the count; there are fewer pages than fuel. -/
def readPages (members : List Member) : Nat → Nat → Text × Nat → Text × Nat
  | 0, _, acc => acc
  | fuel + 1, after, acc =>
    match (memberPage members after).getLast? with
    | none => acc
    | some last =>
      readPages members fuel last.ordinal
        (acc.1 ++ (memberPage members after).flatMap memberLine, acc.2 + (memberPage members after).length)

end Signatures

/-! ## Who a name is -/

/-- An account of a provider that has, or had, a name. -/
def Named (users : List User) (provider username : Text) (u : User) : Prop :=
  u ∈ users ∧ u.provider = provider ∧ (u.usernameNormalized = username ∨ username ∈ u.aliases)

/-- The account that a filter means: the one that has the name now, or the only one that had it. -/
def Player (users : List User) (f : Filters) (playerId : Option Nat) : Prop :=
  ∀ username provider, f.username = some username → f.provider = some provider →
    match playerId with
    | none => ∀ u, ¬ Named users provider username u
    | some id => ∃ u, Named users provider username u ∧ u.id = id ∧
        (u.usernameNormalized = username ∨ ∀ v, Named users provider username v → v = u)

/-- Several accounts had the name and none has it. -/
def Ambiguous (users : List User) (f : Filters) : Prop :=
  ∃ username provider u v, f.username = some username ∧ f.provider = some provider ∧ Named users provider username u ∧
    Named users provider username v ∧ u.id ≠ v.id ∧ ∀ w, Named users provider username w → w.usernameNormalized ≠ username

section Players
variable {users : List User} {f : Filters}

/-- The accounts with a name, those that have it now first. -/
def named (users : List User) (provider username : Text) : List User :=
  (users.filter fun u => decide (u.provider = provider) && (u.current username || u.aliases.contains username)).insertionSort
    (candidateBefore username)

theorem mem_named {provider username : Text} {u : User} : u ∈ named users provider username ↔ Named users provider username u := by
  unfold named Named User.current
  rw [List.mem_insertionSort, List.mem_filter]
  simp

theorem candidateBefore_total (username : Text) : Std.Total (candidateBefore username) := by
  refine ⟨fun u v => ?_⟩
  unfold candidateBefore
  cases u.current username <;> cases v.current username <;> simp
  all_goals exact Nat.le_total _ _

theorem candidateBefore_trans (username : Text) : IsTrans User (candidateBefore username) := by
  refine ⟨fun u v w => ?_⟩
  unfold candidateBefore
  cases u.current username <;> cases v.current username <;> cases w.current username <;> simp
  all_goals exact Nat.le_trans

theorem named_sorted (users : List User) (provider username : Text) : (named users provider username).Pairwise (candidateBefore username) := by
  have := candidateBefore_total username
  have := candidateBefore_trans username
  exact List.pairwise_insertionSort _ _

theorem playerOf_ok {playerId : Option Nat} (h : playerOf users f = .ok playerId) :
    Player users f playerId := by
  intro username provider hu hp
  have hmem : ∀ v, Named users provider username v ↔ v ∈ named users provider username := fun v => mem_named.symm
  simp only [hmem]
  unfold playerOf at h
  rw [hu, hp] at h
  dsimp only at h
  rw [show candidates users provider username = (named users provider username).take 2 from rfl] at h
  cases hnamed : named users provider username with
  | nil =>
    rw [hnamed] at h
    cases h
    exact fun u hu => nomatch hu
  | cons u rest =>
    rw [hnamed] at h
    cases rest with
    | nil =>
      cases h
      exact ⟨u, List.mem_cons_self, rfl, .inr fun v hv => List.mem_singleton.mp hv⟩
    | cons v rest =>
      change (if u.current username = true then _ else _) = _ at h
      split at h
      · next hcurrent =>
        cases h
        exact ⟨u, List.mem_cons_self, rfl, .inl (of_decide_eq_true hcurrent)⟩
      · cases h

theorem playerOf_error (hids : (users.map User.id).Nodup) {e : Refusal} (h : playerOf users f = .error e) :
    e = .ambiguousPlayerAlias ∧ Ambiguous users f := by
  unfold playerOf at h
  split at h
  · next username provider hu hp =>
    rw [show candidates users provider username = (named users provider username).take 2 from rfl] at h
    have hsorted := named_sorted users provider username
    have hnodup : (named users provider username).Nodup :=
      (List.perm_insertionSort _ _).nodup_iff.mpr ((List.Nodup.of_map _ hids).filter _)
    cases hnamed : named users provider username with
    | nil =>
      rw [hnamed] at h
      cases h
    | cons u rest =>
      rw [hnamed] at h hsorted hnodup
      cases rest with
      | nil => cases h
      | cons v rest =>
        change (if u.current username = true then _ else _) = _ at h
        split at h
        · cases h
        · next hcurrent =>
          cases h
          have hin : ∀ w, w ∈ u :: v :: rest → Named users provider username w := by
            intro w hw
            rw [← hnamed] at hw
            exact mem_named.mp hw
          refine ⟨rfl, username, provider, u, v, hu, hp, hin u List.mem_cons_self,
            hin v (List.mem_cons_of_mem _ List.mem_cons_self), fun hid => ?_, fun w hw heq => ?_⟩
          · have huv := List.inj_on_of_nodup_map hids (hin u List.mem_cons_self).1
              (hin v (List.mem_cons_of_mem _ List.mem_cons_self)).1 hid
            rw [huv] at hnodup
            exact (List.nodup_cons.mp hnodup).1 List.mem_cons_self
          · have hw' := mem_named.mpr hw
            rw [hnamed] at hw'
            have hwcurrent : w.current username = true := decide_eq_true heq
            obtain rfl | hw' := List.mem_cons.mp hw'
            · exact hcurrent hwcurrent
            · have hbefore := (List.pairwise_cons.mp hsorted).1 w hw'
              unfold candidateBefore at hbefore
              rw [hwcurrent] at hbefore
              simp only [Bool.not_eq_true] at hcurrent
              rw [hcurrent] at hbefore
              simp at hbefore
  · cases h

end Players

/-! ## Which games match -/

/-- A game that meets each condition that a filter has. -/
structure Matches (f : Filters) (playerId : Option Nat) (g : Game) : Prop where
  version : g.currentVersionId.isSome = true
  provider : ∀ p, f.provider = some p → g.provider = p
  since : ∀ t, f.since = some t → ∃ e, g.endedAt = some e ∧ t ≤ e
  untilAt : ∀ t, f.untilAt = some t → ∃ e, g.endedAt = some e ∧ e < t
  timeClass : ∀ c, f.timeClass = some c → g.timeClass = c
  variant : ∀ v, f.variant = some v → g.variant = v
  rated : ∀ b, f.rated = some b → g.rated = if b then 1 else 0
  player : ∀ u, f.username = some u → ∃ p ∈ g.participants,
    (p.providerUserId.isSome = true ∧ p.providerUserId = playerId) ∨
      (p.providerUserId = none ∧ p.usernameNormalized = some u)

/-- A condition that is skipped when its parameter is `NULL`. -/
theorem guarded_iff {α : Type} {x : Option α} {t : Truth} {P : α → Prop} (h : ∀ a, x = some a → (t = some true ↔ P a)) :
    (Truth.isNull x).or t = some true ↔ ∀ a, x = some a → P a := by
  rw [Truth.or_true_iff]
  cases x with
  | none => simp [Truth.isNull]
  | some a =>
    have := h a rfl
    simp [Truth.isNull, this]

theorem compare_iff {α : Type} {r : α → α → Bool} {x : Option α} {b : α} :
    Truth.compare r x (some b) = some true ↔ ∃ a, x = some a ∧ r a b = true := by
  cases x <;> simp [Truth.compare]

theorem condition_iff {f : Filters} {playerId : Option Nat} {g : Game} :
    condition f playerId g = some true ↔ Matches f playerId g := by
  have hversion : (Truth.isNull g.currentVersionId).not = some true ↔ g.currentVersionId.isSome = true := by
    rw [Truth.not_true_iff]
    cases g.currentVersionId <;> simp [Truth.isNull]
  have htext : ∀ (a : Text) (x : Option Text),
      (Truth.isNull x).or (Truth.eq (some a) x) = some true ↔ ∀ b, x = some b → a = b := by
    intro a x
    refine guarded_iff fun b hb => ?_
    rw [hb, Truth.eq_some]
    simp
  have hsince : (Truth.isNull f.since).or (Truth.compare (fun a b => decide (b ≤ a)) g.endedAt f.since) = some true ↔
      ∀ t, f.since = some t → ∃ e, g.endedAt = some e ∧ t ≤ e := by
    refine guarded_iff fun t ht => ?_
    rw [ht, compare_iff]
    simp
  have huntil : (Truth.isNull f.untilAt).or (Truth.compare (fun a b => decide (a < b)) g.endedAt f.untilAt) = some true ↔
      ∀ t, f.untilAt = some t → ∃ e, g.endedAt = some e ∧ e < t := by
    refine guarded_iff fun t ht => ?_
    rw [ht, compare_iff]
    simp
  have hrated : (Truth.isNull f.rated).or (Truth.eq (some g.rated) (f.rated.map fun b => if b then 1 else 0)) = some true ↔
      ∀ b, f.rated = some b → g.rated = if b then 1 else 0 := by
    refine guarded_iff fun b hb => ?_
    rw [hb, Option.map_some, Truth.eq_some]
    simp
  have hplayer : (Truth.isNull f.username).or (Truth.any g.participants fun p =>
      (Truth.eq p.providerUserId playerId).or ((Truth.isNull p.providerUserId).and
        (Truth.eq p.usernameNormalized f.username))) = some true ↔
      ∀ u, f.username = some u → ∃ p ∈ g.participants, (p.providerUserId.isSome = true ∧ p.providerUserId = playerId) ∨
        (p.providerUserId = none ∧ p.usernameNormalized = some u) := by
    refine guarded_iff fun u hu => ?_
    rw [hu, Truth.any, Option.some.injEq, List.any_eq_true]
    refine exists_congr fun p => and_congr_right fun _ => ?_
    rw [decide_eq_true_iff, Truth.or_true_iff, Truth.and_true_iff, Truth.eq_true_iff']
    cases p.providerUserId with
    | none => simp [Truth.isNull, Truth.eq, Truth.compare]
    | some id =>
      rw [Truth.eq_true_iff]
      simp [Truth.isNull]
  unfold condition
  rw [Truth.conj_true_iff]
  simp only [List.forall_mem_cons, List.not_mem_nil, false_imp_iff, implies_true, and_true]
  rw [hversion, htext, hsince, huntil, htext, htext, hrated, hplayer]
  constructor
  · intro h
    obtain ⟨h1, h2, h3, h4, h5, h6, h7, h8⟩ := h
    exact ⟨h1, h2, h3, h4, h5, h6, h7, h8⟩
  · intro h
    exact ⟨h.version, h.provider, h.since, h.untilAt, h.timeClass, h.variant, h.rated, h.player⟩

/-! ## Members -/

theorem mem_selected {games : List Game} {f : Filters} {playerId : Option Nat} {g : Game} :
    g ∈ selected games f playerId ↔ g ∈ games ∧ Matches f playerId g := by
  unfold selected
  rw [List.mem_insertionSort, List.mem_filter, decide_eq_true_iff, condition_iff]

theorem selected_sorted {games : List Game} (hids : (games.map Game.id).Nodup) (f : Filters) (playerId : Option Nat) :
    (selected games f playerId).Pairwise fun g h => g.id < h.id := by
  have htotal : Std.Total fun g h : Game => g.id ≤ h.id := ⟨fun _ _ => Nat.le_total _ _⟩
  have htrans : IsTrans Game fun g h => g.id ≤ h.id := ⟨fun _ _ _ => Nat.le_trans⟩
  have hle : (selected games f playerId).Pairwise fun g h => g.id ≤ h.id := List.pairwise_insertionSort _ _
  have hnodup : ((selected games f playerId).map Game.id).Nodup := by
    unfold selected
    rw [((List.perm_insertionSort _ _).map Game.id).nodup_iff]
    exact List.Nodup.sublist (List.filter_sublist.map _) hids
  have hne : (selected games f playerId).Pairwise fun g h => g.id ≠ h.id := List.pairwise_map.mp hnodup
  exact (hle.and hne).imp fun h => Nat.lt_of_le_of_ne h.1 h.2

theorem map_filterMap {α β γ : Type} {l : List α} {h : α → Option β} {k : β → γ} {k' : α → γ}
    (hk : ∀ a ∈ l, ∃ b, h a = some b ∧ k b = k' a) : (l.filterMap h).map k = l.map k' := by
  induction l with
  | nil => rfl
  | cons a l ih =>
    obtain ⟨b, hb, hkb⟩ := hk a List.mem_cons_self
    rw [List.filterMap_cons_some hb, List.map_cons, List.map_cons, hkb, ih fun a ha => hk a (List.mem_cons_of_mem _ ha)]

/-- The members are the versions of the selected games, with the places of these. -/
theorem memberRows_spec (games : List Game) (f : Filters) (playerId : Option Nat) (setId limit : Nat) :
    (memberRows games f playerId setId limit).map (fun m => (m.ordinal, some m.gameVersionId)) =
      (((selected games f playerId).zipIdx 1).take limit).map fun p => (p.2, p.1.currentVersionId) := by
  refine map_filterMap fun p hp => ?_
  have hgame := (mem_selected.mp (List.fst_mem_of_mem_zipIdx (List.mem_of_mem_take hp))).2
  obtain ⟨version, hversion⟩ := Option.isSome_iff_exists.mp hgame.version
  exact ⟨⟨setId, p.2, version⟩, by rw [hversion]; rfl, by rw [hversion]⟩

theorem memberRows_setId {games : List Game} {f : Filters} {playerId : Option Nat} {setId limit : Nat} {m : Member}
    (h : m ∈ memberRows games f playerId setId limit) : m.workingSetId = setId := by
  obtain ⟨p, _, hp⟩ := List.mem_filterMap.mp h
  obtain ⟨version, _, rfl⟩ := Option.map_eq_some_iff.mp hp
  rfl

theorem memberRows_length (games : List Game) (f : Filters) (playerId : Option Nat) (setId limit : Nat) :
    (memberRows games f playerId setId limit).length = min limit (selected games f playerId).length := by
  have h := congrArg List.length (memberRows_spec games f playerId setId limit)
  rwa [List.length_map, List.length_map, List.length_take, List.length_zipIdx] at h

theorem memberRows_sorted (games : List Game) (f : Filters) (playerId : Option Nat) (setId limit : Nat) :
    (memberRows games f playerId setId limit).Pairwise fun m n => m.ordinal < n.ordinal := by
  have hspec := congrArg (List.map Prod.fst) (memberRows_spec games f playerId setId limit)
  rw [List.map_map, List.map_map] at hspec
  have hzip : (((selected games f playerId).zipIdx 1).take limit).Pairwise fun p q => p.2 < q.2 := by
    refine List.Pairwise.sublist (List.take_sublist _ _) (List.pairwise_map.mp ?_)
    rw [List.zipIdx_map_snd]
    exact List.pairwise_lt_range'
  rw [← List.pairwise_map (f := Member.ordinal)]
  have hord : (memberRows games f playerId setId limit).map Member.ordinal =
      (((selected games f playerId).zipIdx 1).take limit).map Prod.snd := hspec
  rw [hord]
  exact List.pairwise_map.mpr hzip

/-! ## Pages -/

/-- A page takes off the head of what is left. -/
theorem filter_after_page {rest : List Member} (hsorted : rest.Pairwise fun m n => m.ordinal < n.ordinal) {last : Member} {n : Nat}
    (hlast : (rest.take n).getLast? = some last) : rest.filter (fun m => decide (last.ordinal < m.ordinal)) = rest.drop n := by
  have hmem : last ∈ rest.take n := List.mem_of_getLast? hlast
  obtain ⟨init, hinit⟩ := List.getLast?_eq_some_iff.mp hlast
  rw [← List.take_append_drop n rest] at hsorted
  obtain ⟨hhead, _, hcross⟩ := List.pairwise_append.mp hsorted
  conv_lhs => rw [← List.take_append_drop n rest]
  rw [List.filter_append]
  have hnone : (rest.take n).filter (fun m => decide (last.ordinal < m.ordinal)) = [] := by
    rw [List.filter_eq_nil_iff]
    intro m hm
    rw [hinit] at hm hhead
    obtain hm | hm := List.mem_append.mp hm
    · have := (List.pairwise_append.mp hhead).2.2 m hm last List.mem_cons_self
      simp only [decide_eq_true_eq]
      omega
    · rw [List.mem_singleton.mp hm]
      simp
  have hall : (rest.drop n).filter (fun m => decide (last.ordinal < m.ordinal)) = rest.drop n := by
    rw [List.filter_eq_self]
    intro m hm
    exact decide_eq_true (hcross last hmem m hm)
  rw [hnone, hall, List.nil_append]

/-- The pages together are all members in their order. -/
theorem readPages_spec {members : List Member} (hsorted : members.Pairwise fun m n => m.ordinal < n.ordinal) (fuel after : Nat)
    (acc : Text × Nat) (hfuel : (members.filter fun m => decide (after < m.ordinal)).length ≤ fuel) :
    readPages members fuel after acc = (acc.1 ++ (members.filter fun m => decide (after < m.ordinal)).flatMap memberLine,
      acc.2 + (members.filter fun m => decide (after < m.ordinal)).length) := by
  induction fuel generalizing after acc with
  | zero =>
    rw [List.length_eq_zero_iff.mp (Nat.le_zero.mp hfuel)]
    simp [readPages]
  | succ fuel ih =>
    generalize hrest : (members.filter fun m => decide (after < m.ordinal)) = rest at *
    have hrestSorted : rest.Pairwise fun m n => m.ordinal < n.ordinal := by
      rw [← hrest]
      exact hsorted.filter _
    have hpage : memberPage members after = rest.take 1000 := by
      unfold memberPage
      rw [hrest, List.Pairwise.insertionSort_eq (hrestSorted.imp fun h => Nat.le_of_lt h)]
    unfold readPages
    rw [hpage]
    cases hlast : (rest.take 1000).getLast? with
    | none =>
      have hnil : rest = [] := by
        rw [List.getLast?_eq_none_iff, List.take_eq_nil_iff] at hlast
        exact hlast.resolve_left (by decide)
      rw [hnil]
      simp
    | some last =>
      have hmem : last ∈ rest := List.mem_of_mem_take (List.mem_of_getLast? hlast)
      have hafter : after < last.ordinal := by
        rw [← hrest] at hmem
        exact of_decide_eq_true (List.mem_filter.mp hmem).2
      have hnext : members.filter (fun m => decide (last.ordinal < m.ordinal)) = rest.drop 1000 := by
        rw [← filter_after_page hrestSorted hlast, ← hrest, List.filter_filter]
        refine List.filter_congr fun m _ => ?_
        rw [Bool.eq_iff_iff, Bool.and_eq_true, decide_eq_true_iff, decide_eq_true_iff]
        omega
      have hpos : 0 < rest.length := List.length_pos_of_mem hmem
      dsimp only
      rw [ih last.ordinal _ (by rw [hnext, List.length_drop]; omega), hnext, List.append_assoc, ← List.flatMap_append,
        List.take_append_drop, List.length_take, List.length_drop,
        show acc.2 + min 1000 rest.length + (rest.length - 1000) = acc.2 + rest.length by omega]

/-! ## What a signature's text says -/

section Unique
variable {D : Floats}

theorem mem_field {name : String} {value : Option (Json (Number D))} {k : Text} {v : Json (Number D)} :
    (k, v) ∈ field name value ↔ k = name.toList ∧ value = some v := by
  cases value with
  | none => simp [field]
  | some w =>
    simp only [field, List.mem_singleton, Prod.mk.injEq, Option.some.injEq]
    exact and_congr_right fun _ => eq_comm

/-- A field of a filter is one of the conditions that it has. -/
theorem mem_fields {f : Filters} {k : Text} {v : Json (Number D)} : (k, v) ∈ f.fields ↔
    (k = "provider".toList ∧ f.provider.map .str = some v) ∨ (k = "username".toList ∧ f.username.map .str = some v) ∨
    (k = "since".toList ∧ (f.since.map fun n => .num (.int n)) = some v) ∨
    (k = "until".toList ∧ (f.untilAt.map fun n => .num (.int n)) = some v) ∨
    (k = "time_class".toList ∧ f.timeClass.map .str = some v) ∨ (k = "variant".toList ∧ f.variant.map .str = some v) ∨
    (k = "rated".toList ∧ f.rated.map .bool = some v) := by
  unfold Filters.fields
  simp only [List.mem_append, mem_field, or_assoc]

/-- Values under an injective constructor. -/
theorem map_ext {α β : Type} {c : α → β} (hc : Function.Injective c) {x y : Option α}
    (h : ∀ v, x.map c = some v ↔ y.map c = some v) : x = y :=
  Option.map_injective hc (Option.ext h)

theorem fields_injective {f g : Filters} (h : ∀ p : Text × Json (Number D), p ∈ f.fields ↔ p ∈ g.fields) : f = g := by
  have hstr : Function.Injective (Json.str : Text → Json (Number D)) := fun _ _ => Json.str.inj
  have hint : Function.Injective fun n => (Json.num (.int n) : Json (Number D)) :=
    fun _ _ heq => Number.int.inj (Json.num.inj heq)
  have hbool : Function.Injective (Json.bool : Bool → Json (Number D)) := fun _ _ => Json.bool.inj
  have hprovider : f.provider = g.provider :=
    map_ext hstr fun v => by simpa [mem_fields] using h ("provider".toList, v)
  have husername : f.username = g.username :=
    map_ext hstr fun v => by simpa [mem_fields] using h ("username".toList, v)
  have hsince : f.since = g.since := map_ext hint fun v => by simpa [mem_fields] using h ("since".toList, v)
  have huntil : f.untilAt = g.untilAt := map_ext hint fun v => by simpa [mem_fields] using h ("until".toList, v)
  have htime : f.timeClass = g.timeClass :=
    map_ext hstr fun v => by simpa [mem_fields] using h ("time_class".toList, v)
  have hvariant : f.variant = g.variant := map_ext hstr fun v => by simpa [mem_fields] using h ("variant".toList, v)
  have hrated : f.rated = g.rated := map_ext hbool fun v => by simpa [mem_fields] using h ("rated".toList, v)
  cases f
  cases g
  simp_all only

theorem normal_scalar {v : Json (Number D)} {f : Filters} {k : Text} (h : (k, v) ∈ f.fields) : v.normal = v := by
  rw [mem_fields] at h
  rcases h with ⟨_, h⟩ | ⟨_, h⟩ | ⟨_, h⟩ | ⟨_, h⟩ | ⟨_, h⟩ | ⟨_, h⟩ | ⟨_, h⟩
  all_goals
    obtain ⟨_, _, rfl⟩ := Option.map_eq_some_iff.mp h
    rfl

theorem filters_injective {f g : Filters} (h : (f.json : Json (Number D)).normal = g.json.normal) : f = g := by
  have hsame : ∀ e : Filters, (e.fields : List (Text × Json (Number D))).map (Json.rebuildField id Json.sortFields) = e.fields := by
    intro e
    refine (List.map_congr_left fun p hp => ?_).trans (List.map_id _)
    exact Prod.ext rfl (normal_scalar (show (p.1, p.2) ∈ e.fields from hp))
  unfold Json.normal Filters.json at h
  rw [Json.rebuild_obj, Json.rebuild_obj, Json.obj.injEq, hsame, hsame] at h
  refine fields_injective (D := D) fun p => ?_
  rw [← (Json.sortFields_perm f.fields).mem_iff, h, (Json.sortFields_perm g.fields).mem_iff]

/-- What follows a member's line starts on a line of its own. -/
theorem lines_head (members : List Member) (c : Char) (h : (members.flatMap memberLine).head? = some c) :
    c = '\n' := by
  cases members with
  | nil => cases h
  | cons m rest => exact (Option.some.inj h).symm

theorem lines_unique {ms ns : List Member} (h : ms.flatMap memberLine = ns.flatMap memberLine) :
    ms.map (fun m => (m.ordinal, m.gameVersionId)) = ns.map fun m => (m.ordinal, m.gameVersionId) := by
  induction ms generalizing ns with
  | nil =>
    cases ns with
    | nil => rfl
    | cons n ns => cases h
  | cons m ms ih =>
    cases ns with
    | nil => cases h
    | cons n ns =>
      have hcolon : ∀ t : Text, ∀ c, (':' :: t).head? = some c → c.isDigit = false := by
        intro t c hc
        rw [← Option.some.inj hc]
        decide
      have hline : ∀ l : List Member, ∀ c, (l.flatMap memberLine).head? = some c → c.isDigit = false := by
        intro l c hc
        rw [lines_head l c hc]
        decide
      rw [List.flatMap_cons, List.flatMap_cons] at h
      unfold memberLine at h
      rw [List.cons_append, List.cons_append, List.append_assoc, List.append_assoc] at h
      obtain ⟨hordinal, htail⟩ := digits_unique (fun _ => isDigit_toDigits) (fun _ => isDigit_toDigits) (hcolon _) (hcolon _)
        (List.cons.inj h).2
      obtain ⟨hversion, hrest⟩ := digits_unique (fun _ => isDigit_toDigits) (fun _ => isDigit_toDigits) (hline ms) (hline ns)
        (List.cons.inj htail).2
      rw [List.map_cons, List.map_cons, toDigits_injective hordinal, toDigits_injective hversion, ih hrest]

/-- The text of a signature. -/
def signatureText (D : Floats) (f : Filters) (members : List Member) : Text :=
  text (signatureHead f : Json (Number D)) ++ members.flatMap memberLine

/-- The text of a signature says the filters, and the members in their order. -/
theorem signatureText_unique (hD : D.Lawful) {f g : Filters} {ms ns : List Member}
    (h : signatureText D f ms = signatureText D g ns) :
    f = g ∧ ms.map (fun m => (m.ordinal, m.gameVersionId)) = ns.map fun m => (m.ordinal, m.gameVersionId) := by
  have hstops : ∀ l : List Member, Stops (l.flatMap memberLine) := by
    intro l c hc
    rw [lines_head l c hc]
    decide
  obtain ⟨hhead, hlines⟩ := text_unique hD (hstops ms) (hstops ns) h
  have hfilters := Json.normal_field hhead (k := "filters".toList) (v := f.json) (w := g.json) (by simp) (by simp) (by simp)
  exact ⟨filters_injective hfilters, lines_unique hlines⟩

end Unique
end ChessCrawl.WorkingSets
