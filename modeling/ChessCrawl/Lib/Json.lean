import Mathlib.Data.Char
import Mathlib.Data.List.Lex
import Mathlib.Data.List.Sort

/-! Compact JSON texts over ASCII, with the numbers left to a parameter: a text is the text of one value only, also before
a rest, and two values that differ in the order of their keys alone have one canonical text. -/
namespace ChessCrawl.Lib
set_option autoImplicit false

/-! ## Strings -/

def hexValue (c : Char) : Nat := if c.isDigit then c.toNat - 48 else c.toNat - 87

/-- Four hexadecimal digits. -/
def hex4 (n : Nat) : List Char :=
  [Nat.digitChar (n / 4096 % 16), Nat.digitChar (n / 256 % 16), Nat.digitChar (n / 16 % 16), Nat.digitChar (n % 16)]

/-- A character of a string: itself, a short escape, one code unit or a pair of surrogates. -/
def escape (c : Char) : List Char :=
  if c = '"' then ['\\', '"']
  else if c = '\\' then ['\\', '\\']
  else if c = '\n' then ['\\', 'n']
  else if c = '\r' then ['\\', 'r']
  else if c = '\t' then ['\\', 't']
  else if c.toNat = 8 then ['\\', 'b']
  else if c.toNat = 12 then ['\\', 'f']
  else if 32 ≤ c.toNat ∧ c.toNat ≤ 126 then [c]
  else if c.toNat < 0x10000 then '\\' :: 'u' :: hex4 c.toNat
  else
    '\\' :: 'u' :: hex4 (0xd800 + (c.toNat - 0x10000) / 1024) ++
      '\\' :: 'u' :: hex4 (0xdc00 + (c.toNat - 0x10000) % 1024)

def value4 (a b c d : Char) : Nat := 4096 * hexValue a + 256 * hexValue b + 16 * hexValue c + hexValue d

/-- The character of one code unit, or of a pair. -/
def unescapeUnit (high : Nat) (rest : List Char) : Option (Char × List Char) :=
  if 0xd800 ≤ high ∧ high < 0xdc00 then
    match rest with
    | '\\' :: 'u' :: a :: b :: c :: d :: rest =>
      some (Char.ofNat (0x10000 + 1024 * (high - 0xd800) + (value4 a b c d - 0xdc00)), rest)
    | _ => none
  else some (Char.ofNat high, rest)

/-- The character at the start of the inside of a string, and what follows it. -/
def unescape : List Char → Option (Char × List Char)
  | '\\' :: 'u' :: a :: b :: c :: d :: rest => unescapeUnit (value4 a b c d) rest
  | '\\' :: 'n' :: rest => some ('\n', rest)
  | '\\' :: 'r' :: rest => some ('\r', rest)
  | '\\' :: 't' :: rest => some ('\t', rest)
  | '\\' :: 'b' :: rest => some (Char.ofNat 8, rest)
  | '\\' :: 'f' :: rest => some (Char.ofNat 12, rest)
  | '\\' :: c :: rest => some (c, rest)
  | c :: rest => some (c, rest)
  | [] => none

theorem hexValue_digitChar : ∀ k < 16, hexValue (Nat.digitChar k) = k := by decide

theorem value4_hex4 {n : Nat} (h : n < 65536) :
    value4 (Nat.digitChar (n / 4096 % 16)) (Nat.digitChar (n / 256 % 16)) (Nat.digitChar (n / 16 % 16))
      (Nat.digitChar (n % 16)) = n := by
  unfold value4
  rw [hexValue_digitChar _ (Nat.mod_lt _ (by decide)), hexValue_digitChar _ (Nat.mod_lt _ (by decide)),
    hexValue_digitChar _ (Nat.mod_lt _ (by decide)), hexValue_digitChar _ (Nat.mod_lt _ (by decide))]
  omega

theorem toNat_bounds (c : Char) : c.toNat < 0xd800 ∨ 0xdfff < c.toNat ∧ c.toNat < 0x110000 := c.valid

theorem unescape_hex4 {n : Nat} (h : n < 65536) (r : List Char) : unescape ('\\' :: 'u' :: hex4 n ++ r) = unescapeUnit n r := by
  have hvalue := value4_hex4 h
  conv_rhs => rw [← hvalue]
  rfl

theorem unescape_unit {c : Char} (h : c.toNat < 0x10000) (r : List Char) :
    unescape ('\\' :: 'u' :: hex4 c.toNat ++ r) = some (c, r) := by
  have hvalid := toNat_bounds c
  rw [unescape_hex4 h]
  unfold unescapeUnit
  rw [if_neg (by omega), Char.ofNat_toNat]

theorem unescapeUnit_pair {high low : Nat} (h : 0xd800 ≤ high) (h' : high < 0xdc00) (hlow : low < 65536) (r : List Char) :
    unescapeUnit high ('\\' :: 'u' :: hex4 low ++ r) =
      some (Char.ofNat (0x10000 + 1024 * (high - 0xd800) + (low - 0xdc00)), r) := by
  have hvalue := value4_hex4 hlow
  conv_rhs => rw [← hvalue]
  unfold unescapeUnit
  rw [if_pos ⟨h, h'⟩]
  rfl

theorem unescape_pair {c : Char} (h : 0x10000 ≤ c.toNat) (r : List Char) :
    unescape ('\\' :: 'u' :: hex4 (0xd800 + (c.toNat - 0x10000) / 1024) ++
      '\\' :: 'u' :: hex4 (0xdc00 + (c.toNat - 0x10000) % 1024) ++ r) = some (c, r) := by
  have hvalid := toNat_bounds c
  rw [List.append_assoc, unescape_hex4 (by omega), unescapeUnit_pair (by omega) (by omega) (by omega), show 0x10000 + 1024 * (0xd800 + (c.toNat - 0x10000) / 1024 - 0xd800) +
    (0xdc00 + (c.toNat - 0x10000) % 1024 - 0xdc00) = c.toNat by omega, Char.ofNat_toNat]

theorem unescape_plain {c : Char} (h : c ≠ '\\') (r : List Char) : unescape (c :: r) = some (c, r) := by
  unfold unescape
  split
  case h_8 heq =>
    cases heq
    rfl
  case h_9 heq => cases heq
  all_goals next heq => exact absurd (List.cons.inj heq).1 h

theorem unescape_escape (c : Char) (r : List Char) : unescape (escape c ++ r) = some (c, r) := by
  unfold escape
  by_cases hquote : c = '"'
  · rw [if_pos hquote, hquote]
    rfl
  rw [if_neg hquote]
  by_cases hslash : c = '\\'
  · rw [if_pos hslash, hslash]
    rfl
  rw [if_neg hslash]
  by_cases hn : c = '\n'
  · rw [if_pos hn, hn]
    rfl
  rw [if_neg hn]
  by_cases hr : c = '\r'
  · rw [if_pos hr, hr]
    rfl
  rw [if_neg hr]
  by_cases ht : c = '\t'
  · rw [if_pos ht, ht]
    rfl
  rw [if_neg ht]
  by_cases hb : c.toNat = 8
  · rw [if_pos hb, ← Char.ofNat_toNat c, hb]
    rfl
  rw [if_neg hb]
  by_cases hf : c.toNat = 12
  · rw [if_pos hf, ← Char.ofNat_toNat c, hf]
    rfl
  rw [if_neg hf]
  by_cases hplain : 32 ≤ c.toNat ∧ c.toNat ≤ 126
  · rw [if_pos hplain]
    exact unescape_plain hslash r
  rw [if_neg hplain]
  by_cases hunit : c.toNat < 0x10000
  · rw [if_pos hunit]
    exact unescape_unit hunit r
  · rw [if_neg hunit]
    exact unescape_pair (by omega) r

/-- The codes of characters are prefix-free. -/
theorem escape_unique {c d : Char} {r s : List Char} (h : escape c ++ r = escape d ++ s) : c = d ∧ r = s := by
  have hread := congrArg unescape h
  rw [unescape_escape, unescape_escape, Option.some.injEq, Prod.mk.injEq] at hread
  exact hread

theorem escape_quote {c : Char} {r s : List Char} (h : escape c ++ r = '"' :: s) : False := by
  have hread := unescape_escape c r
  rw [h, unescape_plain (by decide), Option.some.injEq, Prod.mk.injEq] at hread
  rw [← hread.1] at h
  exact absurd (List.cons.inj h).1 (by decide)

def quoteTail : List Char → List Char
  | [] => ['"']
  | c :: s => escape c ++ quoteTail s

/-- A string literal. -/
def quote (s : List Char) : List Char := '"' :: quoteTail s

theorem quoteTail_unique {s t r u : List Char} (h : quoteTail s ++ r = quoteTail t ++ u) : s = t ∧ r = u := by
  induction s generalizing t with
  | nil =>
    cases t with
    | nil => exact ⟨rfl, (List.cons.inj h).2⟩
    | cons d t =>
      rw [quoteTail, quoteTail, List.append_assoc] at h
      exact (escape_quote h.symm).elim
  | cons c s ih =>
    cases t with
    | nil =>
      rw [quoteTail, quoteTail, List.append_assoc] at h
      exact (escape_quote h).elim
    | cons d t =>
      rw [quoteTail, quoteTail, List.append_assoc, List.append_assoc] at h
      obtain ⟨rfl, hrest⟩ := escape_unique h
      obtain ⟨rfl, rfl⟩ := ih hrest
      exact ⟨rfl, rfl⟩

theorem quote_unique {s t r u : List Char} (h : quote s ++ r = quote t ++ u) : s = t ∧ r = u :=
  quoteTail_unique (List.cons.inj h).2

/-! ## Values -/

inductive Json (N : Type) where
  | null
  | bool (b : Bool)
  | num (n : N)
  | str (s : List Char)
  | arr (items : List (Json N))
  | obj (fields : List (List Char × Json N))

/-- The characters of number literals. -/
def numeral (c : Char) : Bool := c.isDigit || decide (c ∈ ['-', '+', '.', 'e'])

/-- Texts that a number literal does not run into. -/
def Stops (r : List Char) : Prop := ∀ c, r.head? = some c → numeral c = false

/-- Number literals of numeral characters, that say their number. -/
structure Literals {N : Type} (lit : N → List Char) : Prop where
  ne_nil : ∀ n, lit n ≠ []
  numeral : ∀ n, ∀ c ∈ lit n, numeral c = true
  injective : Function.Injective lit

theorem stops_nil : Stops [] := fun _ h => nomatch h

theorem stops_cons {c : Char} {r : List Char} (h : numeral c = false) : Stops (c :: r) := by
  intro d hd
  rw [← Option.some.inj hd]
  exact h

theorem Literals.unique {N : Type} {lit : N → List Char} (h : Literals lit) {m n : N} {r s : List Char} (hr : Stops r)
    (hs : Stops s) (heq : lit m ++ r = lit n ++ s) : m = n ∧ r = s := by
  have htake : ∀ (k : N) (t : List Char), Stops t → (lit k ++ t).takeWhile Lib.numeral = lit k := by
    intro k t ht
    rw [List.takeWhile_append_of_pos (h.numeral k)]
    cases t with
    | nil => exact List.append_nil _
    | cons c t => rw [List.takeWhile_cons_of_neg (by rw [ht c rfl]; decide), List.append_nil]
  have hlit := congrArg (List.takeWhile Lib.numeral) heq
  rw [htake m r hr, htake n s hs] at hlit
  obtain rfl := h.injective hlit
  exact ⟨rfl, List.append_cancel_left heq⟩

namespace Json
variable {N M : Type}

section Print
variable (lit : N → List Char)

mutual

def print : Json N → List Char
  | .null => "null".toList
  | .bool true => "true".toList
  | .bool false => "false".toList
  | .num n => lit n
  | .str s => quote s
  | .arr items => '[' :: printItems true items
  | .obj fields => '{' :: printFields true fields

def printItems : Bool → List (Json N) → List Char
  | _, [] => [']']
  | true, v :: rest => print v ++ printItems false rest
  | false, v :: rest => ',' :: (print v ++ printItems false rest)

def printFields : Bool → List (List Char × Json N) → List Char
  | _, [] => ['}']
  | true, (k, v) :: rest => quote k ++ ':' :: (print v ++ printFields false rest)
  | false, (k, v) :: rest => ',' :: (quote k ++ ':' :: (print v ++ printFields false rest))

end

end Print

/-- Which constructor a value has, and which its text's first character says. -/
def shape : Json N → Nat
  | .null => 0
  | .bool true => 1
  | .bool false => 2
  | .num _ => 3
  | .str _ => 4
  | .arr _ => 5
  | .obj _ => 6

def shapeOf (c : Char) : Nat :=
  if c = 'n' then 0 else if c = 't' then 1 else if c = 'f' then 2 else if numeral c then 3
  else if c = '"' then 4 else if c = '[' then 5 else if c = '{' then 6 else 7

section Unique
variable {lit : N → List Char}

theorem shapeOf_numeral {c : Char} (h : numeral c = true) : shapeOf c = 3 := by
  unfold shapeOf
  rw [if_neg, if_neg, if_neg, if_pos h]
  all_goals
    rintro rfl
    exact absurd h (by decide)

theorem print_head (h : Literals lit) (v : Json N) : ∃ c t, print lit v = c :: t ∧ shapeOf c = v.shape := by
  cases v with
  | null => exact ⟨_, _, rfl, rfl⟩
  | bool b => cases b <;> exact ⟨_, _, rfl, rfl⟩
  | num n =>
    obtain ⟨c, t, hct⟩ := List.exists_cons_of_ne_nil (h.ne_nil n)
    refine ⟨c, t, hct, shapeOf_numeral (h.numeral n c ?_)⟩
    rw [hct]
    exact List.mem_cons_self
  | str s => exact ⟨_, _, rfl, rfl⟩
  | arr items => exact ⟨_, _, rfl, rfl⟩
  | obj fields => exact ⟨_, _, rfl, rfl⟩

theorem shape_eq (h : Literals lit) {v w : Json N} {r s : List Char} (heq : print lit v ++ r = print lit w ++ s) :
    v.shape = w.shape := by
  obtain ⟨c, t, hv, hc⟩ := print_head h v
  obtain ⟨d, u, hw, hd⟩ := print_head h w
  rw [hv, hw] at heq
  rw [← hc, ← hd, (List.cons.inj heq).1]

/-- No value starts as what stands after one. -/
theorem print_ne (h : Literals lit) {v : Json N} {c : Char} {r s : List Char} (hc : shapeOf c = 7)
    (heq : print lit v ++ r = c :: s) : False := by
  obtain ⟨d, t, hv, hd⟩ := print_head h v
  rw [hv] at heq
  rw [(List.cons.inj heq).1, hc] at hd
  cases v with
  | bool b => cases b <;> cases hd
  | _ => cases hd

theorem printItems_cons (first : Bool) (v : Json N) (vs : List (Json N)) :
    printItems lit first (v :: vs) = (if first then [] else [',']) ++ (print lit v ++ printItems lit false vs) := by
  cases first <;> rfl

theorem printFields_cons (first : Bool) (k : List Char) (v : Json N) (vs : List (List Char × Json N)) :
    printFields lit first ((k, v) :: vs) =
      (if first then [] else [',']) ++ (quote k ++ ':' :: (print lit v ++ printFields lit false vs)) := by
  cases first <;> rfl

theorem stops_printItems (items : List (Json N)) (r : List Char) : Stops (printItems lit false items ++ r) := by
  cases items <;> exact stops_cons (by decide)

theorem stops_printFields (fields : List (List Char × Json N)) (r : List Char) :
    Stops (printFields lit false fields ++ r) := by
  cases fields <;> exact stops_cons (by decide)

mutual

/-- A text before a rest is the text of one value. -/
theorem print_unique (h : Literals lit) : ∀ (v w : Json N) {r s : List Char}, Stops r → Stops s →
    print lit v ++ r = print lit w ++ s → v = w ∧ r = s
  | .null, w, r, s, _, _, heq => by
    cases w with
    | null => exact ⟨rfl, List.append_cancel_left heq⟩
    | bool b => cases b <;> cases shape_eq h heq
    | _ => cases shape_eq h heq
  | .bool b, w, r, s, _, _, heq => by
    cases w with
    | bool b' => cases b <;> cases b' <;> first | exact ⟨rfl, List.append_cancel_left heq⟩ | cases shape_eq h heq
    | _ => cases b <;> cases shape_eq h heq
  | .num n, w, r, s, hr, hs, heq => by
    cases w with
    | num n' =>
      obtain ⟨rfl, hrest⟩ := h.unique hr hs heq
      exact ⟨rfl, hrest⟩
    | bool b => cases b <;> cases shape_eq h heq
    | _ => cases shape_eq h heq
  | .str t, w, r, s, _, _, heq => by
    cases w with
    | str t' =>
      obtain ⟨rfl, hrest⟩ := quote_unique heq
      exact ⟨rfl, hrest⟩
    | bool b => cases b <;> cases shape_eq h heq
    | _ => cases shape_eq h heq
  | .arr items, w, r, s, _, _, heq => by
    cases w with
    | arr items' =>
      obtain ⟨rfl, hrest⟩ := printItems_unique h true items items' (List.cons.inj heq).2
      exact ⟨rfl, hrest⟩
    | bool b => cases b <;> cases shape_eq h heq
    | _ => cases shape_eq h heq
  | .obj fields, w, r, s, _, _, heq => by
    cases w with
    | obj fields' =>
      obtain ⟨rfl, hrest⟩ := printFields_unique h true fields fields' (List.cons.inj heq).2
      exact ⟨rfl, hrest⟩
    | bool b => cases b <;> cases shape_eq h heq
    | _ => cases shape_eq h heq

theorem printItems_unique (h : Literals lit) : ∀ (first : Bool) (vs ws : List (Json N)) {r s : List Char},
    printItems lit first vs ++ r = printItems lit first ws ++ s → vs = ws ∧ r = s
  | first, [], ws, r, s, heq => by
    cases ws with
    | nil => cases first <;> exact ⟨rfl, (List.cons.inj heq).2⟩
    | cons w ws =>
      cases first with
      | false => exact absurd (List.cons.inj heq).1 (by decide)
      | true =>
        rw [printItems_cons, List.append_assoc, List.append_assoc] at heq
        exact (print_ne h (by decide) heq.symm).elim
  | first, v :: vs, [], r, s, heq => by
    cases first with
    | false => exact absurd (List.cons.inj heq).1 (by decide)
    | true =>
      rw [printItems_cons, List.append_assoc, List.append_assoc] at heq
      exact (print_ne h (by decide) heq).elim
  | first, v :: vs, w :: ws, r, s, heq => by
    have htail : print lit v ++ (printItems lit false vs ++ r) = print lit w ++ (printItems lit false ws ++ s) := by
      simp only [printItems_cons, List.append_assoc] at heq
      exact List.append_cancel_left heq
    obtain ⟨rfl, hrest⟩ := print_unique h v w (stops_printItems vs r) (stops_printItems ws s) htail
    obtain ⟨rfl, hafter⟩ := printItems_unique h false vs ws hrest
    exact ⟨rfl, hafter⟩

theorem printFields_unique (h : Literals lit) : ∀ (first : Bool) (vs ws : List (List Char × Json N)) {r s : List Char},
    printFields lit first vs ++ r = printFields lit first ws ++ s → vs = ws ∧ r = s
  | first, [], ws, r, s, heq => by
    cases ws with
    | nil => cases first <;> exact ⟨rfl, (List.cons.inj heq).2⟩
    | cons w ws => cases first <;> exact absurd (List.cons.inj heq).1 (by decide)
  | first, v :: vs, [], r, s, heq => by
    cases first <;> exact absurd (List.cons.inj heq).1 (by decide)
  | first, (k, v) :: vs, (k', w) :: ws, r, s, heq => by
    have htail : quote k ++ ':' :: (print lit v ++ (printFields lit false vs ++ r)) =
        quote k' ++ ':' :: (print lit w ++ (printFields lit false ws ++ s)) := by
      simp only [printFields_cons, List.append_assoc, List.cons_append] at heq
      exact List.append_cancel_left heq
    obtain ⟨rfl, hvalue⟩ := quote_unique htail
    obtain ⟨rfl, hrest⟩ := print_unique h v w (stops_printFields vs r) (stops_printFields ws s) (List.cons.inj hvalue).2
    obtain ⟨rfl, hafter⟩ := printFields_unique h false vs ws hrest
    exact ⟨rfl, hafter⟩

end

theorem print_injective (h : Literals lit) : Function.Injective (print lit) := by
  intro v w heq
  have heq' : print lit v ++ [] = print lit w ++ [] := by rw [heq]
  exact (print_unique h v w stops_nil stops_nil heq').1

end Unique

end Json

/-! ## The order of keys -/

namespace Json
variable {N M : Type}

mutual

theorem ind {P : Json N → Prop} (hnull : P .null) (hbool : ∀ b, P (.bool b)) (hnum : ∀ n, P (.num n)) (hstr : ∀ s, P (.str s))
    (harr : ∀ items, (∀ v ∈ items, P v) → P (.arr items)) (hobj : ∀ fields, (∀ p ∈ fields, P p.2) → P (.obj fields)) :
    ∀ v, P v
  | .null => hnull
  | .bool b => hbool b
  | .num n => hnum n
  | .str s => hstr s
  | .arr items => harr items (indItems hnull hbool hnum hstr harr hobj items)
  | .obj fields => hobj fields (indFields hnull hbool hnum hstr harr hobj fields)

theorem indItems {P : Json N → Prop} (hnull : P .null) (hbool : ∀ b, P (.bool b)) (hnum : ∀ n, P (.num n))
    (hstr : ∀ s, P (.str s)) (harr : ∀ items, (∀ v ∈ items, P v) → P (.arr items))
    (hobj : ∀ fields, (∀ p ∈ fields, P p.2) → P (.obj fields)) : ∀ items : List (Json N), ∀ v ∈ items, P v
  | [] => fun _ hv => nomatch hv
  | w :: rest => List.forall_mem_cons.mpr
    ⟨ind hnull hbool hnum hstr harr hobj w, indItems hnull hbool hnum hstr harr hobj rest⟩

theorem indFields {P : Json N → Prop} (hnull : P .null) (hbool : ∀ b, P (.bool b)) (hnum : ∀ n, P (.num n))
    (hstr : ∀ s, P (.str s)) (harr : ∀ items, (∀ v ∈ items, P v) → P (.arr items))
    (hobj : ∀ fields, (∀ p ∈ fields, P p.2) → P (.obj fields)) :
    ∀ fields : List (List Char × Json N), ∀ p ∈ fields, P p.2
  | [] => fun _ hp => nomatch hp
  | (_, w) :: rest => List.forall_mem_cons.mpr
    ⟨ind hnull hbool hnum hstr harr hobj w, indFields hnull hbool hnum hstr harr hobj rest⟩

end

section Rebuild
variable (f : N → M) (order : List (List Char × Json M) → List (List Char × Json M))

mutual

/-- A value with its numbers mapped and the fields of each object put into another order. -/
def rebuild : Json N → Json M
  | .null => .null
  | .bool b => .bool b
  | .num n => .num (f n)
  | .str s => .str s
  | .arr items => .arr (rebuildItems items)
  | .obj fields => .obj (order (rebuildFields fields))

def rebuildItems : List (Json N) → List (Json M)
  | [] => []
  | v :: rest => rebuild v :: rebuildItems rest

def rebuildFields : List (List Char × Json N) → List (List Char × Json M)
  | [] => []
  | (k, v) :: rest => (k, rebuild v) :: rebuildFields rest

end

/-- A field with its value rebuilt. -/
def rebuildField (p : List Char × Json N) : List Char × Json M := (p.1, rebuild f order p.2)

theorem rebuild_arr (items : List (Json N)) : rebuild f order (.arr items) = .arr (items.map (rebuild f order)) := by
  have hitems : rebuildItems f order items = items.map (rebuild f order) := by
    induction items with
    | nil => rfl
    | cons v rest ih => exact congrArg _ ih
  exact congrArg _ hitems

theorem rebuild_obj (fields : List (List Char × Json N)) :
    rebuild f order (.obj fields) = .obj (order (fields.map (rebuildField f order))) := by
  have hfields : rebuildFields f order fields = fields.map (rebuildField f order) := by
    induction fields with
    | nil => rfl
    | cons p rest ih => exact congrArg _ ih
  exact congrArg _ (congrArg order hfields)

end Rebuild

/-- The fields by their keys. -/
def sortFields (fields : List (List Char × Json N)) : List (List Char × Json N) :=
  fields.insertionSort fun p q => p.1 ≤ q.1

/-- A value with the fields of each object by their keys. -/
def normal : Json N → Json N := rebuild id sortFields

/-- `json.dumps` with sorted keys. -/
def canonical (lit : N → List Char) (v : Json N) : List Char := print lit (normal v)

mutual

/-- The values that a value is made of, itself first. -/
def parts : Json N → List (Json N)
  | .arr items => .arr items :: partsItems items
  | .obj fields => .obj fields :: partsFields fields
  | .null => [.null]
  | .bool b => [.bool b]
  | .num n => [.num n]
  | .str s => [.str s]

def partsItems : List (Json N) → List (Json N)
  | [] => []
  | v :: rest => parts v ++ partsItems rest

def partsFields : List (List Char × Json N) → List (Json N)
  | [] => []
  | (_, v) :: rest => parts v ++ partsFields rest

end

theorem parts_arr (items : List (Json N)) : parts (.arr items) = .arr items :: items.flatMap parts := by
  have hitems : partsItems items = items.flatMap parts := by
    induction items with
    | nil => rfl
    | cons v rest ih => exact congrArg _ ih
  exact congrArg _ hitems

theorem parts_obj (fields : List (List Char × Json N)) :
    parts (.obj fields) = .obj fields :: fields.flatMap fun p => parts p.2 := by
  have hfields : partsFields fields = fields.flatMap fun p => parts p.2 := by
    induction fields with
    | nil => rfl
    | cons p rest ih => exact congrArg _ ih
  exact congrArg _ hfields

/-- No object has a key twice. -/
def Distinct (v : Json N) : Prop := ∀ fields, .obj fields ∈ parts v → (fields.map Prod.fst).Nodup

theorem Distinct.item {items : List (Json N)} (h : Distinct (.arr items)) {v : Json N} (hv : v ∈ items) : Distinct v := by
  intro fields hfields
  refine h fields ?_
  rw [parts_arr]
  exact List.mem_cons_of_mem _ (List.mem_flatMap.mpr ⟨v, hv, hfields⟩)

theorem Distinct.field {fields : List (List Char × Json N)} (h : Distinct (.obj fields)) {p : List Char × Json N}
    (hp : p ∈ fields) : Distinct p.2 := by
  intro fields' hfields
  refine h fields' ?_
  rw [parts_obj]
  exact List.mem_cons_of_mem _ (List.mem_flatMap.mpr ⟨p, hp, hfields⟩)

theorem Distinct.keys {fields : List (List Char × Json N)} (h : Distinct (.obj fields)) : (fields.map Prod.fst).Nodup := by
  refine h fields ?_
  rw [parts_obj]
  exact List.mem_cons_self

theorem sortFields_perm (fields : List (List Char × Json N)) : (sortFields fields).Perm fields :=
  List.perm_insertionSort _ _

/-- Fields with distinct keys are sorted in one way. -/
theorem sortFields_eq {fields gields : List (List Char × Json N)} (hkeys : (fields.map Prod.fst).Nodup)
    (h : fields.Perm gields) : sortFields fields = sortFields gields := by
  have hsorted : ∀ l : List (List Char × Json N), (sortFields l).Pairwise fun p q => p.1 ≤ q.1 :=
    fun l => List.pairwise_insertionSort _ l
  refine List.Perm.eq_of_pairwise (fun p q hp hq hpq hqp => ?_) (hsorted fields) (hsorted gields)
    ((sortFields_perm fields).trans (h.trans (sortFields_perm gields).symm))
  have hp' : p ∈ fields := (sortFields_perm fields).mem_iff.mp hp
  have hq' : q ∈ fields := h.mem_iff.mpr ((sortFields_perm gields).mem_iff.mp hq)
  exact List.inj_on_of_nodup_map hkeys hp' hq' (le_antisymm hpq hqp)

end Json

/-! ## Canonical texts -/

namespace Json
variable {N M K : Type}

theorem keys_rebuild (f : N → M) (order : List (List Char × Json M) → List (List Char × Json M))
    (fields : List (List Char × Json N)) : (fields.map (rebuildField f order)).map Prod.fst = fields.map Prod.fst := by
  rw [List.map_map]
  rfl

theorem distinct_rebuild {f : N → M} {order : List (List Char × Json M) → List (List Char × Json M)}
    (hperm : ∀ l, (order l).Perm l) {v : Json N} (h : Distinct v) : Distinct (rebuild f order v) := by
  induction v using ind with
  | hnull => exact fun fields hfields => nomatch List.mem_singleton.mp hfields
  | hbool b => exact fun fields hfields => nomatch List.mem_singleton.mp hfields
  | hnum n => exact fun fields hfields => nomatch List.mem_singleton.mp hfields
  | hstr s => exact fun fields hfields => nomatch List.mem_singleton.mp hfields
  | harr items ih =>
    intro fields hfields
    rw [rebuild_arr, parts_arr, List.mem_cons, List.mem_flatMap] at hfields
    obtain hself | ⟨v', hv', hfields⟩ := hfields
    · cases hself
    · obtain ⟨v, hv, rfl⟩ := List.mem_map.mp hv'
      exact ih v hv (h.item hv) fields hfields
  | hobj fs ih =>
    intro fields hfields
    rw [rebuild_obj, parts_obj, List.mem_cons, List.mem_flatMap] at hfields
    obtain hself | ⟨p', hp', hfields⟩ := hfields
    · cases hself
      rw [((hperm _).map Prod.fst).nodup_iff, keys_rebuild]
      exact h.keys
    · obtain ⟨p, hp, rfl⟩ := List.mem_map.mp ((hperm _).mem_iff.mp hp')
      exact ih p hp (h.field hp) fields hfields

/-- The numbers of a value that is rebuilt are those of the value, mapped. -/
theorem num_mem_rebuild {f : N → M} {order : List (List Char × Json M) → List (List Char × Json M)}
    (hperm : ∀ l, (order l).Perm l) {v : Json N} {m : M} (h : .num m ∈ parts (rebuild f order v)) :
    ∃ n, .num n ∈ parts v ∧ f n = m := by
  induction v using ind with
  | hnull => exact nomatch List.mem_singleton.mp h
  | hbool b => exact nomatch List.mem_singleton.mp h
  | hnum n => exact ⟨n, List.mem_cons_self, (Json.num.inj (List.mem_singleton.mp h)).symm⟩
  | hstr s => exact nomatch List.mem_singleton.mp h
  | harr items ih =>
    rw [rebuild_arr, parts_arr, List.mem_cons, List.mem_flatMap] at h
    obtain hself | ⟨v', hv', h⟩ := h
    · cases hself
    · obtain ⟨v, hv, rfl⟩ := List.mem_map.mp hv'
      obtain ⟨n, hn, hfn⟩ := ih v hv h
      refine ⟨n, ?_, hfn⟩
      rw [parts_arr]
      exact List.mem_cons_of_mem _ (List.mem_flatMap.mpr ⟨v, hv, hn⟩)
  | hobj fields ih =>
    rw [rebuild_obj, parts_obj, List.mem_cons, List.mem_flatMap] at h
    obtain hself | ⟨p', hp', h⟩ := h
    · cases hself
    · obtain ⟨p, hp, rfl⟩ := List.mem_map.mp ((hperm _).mem_iff.mp hp')
      obtain ⟨n, hn, hfn⟩ := ih p hp h
      refine ⟨n, ?_, hfn⟩
      rw [parts_obj]
      exact List.mem_cons_of_mem _ (List.mem_flatMap.mpr ⟨p, hp, hn⟩)

/-- What comes after sorting does not see an order before it. -/
theorem rebuild_rebuild {f : M → K} {g : N → M} {order : List (List Char × Json M) → List (List Char × Json M)}
    (hperm : ∀ l, (order l).Perm l) {v : Json N} (h : Distinct v) :
    rebuild f sortFields (rebuild g order v) = rebuild (f ∘ g) sortFields v := by
  induction v using ind with
  | hnull => rfl
  | hbool b => rfl
  | hnum n => rfl
  | hstr s => rfl
  | harr items ih =>
    rw [rebuild_arr, rebuild_arr, rebuild_arr, List.map_map]
    exact congrArg Json.arr (List.map_congr_left fun v hv => ih v hv (h.item hv))
  | hobj fields ih =>
    rw [rebuild_obj, rebuild_obj, rebuild_obj]
    have hmap : (fields.map (rebuildField g order)).map (rebuildField f sortFields) =
        fields.map (rebuildField (f ∘ g) sortFields) := by
      rw [List.map_map]
      exact List.map_congr_left fun p hp => congrArg (Prod.mk p.1) (ih p hp (h.field hp))
    refine congrArg Json.obj (sortFields_eq ?_ ?_)
    · rw [keys_rebuild, ((hperm _).map Prod.fst).nodup_iff, keys_rebuild]
      exact h.keys
    · rw [← hmap]
      exact (hperm _).map _

/-- Sorted fields are the same exactly if each field is. -/
theorem sortFields_map_inj {fields : List (List Char × Json N)} (hkeys : (fields.map Prod.fst).Nodup)
    {g h : List Char × Json N → List Char × Json M} (hg : ∀ p, (g p).1 = p.1) (hh : ∀ p, (h p).1 = p.1) :
    sortFields (fields.map g) = sortFields (fields.map h) ↔ ∀ p ∈ fields, g p = h p := by
  refine ⟨fun heq p hp => ?_, fun heq => by rw [List.map_congr_left heq]⟩
  have hmem : g p ∈ fields.map h := by
    rw [← (sortFields_perm _).mem_iff, ← heq, (sortFields_perm _).mem_iff]
    exact List.mem_map_of_mem hp
  obtain ⟨q, hq, hqp⟩ := List.mem_map.mp hmem
  have hkey : q.1 = p.1 := by rw [← hh q, hqp, hg p]
  rw [← hqp, List.inj_on_of_nodup_map hkeys hq hp hkey]

/-- A change of numbers is not seen exactly if it changes none. -/
theorem rebuild_eq_normal_iff {f : N → N} {v : Json N} (h : Distinct v) :
    rebuild f sortFields v = normal v ↔ ∀ n, .num n ∈ parts v → f n = n := by
  unfold normal
  induction v using ind with
  | hnull => exact iff_of_true rfl fun n hn => nomatch List.mem_singleton.mp hn
  | hbool b => exact iff_of_true rfl fun n hn => nomatch List.mem_singleton.mp hn
  | hnum m =>
    constructor
    · intro heq n hn
      cases List.mem_singleton.mp hn
      exact Json.num.inj heq
    · intro hall
      exact congrArg Json.num (hall m List.mem_cons_self)
  | hstr s => exact iff_of_true rfl fun n hn => nomatch List.mem_singleton.mp hn
  | harr items ih =>
    rw [rebuild_arr, rebuild_arr, Json.arr.injEq, List.map_inj_left, parts_arr]
    constructor
    · intro hall n hn
      obtain hself | hn := List.mem_cons.mp hn
      · cases hself
      · obtain ⟨v, hv, hn⟩ := List.mem_flatMap.mp hn
        exact (ih v hv (h.item hv)).mp (hall v hv) n hn
    · intro hall v hv
      exact (ih v hv (h.item hv)).mpr fun n hn =>
        hall n (List.mem_cons_of_mem _ (List.mem_flatMap.mpr ⟨v, hv, hn⟩))
  | hobj fields ih =>
    have hsorted := sortFields_map_inj h.keys (g := rebuildField f sortFields) (h := rebuildField id sortFields)
      (fun _ => rfl) fun _ => rfl
    rw [rebuild_obj, rebuild_obj, Json.obj.injEq, hsorted, parts_obj]
    constructor
    · intro hall n hn
      obtain hself | hn := List.mem_cons.mp hn
      · cases hself
      · obtain ⟨p, hp, hn⟩ := List.mem_flatMap.mp hn
        exact (ih p hp (h.field hp)).mp (congrArg Prod.snd (hall p hp)) n hn
    · intro hall p hp
      exact congrArg (Prod.mk p.1) ((ih p hp (h.field hp)).mpr fun n hn =>
        hall n (List.mem_cons_of_mem _ (List.mem_flatMap.mpr ⟨p, hp, hn⟩)))

/-- Objects that are normal alike are alike at each key. -/
theorem normal_field {fields gields : List (List Char × Json N)} (heq : normal (.obj fields) = normal (.obj gields))
    (hkeys : (gields.map Prod.fst).Nodup) {k : List Char} {v w : Json N} (hv : (k, v) ∈ fields) (hw : (k, w) ∈ gields) :
    normal v = normal w := by
  unfold normal at heq
  rw [rebuild_obj, rebuild_obj, Json.obj.injEq] at heq
  have hmem : rebuildField id sortFields (k, v) ∈ gields.map (rebuildField id sortFields) := by
    rw [← (sortFields_perm _).mem_iff, ← heq, (sortFields_perm _).mem_iff]
    exact List.mem_map_of_mem hv
  obtain ⟨q, hq, hqv⟩ := List.mem_map.mp hmem
  have hkey : q.1 = k := congrArg Prod.fst hqv
  have hsame : q = (k, w) := List.inj_on_of_nodup_map hkeys hq hw hkey
  rw [hsame] at hqv
  exact (congrArg Prod.snd hqv).symm

theorem canonical_injective {lit : N → List Char} (h : Literals lit) {v w : Json N}
    (heq : canonical lit v = canonical lit w) : normal v = normal w :=
  print_injective h heq

end Json
end ChessCrawl.Lib
