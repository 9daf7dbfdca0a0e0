import ChessCrawl.Lib.Json
import Mathlib.Algebra.Group.Nat.Defs

/-! The values of a provider's object and the texts that `str` and `json.dumps` make of them. CPython writes an integer of at
most 4300 digits, so a value with a longer one anywhere inside has no text. -/
namespace ChessCrawl.Evidence
open ChessCrawl.Lib
set_option autoImplicit false

abbrev Text := List Char

/-- A float is its `repr`. -/
inductive NativeNumber
  | int (n : Int)
  | float (repr : Text)
deriving DecidableEq, Repr

/-- A value of `json.loads`; an object has its fields in order. -/
abbrev Native := Json NativeNumber

namespace Native

/-- `bool(value)` -/
def truthy : Native → Bool
  | .null => false
  | .bool b => b
  | .num (.int n) => decide (n ≠ 0)
  | .num (.float repr) => decide (repr ≠ "0.0".toList ∧ repr ≠ "-0.0".toList)
  | .str s => !s.isEmpty
  | .arr items => !items.isEmpty
  | .obj fields => !fields.isEmpty

/-- `a or b` -/
def or (a b : Native) : Native := if truthy a then a else b

/-! ## Texts -/

/-- `repr` of a number. -/
def number : NativeNumber → Text
  | .int n => (if n < 0 then ['-'] else []) ++ Nat.toDigits 10 n.natAbs
  | .float repr => repr

/-- `json.dumps` of a number, with its words for the floats that are none. -/
def jsonNumber (n : NativeNumber) : Text :=
  if number n = "nan".toList then "NaN".toList
  else if number n = "inf".toList then "Infinity".toList
  else if number n = "-inf".toList then "-Infinity".toList
  else number n

section Repr
variable (quoted : Text → Text)

mutual

/-- `repr`, with `quoted` for the `repr` of a text. -/
def repr : Native → Text
  | .null => "None".toList
  | .bool true => "True".toList
  | .bool false => "False".toList
  | .num n => number n
  | .str s => quoted s
  | .arr items => '[' :: reprItems true items
  | .obj fields => '{' :: reprFields true fields

def reprItems : Bool → List Native → Text
  | _, [] => [']']
  | true, v :: rest => repr v ++ reprItems false rest
  | false, v :: rest => ", ".toList ++ (repr v ++ reprItems false rest)

def reprFields : Bool → List (Text × Native) → Text
  | _, [] => ['}']
  | true, (k, v) :: rest => quoted k ++ ": ".toList ++ (repr v ++ reprFields false rest)
  | false, (k, v) :: rest => ", ".toList ++ (quoted k ++ ": ".toList ++ (repr v ++ reprFields false rest))

end

end Repr

/-- Every integer inside has a text. -/
def Printable (v : Native) : Prop := ∀ n, .num (.int n) ∈ v.parts → n.natAbs < 10 ^ 4300

/-- The integers inside a value. -/
def integers (v : Native) : List Int := v.parts.filterMap fun
  | .num (.int n) => some n
  | _ => none

theorem mem_integers {v : Native} {n : Int} : n ∈ integers v ↔ .num (.int n) ∈ v.parts := by
  unfold integers
  rw [List.mem_filterMap]
  constructor
  · rintro ⟨p, hp, hn⟩
    split at hn
    · cases hn
      exact hp
    · cases hn
  · exact fun h => ⟨_, h, rfl⟩

instance (v : Native) : Decidable (Printable v) :=
  decidable_of_iff (∀ n ∈ integers v, n.natAbs < 10 ^ 4300) (forall_congr' fun _ => by rw [mem_integers])

def tooLong : Text := "Exceeds the limit (4300 digits) for integer string conversion".toList

/-- `str(value)` -/
def pyStr (quoted : Text → Text) : Native → Except Text Text
  | .str s => .ok s
  | v => if Printable v then .ok (repr quoted v) else .error tooLong

/-- `json.dumps(value, separators=(",", ":"))` -/
def dumps (v : Native) : Except Text Text :=
  if Printable v then .ok (v.print jsonNumber) else .error tooLong

theorem printable_str (s : Text) : Printable (.str s) := by
  intro n hn
  cases List.mem_singleton.mp hn

theorem printable_int {n : Int} : Printable (.num (.int n)) ↔ n.natAbs < 10 ^ 4300 := by
  constructor
  · intro h
    exact h n List.mem_cons_self
  · intro h m hm
    cases List.mem_singleton.mp hm
    exact h

theorem dumps_ok {v : Native} : (∃ t, dumps v = .ok t) ↔ Printable v := by
  unfold dumps
  split
  · next h => exact iff_of_true ⟨_, rfl⟩ h
  · next h => simp [h]

theorem pyStr_ok {quoted : Text → Text} {v : Native} : (∃ t, pyStr quoted v = .ok t) ↔ Printable v := by
  unfold pyStr
  split
  · exact iff_of_true ⟨_, rfl⟩ (printable_str _)
  · split
    · next h => exact iff_of_true ⟨_, rfl⟩ h
    · next h => simp [h]

end Native

end ChessCrawl.Evidence
