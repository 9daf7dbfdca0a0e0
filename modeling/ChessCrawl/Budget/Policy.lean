import Mathlib.Tactic.Common
import Mathlib.Algebra.Group.Int.Defs

/-! Operator policies and calendar months: `BudgetPolicy` of `jobs/budget.py` and `monthly_period` of
`storage/work_budgets.py`. A policy's fields are addressed by name, as `getattr` does. -/
namespace ChessCrawl.Budget
set_option autoImplicit false

inductive Dimension
  | games | normalizationUnits | remoteBytes | remoteRequests
deriving DecidableEq, Repr

inductive PolicyField
  | jobMax (dimension : Dimension)
  | maxResponseBytes
  | workspaceMax (dimension : Dimension)
  | workspaceMaxActiveJobs
  | workspaceMaxQueuedJobs
deriving DecidableEq, Repr

/-- `name.startswith("workspace_")` -/
def PolicyField.workspace : PolicyField → Bool
  | .workspaceMax _ | .workspaceMaxActiveJobs | .workspaceMaxQueuedJobs => true
  | _ => false

def Dimension.all : List Dimension := [.games, .normalizationUnits, .remoteBytes, .remoteRequests]

def PolicyField.all : List PolicyField :=
  Dimension.all.map PolicyField.jobMax ++ [PolicyField.maxResponseBytes] ++
    Dimension.all.map PolicyField.workspaceMax ++
    [PolicyField.workspaceMaxActiveJobs, PolicyField.workspaceMaxQueuedJobs]

theorem PolicyField.mem_all (f : PolicyField) : f ∈ PolicyField.all := by
  cases f with
  | jobMax d => cases d <;> decide
  | workspaceMax d => cases d <;> decide
  | maxResponseBytes => decide
  | workspaceMaxActiveJobs => decide
  | workspaceMaxQueuedJobs => decide

/-- Every field is a positive PostgreSQL bigint, as `__post_init__` checks. -/
structure BudgetPolicy where
  value : PolicyField → Int
  valid : ∀ f, 1 ≤ value f ∧ value f < 2 ^ 63

/-- The defaults of the fields. -/
def defaultValue : PolicyField → Int
  | .jobMax .games => 100000
  | .jobMax .normalizationUnits => 100000
  | .jobMax .remoteBytes => 268435456
  | .jobMax .remoteRequests => 2000
  | .maxResponseBytes => 16777216
  | .workspaceMax .games => 1000000
  | .workspaceMax .normalizationUnits => 1000000
  | .workspaceMax .remoteBytes => 2147483648
  | .workspaceMax .remoteRequests => 10000
  | .workspaceMaxActiveJobs => 2
  | .workspaceMaxQueuedJobs => 32

def BudgetPolicy.default : BudgetPolicy where
  value := defaultValue
  valid := by
    have hall : ∀ f ∈ PolicyField.all, 1 ≤ defaultValue f ∧ defaultValue f < 2 ^ 63 := by decide
    exact fun f => hall f f.mem_all

/-- `effective != asdict(stored)` compares field by field. -/
def BudgetPolicy.same (p q : BudgetPolicy) : Bool :=
  PolicyField.all.all fun f => decide (p.value f = q.value f)

/-- The selected fields become the smaller of the two. -/
def BudgetPolicy.tighten (p q : BudgetPolicy) (on : PolicyField → Bool) : BudgetPolicy where
  value f := if on f then min (p.value f) (q.value f) else p.value f
  valid f := by
    have hp := p.valid f
    have hq := q.valid f
    split <;> omega

/-- The selected fields become the larger of the two. -/
def BudgetPolicy.extend (p q : BudgetPolicy) (on : PolicyField → Bool) : BudgetPolicy where
  value f := if on f then max (p.value f) (q.value f) else p.value f
  valid f := by
    have hp := p.valid f
    have hq := q.valid f
    split <;> omega

theorem BudgetPolicy.le_extend (p q : BudgetPolicy) (on : PolicyField → Bool) (f : PolicyField) :
    p.value f ≤ (p.extend q on).value f := by
  change p.value f ≤ if on f then max (p.value f) (q.value f) else p.value f
  split <;> omega

/-! ## Calendar months -/

def isLeap (year : Nat) : Bool := year % 4 = 0 && (year % 100 ≠ 0 || year % 400 = 0)

def daysBeforeYear (year : Nat) : Nat :=
  let y := year - 1
  y * 365 + y / 4 - y / 100 + y / 400

def daysBeforeMonth (leap : Bool) (month : Nat) : Nat :=
  [0, 0, 31, 59, 90, 120, 151, 181, 212, 243, 273, 304, 334].getD month 0 +
    if month > 2 ∧ leap then 1 else 0

/-- Year and month of an ordinal day, day 1 being the first of January of year 1. -/
def yearMonth (ordinal : Nat) : Nat × Nat :=
  let n := ordinal - 1
  let n400 := n / 146097
  let n := n % 146097
  let n100 := n / 36524
  let n := n % 36524
  let n4 := n / 1461
  let n := n % 1461
  let n1 := n / 365
  let n := n % 365
  let year := n400 * 400 + 1 + n100 * 100 + n4 * 4 + n1
  if n1 = 4 ∨ n100 = 4 then (year - 1, 12)
  else
    let leap := decide (n1 = 3 ∧ (n4 ≠ 24 ∨ n100 = 3))
    let month := (n + 50) / 32
    -- the estimate of the month is either exact or one too large
    if daysBeforeMonth leap month > n then (year, month - 1) else (year, month)

/-- Seconds since the epoch at the first instant of a month; the epoch is ordinal day 719163. -/
def monthStart (year month : Nat) : Int :=
  ((daysBeforeYear year + daysBeforeMonth (isLeap year) month + 1 : Nat) - 719163) * 86400

/-- The half-open UTC month of an instant. `datetime` covers the years 1 to 9999, the end included. -/
def monthlyPeriod (now : Int) : Option (Int × Int) :=
  let day := now / 86400 + 719163
  if day < 1 then none
  else
    let (year, month) := yearMonth day.toNat
    let (nextYear, nextMonth) := if month = 12 then (year + 1, 1) else (year, month + 1)
    if nextYear ≤ 9999 then some (monthStart year month, monthStart nextYear nextMonth) else none

example : monthlyPeriod 1709251199 = some (1706745600, 1709251200) := by decide

end ChessCrawl.Budget
