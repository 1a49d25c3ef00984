/-!
# Predicates

A predicate compares a variable with a constant.  Values are integers of 32 bits with a sign.

* `minValue`, `maxValue` — the smallest and the largest value.
* `Comparison` — the four comparisons and what they mean.
* `Predicate` — a comparison of one variable, with its text `[x0 >= 5]`.
-/

set_option autoImplicit false

namespace Stowage

/-- A variable, identified by the order of creation. -/
abbrev Var := Nat

def renderVar (x : Var) : String := s!"x{x}"

/-- The smallest integer of 32 bits. -/
def minValue : Int := -2147483648

/-- The largest integer of 32 bits. -/
def maxValue : Int := 2147483647

/-- How a value is compared with a constant. -/
inductive Comparison where
  | ge
  | le
  | ne
  | eq
  deriving DecidableEq, Repr

namespace Comparison

/-- Whether `value` stands in the relation to `bound`. -/
def holds : Comparison → Int → Int → Bool
  | .ge, value, bound => decide (bound ≤ value)
  | .le, value, bound => decide (value ≤ bound)
  | .ne, value, bound => decide (value ≠ bound)
  | .eq, value, bound => decide (value = bound)

def symbol : Comparison → String
  | .ge => ">="
  | .le => "<="
  | .ne => "!="
  | .eq => "=="

/-- The name of the kind of predicate that a comparison makes. -/
def kindName : Comparison → String
  | .ge => "LowerBound"
  | .le => "UpperBound"
  | .ne => "NotEqual"
  | .eq => "Equal"

end Comparison

/-- A condition on the value of one variable. -/
structure Predicate where
  /-- The variable that is compared. -/
  var : Var
  comparison : Comparison
  /-- The constant on the right-hand side. -/
  value : Int
  deriving DecidableEq, Repr

namespace Predicate

def atLeast (x : Var) (v : Int) : Predicate := ⟨x, .ge, v⟩

def atMost (x : Var) (v : Int) : Predicate := ⟨x, .le, v⟩

def differs (x : Var) (v : Int) : Predicate := ⟨x, .ne, v⟩

def equals (x : Var) (v : Int) : Predicate := ⟨x, .eq, v⟩

/-- Whether the condition holds when its variable has the given value. -/
def holds (q : Predicate) (value : Int) : Bool := q.comparison.holds value q.value

/-- The text of a predicate, such as `[x0 >= 5]`. -/
def render (q : Predicate) : String :=
  "[" ++ renderVar q.var ++ " " ++ q.comparison.symbol ++ " " ++ toString q.value ++ "]"

end Predicate

end Stowage
