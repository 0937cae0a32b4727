import PointsTo.Program.Point

/-!
# States of the two automata of a solver

The field automaton reads access paths, the call automaton reads calling contexts. Each has a state
for every fact or variable that the solver reaches, one state for its seed, and states for what
lies below the top of the stack.
-/

namespace PointsTo

/-- A state of a field automaton. -/
inductive FieldState where
  /-- What the variable of the fact holds -/
  | single (fact : Fact)
  /-- The accepting state of the solver whose seed is this fact -/
  | alloc (fact : Fact)
  /-- What holds the value of the fact in a field -/
  | generated (fact : Fact) (field : Field)
deriving DecidableEq, Inhabited

/-- A state of a call automaton. -/
inductive CallState where
  | single (var : Var)
  /-- The empty stack of the solver whose seed is about this variable -/
  | initial (var : Var)
  /-- The frame of a callee that was entered at a point with this variable -/
  | generated (var : Var) (point : Point)
deriving DecidableEq, Inhabited

namespace FieldState

def fact : FieldState → Fact
  | single fact | alloc fact | generated fact _ => fact

def isGenerated : FieldState → Bool
  | generated .. => true
  | _ => false

def text : FieldState → String
  | single fact => fact.text
  | alloc fact => s!"alloc{fact.text}"
  | generated fact field => s!"{fact.text}.{field.text}"

def key : FieldState → Nat × Fact × Option Field
  | single fact => (0, fact, none)
  | alloc fact => (1, fact, none)
  | generated fact field => (2, fact, some field)

theorem key_injective (s t : FieldState) (h : s.key = t.key) : s = t := by
  cases s <;> cases t <;> simp_all [key]

instance : Ord FieldState := ordByKey key

instance : Std.TransOrd FieldState := transOrd_of_key key

instance : Std.LawfulEqOrd FieldState := lawfulEqOrd_of_key key_injective

end FieldState

namespace CallState

def isGenerated : CallState → Bool
  | generated .. => true
  | _ => false

def text : CallState → String
  | single var => var.text
  | initial var => s!"init({var.text})"
  | generated var point => s!"{var.text}@{point.text}"

def key : CallState → Nat × Var × Option Point
  | single var => (0, var, none)
  | initial var => (1, var, none)
  | generated var point => (2, var, some point)

theorem key_injective (s t : CallState) (h : s.key = t.key) : s = t := by
  cases s <;> cases t <;> simp_all [key]

instance : Ord CallState := ordByKey key

instance : Std.TransOrd CallState := transOrd_of_key key

instance : Std.LawfulEqOrd CallState := lawfulEqOrd_of_key key_injective

end CallState

end PointsTo
