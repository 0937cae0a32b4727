import PointsTo.Program.Basic

/-!
# The interprocedural control-flow graph

A solver walks a program along control flow or against it. A `Supergraph` is a program with the
direction of the walk: against the flow, successors and predecessors change places, and so do the
points where a method is entered and left. Instructions and the call graph are the same both ways.
-/

namespace PointsTo

inductive Direction where
  | forward
  | backward
deriving DecidableEq, Inhabited

def Direction.reverse : Direction → Direction
  | forward => backward
  | backward => forward

structure Supergraph where
  program : Program
  direction : Direction
deriving Inhabited

namespace Supergraph

def reverse (g : Supergraph) : Supergraph := { g with direction := g.direction.reverse }

def successors (g : Supergraph) (point : Point) : List Point :=
  match g.direction with
  | .forward => g.program.successors point
  | .backward => g.program.predecessors point

def predecessors (g : Supergraph) (point : Point) : List Point := g.reverse.successors point

/-- Where the walk enters a method. -/
def startPoints (g : Supergraph) (method : MethodName) : List Point :=
  match g.direction with
  | .forward => g.program.entries method
  | .backward => g.program.exits method

/-- Where the walk leaves a method. -/
def endPoints (g : Supergraph) (method : MethodName) : List Point := g.reverse.startPoints method

def isEndPoint (g : Supergraph) (point : Point) : Bool :=
  (g.endPoints point.method).contains point

@[simp] theorem reverse_reverse (g : Supergraph) : g.reverse.reverse = g := by
  obtain ⟨program, direction⟩ := g
  cases direction <;> rfl

/-- Against the flow, the points before become the points after. -/
@[simp] theorem predecessors_reverse (g : Supergraph) (point : Point) :
    g.reverse.predecessors point = g.successors point := by
  rw [predecessors, reverse_reverse]

@[simp] theorem endPoints_reverse (g : Supergraph) (method : MethodName) :
    g.reverse.endPoints method = g.startPoints method := by
  rw [endPoints, reverse_reverse]

end Supergraph

end PointsTo
