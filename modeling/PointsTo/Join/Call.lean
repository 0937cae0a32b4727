import PointsTo.Collection.OrderedSet
import PointsTo.Query

/-!
# Joins at call sites

A value that goes past a call may be an alias of a value that comes back from it, if both belong to
one object. A `CallJoin` records the values that go past and the values that come back, and
answers an `Activation` for each two that belong together, once. A query is not paired with itself,
since that would only restate its own flow.
-/

namespace PointsTo

/-- A value that comes back from a call, and the state through which its query reaches the object.
-/
structure FlowSource where
  query : Query
  returned : Var
  state : FieldState
deriving DecidableEq

/-- The variable goes past the call for one query and is to be unified with what came back for
another. -/
structure Activation where
  flow : FlowSource
  bypassing : Query
  var : Var
deriving DecidableEq

namespace FlowSource

def key (f : FlowSource) : Query × Var × FieldState := (f.query, f.returned, f.state)

theorem key_injective (f g : FlowSource) (h : f.key = g.key) : f = g := by
  cases f; cases g; simp_all [key]

instance : Ord FlowSource := ordByKey key

instance : Std.TransOrd FlowSource := transOrd_of_key key

instance : Std.LawfulEqOrd FlowSource := lawfulEqOrd_of_key key_injective

end FlowSource

structure CallJoin where
  site : Point
  returnSite : Point
  /-- What comes back, with the query of the object it belongs to -/
  flows : OrderedSet (FlowSource × Query)
  /-- What goes past, with the query of the object it belongs to -/
  bypasses : OrderedSet (Query × Var)

namespace CallJoin

def create (site returnSite : Point) : CallJoin := ⟨site, returnSite, ∅, ∅⟩

def activation? (flow : FlowSource) (bypassing : Query) (var : Var) : Option Activation :=
  if flow.query = bypassing then none else some ⟨flow, bypassing, var⟩

/-- Records that a variable goes past the call, and answers what that activates. -/
def addBypass (j : CallJoin) (query : Query) (var : Var) : List Activation × CallJoin :=
  match j.bypasses.insertNew? (query, var) with
  | none => ([], j)
  | some bypasses =>
    let matching := j.flows.toList.filter fun (_, base) => base = query
    (matching.filterMap fun (flow, _) => activation? flow query var, { j with bypasses })

/-- Records that a value comes back from the call, and answers what that activates. -/
def addFlow (j : CallJoin) (flow : FlowSource) (base : Query) : List Activation × CallJoin :=
  match j.flows.insertNew? (flow, base) with
  | none => ([], j)
  | some flows =>
    let matching := j.bypasses.toList.filter fun (query, _) => query = base
    (matching.filterMap fun (query, var) => activation? flow query var, { j with flows })

end CallJoin

end PointsTo
