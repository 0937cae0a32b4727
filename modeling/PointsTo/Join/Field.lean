import PointsTo.Collection.Multimap
import PointsTo.Query

/-!
# Joins at field accesses

At `base.field = value` and `value = base.field` two kinds of queries meet: those that explain what
the base is and those that follow the value. A `FieldJoin` records both and answers each pair of a
base with a flow that has to be executed, as soon as both are known and never again. Which flows
execute depends on the access: writes import aliases forward, reads backward, and the other
pairings carry nothing that the flow does not propagate itself.
-/

namespace PointsTo

inductive AccessKind where
  /-- `base.field = value` -/
  | write
  /-- `value = base.field` -/
  | read
deriving DecidableEq

/-- An instruction that writes or reads a field. -/
structure FieldAccess where
  kind : AccessKind
  point : Point
  base : Var
  field : Field
  value : Var
deriving DecidableEq

namespace FieldAccess

/-- The value written or read, at the access. -/
def fact (a : FieldAccess) : Fact := ⟨a.point, a.value⟩

def text (a : FieldAccess) : String :=
  match a.kind with
  | .write => s!"{a.point.text}: {a.base.name}.{a.field.text} = {a.value.name}"
  | .read => s!"{a.point.text}: {a.value.name} = {a.base.name}.{a.field.text}"

def rank : AccessKind → Nat
  | .write => 0
  | .read => 1

def key (a : FieldAccess) : Nat × Point × Var × Field × Var :=
  (rank a.kind, a.point, a.base, a.field, a.value)

theorem key_injective (a b : FieldAccess) (h : a.key = b.key) : a = b := by
  obtain ⟨k, _, _, _, _⟩ := a
  obtain ⟨l, _, _, _, _⟩ := b
  cases k <;> cases l <;> simp_all [key, rank]

instance : Ord FieldAccess := ordByKey key

instance : Std.TransOrd FieldAccess := transOrd_of_key key

instance : Std.LawfulEqOrd FieldAccess := lawfulEqOrd_of_key key_injective

end FieldAccess

structure FieldJoin where
  access : FieldAccess
  /-- The queries whose object is a base of the access -/
  bases : OrderedSet Query
  /-- The queries that follow the value of the access -/
  flows : OrderedSet Query
  /-- The aliases of a base that were imported into a flow -/
  aliases : Multimap Query Var

namespace FieldJoin

def create (access : FieldAccess) : FieldJoin := ⟨access, ∅, ∅, ∅⟩

/-- Whether pairs with this flow are to be executed. -/
def executes (j : FieldJoin) (flow : Query) : Bool :=
  match j.access.kind with
  | .write => flow.isForward
  | .read => !flow.isForward

/-- Records a base and answers the pairs that execute because of it. -/
def addBase (j : FieldJoin) (base : Query) : List (Query × Query) × FieldJoin :=
  match j.bases.insertNew? base with
  | none => ([], j)
  | some bases => ((j.flows.toList.filter j.executes).map (base, ·), { j with bases })

/-- Records a flow and answers the pairs that execute because of it. -/
def addFlow (j : FieldJoin) (flow : Query) : List (Query × Query) × FieldJoin :=
  match j.flows.insertNew? flow with
  | none => ([], j)
  | some flows =>
    (if j.executes flow then j.bases.toList.map (·, flow) else [], { j with flows })

/-- Records the import of an alias into a flow. Answers whether it is the first one. -/
def addAlias (j : FieldJoin) (flow : Query) (var : Var) : Bool × FieldJoin :=
  match j.aliases.insertNew? flow var with
  | none => (false, j)
  | some aliases => (true, { j with aliases })

end FieldJoin

end PointsTo
