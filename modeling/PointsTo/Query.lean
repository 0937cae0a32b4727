import PointsTo.Program.Supergraph
import PointsTo.Solver.State

/-!
# Queries

A forward query starts at an allocation and asks where the object flows; a backward query asks
where a value was allocated. Either may carry the type of the object. The order of queries puts
forward ones first, then compares facts, then types, an untyped query before a typed one.
-/

namespace PointsTo

structure Query where
  direction : Direction
  fact : Fact
  type : Option ClassName
deriving DecidableEq, Inhabited

namespace Query

/-- The forward query for the value made at the point of `fact`. The type is that of the `new`
there. -/
def allocation (program : Program) (fact : Fact) : Query :=
  let type :=
    match program.instruction? fact.point with
    | some (.new _ type) => some type
    | _ => none
  ⟨.forward, fact, type⟩

def backward (fact : Fact) : Query := ⟨.backward, fact, none⟩

def isForward (q : Query) : Bool := q.direction == .forward

/-- Forward queries show their type; backward queries do not. -/
def text (q : Query) : String :=
  match q.direction, q.type with
  | .forward, some type => s!"FQ{q.fact.text}:{type.text}"
  | .forward, none => s!"FQ{q.fact.text}"
  | .backward, _ => s!"BQ{q.fact.text}"

def rank : Direction → Nat
  | .forward => 0
  | .backward => 1

def key (q : Query) : Nat × Fact × Option ClassName := (rank q.direction, q.fact, q.type)

theorem key_injective (q r : Query) (h : q.key = r.key) : q = r := by
  obtain ⟨d, _, _⟩ := q
  obtain ⟨e, _, _⟩ := r
  cases d <;> cases e <;> simp_all [key, rank]

instance : Ord Query := ordByKey key

instance : Std.TransOrd Query := transOrd_of_key key

instance : Std.LawfulEqOrd Query := lawfulEqOrd_of_key key_injective

end Query

end PointsTo
