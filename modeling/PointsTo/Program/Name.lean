import PointsTo.Collection.Key
import PointsTo.Text.Split

/-!
# Names in a program

Methods, types and heap fields are known by their names alone. A method of a class is named
`Type.name`: the part before the first dot is the class that declares it.
-/

namespace PointsTo

structure MethodName where
  name : String
deriving DecidableEq, Inhabited

structure ClassName where
  name : String
deriving DecidableEq, Inhabited

/-- A label on the heap: a field, or the empty label that stands for no field at all. -/
inductive Field where
  | named (name : String)
  | epsilon
deriving DecidableEq, Inhabited

namespace MethodName

def text (m : MethodName) : String := m.name

/-- The class before the first dot, if there is a dot. -/
def declaringClass? (m : MethodName) : Option ClassName :=
  (Text.cut '.' m.name.toList).map fun (type, _) => ⟨String.ofList type⟩

/-- What follows the first dot, or the whole name. -/
def simpleName (m : MethodName) : String :=
  match Text.cut '.' m.name.toList with
  | some (_, simple) => String.ofList simple
  | none => m.name

instance : Ord MethodName := ordByKey name

instance : Std.TransOrd MethodName := transOrd_of_key name

instance : Std.LawfulEqOrd MethodName :=
  lawfulEqOrd_of_key fun ⟨_⟩ ⟨_⟩ h => congrArg mk h

end MethodName

namespace ClassName

def text (t : ClassName) : String := t.name

instance : Ord ClassName := ordByKey name

instance : Std.TransOrd ClassName := transOrd_of_key name

instance : Std.LawfulEqOrd ClassName :=
  lawfulEqOrd_of_key fun ⟨_⟩ ⟨_⟩ h => congrArg mk h

end ClassName

namespace Field

def text : Field → String
  | named name => name
  | epsilon => "ε"

def isEpsilon : Field → Bool
  | named _ => false
  | epsilon => true

/-- Named fields come before the empty label. -/
def key : Field → Nat × String
  | named name => (0, name)
  | epsilon => (1, "")

theorem key_injective (f g : Field) (h : f.key = g.key) : f = g := by
  cases f <;> cases g <;> simp_all [key]

instance : Ord Field := ordByKey key

instance : Std.TransOrd Field := transOrd_of_key key

instance : Std.LawfulEqOrd Field := lawfulEqOrd_of_key key_injective

end Field

end PointsTo
