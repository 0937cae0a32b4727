import PointsTo.Program.Name

/-!
# Variables, program points and facts

A fact says that a variable holds the tracked object when control is at a program point. It is the
unit in which solvers, queries and answers speak.
-/

namespace PointsTo

/-- A local variable of a method. -/
structure Var where
  name : String
  method : MethodName
deriving DecidableEq, Inhabited

/-- A point of a method. A point without an index is a synthetic boundary that carries no
instruction. -/
structure Point where
  method : MethodName
  index : Option Nat
deriving DecidableEq, Inhabited

/-- A variable at a program point. -/
structure Fact where
  point : Point
  var : Var
deriving DecidableEq, Inhabited

namespace Var

def text (v : Var) : String := s!"{v.name}@{v.method.text}"

def key (v : Var) : String × MethodName := (v.name, v.method)

theorem key_injective (v w : Var) (h : v.key = w.key) : v = w := by
  cases v; cases w; simp_all [key]

instance : Ord Var := ordByKey key

instance : Std.TransOrd Var := transOrd_of_key key

instance : Std.LawfulEqOrd Var := lawfulEqOrd_of_key key_injective

end Var

namespace Point

/-- The point before the instruction with this index. -/
def ofIndex (method : MethodName) (index : Nat) : Point := ⟨method, some index⟩

def synthetic (method : MethodName) : Point := ⟨method, none⟩

def text (p : Point) : String :=
  match p.index with
  | some index => s!"{p.method.text}[{index}]"
  | none => s!"{p.method.text}[-]"

def key (p : Point) : MethodName × Option Nat := (p.method, p.index)

theorem key_injective (p q : Point) (h : p.key = q.key) : p = q := by
  cases p; cases q; simp_all [key]

instance : Ord Point := ordByKey key

instance : Std.TransOrd Point := transOrd_of_key key

instance : Std.LawfulEqOrd Point := lawfulEqOrd_of_key key_injective

end Point

namespace Fact

/-- The point and the bare name of the variable. -/
def text (f : Fact) : String := s!"({f.point.text}, {f.var.name})"

def key (f : Fact) : Point × Var := (f.point, f.var)

theorem key_injective (f g : Fact) (h : f.key = g.key) : f = g := by
  cases f; cases g; simp_all [key]

instance : Ord Fact := ordByKey key

instance : Std.TransOrd Fact := transOrd_of_key key

instance : Std.LawfulEqOrd Fact := lawfulEqOrd_of_key key_injective

end Fact

end PointsTo
