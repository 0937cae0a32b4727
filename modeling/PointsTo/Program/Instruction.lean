import PointsTo.Program.Point

/-!
# Instructions

The instructions of a program and the text of each, which is also the text a program is read from
(a jump is not part of an instruction and has no text here).
-/

namespace PointsTo

inductive Callee where
  | static (method : MethodName)
  /-- Dispatched on the first argument -/
  | virtual (name : String)
deriving DecidableEq

inductive Instruction where
  | new (dest : Var) (type : ClassName)
  | null (dest : Var)
  | assign (dest value : Var)
  | store (base : Var) (field : Field) (value : Var)
  | load (dest base : Var) (field : Field)
  | call (dest : Option Var) (callee : Callee) (args : List Var)
  | ret (value : Option Var)
  | nop
deriving DecidableEq, Inhabited

namespace Instruction

/-- The variable that the instruction writes. -/
def defined? : Instruction → Option Var
  | new dest _ | null dest | assign dest _ | load dest _ _ => some dest
  | call dest _ _ => dest
  | store .. | ret _ | nop => none

/-- Whether the instruction makes a value of its own, an object or the null value. -/
def isAllocation : Instruction → Bool
  | new .. | null _ => true
  | _ => false

def isReturn : Instruction → Bool
  | ret _ => true
  | _ => false

/-- A bound on the number of variables and fields that the instruction mentions. -/
def mentions : Instruction → Nat
  | call _ _ args => args.length + 1
  | _ => 3

/-- Names between commas. -/
def listText (vars : List Var) : String := ", ".intercalate (vars.map (·.name))

def callText : Callee → List Var → String
  | .static method, args => s!"call {method.text}({listText args})"
  | .virtual name, receiver :: args => s!"vcall {receiver.name}.{name}({listText args})"
  | .virtual name, [] => s!"vcall ?.{name}()"

def text : Instruction → String
  | new dest type => s!"{dest.name} = new {type.text}"
  | null dest => s!"{dest.name} = null"
  | assign dest value => s!"{dest.name} = {value.name}"
  | store base field value => s!"{base.name}.{field.text} = {value.name}"
  | load dest base field => s!"{dest.name} = {base.name}.{field.text}"
  | call (some dest) callee args => s!"{dest.name} = " ++ callText callee args
  | call none callee args => callText callee args
  | ret (some value) => s!"return {value.name}"
  | ret none => "return"
  | nop => "nop"

end Instruction

end PointsTo
