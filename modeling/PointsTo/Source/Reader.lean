import PointsTo.Source.Statement

/-!
# Reading a program

A text is read line by line. A `Reader` holds the methods that are closed already and the method
that is open, if there is one; `Reader.line` is the step for one line, which depends on the reader
and the line alone. Comments run from `#` to the end of a line, and a line of blanks says nothing.
-/

namespace PointsTo.Source

open Text

/-- A method whose closing brace is still to come. -/
structure OpenMethod where
  method : MethodName
  parameters : List Var
  lines : List Line
  /-- A label that waits for its statement -/
  pending : Option String

structure Reader where
  bodies : List Body
  current : Option OpenMethod

namespace OpenMethod

/-- The body of the method. A label before the closing brace stands on a `nop`. -/
def close (m : OpenMethod) : Except BodyError Body :=
  let last := m.pending.toList.map fun label => ⟨some label, .nop, .next⟩
  Body.ofLines m.method m.parameters (m.lines ++ last)

/-- Adds a statement, which takes the label that waits. -/
def statement (m : OpenMethod) (text : List Char) : Except LineError OpenMethod := do
  let (instruction, jump) ← readStatement m.method text
  return { m with lines := m.lines ++ [⟨m.pending, instruction, jump⟩], pending := none }

/-- The label in front of a line and the rest of the line, if it has the form of a label. -/
def labelled? (text : List Char) : Option (List Char × List Char) := do
  let (head, rest) ← cut ':' text
  if isIdent (trim head) then some (head, trim rest) else none

def line (m : OpenMethod) (text : List Char) : Except LineError OpenMethod :=
  match labelled? text with
  | none => m.statement text
  | some (head, rest) =>
    if m.pending.isSome then .error .twoLabels
    else do
      let m := { m with pending := some (← readLabel head) }
      if rest.isEmpty then return m else m.statement rest

end OpenMethod

namespace Reader

def empty : Reader := ⟨[], none⟩

/-- A line without its comment and the blanks around the rest. -/
def content (raw : List Char) : List Char := trim (raw.takeWhile (· ≠ '#'))

def line (r : Reader) (raw : List Char) : Except LineError Reader :=
  let text := content raw
  if text.isEmpty then .ok r
  else
    match r.current with
    | none => do
      let (method, parameters) ← readHeader text
      return { r with current := some ⟨method, parameters, [], none⟩ }
    | some m =>
      if text = ['\x7d'] then
        match m.close with
        | .ok body => .ok ⟨r.bodies ++ [body], none⟩
        | .error cause => .error (.body cause)
      else do return { r with current := some (← m.line text) }

/-- Reads lines that are numbered from `number` on. -/
def lines (r : Reader) (number : Nat) : List (List Char) → Except Error Reader
  | [] => .ok r
  | raw :: rest =>
    match r.line raw with
    | .ok r => lines r (number + 1) rest
    | .error cause => .error (.inLine number cause)

def finish (r : Reader) : Except Error Program :=
  match r.current with
  | some m => .error (.unclosed m.method)
  | none =>
    match Program.ofBodies r.bodies with
    | .ok program => .ok program
    | .error cause => .error (.program cause)

end Reader

/-- The program that a text describes. -/
def readProgram (source : String) : Except Error Program := do
  (← Reader.empty.lines 1 (lines source.toList)).finish

end PointsTo.Source
