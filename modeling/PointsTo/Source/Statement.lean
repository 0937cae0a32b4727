import PointsTo.Source.Error
import PointsTo.Text.Blank

/-!
# Reading one statement

The readers of the parts of a line: identifiers, variables, labels, calls, assignments, whole
statements and the header of a method. Each takes a text without surrounding comments or labels and
answers what it says or what is wrong with it (`LineError`). Blanks around the parts do not count.
-/

namespace PointsTo.Source

open Text

def isIdentStart (c : Char) : Bool := c.isAlpha || c == '_'

def isIdentRest (c : Char) : Bool := c.isAlphanum || c == '_'

/-- An identifier has ASCII letters, digits and underscores, and does not start with a digit. -/
def isIdent : List Char → Bool
  | [] => false
  | c :: r => isIdentStart c && r.all isIdentRest

/-- The words that name neither a variable nor a label. -/
def keywords : List (List Char) :=
  ["method".toList, "new".toList, "null".toList, "call".toList, "vcall".toList, "return".toList,
    "nop".toList, "goto".toList, "if".toList, "entry".toList]

def isFreeIdent (cs : List Char) : Bool := isIdent cs && !keywords.contains cs

/-- A method is named by identifiers between dots. -/
def isMethodName (cs : List Char) : Bool := (pieces '.' cs).all isIdent

def readVar (method : MethodName) (text : List Char) : Except LineError Var :=
  let text := trim text
  if isFreeIdent text then .ok ⟨String.ofList text, method⟩
  else .error (.expectedVariable (String.ofList text))

def readLabel (text : List Char) : Except LineError String :=
  let text := trim text
  if isFreeIdent text then .ok (String.ofList text)
  else .error (.invalidLabel (String.ofList text))

def readType (text : List Char) : Except LineError ClassName :=
  let text := trim text
  if isIdent text then .ok ⟨String.ofList text⟩
  else .error (.invalidType (String.ofList text))

/-- The two identifiers around the first dot. -/
def dotted? (text : List Char) : Option (List Char × List Char) := do
  let (left, right) ← cut '.' (trim text)
  let left := trim left
  let right := trim right
  if isIdent left && isIdent right then some (left, right) else none

/-- The name and the arguments of `name(a, b)`. -/
def readInvocation (text : List Char) : Except LineError (List Char × List (List Char)) :=
  let text := trim text
  match cut '(' text with
  | none => .error (.missingOpening (String.ofList text))
  | some (name, rest) =>
    match before? [')'] rest with
    | none => .error (.missingClosing (String.ofList text))
    | some args =>
      .ok (trim name, if (trim args).isEmpty then [] else (pieces ',' args).map trim)

def readVirtualCall (method : MethodName) (dest : Option Var) (text : List Char) :
    Except LineError Instruction := do
  let (target, args) ← readInvocation text
  match dotted? target with
  | none => .error (.expectedReceiver (String.ofList target))
  | some (receiver, name) =>
    let receiver ← readVar method receiver
    let args ← args.mapM (readVar method)
    return .call dest (.virtual (String.ofList name)) (receiver :: args)

def readStaticCall (method : MethodName) (dest : Option Var) (text : List Char) :
    Except LineError Instruction := do
  let (name, args) ← readInvocation text
  if isMethodName name then
    let args ← args.mapM (readVar method)
    return .call dest (.static ⟨String.ofList name⟩) args
  else .error (.invalidMethodName (String.ofList name))

/-- Reads a call, if the text begins like one. -/
def readCall? (method : MethodName) (dest : Option Var) (text : List Char) :
    Option (Except LineError Instruction) :=
  match after? "vcall ".toList text with
  | some rest => some (readVirtualCall method dest rest)
  | none => (after? "call ".toList text).map (readStaticCall method dest)

/-- What is assigned to `dest`. -/
def readRight (method : MethodName) (dest : Var) (right : List Char) :
    Except LineError Instruction :=
  if let some type := after? "new ".toList right then do
    return .new dest (← readType type)
  else if right = "null".toList then .ok (.null dest)
  else if let some call := readCall? method (some dest) right then call
  else if let some (base, field) := dotted? right then do
    return .load dest (← readVar method base) (.named (String.ofList field))
  else do
    return .assign dest (← readVar method right)

def readAssignment (method : MethodName) (left right : List Char) :
    Except LineError Instruction :=
  match dotted? left with
  | some (base, field) => do
    let base ← readVar method base
    let value ← readVar method right
    return .store base (.named (String.ofList field)) value
  | none => do readRight method (← readVar method left) right

/-- The label of `if * goto LABEL`, given what follows the `if`. -/
def branchTarget? (rest : List Char) : Option (List Char) := do
  after? "goto ".toList (trim (← after? ['*'] (trim rest)))

def readStatement (method : MethodName) (text : List Char) :
    Except LineError (Instruction × Jump) :=
  if text = "nop".toList then .ok (.nop, .next)
  else if text = "return".toList then .ok (.ret none, .next)
  else if let some value := after? "return ".toList text then do
    return (.ret (some (← readVar method value)), .next)
  else if let some label := after? "goto ".toList text then do
    return (.nop, .goto (← readLabel label))
  else if let some rest := after? "if ".toList text then
    match branchTarget? rest with
    | some label => do return (.nop, .branch (← readLabel label))
    | none => .error (.expectedBranch (String.ofList text))
  else if let some call := readCall? method none text then do
    return (← call, .next)
  else
    match cut '=' text with
    | some (left, right) => do
      return (← readAssignment method (trim left) (trim right), .next)
    | none => .error (.unknownStatement (String.ofList text))

/-- The name and the parameters of `method NAME(PARAMS) {`. -/
def readHeader (text : List Char) : Except LineError (MethodName × List Var) :=
  let signature? := do before? ['\x7b'] (trim (← after? "method ".toList text))
  match signature? with
  | none => .error (.expectedHeader (String.ofList text))
  | some signature => do
    let (name, parameters) ← readInvocation signature
    if isMethodName name then
      let method : MethodName := ⟨String.ofList name⟩
      return (method, ← parameters.mapM (readVar method))
    else .error (.invalidMethodName (String.ofList name))

end PointsTo.Source
