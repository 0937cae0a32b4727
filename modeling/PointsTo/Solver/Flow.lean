import PointsTo.Collection.OrderedSet
import PointsTo.Log
import PointsTo.Program.Supergraph

/-!
# What flows where

The rules by which a value at a program point gets to other points: along an instruction, into a
callee, or out of a method to its callers. A rule also says what happens to the two stacks. The
field stack grows when the value is put into a field and shrinks when it is taken out; the call
stack grows on the way into a callee and shrinks on the way out.

Rules are a function of the direction of the analysis, the graph it walks, and the classes that are
known to have objects (`Propagation.flow`): a virtual call enters only methods of such classes.
-/

namespace PointsTo

inductive FieldEffect where
  | keep
  | push (field : Field)
  | pop (field : Field)
deriving DecidableEq

inductive CallEffect where
  | stay
  /-- Into a callee of the call site -/
  | enter (site : Point)
  /-- Out of the callee, back to the call site -/
  | leave (site : Point)
deriving DecidableEq

/-- A way out of a fact: where it leads and what it does to the stacks. -/
structure Rule where
  target : Fact
  field : FieldEffect
  call : CallEffect
deriving DecidableEq

/-- What a solver tells once, however often it comes upon it. -/
inductive Announcement where
  /-- A value came back from a call. -/
  | returned (site : Point) (fact : Fact)
  /-- A value went past a call. -/
  | bypassed (site returnSite : Point) (var : Var)
  /-- A fact was reached with an empty field stack, as the holder of the ticket had asked. -/
  | witnessed (ticket : Nat) (seed : Fact)
deriving DecidableEq

/-- What a solver remarks about its work. -/
inductive Remark where
  | starts (direction : Direction) (seed initial : Fact)
  | reaches (seed fact : Fact)
  | leavesUnbalanced (seed : Fact) (method : MethodName)
  | noCallee (site : Point) (var : Var)
  | noDefiningCallee (site : Point) (var : Var)
deriving DecidableEq

namespace Announcement

def key : Announcement →
    Nat × Option Point × Option Fact × Option Var × Option Nat
  | returned site fact => (0, some site, some fact, none, none)
  | bypassed site returnSite var => (1, some site, some ⟨returnSite, var⟩, none, none)
  | witnessed ticket seed => (2, none, some seed, none, some ticket)

theorem key_injective (a b : Announcement) (h : a.key = b.key) : a = b := by
  cases a <;> cases b <;> simp_all [key]

instance : Ord Announcement := ordByKey key

instance : Std.TransOrd Announcement := transOrd_of_key key

instance : Std.LawfulEqOrd Announcement := lawfulEqOrd_of_key key_injective

end Announcement

namespace Remark

def directionText : Direction → String
  | .forward => "Forward"
  | .backward => "Backward"

def record : Remark → LogRecord
  | starts direction seed initial =>
    ⟨.trace, s!"{directionText direction} solver {seed.text} starts at {initial.text}"⟩
  | reaches seed fact => ⟨.trace, s!"{seed.text} reaches {fact.text}"⟩
  | leavesUnbalanced seed method =>
    ⟨.trace, s!"{seed.text} returns unbalanced from {method.text}"⟩
  | noCallee site var =>
    ⟨.warn, s!"No reachable callee at {site.text}, {var.text} flows around it"⟩
  | noDefiningCallee site var =>
    ⟨.warn, s!"No reachable callee defines {var.text} at {site.text}"⟩

end Remark

/-- What an instruction does to one variable: which variables carry the value on, which rules lead
into callees, and what there is to tell. -/
structure Transfer where
  carried : List (Var × FieldEffect)
  entering : List Rule
  announcements : List Announcement
  remarks : List Remark

/-- All ways out of a fact, and what there is to tell about them. -/
structure Flow where
  rules : List Rule
  announcements : List Announcement
  remarks : List Remark

/-- What the rules depend on. -/
structure Propagation where
  direction : Direction
  graph : Supergraph
  allocated : OrderedSet ClassName

namespace Transfer

/-- The instruction passes these variables on and does nothing else. -/
def carry (carried : List (Var × FieldEffect)) : Transfer := ⟨carried, [], [], []⟩

end Transfer

namespace Propagation

variable (p : Propagation)

/-- The methods that a call enters as far as the allocated classes are known. -/
def callees (site : Point) (callee : Callee) : List MethodName :=
  let callees := p.graph.program.callees site
  match callee with
  | .static _ => callees
  | .virtual _ => callees.filter fun m => m.declaringClass?.all p.allocated.contains

/-- The rules from the argument at `index` of a call to the parameters of the callees. -/
def enterParameter (site : Point) (callees : List MethodName) (index : Nat) : List Rule :=
  callees.flatMap fun method =>
    match (p.graph.program.parameters method)[index]? with
    | none => []
    | some parameter =>
      (p.graph.startPoints method).map fun start => ⟨⟨start, parameter⟩, .keep, .enter site⟩

/-- The rules from a variable into the callees that get it as an argument. -/
def enterArguments (site : Point) (callees : List MethodName) (args : List Var) (v : Var) :
    List Rule :=
  let indices := (List.range args.length).filter fun i => args[i]? = some v
  indices.flatMap (p.enterParameter site callees)

/-- The rules from the destination of a call to what its callees return. -/
def enterReturns (site : Point) (callees : List MethodName) : List Rule :=
  callees.flatMap fun method =>
    (p.graph.startPoints method).filterMap fun start =>
      match p.graph.program.instruction? start with
      | some (.ret (some returned)) => some ⟨⟨start, returned⟩, .keep, .enter site⟩
      | _ => none

/-- A call, seen in the direction of control: arguments enter the callees, and every variable but
the destination stays what it is. -/
def forwardCall (site : Point) (dest : Option Var) (callee : Callee) (args : List Var) (v : Var) :
    Transfer :=
  let callees := p.callees site callee
  let entering := p.enterArguments site callees args v
  let remarks := if callees.isEmpty then [.noCallee site v] else []
  if dest = some v then ⟨[], entering, [], remarks⟩
  else
    let bypasses :=
      if callees.isEmpty || args.contains v then []
      else (p.graph.successors site).map fun returnSite => .bypassed site returnSite v
    ⟨[(v, .keep)], entering, bypasses, remarks⟩

/-- A call, seen against control: the destination comes out of the callees, and an argument may
have been put into a field by them. -/
def backwardCall (site : Point) (dest : Option Var) (callee : Callee) (args : List Var) (v : Var) :
    Transfer :=
  let callees := p.callees site callee
  if dest = some v then
    let remarks := if callees.isEmpty then [.noDefiningCallee site v] else []
    ⟨[], p.enterReturns site callees, [], remarks⟩
  else ⟨[(v, .keep)], p.enterArguments site callees args v, [], []⟩

/-- Where the value of `v` before an instruction is to be found after it. -/
def forwardTransfer (point : Point) (v : Var) : Instruction → Transfer
  | .new dest _ | .null dest => .carry (if v = dest then [] else [(v, .keep)])
  | .assign dest value =>
    .carry ((if v = value then [(dest, .keep)] else []) ++ if v = dest then [] else [(v, .keep)])
  | .store base field value =>
    .carry ((v, .keep) :: if v = value then [(base, .push field)] else [])
  | .load dest base field =>
    .carry ((if v = base then [(dest, .pop field)] else []) ++
      if v = dest then [] else [(v, .keep)])
  | .call dest callee args => p.forwardCall point dest callee args v
  | .ret _ | .nop => .carry [(v, .keep)]

/-- Where the value of `v` after an instruction was to be found before it. -/
def backwardTransfer (point : Point) (v : Var) : Instruction → Transfer
  | .new dest _ | .null dest => .carry (if v = dest then [] else [(v, .keep)])
  | .assign dest value => .carry [(if v = dest then value else v, .keep)]
  | .load dest base field => .carry [if v = dest then (base, .push field) else (v, .keep)]
  | .store base field value =>
    .carry ((v, .keep) :: if v = base then [(value, .pop field)] else [])
  | .call dest callee args => p.backwardCall point dest callee args v
  | .ret _ | .nop => .carry [(v, .keep)]

def transfer (point : Point) (v : Var) (instruction : Instruction) : Transfer :=
  match p.direction with
  | .forward => p.forwardTransfer point v instruction
  | .backward => p.backwardTransfer point v instruction

/-- The variables of a caller that hold what `v` holds at the end of a callee: the destination of
the call, if `v` is what the callee returns, and the argument, if `v` is a parameter. -/
def callerVars (dest : Option Var) (args : List Var) (isReturned : Bool) (parameter : Option Nat) :
    List Var :=
  (if isReturned then dest.toList else []) ++ (parameter.bind fun i => args[i]?).toList

/-- The rules from the end of a method back into all its callers. -/
def exitRules (point : Point) (instruction : Instruction) (v : Var) (effect : FieldEffect) :
    List Rule :=
  let parameter := (p.graph.program.parameters point.method).findIdx? (· = v)
  let isReturned := p.direction = .forward ∧ instruction = .ret (some v)
  (p.graph.program.callers point.method).flatMap fun site =>
    match p.graph.program.instruction? site with
    | some (.call dest _ args) =>
      let vars := callerVars dest args isReturned parameter
      (p.graph.successors site).flatMap fun returnSite =>
        vars.map fun w => ⟨⟨returnSite, w⟩, effect, .leave site⟩
    | _ => []

/-- Forward solvers tell of each value that comes back from a call. -/
def announceExits (rules : List Rule) : List Announcement :=
  match p.direction with
  | .backward => []
  | .forward =>
    rules.filterMap fun rule =>
      match rule.call with
      | .leave site => some (.returned site rule.target)
      | _ => none

/-- The ways out of a fact. A point without an instruction has none. -/
def flow (fact : Fact) : Flow :=
  match p.graph.program.instruction? fact.point with
  | none => ⟨[], [], []⟩
  | some instruction =>
    let t := p.transfer fact.point fact.var instruction
    if p.graph.isEndPoint fact.point then
      let exits := t.carried.flatMap fun (v, effect) =>
        p.exitRules fact.point instruction v effect
      ⟨t.entering ++ exits, t.announcements ++ p.announceExits exits, t.remarks⟩
    else
      let steps := (p.graph.successors fact.point).flatMap fun next =>
        t.carried.map fun (v, effect) => ⟨⟨next, v⟩, effect, .stay⟩
      ⟨t.entering ++ steps, t.announcements, t.remarks⟩

end Propagation

end PointsTo
