import PointsTo.Solver.Basic

/-!
# Saturation

Drawing the consequences of new transitions until none are left. A field transition moves along the
rules of its fact, along the extra flows, and to the facts that take over what lies below its
start; it may connect its start to the seed. A call transition brings its fact into a context,
which opens the rules of the fact when it is the first context, and may return to callers.

Each piece of work was a new transition once, and only finitely many transitions can be built from
the points, variables and fields in play (`Solver.capacity`), so the worklist runs empty.
-/

namespace PointsTo

namespace Solver

/-! ## Connection with the seed -/

/-- The fact is reached and connected to the seed. -/
def witness (s : Solver) (fact : Fact) : Solver :=
  match s.reached.insertNew? fact with
  | none => s
  | some reached => ({ s with reached }.remark (.reaches s.seed fact)).tell (.reached fact)

/-- A state that became productive makes its fact a witness, if the fact is reached. -/
def witnessState (s : Solver) : FieldState → Solver
  | .single fact => if s.rules.contains fact then s.witness fact else s
  | _ => s

/-- Marks the states on top of the stack and all states that lead to them as productive. Each state
is expanded once, so the number of transitions and of states on the stack bounds the steps. -/
def markStack (s : Solver) : (fuel : Nat) → List FieldState → Solver
  | 0, _ | _, [] => s
  | fuel + 1, state :: stack =>
    match s.productive.insertNew? state with
    | none => s.markStack fuel stack
    | some productive =>
      let s := { s with productive }.witnessState state
      s.markStack fuel (((s.fields.incomingOf state).map (·.start)).reverse ++ stack)

def markProductive (s : Solver) (state : FieldState) : Solver :=
  s.markStack (s.fields.size + 1) [state]

/-! ## Consequences of field transitions -/

/-- The fact takes over whatever lies below a state, now and later. -/
def addPop (s : Solver) (state : FieldState) (fact : Fact) : Solver :=
  match s.pops.insertNew? state fact with
  | none => s
  | some pops => { s with pops }.inherit fact (s.fields.outgoingOf state)

/-- A transition that leaves the fact of a rule goes on along the rule. -/
def applyFieldRule (s : Solver) (t : FieldTransition) (rule : Rule) : Solver :=
  match rule.field with
  | .keep => s.addField ⟨.single rule.target, t.label, t.target⟩
  | .push field =>
    let pushed := FieldState.generated rule.target field
    (s.addField ⟨.single rule.target, field, pushed⟩).addField ⟨pushed, t.label, t.target⟩
  | .pop field => if t.label = field then s.addPop t.target rule.target else s

def applyFieldRules (s : Solver) (rules : List Rule) (t : FieldTransition) : Solver :=
  rules.foldl (fun s rule => s.applyFieldRule t rule) s

/-- A transition that leaves a fact is handed on to the facts that hold the same. -/
def followFieldFlows (s : Solver) (fact : Fact) (t : FieldTransition) : Solver :=
  (s.fieldFlows.of fact).foldl (fun s target => s.inherit target [t]) s

/-- The consequences of a transition that leaves a fact. -/
def processFactTransition (s : Solver) (fact : Fact) (t : FieldTransition) : Solver :=
  let s := (s.applyFieldRules (s.rules.getD fact []) t).followFieldFlows fact t
  if t.label = .epsilon ∧ t.target = s.seedState then s.answerTickets fact else s

/-- A transition into a productive state makes its start productive. -/
def markStart (s : Solver) (t : FieldTransition) : Solver :=
  if s.productive.contains t.target then s.markProductive t.start else s

def processStart (s : Solver) (t : FieldTransition) : Solver :=
  match t.start with
  | .single fact => s.processFactTransition fact t
  | _ => s

/-- The facts that take over what lies below the start of a transition get the transition. -/
def handOver (s : Solver) (t : FieldTransition) : Solver :=
  (s.pops.of t.start).foldl (fun s fact => s.inherit fact [t]) s

def processField (s : Solver) (t : FieldTransition) : Solver :=
  ((s.markStart t).processStart t).handOver t

/-! ## Consequences of call transitions -/

/-- Each of the ways leads its fact into its context. -/
def enterAll (s : Solver) (ways : List (Fact × CallState)) : Solver :=
  ways.foldl (fun s way => s.enter way.1 way.2) s

/-- Opens methods for leaving with an empty call stack, the one on top of the stack first. Whatever
was blocked at such a method goes on, and opens the method it gets to. -/
def openStack (s : Solver) : (fuel : Nat) → List MethodName → Solver
  | 0, _ | _, [] => s
  | fuel + 1, method :: stack =>
    match s.unbalanced.insertNew? method with
    | none => s.openStack fuel stack
    | some unbalanced =>
      let ways := s.blocked.getD method []
      let s := { s with unbalanced, blocked := s.blocked.erase method }
      let s := s.remark (.leavesUnbalanced s.seed method)
      (s.enterAll ways).openStack fuel ((ways.map (·.1.point.method)).reverse ++ stack)

/-- The number of ways out that are not open yet. -/
def blockedCount (s : Solver) : Nat :=
  (s.blocked.toList.map fun (_, ways) => ways.length).foldr (· + ·) 0

def openMethod (s : Solver) (method : MethodName) : Solver :=
  s.openStack (s.blockedCount + 1) [method]

/-- A rule out of a callee, taken in the frame of the callee: the way goes to the contexts below
the frame that were entered at the call site. -/
def leaveFrame (s : Solver) (site : Point) (target : Fact) (frame : CallState) : Solver :=
  match s.exits.insertNew? frame (site, target) with
  | none => s
  | some exits =>
    let below := (s.calls.outgoingOf frame).filter fun t => t.label = site
    { s with exits }.enterAll (below.map fun (t : CallTransition) => (target, t.target))

/-- A rule out of a method, taken with an empty call stack: the way is open if the method may be
left like that, and waits otherwise. -/
def leaveBottom (s : Solver) (method : MethodName) (target : Fact) (context : CallState) : Solver :=
  if s.unbalanced.contains method then (s.enter target context).openMethod target.point.method
  else
    let ways := s.blocked.getD method []
    { s with blocked := s.blocked.insert method (ways ++ [(target, context)]) }

/-- A context of the fact `source` goes on along a rule. -/
def applyCallRule (s : Solver) (source : Fact) (context : CallState) (rule : Rule) : Solver :=
  match rule.call with
  | .stay => s.enter rule.target context
  | .enter site =>
    let frame := CallState.generated rule.target.var rule.target.point
    (s.enter rule.target frame).addCall ⟨frame, site, context⟩
  | .leave site =>
    match context with
    | .generated .. => s.leaveFrame site rule.target context
    | .initial _ => s.leaveBottom source.point.method rule.target context
    | .single _ => s

/-- Records that a method is reached and tells its listeners. -/
def reachMethod (s : Solver) (method : MethodName) : Solver :=
  match s.methods.insertNew? method with
  | none => s
  | some methods =>
    { s with
      methods
      notices := s.notices.postAll (s.methodListeners.map fun listener => .method listener method) }

/-- Finds the rules of a fact and tells what there is to tell about them. -/
def findRules (s : Solver) (fact : Fact) : Solver :=
  let flow := s.propagation.flow fact
  let s := { s with rules := s.rules.insert fact flow.rules }
  let s := flow.remarks.foldl remark (flow.announcements.foldl announce s)
  s.reachMethod fact.point.method

/-- What the field automaton knows of a fact goes along its rules. -/
def catchUp (s : Solver) (fact : Fact) : Solver :=
  (s.fields.outgoingOf (.single fact)).foldl
    (fun s t => s.applyFieldRules (s.rules.getD fact []) t) s

/-- The first context of a fact: its rules are found, and what the field automaton knows of the
fact goes along them. -/
def reach (s : Solver) (fact : Fact) : Solver :=
  let s := (s.findRules fact).catchUp fact
  let s := if s.productive.contains (.single fact) then s.witness fact else s
  s.answerTickets fact

def applyCallRules (s : Solver) (rules : List Rule) (fact : Fact) (context : CallState) : Solver :=
  rules.foldl (fun s rule => s.applyCallRule fact context rule) s

/-- The facts that are reached wherever a fact is reached are reached in a context. -/
def followCallFlows (s : Solver) (fact : Fact) (context : CallState) : Solver :=
  s.enterAll ((s.callFlows.of fact).map (·, context))

def processFact (s : Solver) (fact : Fact) (context : CallState) : Solver :=
  let s := if s.rules.contains fact then s else s.reach fact
  (s.applyCallRules (s.rules.getD fact []) fact context).followCallFlows fact context

/-- A frame is found to lie on top of a context, so the ways out of it at this call site go on
there. -/
def processFrame (s : Solver) (frame : CallState) (site : Point) (context : CallState) : Solver :=
  let ways := (s.exits.of frame).filter fun (exitSite, _) => exitSite = site
  s.enterAll (ways.map fun (_, target) => (target, context))

def processCall (s : Solver) (t : CallTransition) : Solver :=
  match t.start with
  | .single var => s.processFact ⟨t.label, var⟩ t.target
  | .generated .. => s.processFrame t.start t.label t.target
  | .initial _ => s

/-! ## The worklist -/

def process (s : Solver) : Work → Solver
  | .field t => s.processField t
  | .call t => s.processCall t

/-- Draws the consequences of the work that has waited longest. -/
@[inline] def step? (s : Solver) : Option Solver :=
  match s.worklist.next? with
  | some (work, worklist) => some ({ s with worklist }.process work)
  | none => none

/-- More than the number of transitions that can be built from the points, variables and fields of
the program and of the callers. -/
def capacity (s : Solver) : Nat :=
  let names := s.graph.program.extent + s.foreign + 1
  let fieldStates := names * names * (names + 2)
  let callStates := names * (names + 2)
  fieldStates * names * fieldStates + callStates * names * callStates + 1

def saturateFor (s : Solver) : (fuel : Nat) → Solver
  | 0 => s
  | fuel + 1 =>
    match s.step? with
    | some s => s.saturateFor fuel
    | none => s

/-- Works until nothing is left to do. -/
def saturate (s : Solver) : Solver := s.saturateFor s.capacity

/-! ## Operations -/

/-- Accounts for the points, variables and fields that the caller of an operation brings in. -/
def acceptNames (s : Solver) : Solver := { s with foreign := s.foreign + 3 }

/-- Starts at a fact, which holds the seed itself and is reached with an empty call stack. -/
def solve (s : Solver) (initial : Fact) : Solver :=
  let s := s.acceptNames.remark (.starts s.direction s.seed initial)
  let s := s.addField ⟨.single initial, .epsilon, s.seedState⟩
  (s.enter initial (.initial s.seed.var)).saturate

def addFieldTransition (s : Solver) (t : FieldTransition) : Solver :=
  (s.acceptNames.addField t).saturate

/-- The state `base` holds, under a field, what the fact holds. -/
def connectBase (s : Solver) (base : FieldState) (field : Field) (fact : Fact) : Solver :=
  s.addFieldTransition ⟨base, field, .single fact⟩

/-- The fact shares the field stack below a state. -/
def connectAlias (s : Solver) (fact : Fact) (state : FieldState) : Solver :=
  (s.acceptNames.addPop state fact).saturate

/-- What the one fact holds, the other holds too, now and later. -/
def addFieldFlow (s : Solver) (source target : Fact) : Solver :=
  match s.fieldFlows.insertNew? source target with
  | none => s
  | some fieldFlows =>
    let s := { s.acceptNames with fieldFlows }
    (s.inherit target (s.fields.outgoingOf (.single source))).saturate

/-- In the contexts of the one fact, the other is reached too, now and later. -/
def addCallFlow (s : Solver) (source target : Fact) : Solver :=
  match s.callFlows.insertNew? source target with
  | none => s
  | some callFlows =>
    let s := { s.acceptNames with callFlows }
    (s.enterAll ((s.contextsOf source).map (target, ·))).saturate

/-- Lets a method be left with an empty call stack. -/
def addUnbalanced (s : Solver) (method : MethodName) : Solver := (s.openMethod method).saturate

end Solver

end PointsTo
