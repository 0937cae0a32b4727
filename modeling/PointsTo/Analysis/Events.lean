import PointsTo.Analysis.Basic

/-!
# Handling the events of solvers

Each event of a solver is handled once. A fact that a backward query reaches may be an allocation,
which starts a forward query, or a field read, which asks for the base. A fact that a forward query
reaches may be written to a field or be the base of an access. Transitions drive the listeners that
connect solvers with each other, and values that go past a call or come back from it are paired.

Handling an event may create solvers, listeners and transitions, but it draws no conclusion beyond
that: what follows from them comes back as later events.
-/

namespace PointsTo

namespace Analysis

/-! ## Starting queries -/

/-- Starts the solver for a query, unless it was started before: propagation begins with the
variable of the seed at the points next to the seed in a direction, which for most callers is that
of the query. Answers the position of the solver. -/
def startQuery (a : Analysis) (direction : Direction) (query : Query) :
    Except Halt (Nat × Analysis) := do
  let (index, a) := a.getOrCreate query
  let (isNew, pool) ← a.ask (a.pool.start index)
  let a := { a with pool }
  let seed := query.fact
  if !isNew then return (index, a)
  else if seed.point.index.isNone then return (index, a.record (.synthetic query))
  else
    let graph : Supergraph := ⟨a.program, direction⟩
    let a ← (graph.successors seed.point).foldlM
      (fun a next => a.changeSolver index fun s => s.solve ⟨next, seed.var⟩)
      (a.record (.solving query))
    return (index, a)

/-- Asks the solver of an allocation to answer a ticket. -/
def requestTicket (fact : Fact) (ticket : Nat) (a : Analysis) (forward : Nat) :
    Except Halt Analysis :=
  a.changeSolver forward fun s => s.requestTicket fact ticket

/-- Starts a query against the flow of control, as befits a backward query. The listener, if there
is one, gets a ticket for all allocations that were found or will be found. -/
def startBackward (a : Analysis) (query : Query) (listener : Option (Option Nat)) :
    Except Halt Analysis := do
  let (_, a) ← a.startQuery .backward query
  match listener with
  | none => return a
  | some client =>
    let ticket := a.tickets.size
    let a := { a with tickets := a.tickets.push ⟨query, client⟩ }
    (a.allocations.of query).foldlM (fun a allocation => do
      let (index, a) := a.getOrCreate allocation
      requestTicket query.fact ticket a index) a

/-- Starts the backward query for the base of a field access, if it is a new one. -/
def spawnBackward (a : Analysis) (query : Query) : Except Halt Analysis :=
  match a.pool.indexOf? query, a.config.witnessPolicy with
  | some _, _ => .ok a
  | none, .ignore => a.startBackward query none
  | none, .record => a.startBackward query (some none)

/-! ## Visiting -/

/-- Sends a visitor through the field automaton of a solver, beginning at a state. -/
def startVisit (a : Analysis) (solver : Nat) (state : FieldState) (action : VisitAction) :
    Except Halt Analysis := do
  let (listener, a) := a.addFieldListener (.visit a.visitors.size)
  let visitor : Visitor := ⟨solver, listener, .ofList [state], action⟩
  let a := { a with visitors := a.visitors.push visitor }
  a.changeSolver solver fun s => s.subscribeField (.leaving state) listener

/-! ## Joins at field accesses -/

/-- Both ends of a field access are known: from now on the aliases of the base next to the access
are imported into the flow. After a write they are imported where they are found, after a read where
the flow goes on. -/
def execute (join : Nat) (a : Analysis) (pair : Query × Query) : Except Halt Analysis := do
  let access ← a.accessAt join
  let a := a.record (.executing access pair.1 pair.2)
  let (base, a) := a.getOrCreate pair.1
  let (flow, a) := a.getOrCreate pair.2
  let next := (← a.solverAt flow).successors access.point
  if next.isEmpty then .error ⟨.noSuccessor access.point (← a.queryAt flow), a⟩
  else
    let imports :=
      match access.kind with
      | .write => next.map fun point => (point, [point])
      | .read => [(access.point, next)]
    imports.foldlM (fun a (basePoint, flowPoints) => do
      let (listener, a) := a.addFieldListener (.importAliases join flow basePoint flowPoints)
      a.changeSolver base fun s => s.subscribeField .any listener) a

/-- Changes a join and executes the pairs that the change answers. -/
def changeFieldJoin (a : Analysis) (join : Nat)
    (f : FieldJoin → List (Query × Query) × FieldJoin) : Except Halt Analysis := do
  let (pairs, j) := f (← a.fieldJoinAt join)
  pairs.foldlM (execute join) { a with fieldJoins := a.fieldJoins.modify join fun _ => j }

def addBase (a : Analysis) (solver join : Nat) : Except Halt Analysis := do
  let query ← a.queryAt solver
  a.changeFieldJoin join fun j => j.addBase query

/-- Waits for a fact to be the seed of a solver itself, which is then a base of the join. -/
def watchBase (a : Analysis) (solver : Nat) (fact : Fact) (join : Nat) : Except Halt Analysis :=
  let (listener, a) := a.addFieldListener (.baseAllocation join)
  a.changeSolver solver fun s => s.subscribeField (.leaving (.single fact)) listener

/-- A transition of a base leaves a fact at `basePoint`: the variable of the fact is an alias, and
what it reaches is imported into the flow, once for each alias. -/
def importAlias (a : Analysis) (base join flow : Nat) (basePoint : Point)
    (flowPoints : List Point) (t : FieldTransition) : Except Halt Analysis := do
  match t.start with
  | .single start =>
    if start.point ≠ basePoint then return a
    else
      let var := start.var
      let j ← a.fieldJoinAt join
      let flowQuery ← a.queryAt flow
      let (isNew, j) := j.addAlias flowQuery var
      if !isNew then return a
      else
        let a :=
          { a with
            fieldJoins := a.fieldJoins.modify join fun _ => j
            importedAliases := a.importedAliases + 1 }
        let access := j.access
        let connect := var ≠ access.base ∧ var ≠ access.value
        flowPoints.foldlM (fun a flowPoint => do
          let target : Fact := ⟨flowPoint, var⟩
          let a ← a.startVisit base t.start
            (.importInto flow join t.start (.single target) connect)
          if connect then a.changeSolver flow fun s => s.addCallFlow access.fact target
          else return a) (a.record (.importing var basePoint flowQuery))
  | _ => return a

/-! ## Joins at call sites -/

/-- Unifies a value that goes past a call with one that comes back from it. -/
def activate (join : Nat) (a : Analysis) (activation : Activation) : Except Halt Analysis := do
  let j ← a.callJoinAt join
  let a := { a with activations := a.activations + 1 }
  let a := a.record (.activating j.site j.returnSite activation)
  let (bypassing, a) := a.getOrCreate activation.bypassing
  let (flow, a) := a.getOrCreate activation.flow.query
  let bypass : Fact := ⟨j.returnSite, activation.var⟩
  let returned : Fact := ⟨j.returnSite, activation.flow.returned⟩
  let state := activation.flow.state
  let a ← a.startVisit bypassing (.single bypass) (.splice flow)
  a.changeSolver flow fun s =>
    let s := if state.isGenerated then s.connectAlias bypass state else s
    (s.addFieldFlow returned bypass).addCallFlow returned bypass

/-- Changes a join and performs the activations that the change answers. -/
def changeCallJoin (a : Analysis) (join : Nat) (f : CallJoin → List Activation × CallJoin) :
    Except Halt Analysis := do
  let (activations, j) := f (← a.callJoinAt join)
  activations.foldlM (activate join) { a with callJoins := a.callJoins.modify join fun _ => j }

/-! ## Transitions -/

/-- Performs the action of a visitor at a transition of the solver `source`. -/
def act (a : Analysis) (source : Nat) (action : VisitAction) (t : FieldTransition) :
    Except Halt Analysis := do
  match action with
  | .importInto flow join old new connect =>
    let rename (state : FieldState) := if state = old then new else state
    let start := rename t.start
    let copy (s : Solver) := s.addFieldTransition ⟨start, t.label, rename t.target⟩
    let seed := (← a.solverAt source).seedState
    if connect && t.target = seed then
      let access ← a.accessAt join
      let a ← a.changeSolver flow fun s => s.connectBase start access.field access.fact
      a.changeSolver flow copy
    else a.changeSolver flow copy
  | .flowAllocation join returned =>
    match t.target, t.label with
    | .alloc fact, .epsilon =>
      let flow : FlowSource := ⟨← a.queryAt source, returned, t.start⟩
      a.changeCallJoin join fun j => j.addFlow flow (.allocation a.program fact)
    | _, _ => return a
  | .splice flow => a.changeSolver flow fun s => s.addFieldTransition t
  | .baseAllocation join =>
    if t.target = (← a.solverAt source).seedState then a.addBase source join else return a

/-- A visitor comes to a transition: it acts, and goes on to the target if it was not there. -/
def visit (a : Analysis) (visitor : Nat) (t : FieldTransition) : Except Halt Analysis := do
  let v ← a.visitorAt visitor
  let a ← a.act v.solver v.action t
  match v.visited.insertNew? t.target with
  | none => return a
  | some visited =>
    let visitors := a.visitors.modify visitor fun v => { v with visited }
    let a := { a with visitors }
    a.changeSolver v.solver fun s => s.subscribeField (.leaving t.target) v.listener

def onFieldTransition (a : Analysis) (index listener : Nat) (t : FieldTransition) :
    Except Halt Analysis := do
  match ← a.listenerAt listener with
  | .baseAllocation join =>
    let seed := (← a.solverAt index).seedState
    if t.target = seed ∧ t.label = .epsilon then a.addBase index join else return a
  | .importAliases join flow basePoint flowPoints =>
    a.importAlias index join flow basePoint flowPoints t
  | .visit visitor => a.visit visitor t

/-- An allocation may leave the methods of all frames it is found in with an empty call stack. -/
def onCallTransition (a : Analysis) (index listener : Nat) (t : CallTransition) :
    Except Halt Analysis := do
  match ← a.callListenerAt listener with
  | .unbalancedFlow =>
    match t.target with
    | .generated _ point => a.changeSolver index fun s => s.addUnbalanced point.method
    | _ => return a

/-! ## Facts that are reached -/

/-- Watches the calling contexts of a solver, unless they are watched already. -/
def watchContexts (a : Analysis) (solver : Nat) : Except Halt Analysis :=
  match a.watched.insertNew? solver with
  | none => .ok a
  | some watched =>
    let (listener, a) := { a with watched }.addCallListener .unbalancedFlow
    a.changeSolver solver fun s => s.subscribeCall .any listener

/-- A backward query reached the allocation of its value: the forward query for the allocation
starts, its calling contexts are watched, and the tickets of the backward query go to it. -/
def foundAllocation (a : Analysis) (query : Query) (fact : Fact) : Except Halt Analysis := do
  let allocation := Query.allocation a.program fact
  let a := { a with allocations := a.allocations.insert query allocation }
  let (forward, a) ← a.startQuery .forward allocation
  let a ← a.watchContexts forward
  (a.ticketsOf query).foldlM (fun a ticket => requestTicket query.fact ticket a forward) a

/-- A query that follows the value reached a field access: the base is asked for, and the query is
a flow of the join. -/
def reachedValue (a : Analysis) (query : Query) (access : FieldAccess) : Except Halt Analysis := do
  let a ← a.spawnBackward (.backward ⟨access.point, access.base⟩)
  let (join, a) := a.fieldJoin access
  a.changeFieldJoin join fun j => j.addFlow query

def backwardReached (a : Analysis) (query : Query) (fact : Fact) : Except Halt Analysis :=
  match a.program.instruction? fact.point with
  | some (.new dest _) | some (.null dest) =>
    if dest = fact.var then a.foundAllocation query fact else .ok a
  | some (.load dest base field) =>
    if dest = fact.var then a.reachedValue query ⟨.read, fact.point, base, field, dest⟩ else .ok a
  | _ => .ok a

def reachedReadBase (a : Analysis) (index : Nat) (fact : Fact) (access : FieldAccess) :
    Except Halt Analysis :=
  let (join, a) := a.fieldJoin access
  match a.config.readBaseRule with
  | .emptyFieldOnly => a.watchBase index fact join
  | .seedTransition => a.startVisit index (.single fact) (.baseAllocation join)

def forwardReached (a : Analysis) (index : Nat) (query : Query) (fact : Fact) :
    Except Halt Analysis := do
  match a.program.instruction? fact.point with
  | some (.store base field value) =>
    let access : FieldAccess := ⟨.write, fact.point, base, field, value⟩
    let a ← if value = fact.var then a.reachedValue query access else pure a
    if base = fact.var then
      let (join, a) := a.fieldJoin access
      a.watchBase index fact join
    else return a
  | some (.load dest base field) =>
    if base = fact.var then a.reachedReadBase index fact ⟨.read, fact.point, base, field, dest⟩
    else return a
  | _ => return a

/-! ## Announcements -/

/-- A fact was reached with an empty field stack, as the holder of the ticket had asked. -/
def onWitness (a : Analysis) (ticket : Nat) (seed : Fact) : Except Halt Analysis := do
  let t ← a.ticketAt ticket
  let a :=
    match t.client with
    | some client => a.record (.found client t.query seed)
    | none => a
  return { a with witnesses := a.witnesses.insert (t.query, seed) }

def handle (a : Analysis) (index : Nat) (event : Event) : Except Halt Analysis := do
  match event with
  | .reached fact =>
    let query ← a.queryAt index
    if query.isForward then a.forwardReached index query fact else a.backwardReached query fact
  | .fieldTransition listener t => a.onFieldTransition index listener t
  | .callTransition listener t => a.onCallTransition index listener t
  | .announced (.returned site fact) =>
    let (join, a) := a.callJoin site fact.point
    a.startVisit index (.single fact) (.flowAllocation join fact.var)
  | .announced (.bypassed site returnSite var) =>
    let (join, a) := a.callJoin site returnSite
    let query ← a.queryAt index
    a.changeCallJoin join fun j => j.addBypass query var
  | .announced (.witnessed ticket seed) => a.onWitness ticket seed

end Analysis

end PointsTo
