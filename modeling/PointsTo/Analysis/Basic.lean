import PointsTo.Analysis.Pool

/-!
# The state of an analysis

An analysis answers queries by solvers that it connects with each other: at field accesses, where
the aliases of a base are imported into the flow of the value, and at call sites, where a value that
goes past is unified with a value that comes back. The connections are listeners: a listener waits
for transitions of one solver and changes another one.

This module holds the state, the bookkeeping of listeners and joins, and the questions that a
client may ask between calls.
-/

namespace PointsTo

/-- What happens to the allocations found for queries that the analysis posed itself. -/
inductive WitnessPolicy where
  | ignore
  | record
deriving DecidableEq, Inhabited

/-- When a query counts as a base of a field read. -/
inductive ReadBaseRule where
  /-- The seed is reached under any access path. -/
  | seedTransition
  /-- The seed is reached under the empty access path. -/
  | emptyFieldOnly
deriving DecidableEq, Inhabited

structure Config where
  witnessPolicy : WitnessPolicy
  readBaseRule : ReadBaseRule
  debug : Bool
deriving DecidableEq, Inhabited

/-- A backward query that wants to hear of allocations, and the client to tell. -/
structure Ticket where
  query : Query
  client : Option Nat
deriving DecidableEq

/-- What is done at each transition that a visitor comes to. Joins, solvers and visitors are known
by their positions. -/
inductive VisitAction where
  /-- Copy the transition into the solver `flow`, with `source` renamed to `target`. If `connect`
  is set, what reaches the seed also holds the value of the join. -/
  | importInto (flow join : Nat) (source target : FieldState) (connect : Bool)
  /-- A transition into a seed is a value that came back from the call of the join. -/
  | flowAllocation (join : Nat) (returned : Var)
  /-- Copy the transition into the solver `flow`. -/
  | splice (flow : Nat)
  /-- A transition into the seed makes the solver a base of the join. -/
  | baseAllocation (join : Nat)
deriving DecidableEq

/-- Walks through all transitions that can be reached from a state, those to come included. -/
structure Visitor where
  solver : Nat
  listener : Nat
  visited : OrderedSet FieldState
  action : VisitAction

/-- Who waits for transitions of field automata, and for what. -/
inductive FieldListener where
  /-- The base of the join is to be the seed itself. -/
  | baseAllocation (join : Nat)
  /-- Aliases of the base at `basePoint` are to be imported into the solver `flow`. -/
  | importAliases (join flow : Nat) (basePoint : Point) (flowPoints : List Point)
  | visit (visitor : Nat)
deriving DecidableEq

/-- Who waits for transitions of call automata, and for what. -/
inductive CallListener where
  /-- The calling contexts of an allocation are to be entered. -/
  | unbalancedFlow
deriving DecidableEq

structure Analysis where
  config : Config
  pool : Pool
  queue : Feed (Nat × Event)
  fieldListeners : Array FieldListener
  callListeners : Array CallListener
  visitors : Array Visitor
  fieldJoins : OrderedMap FieldAccess FieldJoin
  callJoins : OrderedMap (Point × Point) CallJoin
  /-- The allocations that backward queries found -/
  allocations : Multimap Query Query
  /-- The solvers whose calling contexts are watched -/
  watched : OrderedSet Nat
  tickets : Array Ticket
  witnesses : OrderedSet (Query × Fact)
  importedAliases : Nat
  activations : Nat
  /-- A bound on the number of names that clients brought in -/
  foreign : Nat

/-- An analysis that can not go on, and why. Its journal holds what was said until then. -/
structure Halt where
  fault : Fault
  analysis : Analysis

structure Stats where
  forwardQueries : Nat
  backwardQueries : Nat
  fieldJoins : Nat
  importedAliases : Nat
  callJoins : Nat
  activations : Nat
deriving DecidableEq

def Stats.text (s : Stats) : String :=
  s!"Forward queries: {s.forwardQueries}\n" ++ s!"Backward queries: {s.backwardQueries}\n" ++
    s!"Field POIs: {s.fieldJoins}\n" ++ s!"Imported aliases: {s.importedAliases}\n" ++
    s!"Call site POIs: {s.callJoins}\n" ++ s!"Call site activations: {s.activations}"

namespace Analysis

def create (program : Program) (config : Config) : Analysis where
  config := config
  pool := .create program
  queue := ∅
  fieldListeners := #[]
  callListeners := #[]
  visitors := #[]
  fieldJoins := ∅
  callJoins := ∅
  allocations := ∅
  watched := ∅
  tickets := #[]
  witnesses := ∅
  importedAliases := 0
  activations := 0
  foreign := 1

/-! ## Questions -/

def program (a : Analysis) : Program := a.pool.program

def solver? (a : Analysis) (query : Query) : Option Solver := a.pool.find? query

/-- Every fact that some forward query reaches. -/
def reachableFacts (a : Analysis) : OrderedSet Fact :=
  .ofList (a.pool.toList.flatMap fun (query, solver) =>
    if query.isForward then solver.reached.toList else [])

/-- The forward queries whose object gets to the fact of a query with an empty field stack. -/
def allocationSites (a : Analysis) (query : Query) : List Query :=
  (a.pool.toList.filter fun (q, solver) =>
    q.isForward && solver.reachesWithEmptyStack query.fact).map (·.1)

/-- The access paths from a fact to the object of a query. -/
def accessPath? (a : Analysis) (query : Query) (fact : Fact) : Option (Regex Field) :=
  (a.solver? query).map (·.accessPath fact)

def stats (a : Analysis) : Stats :=
  let forward := (a.pool.toList.filter fun (query, _) => query.isForward).length
  { forwardQueries := forward
    backwardQueries := a.pool.size - forward
    fieldJoins := a.fieldJoins.size
    importedAliases := a.importedAliases
    callJoins := a.callJoins.size
    activations := a.activations }

/-- What one solver has found, line by line. -/
def debugSolver (query : Query) (s : Solver) : List String :=
  s!"{query.text}: {s.reached.size} reached nodes" ::
    (s.reached.toList.map fun fact => s!"  reached {fact.text}") ++
    (s.fields.toList.map fun t => "  field " ++ t.text FieldState.text Field.text) ++
    (s.calls.toList.map fun t => "  call " ++ t.text CallState.text Point.text)

def debugCallJoin (j : CallJoin) : List String :=
  j.bypasses.toList.map fun (query, var) =>
    s!"{j.site.text} bypassed by {var.name} of {query.text}"

/-- Everything the analysis knows, as log records, if it is to be debugged. -/
def debugRecords (a : Analysis) : List LogRecord :=
  if a.config.debug then
    let lines := a.pool.toList.flatMap (fun (query, solver) => debugSolver query solver) ++
      a.callJoins.values.toList.flatMap debugCallJoin
    lines.map fun line => ⟨.debug, line⟩
  else []

/-! ## Bookkeeping -/

def record (a : Analysis) (entry : Entry) : Analysis := { a with pool := a.pool.record entry }

def drainJournal (a : Analysis) : List Entry × Analysis :=
  let (entries, pool) := a.pool.drainJournal
  (entries, { a with pool })

/-- Takes what was logged out of the journal, with all that stands beside it. -/
def drainLog (a : Analysis) : List LogRecord × Analysis :=
  let (entries, a) := a.drainJournal
  (entries.filterMap Entry.record?, a)

/-- Asks the pool for something. If it is not there, the analysis halts. -/
@[inline] def ask {α : Type} (a : Analysis) (answer : Except Fault α) : Except Halt α :=
  match answer with
  | .ok x => .ok x
  | .error fault => .error ⟨fault, a⟩

def queryAt (a : Analysis) (index : Nat) : Except Halt Query := a.ask (a.pool.queryAt index)

def solverAt (a : Analysis) (index : Nat) : Except Halt Solver := a.ask (a.pool.solverAt index)

def changeSolver (a : Analysis) (index : Nat) (f : Solver → Solver) : Except Halt Analysis :=
  if index < a.pool.size then .ok { a with pool := a.pool.modify index f }
  else .error ⟨.noSolver .change index a.pool.size, a⟩

def getOrCreate (a : Analysis) (query : Query) : Nat × Analysis :=
  let (index, pool) := a.pool.getOrCreate query
  (index, { a with pool })

def addFieldListener (a : Analysis) (listener : FieldListener) : Nat × Analysis :=
  (a.fieldListeners.size, { a with fieldListeners := a.fieldListeners.push listener })

def addCallListener (a : Analysis) (listener : CallListener) : Nat × Analysis :=
  (a.callListeners.size, { a with callListeners := a.callListeners.push listener })

/-- The position of the join at a field access, which is created if there is none. -/
def fieldJoin (a : Analysis) (access : FieldAccess) : Nat × Analysis :=
  match a.fieldJoins.indexOf? access with
  | some index => (index, a)
  | none =>
    let fieldJoins := a.fieldJoins.insert access (.create access)
    (a.fieldJoins.size, { a with fieldJoins })

/-- The position of the join at a call, which is created if there is none. -/
def callJoin (a : Analysis) (site returnSite : Point) : Nat × Analysis :=
  match a.callJoins.indexOf? (site, returnSite) with
  | some index => (index, a)
  | none =>
    let callJoins := a.callJoins.insert (site, returnSite) (.create site returnSite)
    (a.callJoins.size, { a with callJoins })

/-- What a table of the analysis holds at a position. If there is nothing, the analysis halts. -/
def entryAt {α : Type} (a : Analysis) (value? : Option α) (index size : Nat) : Except Halt α :=
  match value? with
  | some value => .ok value
  | none => .error ⟨.noEntry index size, a⟩

def listenerAt (a : Analysis) (index : Nat) : Except Halt FieldListener :=
  a.entryAt a.fieldListeners[index]? index a.fieldListeners.size

def callListenerAt (a : Analysis) (index : Nat) : Except Halt CallListener :=
  a.entryAt a.callListeners[index]? index a.callListeners.size

def visitorAt (a : Analysis) (index : Nat) : Except Halt Visitor :=
  a.entryAt a.visitors[index]? index a.visitors.size

def ticketAt (a : Analysis) (index : Nat) : Except Halt Ticket :=
  a.entryAt a.tickets[index]? index a.tickets.size

def accessAt (a : Analysis) (index : Nat) : Except Halt FieldAccess :=
  a.entryAt (a.fieldJoins.key? index) index a.fieldJoins.size

def fieldJoinAt (a : Analysis) (index : Nat) : Except Halt FieldJoin :=
  a.entryAt (a.fieldJoins.value? index) index a.fieldJoins.size

def callJoinAt (a : Analysis) (index : Nat) : Except Halt CallJoin :=
  a.entryAt (a.callJoins.value? index) index a.callJoins.size

/-- The tickets of a query, in the order in which they were taken. -/
def ticketsOf (a : Analysis) (query : Query) : List Nat :=
  (List.range a.tickets.size).filter fun i => a.tickets[i]?.any (·.query = query)

end Analysis

end PointsTo
