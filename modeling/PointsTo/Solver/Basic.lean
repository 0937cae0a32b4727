import PointsTo.Automaton
import PointsTo.Collection.Feed
import PointsTo.Solver.Flow
import PointsTo.Solver.State

/-!
# The state of a solver

A solver answers one query. Its field automaton reads, from each fact, the access paths under which
the seed is found there; its call automaton reads the calling contexts in which the fact is
reached. Transitions that are new wait in a worklist until their consequences are drawn, and what
others should know waits in an outbox.

This module holds the state and the steps that only record something: inserting a transition,
telling an event, answering a question.
-/

namespace PointsTo

abbrev FieldTransition := Transition FieldState Field

abbrev CallTransition := Transition CallState Point

/-- A transition whose consequences are still to be drawn. -/
inductive Work where
  | field (t : FieldTransition)
  | call (t : CallTransition)
deriving DecidableEq

/-- What a solver tells its owner. -/
inductive Event where
  /-- A fact was reached in some calling context and is connected to the seed. -/
  | reached (fact : Fact)
  | fieldTransition (listener : Nat) (t : FieldTransition)
  | callTransition (listener : Nat) (t : CallTransition)
  | announced (a : Announcement)
deriving DecidableEq

/-- What a solver says while it works. -/
inductive Notice where
  | remark (r : Remark)
  /-- A listener is told of a method that the solver reaches. -/
  | method (listener : Nat) (method : MethodName)
deriving DecidableEq

/-- The log record of a notice. What listeners are told is not logged. -/
def Notice.record? : Notice → Option LogRecord
  | remark r => some r.record
  | method .. => none

structure Solver where
  propagation : Propagation
  seed : Fact
  fields : Automaton FieldState Field
  calls : Automaton CallState Point
  worklist : Feed Work
  outbox : Feed Event
  notices : Feed Notice
  announced : OrderedSet Announcement
  /-- The rules of the facts that occur in the call automaton -/
  rules : Std.TreeMap Fact (List Rule)
  /-- Which facts hold what a fact holds, beside the rules -/
  fieldFlows : Multimap Fact Fact
  /-- Which facts are reached in the contexts of a fact, beside the rules -/
  callFlows : Multimap Fact Fact
  /-- Which facts take over what lies below a field state -/
  pops : Multimap FieldState Fact
  /-- Which facts are reached in the contexts below a frame, once the call site is known -/
  exits : Multimap CallState (Point × Fact)
  /-- Ways out of a method with an empty call stack that are not open yet -/
  blocked : Std.TreeMap MethodName (List (Fact × CallState))
  /-- The methods that may be left with an empty call stack -/
  unbalanced : OrderedSet MethodName
  methods : OrderedSet MethodName
  methodListeners : List Nat
  /-- The field states from which the seed is reached -/
  productive : OrderedSet FieldState
  reached : OrderedSet Fact
  /-- Who asked whether a fact is reached with an empty field stack -/
  tickets : List (Fact × Nat)
  /-- A bound on the number of points, variables and fields that callers brought in -/
  foreign : Nat

namespace Solver

/-- A solver before any work. Its seed is productive, and the method of the seed may be left with an
empty call stack. -/
def create (direction : Direction) (graph : Supergraph) (seed : Fact) : Solver where
  propagation := ⟨direction, graph, ∅⟩
  seed := seed
  fields := ∅
  calls := ∅
  worklist := ∅
  outbox := ∅
  notices := ∅
  announced := ∅
  rules := ∅
  fieldFlows := ∅
  callFlows := ∅
  pops := ∅
  exits := ∅
  blocked := ∅
  unbalanced := .ofList [seed.point.method]
  methods := ∅
  methodListeners := []
  productive := .ofList [.alloc seed]
  reached := ∅
  tickets := []
  foreign := 1

/-! ## Questions -/

def direction (s : Solver) : Direction := s.propagation.direction

def graph (s : Solver) : Supergraph := s.propagation.graph

def seedState (s : Solver) : FieldState := .alloc s.seed

def successors (s : Solver) (point : Point) : List Point := s.graph.successors point

def allocated (s : Solver) : OrderedSet ClassName := s.propagation.allocated

/-- The contexts in which a fact is reached. -/
def contextsOf (s : Solver) (fact : Fact) : List CallState :=
  ((s.calls.outgoingOf (.single fact.var)).filter fun t => t.label = fact.point).map (·.target)

/-- Whether a fact is reached in some context and holds the seed itself. -/
def reachesWithEmptyStack (s : Solver) (fact : Fact) : Bool :=
  s.rules.contains fact && s.fields.contains ⟨.single fact, .epsilon, s.seedState⟩

/-- The access paths under which the seed is found at a fact. -/
def accessPath (s : Solver) (fact : Fact) : Regex Field :=
  pathExpression s.fields.edges (.single fact) s.seedState

/-! ## Records -/

def tell (s : Solver) (event : Event) : Solver := { s with outbox := s.outbox.post event }

def say (s : Solver) (notice : Notice) : Solver := { s with notices := s.notices.post notice }

def remark (s : Solver) (r : Remark) : Solver := s.say (.remark r)

/-- Tells something, unless it was told before. -/
def announce (s : Solver) (a : Announcement) : Solver :=
  match s.announced.insertNew? a with
  | none => s
  | some announced => { s with announced }.tell (.announced a)

def addField (s : Solver) (t : FieldTransition) : Solver :=
  if h : s.fields.contains t then s
  else
    let listeners := s.fields.listenersOf t
    { s with
      fields := s.fields.push t (Bool.eq_false_iff.2 h)
      outbox := s.outbox.postAll (listeners.map fun listener => .fieldTransition listener t)
      worklist := s.worklist.post (.field t) }

def addCall (s : Solver) (t : CallTransition) : Solver :=
  if h : s.calls.contains t then s
  else
    let listeners := s.calls.listenersOf t
    { s with
      calls := s.calls.push t (Bool.eq_false_iff.2 h)
      outbox := s.outbox.postAll (listeners.map fun listener => .callTransition listener t)
      worklist := s.worklist.post (.call t) }

/-- The fact gets each of the transitions as its own. -/
def inherit (s : Solver) (fact : Fact) (ts : List FieldTransition) : Solver :=
  ts.foldl (fun s t => s.addField ⟨.single fact, t.label, t.target⟩) s

/-- The fact is reached in a context. -/
def enter (s : Solver) (fact : Fact) (context : CallState) : Solver :=
  s.addCall ⟨.single fact.var, fact.point, context⟩

/-! ## Operations without consequences for the automata -/

def drainEvents (s : Solver) : List Event × Solver :=
  let (events, outbox) := s.outbox.takeAll
  (events, { s with outbox })

def drainNotices (s : Solver) : List Notice × Solver :=
  let (notices, rest) := s.notices.takeAll
  (notices, { s with notices := rest })

/-- Makes a class known. Answers whether that is news. -/
def addAllocatedType (s : Solver) (type : ClassName) : Bool × Solver :=
  match s.allocated.insertNew? type with
  | none => (false, s)
  | some allocated => (true, { s with propagation := { s.propagation with allocated } })

def subscribeField (s : Solver) (subscription : Subscription FieldState) (listener : Nat) :
    Solver :=
  let (replay, fields) := s.fields.subscribe subscription listener
  { s with
    fields
    outbox := s.outbox.postAll (replay.map fun t => .fieldTransition listener t) }

def subscribeCall (s : Solver) (subscription : Subscription CallState) (listener : Nat) : Solver :=
  let (replay, calls) := s.calls.subscribe subscription listener
  { s with
    calls
    outbox := s.outbox.postAll (replay.map fun t => .callTransition listener t) }

/-- A listener hears of each method the solver has reached or will reach, once. -/
def addMethodListener (s : Solver) (listener : Nat) : Solver :=
  if s.methodListeners.contains listener then s
  else
    { s with
      methodListeners := s.methodListeners ++ [listener]
      notices := s.notices.postAll (s.methods.toList.map fun m => .method listener m) }

/-- Answers the tickets for a fact, if the fact is reached with an empty field stack. -/
def answerTickets (s : Solver) (fact : Fact) : Solver :=
  if s.reachesWithEmptyStack fact then
    let tickets := (s.tickets.filter fun (f, _) => f = fact).map (·.2)
    tickets.foldl (fun s ticket => s.announce (.witnessed ticket s.seed)) s
  else s

/-- Asks to be told, under a ticket, when a fact is reached with an empty field stack. -/
def requestTicket (s : Solver) (fact : Fact) (ticket : Nat) : Solver :=
  if s.tickets.contains (fact, ticket) then s
  else { s with tickets := s.tickets ++ [(fact, ticket)] }.answerTickets fact

end Solver

end PointsTo
