import PointsTo.Analysis.Journal
import PointsTo.Collection.OrderedMap
import PointsTo.Solver.Saturation

/-!
# The solvers of an analysis

A pool has one solver for each query, created when the query first comes up and known by its
position from then on. The classes with objects and the listeners for methods are shared by all
solvers, those to come included. A solver that was changed is dirty until its events are collected
(`Pool.drain`), so that no event is lost and none is handed out twice.

Positions that belong to no solver are a `Fault` of the caller, and so are positions outside the other
tables of an analysis and states that an automaton does not have.
-/

namespace PointsTo

/-- What a position was used for. -/
inductive PoolUse where
  | query
  | start
  | look
  | change
deriving DecidableEq

/-- Why an operation can not go on. -/
inductive Fault where
  /-- There is no solver at this position of a pool of this size. -/
  | noSolver (use : PoolUse) (index size : Nat)
  /-- There is nothing at this position of a table of this size. -/
  | noEntry (index size : Nat)
  /-- The state is none of the automaton at hand. -/
  | noState (state : FieldState)
  /-- The flow of a field access has nowhere to go. -/
  | noSuccessor (point : Point) (flow : Query)
deriving DecidableEq

def Fault.message : Fault → String
  | noSolver .query index _ => s!"No solver with index {index}"
  | noSolver .start index size => s!"index {index} out of bounds: {size}"
  | noSolver .look index size => s!"index out of bounds: the len is {size} but the index is {index}"
  | noSolver .change index size => s!"index {index} out of range: Excluded({size})"
  | noEntry index size => s!"index out of bounds: the len is {size} but the index is {index}"
  | noState state => s!"{state.text} is not a state of its automaton"
  | noSuccessor point flow => s!"Field access {point.text} has no successor for {flow.text}"

/-- A solver and what the pool knows about it. -/
structure PoolEntry where
  solver : Solver
  /-- Whether its propagation was started -/
  started : Bool
  /-- Whether it was changed since its events were collected -/
  dirty : Bool

structure Pool where
  program : Program
  entries : OrderedMap Query PoolEntry
  allocated : OrderedSet ClassName
  methodListeners : List Nat
  journal : Feed Entry

namespace Pool

def create (program : Program) : Pool := ⟨program, ∅, ∅, [], ∅⟩

/-! ## Questions -/

def size (p : Pool) : Nat := p.entries.size

/-- The queries and their solvers in the order of creation. -/
def toList (p : Pool) : List (Query × Solver) :=
  p.entries.toList.map fun (query, entry) => (query, entry.solver)

def indexOf? (p : Pool) (query : Query) : Option Nat := p.entries.indexOf? query

def find? (p : Pool) (query : Query) : Option Solver := (p.entries.get? query).map (·.solver)

def queryAt (p : Pool) (index : Nat) : Except Fault Query :=
  match p.entries.key? index with
  | some query => .ok query
  | none => .error (.noSolver .query index p.size)

def solverAt (p : Pool) (index : Nat) : Except Fault Solver :=
  match p.entries.value? index with
  | some entry => .ok entry.solver
  | none => .error (.noSolver .look index p.size)

/-! ## The journal -/

def record (p : Pool) (entry : Entry) : Pool := { p with journal := p.journal.post entry }

def drainJournal (p : Pool) : List Entry × Pool :=
  let (entries, journal) := p.journal.takeAll
  (entries, { p with journal })

/-- What the solver at a position said and the journal does not have yet. -/
def noticesOf (p : Pool) (index : Nat) : List Notice :=
  match p.entries.value? index with
  | some entry => entry.solver.notices.pending
  | none => []

/-- Puts what the solver at a position said into the journal. -/
def collectNotices (p : Pool) (index : Nat) : Pool :=
  let notices := p.noticesOf index
  { p with
    entries := p.entries.modify index fun entry =>
      { entry with solver := entry.solver.drainNotices.2 }
    journal := p.journal.postAll (notices.map (.solver index)) }

/-! ## Operations -/

/-- Changes the solver at a position, which is dirty from then on. -/
def modify (p : Pool) (index : Nat) (f : Solver → Solver) : Pool :=
  let entries := p.entries.modify index fun entry =>
    { entry with solver := f entry.solver, dirty := true }
  { p with entries }.collectNotices index

/-- Changes the solver at a position that must have one. -/
def changeSolver (p : Pool) (index : Nat) (f : Solver → Solver) : Except Fault Pool :=
  if index < p.size then .ok (p.modify index f) else .error (.noSolver .change index p.size)

/-- Changes every solver in turn, in a way that makes no events. -/
def changeAll (p : Pool) (f : Solver → Solver) : Pool :=
  let entries := p.entries.mapValues fun entry => { entry with solver := f entry.solver }
  (List.range p.size).foldl collectNotices { p with entries }

/-- Makes a class known to all solvers. Answers whether that is news. -/
def addAllocatedType (p : Pool) (type : ClassName) : Bool × Pool :=
  match p.allocated.insertNew? type with
  | none => (false, p)
  | some allocated => (true, { p with allocated }.changeAll fun s => (s.addAllocatedType type).2)

/-- Registers a listener with all solvers. Answers whether it is a new one. -/
def addMethodListener (p : Pool) (listener : Nat) : Bool × Pool :=
  if p.methodListeners.contains listener then (false, p)
  else
    let p := p.changeAll fun s => s.addMethodListener listener
    (true, { p with methodListeners := p.methodListeners ++ [listener] })

/-- A solver that knows what all solvers of the pool know. -/
def newSolver (p : Pool) (query : Query) : Solver :=
  let solver := Solver.create query.direction ⟨p.program, query.direction⟩ query.fact
  let solver := p.allocated.toList.foldl (fun s type => (s.addAllocatedType type).2) solver
  p.methodListeners.foldl Solver.addMethodListener solver

/-- The position of the solver for a query, which is created if there is none. The class of a query
becomes known to all solvers. -/
def getOrCreate (p : Pool) (query : Query) : Nat × Pool :=
  match p.indexOf? query with
  | some index => (index, p)
  | none =>
    let entry : PoolEntry := ⟨p.newSolver query, false, true⟩
    let index := p.size
    let p := { p with entries := p.entries.insert query entry }.record (.created query)
    match query.type with
    | some type => (index, (p.addAllocatedType type).2)
    | none => (index, p)

/-- Marks the solver at a position as started. Answers whether it was not. -/
def start (p : Pool) (index : Nat) : Except Fault (Bool × Pool) :=
  match p.entries.value? index with
  | none => .error (.noSolver .start index p.size)
  | some entry =>
    let entries := p.entries.modify index fun entry => { entry with started := true }
    .ok (!entry.started, { p with entries })

/-- Collects the events of the dirty solvers, in the order of their positions. -/
def drain (p : Pool) : List (Nat × Event) × Pool :=
  let events := p.entries.values.toList.zipIdx.flatMap fun (entry, index) =>
    if entry.dirty then entry.solver.outbox.pending.map (index, ·) else []
  let entries := p.entries.mapValues fun entry =>
    if entry.dirty then { entry with solver := entry.solver.drainEvents.2, dirty := false }
    else entry
  (events, { p with entries })

end Pool

end PointsTo
