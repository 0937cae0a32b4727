import PointsTo.Analysis.Events

/-!
# Client calls

Each call starts a query and then handles events until none are left. There are finitely many events
to handle: the solvers, joins, listeners and transitions of an analysis are all built from the
points, variables and fields of the program and of the clients (`Analysis.capacity`).
-/

namespace PointsTo

namespace Analysis

/-- Puts the events of the solvers into the queue. -/
def collect (a : Analysis) : Analysis :=
  let (events, pool) := a.pool.drain
  { a with pool, queue := a.queue.postAll events }

/-- Handles the event that has waited longest. -/
@[inline] def step? (a : Analysis) : Option (Except Halt Analysis) :=
  match a.queue.next? with
  | some ((index, event), queue) => some ({ a with queue }.handle index event)
  | none => none

/-- More than the number of events that can come up. A query has a fact and a type, so there are at
most as many solvers as the fourth power of the number of names; a join pairs at most two queries
with four names each, and a listener waits for transitions between states of at most four names. -/
def capacity (a : Analysis) : Nat := Nat.pow (a.program.extent + a.foreign + 8) 40

def runFor (a : Analysis) : (fuel : Nat) → Except Halt Analysis
  | 0 => .ok a
  | fuel + 1 =>
    let a := a.collect
    match a.step? with
    | none => .ok a
    | some (.ok a) => a.runFor fuel
    | some (.error halt) => .error halt

/-- Handles events until none are left. -/
def run (a : Analysis) : Except Halt Analysis := a.runFor a.capacity

/-- Accounts for the names that a client brings in. -/
def acceptNames (a : Analysis) : Analysis := { a with foreign := a.foreign + 3 }

/-- Solves a query and everything it depends on. -/
def solve (a : Analysis) (query : Query) : Except Halt Analysis := do
  let (_, a) ← a.acceptNames.startQuery query.direction query
  a.run

/-- Solves a backward query and tells the client of every allocation that reaches the query with an
empty field stack. -/
def addBackwardQuery (a : Analysis) (query : Query) (client : Nat) : Except Halt Analysis := do
  let a ← a.acceptNames.startBackward query (some (some client))
  a.run

/-- Makes a class known to all solvers. Answers whether that is news. -/
def addAllocatedType (a : Analysis) (type : ClassName) : Bool × Analysis :=
  let (isNew, pool) := a.pool.addAllocatedType type
  (isNew, { a.acceptNames with pool })

/-- Registers a listener for the methods that solvers reach. Answers whether it is a new one. -/
def addMethodListener (a : Analysis) (listener : Nat) : Bool × Analysis :=
  let (isNew, pool) := a.pool.addMethodListener listener
  (isNew, { a with pool })

end Analysis

end PointsTo
