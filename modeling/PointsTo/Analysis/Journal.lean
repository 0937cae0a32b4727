import PointsTo.Join.Call
import PointsTo.Join.Field
import PointsTo.Solver.Basic

/-!
# The journal of an analysis

Everything an analysis says while it works goes into one journal, in order: what its solvers say,
what it remarks itself, and what it tells the clients of backward queries. Entries are values; their
wording is `Entry.record?`.
-/

namespace PointsTo

inductive Entry where
  /-- A solver, known by its position, says something. -/
  | solver (index : Nat) (notice : Notice)
  | created (query : Query)
  | synthetic (query : Query)
  | solving (query : Query)
  | executing (access : FieldAccess) (base flow : Query)
  | importing (var : Var) (point : Point) (flow : Query)
  | activating (site returnSite : Point) (activation : Activation)
  /-- A client is told of an allocation that reaches its query with an empty field stack. -/
  | found (client : Nat) (query : Query) (allocation : Fact)
deriving DecidableEq

namespace Entry

def activationText (site returnSite : Point) (a : Activation) : String :=
  s!"Activating {site.text} at {returnSite.text}: {a.var.name} of {a.bypassing.text} aliases " ++
    s!"{a.flow.returned.name} of {a.flow.query.text}"

/-- The log record of an entry. What is told to listeners and clients is not logged. -/
def record? : Entry → Option LogRecord
  | solver _ notice => notice.record?
  | created query => some ⟨.trace, s!"New solver for {query.text}"⟩
  | synthetic query => some ⟨.warn, s!"{query.text} starts at a synthetic statement"⟩
  | solving query => some ⟨.info, s!"Solving {query.text}"⟩
  | executing access base flow =>
    some ⟨.debug, s!"Executing {access.text} with base {base.text} and flow {flow.text}"⟩
  | importing var point flow =>
    some ⟨.debug, s!"Importing alias {var.name} at {point.text} into {flow.text}"⟩
  | activating site returnSite activation =>
    some ⟨.debug, activationText site returnSite activation⟩
  | found .. => none

end Entry

end PointsTo
