import PointsTo.Collection.Multimap
import PointsTo.Collection.OrderedMap
import PointsTo.Program.Body

/-!
# Programs

A program is a list of method bodies, found by name, together with its call graph: which methods a
call site may enter (`Program.callees`) and which call sites may enter a method
(`Program.callers`). A static call enters the method it names; a virtual call enters every method
of that simple name that some class declares. Calls of methods that do not exist enter nothing. That every
body is found under its own name, and that call sites are those of the bodies, is part of the type.
-/

namespace PointsTo

/-- Why bodies make no program. -/
inductive ProgramError where
  | duplicateMethod (method : MethodName)
deriving DecidableEq

def ProgramError.message : ProgramError → String
  | duplicateMethod method => s!"Duplicate method {method.text}"

namespace Program

def collectMethods (known : OrderedMap MethodName Body) :
    List Body → Except ProgramError (OrderedMap MethodName Body)
  | [] => .ok known
  | body :: rest =>
    if known.contains body.method then .error (.duplicateMethod body.method)
    else collectMethods (known.insert body.method body) rest

/-- The methods that a call of `callee` may enter, in program order. -/
def resolve (methods : OrderedMap MethodName Body) : Callee → List MethodName
  | .static method => if methods.contains method then [method] else []
  | .virtual name =>
    methods.keys.toList.filter fun m => m.declaringClass?.isSome && m.simpleName == name

/-- The calls in a body, each with its point. -/
def callsOf (body : Body) : List (Point × Callee) :=
  body.instructions.toList.zipIdx.filterMap fun (instruction, i) =>
    match instruction with
    | .call _ callee _ => some (.ofIndex body.method i, callee)
    | _ => none

/-- Files every call site under the methods it may enter. -/
def collectCallSites (methods : OrderedMap MethodName Body) : Multimap MethodName Point :=
  let calls := methods.values.toList.flatMap callsOf
  let entries := calls.flatMap fun (site, callee) => (resolve methods callee).map (·, site)
  entries.foldl (fun sites (method, site) => sites.insert method site) ∅

theorem method_of_collectMethods {known methods : OrderedMap MethodName Body} {bodies : List Body}
    (h : collectMethods known bodies = .ok methods) (hk : ∀ e ∈ known.toList, e.2.method = e.1) :
    ∀ e ∈ methods.toList, e.2.method = e.1 := by
  induction bodies generalizing known with
  | nil =>
    obtain rfl := Except.ok.inj h
    exact hk
  | cons body bodies ih =>
    unfold collectMethods at h
    split at h
    · cases h
    · refine ih h fun e he => ?_
      rw [OrderedMap.toList_insert] at he
      split at he
      · exact hk e he
      · obtain he | he := List.mem_append.1 he
        · exact hk e he
        · rw [List.mem_singleton.1 he]

end Program

structure Program where
  methods : OrderedMap MethodName Body
  callSites : Multimap MethodName Point
  method_of : ∀ e ∈ methods.toList, e.2.method = e.1
  callSites_eq : callSites = Program.collectCallSites methods

namespace Program

def ofBodies (bodies : List Body) : Except ProgramError Program :=
  match h : collectMethods ∅ bodies with
  | .error e => .error e
  | .ok methods =>
    .ok ⟨methods, collectCallSites methods, method_of_collectMethods h (by simp), rfl⟩

instance : Inhabited Program := ⟨⟨∅, ∅, by simp, rfl⟩⟩

def bodies (p : Program) : List Body := p.methods.values.toList

def body? (p : Program) (method : MethodName) : Option Body := p.methods.get? method

/-- A bound on the number of points, of variables and of fields of the program. -/
def extent (p : Program) : Nat := (p.bodies.map (·.extent)).foldr (· + ·) 0

/-! ## Points -/

/-- The point that carries `label` in `method`. -/
def point? (p : Program) (method : MethodName) (label : String) : Option Point := do
  let body ← p.body? method
  return .ofIndex method (← body.labelIndex? label)

/-- A point is described by its label, if it has one, and otherwise by its index. -/
def describe (p : Program) (point : Point) : String :=
  let label? := do (← p.body? point.method).labelOf? (← point.index)
  match label? with
  | some label => s!"{point.method.text}:{label}"
  | none => point.text

/-- The body and the position of a point that carries an instruction. -/
def locate? (p : Program) (point : Point) : Option (Body × Nat) := do
  let body ← p.body? point.method
  let i ← point.index
  if i < body.size then some (body, i) else none

def instruction? (p : Program) (point : Point) : Option Instruction := do
  let (body, i) ← p.locate? point
  body.instruction? i

/-- The points to which control may go next. -/
def successors (p : Program) (point : Point) : List Point :=
  match p.locate? point with
  | some (body, i) => (body.successorsOf i).map (.ofIndex body.method)
  | none => []

/-- The points from which control may have come. -/
def predecessors (p : Program) (point : Point) : List Point :=
  match p.locate? point with
  | some (body, i) => (body.predecessorsOf i).map (.ofIndex body.method)
  | none => []

/-- Where control enters a method. -/
def entries (p : Program) (method : MethodName) : List Point :=
  match p.body? method with
  | some body => if body.isEmpty then [] else [.ofIndex method 0]
  | none => []

/-- Where control leaves a method. -/
def exits (p : Program) (method : MethodName) : List Point :=
  match p.body? method with
  | some body => body.returns.map (.ofIndex method)
  | none => []

def parameters (p : Program) (method : MethodName) : List Var :=
  ((p.body? method).map (·.parameters)).getD []

/-! ## Call graph -/

def callees (p : Program) (site : Point) : List MethodName :=
  match p.instruction? site with
  | some (.call _ callee _) => resolve p.methods callee
  | _ => []

def callers (p : Program) (method : MethodName) : List Point := p.callSites.of method

end Program

end PointsTo
