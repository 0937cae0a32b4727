import PointsTo.Proofs.Analysis.Clients
import PointsTo.Proofs.Analysis.Closure

/-!
# Splicing at call sites

Where a value that comes back from a call meets a variable that went past it, the solver that explains
the variable is spliced into the solver that follows the value (`Spliced`). The two may be recorded in
either order, and both solvers go on growing afterwards, in part because of the splice itself. Once a
call has returned the splice is complete all the same (`performAll_splices`). Both records are there,
so they were activated (`Complete.activation`), and everything that an activation sets up lasts: the
visitor has come to all that is reached from the variable (`Working.visited_along`), and a solver at
rest has drawn the consequences of the flows it was given.
-/

namespace PointsTo

namespace Analysis

/-- The solver `flow` follows the variable as it follows the value that came back, and it has what the
solver `past` knows of the variable. -/
structure Spliced (returnSite : Point) (source : FlowSource) (v : Var) (flow past : Solver) :
    Prop where
  copied : ∀ t ∈ past.fields, (∃ labels, past.fields.Path t.start (.single ⟨returnSite, v⟩) labels) →
    t ∈ flow.fields
  unified : ∀ l state, ⟨.single ⟨returnSite, source.returned⟩, l, state⟩ ∈ flow.fields →
    ⟨.single ⟨returnSite, v⟩, l, state⟩ ∈ flow.fields
  taken : source.state.isGenerated → ∀ l state, ⟨source.state, l, state⟩ ∈ flow.fields →
    ⟨.single ⟨returnSite, v⟩, l, state⟩ ∈ flow.fields
  entered : ∀ c, ⟨.single source.returned, returnSite, c⟩ ∈ flow.calls →
    ⟨.single v, returnSite, c⟩ ∈ flow.calls

variable {p : Program} {S : Supply p} {n : Nat} {a : Analysis} {calls : List ClientCall}
  {site returnSite : Point} {source : FlowSource} {base : Query} {v : Var} {x : CallJoin}

/-- What an activation sets up is carried out once nothing waits. -/
theorem Working.spliced (h : Working S n a) (idle : a.Idle)
    (activated : a.Activated returnSite source base v) :
    ∃ flow past, a.solver? source.query = some flow ∧ a.solver? base = some past ∧
      Spliced returnSite source v flow past := by
  obtain ⟨-, y, -, ⟨e, he⟩, -⟩ := activated.visits
  obtain ⟨j, f, hf, callFlow⟩ := activated.callFlow
  have resting := (h.host hf).resting
  refine ⟨f.solver, e.solver, Pool.find?_eq_some_iff.2 ⟨j, f, hf, rfl⟩,
    Pool.find?_eq_some_iff.2 ⟨y.solver, e, he, rfl⟩, ?_⟩
  exact {
    copied := fun t ht ⟨labels, path⟩ => by
      have visits := h.visited_along idle he path activated.visits
      have copied := (h.visited idle visits ((sub_factsOf he).field t ht)).2
      exact (factsOf_sub hf).field t copied
    unified := fun l state ht =>
      (resting.fieldDone ht).flow rfl ((factsOf_sub hf).fieldFlow _ _ activated.fieldFlow)
    taken := fun generated l state ht =>
      (resting.fieldDone ht).pop ((factsOf_sub hf).pop _ _ (activated.pop generated))
    entered := fun c hc => (resting.callDone hc).flow rfl callFlow }

/-- Whatever clients have called and whichever was recorded first, what came back from a call and what
went past it are spliced. -/
theorem performAll_splices (p : Program) (config : Config)
    (called : (create p config).performAll calls = .ok a)
    (join : a.callJoins.get? (site, returnSite) = some x) (returned : (source, base) ∈ x.flows)
    (bypassed : (base, v) ∈ x.bypasses) (other : source.query ≠ base) :
    ∃ flow past, a.solver? source.query = some flow ∧ a.solver? base = some past ∧
      Spliced returnSite source v flow past := by
  obtain ⟨⟨S, n, h, -⟩, idle⟩ := ready_of_performAll called
  obtain ⟨j, hj⟩ := List.mem_iff_getElem?.1 (OrderedMap.get?_eq_some_iff.1 join)
  exact h.spliced idle (h.complete.activation ⟨j, x, hj, returned⟩ ⟨j, x, hj, bypassed⟩ other)

/-- An object is stored into a box, and the box goes through a call inside a crate. -/
def crated : String :=
  "method m() \x7b\n  o = new O\n  a = new A\n  a.f = o\n  b.g = a\n  call id(b)\n  q: nop\n\x7d\n" ++
    "method id(x) \x7b\n  return\n\x7d"

/-- What is stored into the box -/
def content : Query := ⟨.forward, ⟨.ofIndex ⟨"m"⟩ 1, ⟨"o", ⟨"m"⟩⟩⟩, some ⟨"O"⟩⟩

def box : Query := ⟨.forward, ⟨.ofIndex ⟨"m"⟩ 2, ⟨"a", ⟨"m"⟩⟩⟩, some ⟨"A"⟩⟩

/-- The content comes back from the call in the box in the crate. -/
def crate : FlowSource :=
  ⟨content, ⟨"b", ⟨"m"⟩⟩, .generated ⟨.ofIndex ⟨"m"⟩ 5, ⟨"b", ⟨"m"⟩⟩⟩ (.named "g")⟩

/-- The box comes back in the crate and also goes past the call, so the content is found in the box
under both names. -/
theorem crated_splices : ∃ program a x flow past, Source.readProgram crated = .ok program ∧
    (create program default).performAll [.solve content] = .ok a ∧
    a.callJoins.get? (.ofIndex ⟨"m"⟩ 5, .ofIndex ⟨"m"⟩ 6) = some x ∧
    (crate, box) ∈ x.flows ∧ (box, ⟨"a", ⟨"m"⟩⟩) ∈ x.bypasses ∧ crate.query ≠ box ∧
    crate.state.isGenerated ∧ a.solver? crate.query = some flow ∧ a.solver? box = some past ∧
    Spliced (.ofIndex ⟨"m"⟩ 6) crate ⟨"a", ⟨"m"⟩⟩ flow past := by
  have checked : (Source.readProgram crated).toOption.any fun program =>
      ((create program default).performAll [.solve content]).toOption.any fun a =>
      (a.callJoins.get? (.ofIndex ⟨"m"⟩ 5, .ofIndex ⟨"m"⟩ 6)).any fun x =>
        x.flows.contains (crate, box) && x.bypasses.contains (box, ⟨"a", ⟨"m"⟩⟩) := by
    decide +kernel
  obtain ⟨program, read, h⟩ := exists_ok_of_any checked
  obtain ⟨a, called, h⟩ := exists_ok_of_any h
  obtain ⟨x, join, sides⟩ := (Option.any_eq_true _ _).1 h
  obtain ⟨hf, hb⟩ := Bool.and_eq_true_iff.1 sides
  have returned : (crate, box) ∈ x.flows := OrderedSet.contains_iff.1 hf
  have bypassed : (box, ⟨"a", ⟨"m"⟩⟩) ∈ x.bypasses := OrderedSet.contains_iff.1 hb
  have other : crate.query ≠ box := by decide
  obtain ⟨flow, past, hflow, hpast, spliced⟩ :=
    performAll_splices program default called join returned bypassed other
  exact ⟨program, a, x, flow, past, read, called, join, returned, bypassed, other, rfl, hflow,
    hpast, spliced⟩

/-- A variable of the method `m` once the crate is back from the call. -/
def afterCall (name : String) : Fact := ⟨.ofIndex ⟨"m"⟩ 6, ⟨name, ⟨"m"⟩⟩⟩

/-- The solver for the content knows, by the splice, where the box comes from. -/
def boxed : FieldTransition := ⟨.single (afterCall "a"), .epsilon, .alloc box.fact⟩

/-- In the callee, what is called `b` before the call is called `x`. -/
def insideCallee : FieldTransition :=
  ⟨.single ⟨.ofIndex ⟨"id"⟩ 0, ⟨"x", ⟨"id"⟩⟩⟩, .named "g",
    .generated ⟨.ofIndex ⟨"m"⟩ 5, ⟨"b", ⟨"m"⟩⟩⟩ (.named "g")⟩

/-- The frame of the callee lies above the empty stack of the caller. -/
def calleeFrame : CallTransition :=
  ⟨.generated ⟨"x", ⟨"id"⟩⟩ (.ofIndex ⟨"id"⟩ 0), .ofIndex ⟨"m"⟩ 5, .initial ⟨"o", ⟨"m"⟩⟩⟩

/-- The content has been solved, and its solver has found it where the crate comes back. -/
structure Crated (program : Program) (a : Analysis) (s : Solver) : Prop where
  read : Source.readProgram crated = .ok program
  called : (create program default).performAll [.solve content] = .ok a
  solver : a.solver? content = some s
  inScope : program.InScope content.fact
  boxed : boxed ∈ s.fields
  insideCallee : insideCallee ∈ s.fields
  calleeFrame : calleeFrame ∈ s.calls
  entered : ⟨.single ⟨"a", ⟨"m"⟩⟩, .ofIndex ⟨"m"⟩ 6, .initial ⟨"o", ⟨"m"⟩⟩⟩ ∈ s.calls
  reached : afterCall "a" ∈ s.reached
  silent : s.reachesWithEmptyStack (afterCall "o")
  notSilent : ¬ s.reachesWithEmptyStack (afterCall "a")

theorem exists_crated : ∃ program a s, Crated program a s := by
  have checked : (Source.readProgram crated).toOption.any fun program =>
      ((create program default).performAll [.solve content]).toOption.any fun a =>
      (a.solver? content).any fun s => decide (program.InScope content.fact ∧
        s.fields.contains boxed ∧ s.fields.contains insideCallee ∧ s.calls.contains calleeFrame ∧
        s.calls.contains ⟨.single ⟨"a", ⟨"m"⟩⟩, .ofIndex ⟨"m"⟩ 6, .initial ⟨"o", ⟨"m"⟩⟩⟩ ∧
        s.reached.contains (afterCall "a") ∧ s.reachesWithEmptyStack (afterCall "o") ∧
        ¬ s.reachesWithEmptyStack (afterCall "a")) := by
    decide +kernel
  obtain ⟨program, read, h⟩ := exists_ok_of_any checked
  obtain ⟨a, called, h⟩ := exists_ok_of_any h
  obtain ⟨s, solver, h⟩ := (Option.any_eq_true _ _).1 h
  simp only [decide_eq_true_eq, Automaton.contains_iff, OrderedSet.contains_iff] at h
  obtain ⟨inScope, boxed, insideCallee, calleeFrame, entered, reached, silent, notSilent⟩ := h
  exact ⟨program, a, s, read, called, solver, inScope, boxed, insideCallee, calleeFrame, entered,
    reached, silent, notSilent⟩

end Analysis

end PointsTo
