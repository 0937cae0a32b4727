import PointsTo.Proofs.Program.Calls
import PointsTo.Proofs.Program.Shape
import PointsTo.Proofs.Solver.Causes
import PointsTo.Proofs.Source.Reader

/-!
# What a call changes

A forward solver finds a variable at the return site of a call for one of three reasons: it was
found at the call and the call does not write it, or the call writes it and a callee returns the
value, or it is an argument of the call and the value is in its parameter where the callee ends
(`calls_at_returnSite`). The last reason makes a call change more than its destination: a callee that
assigns to its own parameter seems to assign to the argument (`not_onlyDestinationChanges`).

Parameters go back to their arguments by design. If the argument is also the destination of the call,
the call has written it since, and what the parameter holds has no business there
(`Program.HandsBack.overwritten`).
-/

namespace PointsTo

/-- The variable `w` at the end of a callee is taken for the variable `v` of the caller. -/
inductive Program.HandsBack (p : Program) (site : Point) (dest : Option Var) (args : List Var) :
    Fact → Var → Prop
  /-- It is returned into `v`. -/
  | returned {t w v} : t.method ∈ p.callees site → p.instruction? t = some (.ret (some w)) →
      dest = some v → HandsBack p site dest args ⟨t, w⟩ v
  /-- It is the parameter for the argument `v`, which the call does not write. -/
  | parameter {t w v value} {k : Nat} : t.method ∈ p.callees site → p.instruction? t = some (.ret value) →
      (p.parameters t.method)[k]? = some w → args[k]? = some v → dest ≠ some v →
      HandsBack p site dest args ⟨t, w⟩ v
  /-- It is the parameter for the argument `v`, and the call writes `v`. -/
  | overwritten {t w v value} {k : Nat} : t.method ∈ p.callees site →
      p.instruction? t = some (.ret value) → (p.parameters t.method)[k]? = some w →
      args[k]? = some v → dest = some v → HandsBack p site dest args ⟨t, w⟩ v

namespace Solver

/-- The contexts below a frame at a call site, and the empty stack below itself. -/
def Pops (s : Solver) (site : Point) (context below : CallState) : Prop :=
  ⟨context, site, below⟩ ∈ s.calls ∨ ∃ v, context = .initial v ∧ below = .initial v

section Rules

variable {p : Propagation} {f : Fact} {r : Rule}

/-- A rule out of a method hands a value back, forward. -/
theorem handsBack_of_leave (forward : p.direction = .forward) (graph : p.graph.direction = .forward)
    (h : r ∈ (p.flow f).rules) {site : Point} (hr : r.call = .leave site) :
    ∃ dest callee args, p.graph.program.instruction? site = some (.call dest callee args) ∧
      r.target.point ∈ p.graph.program.successors site ∧
      p.graph.program.HandsBack site dest args f r.target.var := by
  obtain ⟨i, hi, h | ⟨w, e, hc, ⟨hend, h⟩ | ⟨-, next, hn, rfl⟩⟩⟩ := Propagation.mem_rules_iff.1 h
  · obtain ⟨method, start, w, -, -, rfl⟩ := Propagation.mem_entering h
    cases hr
  · obtain ⟨site', dest, callee, args, returnSite, v, hs, hcall, hsucc, hv, rfl⟩ :=
      Propagation.mem_exitRules_iff.1 h
    obtain rfl : site' = site := by simpa using hr
    have hend : f.point ∈ p.graph.program.exits f.point.method := by
      simpa [Supergraph.isEndPoint, Supergraph.endPoints, Supergraph.startPoints, Supergraph.reverse,
        graph, Direction.reverse] using hend
    obtain ⟨-, value, hret⟩ := Program.mem_exits_iff.1 hend
    obtain rfl := Option.some.inj (hi.symm.trans hret)
    have hsucc : returnSite ∈ p.graph.program.successors site' := by
      simpa [Supergraph.successors, graph] using hsucc
    have hm := Program.mem_callers_iff.1 hs
    -- a `return` passes the variable on as it is
    obtain ⟨rfl, rfl⟩ : w = f.var ∧ e = .keep := by
      simpa [Propagation.transfer, forward, Propagation.forwardTransfer, Transfer.carry] using hc
    refine ⟨dest, callee, args, hcall, hsucc, ?_⟩
    obtain ⟨point, w⟩ := f
    obtain ⟨hr, hd⟩ | ⟨k, hk, ha⟩ := Propagation.mem_callerVars.1 hv
    · obtain ⟨-, hr⟩ := of_decide_eq_true hr
      exact .returned hm (hr ▸ hret) hd
    · obtain ⟨hlt, hw, -⟩ := List.findIdx?_eq_some_iff_getElem.1 hk
      have hp : (p.graph.program.parameters point.method)[k]? = some w := by
        rw [List.getElem?_eq_getElem hlt, of_decide_eq_true hw]
      by_cases written : dest = some v
      · exact .overwritten hm hret hp ha written
      · exact .parameter hm hret hp ha written
  · cases hr

/-- A rule along an edge comes from the point before it, with a variable that the instruction there
passes on. -/
theorem edge_of_stay (forward : p.direction = .forward) (graph : p.graph.direction = .forward)
    (h : r ∈ (p.flow f).rules) (hr : r.call = .stay) :
    r.target.point ∈ p.graph.program.successors f.point ∧
      ∃ i, p.graph.program.instruction? f.point = some i ∧
        (r.target.var, r.field) ∈ (p.forwardTransfer f.point f.var i).carried := by
  obtain ⟨i, hi, h | ⟨w, e, hc, ⟨-, h⟩ | ⟨-, next, hn, rfl⟩⟩⟩ := Propagation.mem_rules_iff.1 h
  · obtain ⟨method, start, w, -, -, rfl⟩ := Propagation.mem_entering h
    cases hr
  · obtain ⟨_, _, _, _, _, _, -, -, -, -, rfl⟩ := Propagation.mem_exitRules_iff.1 h
    cases hr
  · refine ⟨by simpa [Supergraph.successors, graph] using hn, i, hi, ?_⟩
    rwa [Propagation.transfer, forward] at hc

/-- A call passes on what it does not write. -/
theorem kept_of_mem_carried {site : Point} {dest : Option Var} {callee : Callee} {args : List Var}
    {v w : Var} {e : FieldEffect}
    (h : (w, e) ∈ (p.forwardTransfer site v (.call dest callee args)).carried) :
    w = v ∧ dest ≠ some v := by
  simp only [Propagation.forwardTransfer, Propagation.forwardCall] at h
  split at h
  · simp at h
  · next kept =>
    simp only [List.mem_singleton, Prod.mk.injEq] at h
    exact ⟨h.1, kept⟩

/-- A rule into a callee leads from an argument of a call to the parameter, forward. -/
theorem parameter_of_enter (forward : p.direction = .forward) (graph : p.graph.direction = .forward)
    (h : r ∈ (p.flow f).rules) {site : Point} (hr : r.call = .enter site) :
    site = f.point ∧ ∃ dest callee args m, ∃ k : Nat,
      p.graph.program.instruction? site = some (.call dest callee args) ∧
      m ∈ p.graph.program.callees site ∧ r.target.point ∈ p.graph.program.entries m ∧
      args[k]? = some f.var ∧ (p.graph.program.parameters m)[k]? = some r.target.var := by
  obtain ⟨i, hi, h | ⟨w, e, hc, ⟨-, h⟩ | ⟨-, next, hn, rfl⟩⟩⟩ := Propagation.mem_rules_iff.1 h
  · cases i with
    | call dest callee args =>
      have h : r ∈ p.enterArguments f.point (p.callees f.point callee) args f.var := by
        simp only [Propagation.transfer, forward, Propagation.forwardTransfer,
          Propagation.forwardCall] at h
        split at h <;> exact h
      obtain ⟨k, ha, h⟩ := Propagation.mem_enterArguments_iff.1 h
      obtain ⟨m, hm, start, w, hs, hp, rfl⟩ := Propagation.mem_enterParameter_iff.1 h
      obtain rfl : f.point = site := by simpa using hr
      refine ⟨rfl, dest, callee, args, m, k, hi, Propagation.callees_subset hm, ?_, ha, hp⟩
      simpa [Supergraph.startPoints, graph] using hs
    | _ => simp [Propagation.transfer, forward, Propagation.forwardTransfer, Transfer.carry] at h
  · obtain ⟨_, _, _, _, _, _, -, -, -, -, rfl⟩ := Propagation.mem_exitRules_iff.1 h
    cases hr
  · cases hr

end Rules

/-- In a program that was read, take a call whose return site has no other predecessor, and a forward
solver that was only asked to solve some facts. If it finds a variable at the return site in a
context, and was not asked to start there, then the variable was found at the call in the same
context and the call does not write it, or it was handed back from the end of a callee, found there
in a context from which the call site leads to this one. -/
theorem calls_at_returnSite {source : String} {program : Program}
    (read : Source.readProgram source = .ok program) (seed : Fact) (types : List ClassName)
    (starts : List Fact) {site returnSite : Point} {dest : Option Var} {callee : Callee}
    {args : List Var} (hcall : program.instruction? site = some (.call dest callee args))
    (only : program.predecessors returnSite = [site]) {v : Var} (new : ⟨returnSite, v⟩ ∉ starts)
    {context : CallState} :
    let s := ((create .forward ⟨program, .forward⟩ seed).allocate types).solveAll starts
    ⟨.single v, returnSite, context⟩ ∈ s.calls →
      dest ≠ some v ∧ ⟨.single v, site, context⟩ ∈ s.calls ∨
      ∃ f inner, program.HandsBack site dest args f v ∧ ⟨.single f.var, f.point, inner⟩ ∈ s.calls ∧
        s.Pops site inner context := by
  intro s h
  set p := ((create .forward ⟨program, .forward⟩ seed).allocate types).propagation with hp
  have least : Facts.Least p.ways (Granted seed (starts.map .solve)) s.facts :=
    solveAll_least .forward ⟨program, .forward⟩ seed types starts
  have graph : p.graph = ⟨program, .forward⟩ := graph_allocate _ types
  have forward : p.direction = .forward := direction_allocate _ types
  have before {point : Point} (hn : returnSite ∈ program.successors point) : point = site := by
    have := Program.mem_predecessors.2 hn
    rwa [only, List.mem_singleton] at this
  have leave {f r site'} (hr : r ∈ (p.flow f).rules) (e : r.call = .leave site')
      (hv : r.target = ⟨returnSite, v⟩) : site' = site ∧ program.HandsBack site dest args f v := by
    obtain ⟨dest', callee', args', hcall', hn, back⟩ :=
      handsBack_of_leave forward (by rw [graph]) hr e
    rw [graph, hv] at hn back
    rw [graph] at hcall'
    obtain rfl := before hn
    obtain ⟨rfl, -, rfl⟩ := Instruction.call.inj (Option.some.inj (hcall'.symm.trans hcall))
    exact ⟨rfl, back⟩
  have target {f : Fact} {c : CallState}
      (e : (⟨.single v, returnSite, context⟩ : CallTransition) = ⟨.single f.var, f.point, c⟩) :
      f = ⟨returnSite, v⟩ ∧ c = context := by
    obtain ⟨⟨⟩, rfl, rfl⟩ := Transition.mk.inj e
    exact ⟨rfl, rfl⟩
  have cause := least.call_cause h
  generalize ht : (⟨.single v, returnSite, context⟩ : CallTransition) = t at cause
  cases cause with
  | @solve f hf =>
    obtain ⟨g, hg, e⟩ := List.mem_map.1 hf
    rw [Operation.solve.inj e, (target ht).1] at hg
    exact absurd hg new
  | @stay f r c hf hr e =>
    obtain ⟨hv, rfl⟩ := target ht
    obtain ⟨hn, i, hi, hc⟩ := edge_of_stay forward (by rw [graph]) hr e
    rw [graph] at hn hi
    rw [hv] at hn hc
    obtain ⟨point, w⟩ := f
    obtain rfl := before hn
    obtain rfl := Option.some.inj (hi.symm.trans hcall)
    obtain ⟨rfl, hd⟩ := kept_of_mem_carried hc
    exact .inl ⟨hd, hf⟩
  | @enter f r site' c hf hr e =>
    -- no edge leads to the entry of a method
    obtain ⟨-, _, _, _, m, _, -, -, he, -⟩ := parameter_of_enter forward (by rw [graph]) hr e
    rw [graph, (target ht).1] at he
    have edge : returnSite ∈ program.successors site :=
      Program.mem_predecessors.1 (by rw [only]; exact List.mem_singleton.2 rfl)
    exact absurd he (Source.readProgram_entry read edge m)
  | frame hf hr e => simp at ht
  | @leave f r site' w q c hf hr e hc =>
    obtain ⟨hv, rfl⟩ := target ht
    obtain ⟨rfl, back⟩ := leave hr e hv
    exact .inr ⟨f, _, back, hf, .inl hc⟩
  | @leaveBottom f r site' w hf hr e hm =>
    obtain ⟨hv, rfl⟩ := target ht
    obtain ⟨-, back⟩ := leave hr e hv
    exact .inr ⟨f, _, back, hf, .inr ⟨w, rfl, rfl⟩⟩
  | @callFlow f g c hg hf =>
    simp at hg

/-! ## A parameter that is assigned to -/

/-- A callee that assigns one of its parameters to the other. -/
def reassigning : String :=
  "method m() \x7b\n  a = new A\n  b = new B\n  call f(a, b)\n  nop\n\x7d\n" ++
    "method f(p, q) \x7b\n  q = p\n  return\n\x7d"

/-- The first object, where it is made. -/
def firstObject : Fact := ⟨.ofIndex ⟨"m"⟩ 1, ⟨"a", ⟨"m"⟩⟩⟩

/-- The first object, where it begins to live. -/
def firstStart : Fact := ⟨.ofIndex ⟨"m"⟩ 2, ⟨"a", ⟨"m"⟩⟩⟩

/-- The solver for the first object. -/
abbrev firstSolver (program : Program) : Solver :=
  ((create .forward ⟨program, .forward⟩ firstObject).allocate []).solveAll [firstStart]

/-- The second argument, found to hold the first object at a point. -/
def secondAt (index : Nat) : CallTransition :=
  ⟨.single ⟨"b", ⟨"m"⟩⟩, .ofIndex ⟨"m"⟩ index, .initial ⟨"a", ⟨"m"⟩⟩⟩

/-- The second argument is found to hold the first object after the call, though not before. -/
theorem reassigning_run : ∃ program, Source.readProgram reassigning = .ok program ∧
    (program.Fieldless ∧ program.Static) ∧
    program.instruction? (.ofIndex ⟨"m"⟩ 3) =
      some (.call none (.static ⟨"f"⟩) [⟨"a", ⟨"m"⟩⟩, ⟨"b", ⟨"m"⟩⟩]) ∧
    program.predecessors (.ofIndex ⟨"m"⟩ 4) = [.ofIndex ⟨"m"⟩ 3] ∧
    secondAt 4 ∈ (firstSolver program).calls ∧ secondAt 3 ∉ (firstSolver program).calls := by
  have run : (Source.readProgram reassigning).toOption.any fun program =>
      decide ((program.Fieldless ∧ program.Static) ∧
        program.instruction? (.ofIndex ⟨"m"⟩ 3) =
          some (.call none (.static ⟨"f"⟩) [⟨"a", ⟨"m"⟩⟩, ⟨"b", ⟨"m"⟩⟩]) ∧
        program.predecessors (.ofIndex ⟨"m"⟩ 4) = [.ofIndex ⟨"m"⟩ 3] ∧
        (firstSolver program).calls.contains (secondAt 4) = true ∧
        (firstSolver program).calls.contains (secondAt 3) = false) := by
    decide +kernel
  obtain ⟨program, read, h⟩ := exists_ok_of_any run
  obtain ⟨kind, hcall, only, after, before⟩ := of_decide_eq_true h
  refine ⟨program, read, kind, hcall, only, Automaton.contains_iff.1 after, fun h => ?_⟩
  rw [Automaton.contains_iff.2 h] at before
  cases before

/-- What the solver found after the call was handed back from the end of the callee. -/
theorem handed_back_to_argument : ∃ program, Source.readProgram reassigning = .ok program ∧
    ∃ f inner, program.HandsBack (.ofIndex ⟨"m"⟩ 3) none [⟨"a", ⟨"m"⟩⟩, ⟨"b", ⟨"m"⟩⟩] f ⟨"b", ⟨"m"⟩⟩ ∧
      ⟨.single f.var, f.point, inner⟩ ∈ (firstSolver program).calls ∧
      (firstSolver program).Pops (.ofIndex ⟨"m"⟩ 3) inner (.initial ⟨"a", ⟨"m"⟩⟩) := by
  obtain ⟨program, read, -, hcall, only, after, before⟩ := reassigning_run
  unfold firstSolver secondAt at after before
  unfold firstSolver
  refine ⟨program, read, ?_⟩
  have cause := calls_at_returnSite read firstObject [] [firstStart] hcall only
    (by simp [firstStart]) after
  exact cause.resolve_left fun h => before h.2

/-- At the return sites of calls, the solver finds what it found at the call, but for the destination
of the call, and in the destination what a callee returns. -/
def OnlyDestinationChanges (program : Program) (starts : List Fact) (s : Solver) : Prop :=
  ∀ {site returnSite dest callee args v context},
    program.instruction? site = some (.call dest callee args) →
    program.predecessors returnSite = [site] → ⟨returnSite, v⟩ ∉ starts →
    ⟨.single v, returnSite, context⟩ ∈ s.calls →
      (dest ≠ some v → ⟨.single v, site, context⟩ ∈ s.calls) ∧
      (dest = some v → ∃ t w inner, t.method ∈ program.callees site ∧
        program.instruction? t = some (.ret (some w)) ∧ ⟨.single w, t, inner⟩ ∈ s.calls ∧
        s.Pops site inner context)

/-- A call may change an argument, too. -/
theorem not_onlyDestinationChanges : ∃ program, Source.readProgram reassigning = .ok program ∧
    (program.Fieldless ∧ program.Static) ∧
    ¬ OnlyDestinationChanges program [firstStart] (firstSolver program) := by
  obtain ⟨program, read, kind, hcall, only, after, before⟩ := reassigning_run
  unfold secondAt at after before
  refine ⟨program, read, kind, fun claim => before ?_⟩
  exact (claim hcall only (by simp [firstStart]) after).1 (by simp)

end Solver

end PointsTo
