import PointsTo.Proofs.Program.Shape
import PointsTo.Proofs.Solver.Changes
import PointsTo.Proofs.Solver.Outcome

/-!
# Solvers of programs with static calls

Classes decide only where virtual calls lead. If all calls are static, the rules of a fact are the
same whatever classes are known when they are found, so the facts of a solver at rest are closed
under them (`Resting.closed`), even though the solver may have heard of classes in between.
-/

namespace PointsTo

namespace Propagation

variable {p : Propagation} (static : p.graph.program.Static)
include static

theorem callees_of_static {site : Point} {dest : Option Var} {callee : Callee} {args : List Var}
    (hi : p.graph.program.instruction? site = some (.call dest callee args)) :
    p.callees site callee = p.graph.program.callees site := by
  cases callee with
  | static method => rfl
  | virtual name => cases static.instruction hi

/-- What flows where does not depend on the classes that are known. -/
theorem flow_allocated (allocated : OrderedSet ClassName) (f : Fact) :
    ({ p with allocated } : Propagation).flow f = p.flow f := by
  unfold flow
  cases hi : p.graph.program.instruction? f.point with
  | none => rfl
  | some i =>
    have same : ({ p with allocated } : Propagation).transfer f.point f.var i =
        p.transfer f.point f.var i := by
      cases i with
      | call dest callee args =>
        cases callee with
        | static method => rfl
        | virtual name => cases static.instruction hi
      | _ => rfl
    simp only [same]
    rfl

end Propagation

namespace Solver

variable {s : Solver} (h : s.Resting)
include h

/-- At rest, the facts of a solver are closed if no call is virtual. -/
theorem Resting.closed (static : s.graph.program.Static) : s.facts.Closed s.propagation.ways := by
  refine h.regular.settled.closed h.idle fun hrs r hr => ?_
  obtain ⟨⟨allocated, rfl, -⟩, -⟩ := h.regular.settled.found hrs
  rw [Propagation.flow_allocated (p := s.propagation) static]
  exact hr

/-- At rest, a solver has told what there is to tell of its facts if no call is virtual. -/
theorem Resting.mem_announced (static : s.graph.program.Static) {f : Fact} {a : Announcement}
    (hf : s.facts.live f) (ha : a ∈ (s.propagation.flow f).announcements) : a ∈ s.announced := by
  obtain ⟨rs, hr⟩ := h.regular.exists_rules h.idle hf
  obtain ⟨⟨allocated, -, told⟩, -⟩ := h.regular.settled.found hr
  exact told a (by rwa [Propagation.flow_allocated (p := s.propagation) static])

theorem Resting.mem_reached {f : Fact} (hf : s.facts.reached f) : f ∈ s.reached := by
  obtain ⟨rs, hr⟩ := h.regular.exists_rules h.idle hf.1
  refine h.regular.settled.reached ?_ hf.2
  rw [Std.TreeMap.contains_eq_isSome_getElem?, hr]
  rfl

theorem Resting.reachesWithEmptyStack {f : Fact} (hf : s.facts.live f)
    (ht : s.facts.field ⟨.single f, .epsilon, .alloc s.seed⟩) : s.reachesWithEmptyStack f := by
  obtain ⟨rs, hr⟩ := h.regular.exists_rules h.idle hf
  rw [Solver.reachesWithEmptyStack, Std.TreeMap.contains_eq_isSome_getElem?, hr]
  exact Automaton.contains_iff.2 ht

end Solver

end PointsTo
