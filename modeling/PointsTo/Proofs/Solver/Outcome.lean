import PointsTo.Proofs.Solver.AccessPaths

/-!
# The outcome of a sequence of operations

What callers can read off a solver are its two automata, the facts it reached and the methods it
reached (`Solver.outcome`). A regular solver at rest has exactly the outcome that its facts call for
(`outcome_eq`), because a fact with rules is reached as soon as its state is productive, and finding
the rules of a fact records its method. So the outcome of a sequence of operations is that of the
least closed facts (`outcome_applyAll_least`), and the sequence matters only as the set of its operations.
-/

namespace PointsTo

/-- What there is to read off a solver. -/
@[ext] structure Outcome where
  field : FieldTransition → Prop
  call : CallTransition → Prop
  reached : Fact → Prop
  method : MethodName → Prop

/-- The outcome that a set of facts calls for. -/
def Facts.outcome (F : Facts) : Outcome := ⟨F.field, F.call, F.reached, F.visits⟩

namespace Facts

variable {W : Ways} {P Q : Facts → Prop} {F G : Facts}

/-- Two conditions that ask for the same have the same least closed facts. -/
theorem Least.sub_of_imp (h : Least W P F) (h' : Least W Q G) (imp : ∀ H, Q H → P H) : F.Sub G :=
  h.sub h'.closed (imp G h'.meets)

end Facts

/-- Only the set of the operations counts for what they grant. -/
theorem Granted.of_subset {seed : Fact} {os os' : List Operation} {F : Facts}
    (h : Granted seed os F) (sub : os' ⊆ os) : Granted seed os' F :=
  { h with grants := fun o ho => h.grants o (sub ho) }

namespace Solver

variable {s : Solver}

def outcome (s : Solver) : Outcome := ⟨(· ∈ s.fields), (· ∈ s.calls), (· ∈ s.reached), (· ∈ s.methods)⟩

/-- At rest, every fact in a context has its rules. -/
theorem Regular.exists_rules (h : s.Regular) (idle : s.worklist.pending = []) {f : Fact}
    (hf : s.facts.live f) : ∃ rs, s.rules[f]? = some rs := by
  obtain ⟨c, hc⟩ := hf
  have done : s.CallDone ⟨.single f.var, f.point, c⟩ := h.settled.done idle (w := .call _) hc
  obtain ⟨rs, hr, -⟩ := done.rule rfl
  exact ⟨rs, hr⟩

/-- At rest, the solver has reached what its facts say is reached. -/
theorem Regular.outcome_eq (h : s.Regular) (idle : s.worklist.pending = [])
    (below : s.Below s.propagation.ways s.facts) : s.outcome = s.facts.outcome := by
  ext x
  · rfl
  · rfl
  · refine ⟨below.reached x, fun ⟨hl, hp⟩ => ?_⟩
    obtain ⟨rs, hr⟩ := h.exists_rules idle hl
    refine h.settled.reached ?_ hp
    rw [Std.TreeMap.contains_eq_isSome_getElem?, hr]
    rfl
  · refine ⟨below.visited x, fun ⟨f, hl, e⟩ => ?_⟩
    obtain ⟨rs, hr⟩ := h.exists_rules idle hl
    exact e ▸ (h.settled.found hr).2

/-- A fresh solver after some operations has the outcome of its facts. -/
theorem Fresh.outcome_applyAll (h : s.Fresh) (os : List Operation) :
    (s.applyAll os).outcome = (s.applyAll os).facts.outcome := by
  have p := applyAll_performs h.regular h.idle os
  have least := applyAll_least h os
  have start : s.Below s.propagation.ways (s.applyAll os).facts :=
    h.below (fun _ => ⟨fun _ => id, fun _ => id⟩) least.meets.opened least.meets.productive
  have below := p.below least.closed start least.meets.grants
  rw [← p.propagation] at below
  exact p.regular.outcome_eq p.idle below

/-- For a program or its reversed view, a direction, a seed and a set of allocated classes, the
outcome of any sequence of operations is that of the least facts that contain what the operations
grant and are closed under the saturation rules. Every other sequence of the same operations, in
another order or with repetitions, has the same outcome. -/
theorem outcome_applyAll_least (direction : Direction) (graph : Supergraph) (seed : Fact)
    (types : List ClassName) (os : List Operation) :
    let s := (create direction graph seed).allocate types
    Facts.Least s.propagation.ways (Granted seed os) (s.applyAll os).facts ∧
    (s.applyAll os).outcome = (s.applyAll os).facts.outcome ∧
    ∀ os' : List Operation, (∀ o, o ∈ os' ↔ o ∈ os) →
      (s.applyAll os').outcome = (s.applyAll os).outcome := by
  intro s
  have fresh : s.Fresh := (create_fresh direction graph seed).allocate types
  have e : s.seed = seed := seed_allocate _ types
  have least (os : List Operation) :
      Facts.Least s.propagation.ways (Granted seed os) (s.applyAll os).facts := by
    have least := applyAll_least fresh os
    rwa [e] at least
  refine ⟨least os, fresh.outcome_applyAll os, fun os' same => ?_⟩
  rw [fresh.outcome_applyAll os', fresh.outcome_applyAll os]
  refine congrArg Facts.outcome (Facts.Sub.antisymm ?_ ?_)
  · exact (least os').sub_of_imp (least os) fun _ h => h.of_subset fun o ho => (same o).1 ho
  · exact (least os).sub_of_imp (least os') fun _ h => h.of_subset fun o ho => (same o).2 ho

/-- A flow that is handed in after the start, or before it and then again, has the same effect. -/
theorem outcome_flow_again :
    let v : Fact := ⟨.ofIndex ⟨"m"⟩ 2, ⟨"v", ⟨"m"⟩⟩⟩
    let b : Fact := ⟨.ofIndex ⟨"m"⟩ 3, ⟨"b", ⟨"m"⟩⟩⟩
    let s := (create .forward ⟨storing, .forward⟩ ⟨.ofIndex ⟨"m"⟩ 1, ⟨"v", ⟨"m"⟩⟩⟩).allocate []
    (∀ o, o ∈ [.addCallFlow v b, .solve v, .addCallFlow v b] ↔
        o ∈ [Operation.solve v, .addCallFlow v b]) ∧
      (s.applyAll [.addCallFlow v b, .solve v, .addCallFlow v b]).outcome =
        (s.applyAll [.solve v, .addCallFlow v b]).outcome := by
  intro v b s
  have same (o : Operation) : o ∈ [.addCallFlow v b, .solve v, .addCallFlow v b] ↔
      o ∈ [Operation.solve v, .addCallFlow v b] := by
    simp only [List.mem_cons, List.not_mem_nil, or_false]
    tauto
  exact ⟨same, (outcome_applyAll_least .forward ⟨storing, .forward⟩ _ [] _).2.2 _ same⟩

end Solver

end PointsTo
