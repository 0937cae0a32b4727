import PointsTo.Proofs.Solver.Reached

/-!
# Saturation ends

A solver has three loops: one empties the worklist (`Solver.step?`), one marks the states that lead
to a productive state (`Solver.markStep?`) and one opens methods for leaving with an empty call stack
(`Solver.openStep?`). Each goes on as long as there is something left (`Loops`). The last two end in
every state, reachable or not, since a state is expanded once and a way is unblocked once
(`markProductive_loops`, `openMethod_loops`).

The worklist can grow with each step, but what waits in it was a new transition once, and every
transition is built from the names of the program, of the seed and of what callers handed in
(`Solver.supply`), be the program recursive or what was handed in cyclic. These are finitely many, so
the loop ends, after no more steps than there are such transitions (`serve_ends`).
-/

namespace PointsTo

/-- A loop that goes on as long as `step` gives a state, and ends after so many steps. -/
inductive Loops {α : Type} (step : α → Option α) : Nat → α → α → Prop
  | stop {a} : step a = none → Loops step 0 a a
  | next {n a b c} : step a = some b → Loops step n b c → Loops step (n + 1) a c

/-! ## The names that are in play -/

namespace Names

variable {N : Names} {seed : Fact} {os : List Operation}

theorem le_foldl_add (N : Names) (os : List Operation) : N ≤ os.foldl Names.add N := by
  induction os generalizing N with
  | nil => exact ⟨Finset.Subset.refl _, Finset.Subset.refl _, Finset.Subset.refl _⟩
  | cons o os ih =>
    obtain ⟨points, vars, fields⟩ := ih (N.add o)
    obtain ⟨points', vars', fields'⟩ : N ≤ N.add o := le_add
    exact ⟨points'.trans points, vars'.trans vars, fields'.trans fields⟩

/-- What operations contribute is built from the names that they bring in. -/
theorem grants_foldl_add (hs : N.Has seed) :
    ∀ o ∈ os, o.Grants seed (os.foldl Names.add N).facts := by
  induction os generalizing N with
  | nil => exact fun o ho => absurd ho List.not_mem_nil
  | cons o os ih =>
    intro o' ho
    rcases List.mem_cons.1 ho with rfl | ho
    · exact (grants_add hs).mono (facts_mono (le_foldl_add _ os))
    · exact ih (hs.mono le_add) o' ho

theorem covers {graph : Supergraph} (h : graph.program.names ≤ N) (direction : Direction) :
    N.ways.Covers direction graph := fun allocated =>
  Solver.obeys_of_le (s := { Solver.create direction graph default with
    propagation := ⟨direction, graph, allocated⟩ }) h

end Names

namespace Request

/-- The operations that a request performs. -/
def operations : Request → List Operation
  | change (.perform o) => [o]
  | _ => []

theorem grants_of_operations {request : Request} {seed : Fact} {F : Facts}
    (h : ∀ o ∈ request.operations, o.Grants seed F) : request.Grants seed F := by
  cases request with
  | change c =>
    cases c with
    | perform o => exact h o (List.mem_singleton.2 rfl)
    | _ => trivial
  | _ => trivial

end Request

namespace Solver

variable {s s' : Solver} {N : Names}

/-- The names of the program, of the seed, and of what operations are given. -/
def supply (s : Solver) (requests : List Request) : Names :=
  (requests.flatMap (·.operations)).foldl Names.add s.names

theorem names_le_supply (s : Solver) (requests : List Request) :
    s.graph.program.names ≤ s.supply requests := by
  obtain ⟨points, vars, fields⟩ : s.graph.program.names ≤ s.names := Names.le_add
  obtain ⟨points', vars', fields'⟩ : s.names ≤ s.supply requests := Names.le_foldl_add _ _
  exact ⟨points.trans points', vars.trans vars', fields.trans fields'⟩

theorem grants_supply (s : Solver) (requests : List Request) :
    ∀ request ∈ requests, request.Grants s.seed (s.supply requests).facts := by
  intro request hr
  apply Request.grants_of_operations
  intro o ho
  have seed : s.names.Has s.seed := Names.has_of_mem_facts (by simp [Operation.facts])
  exact Names.grants_foldl_add seed o (List.mem_flatMap.2 ⟨request, hr, ho⟩)

/-! ## The loops inside a step -/

/-- One round of marking: the state on top of the stack is marked, and the states before it are put
on the stack. -/
def markStep? : Solver × List FieldState → Option (Solver × List FieldState)
  | (_, []) => none
  | (s, state :: stack) =>
    match s.productive.insertNew? state with
    | none => some (s, stack)
    | some productive =>
      let s := { s with productive }.witnessState state
      some (s, ((s.fields.incomingOf state).map (·.start)).reverse ++ stack)

/-- One round of opening: the method on top of the stack is opened, what was blocked there goes on,
and the methods it gets to are put on the stack. -/
def openStep? : Solver × List MethodName → Option (Solver × List MethodName)
  | (_, []) => none
  | (s, method :: stack) =>
    match s.unbalanced.insertNew? method with
    | none => some (s, stack)
    | some unbalanced =>
      let ways := s.blocked.getD method []
      let s := { s with unbalanced, blocked := s.blocked.erase method }
      let s := s.remark (.leavesUnbalanced s.seed method)
      some (s.enterAll ways, (ways.map (·.1.point.method)).reverse ++ stack)

/-- A round takes a state off the stack. If it puts others there, it takes as many transitions off
those that lead to no marked state. -/
theorem markStack_loops (fuel : Nat) (s : Solver) (stack : List FieldState)
    (enough : stack.length + s.unmarked ≤ fuel) :
    ∃ n ≤ fuel, Loops markStep? n (s, stack) (s.markStack fuel stack, []) := by
  induction fuel generalizing s stack with
  | zero =>
    obtain rfl : stack = [] := List.length_eq_zero_iff.1 (by omega)
    exact ⟨0, Nat.le_refl 0, .stop rfl⟩
  | succ fuel ih =>
    cases stack with
    | nil => exact ⟨0, Nat.zero_le _, .stop rfl⟩
    | cons q stack =>
      rw [List.length_cons] at enough
      unfold markStack
      cases known : s.productive.insertNew? q with
      | none =>
        obtain ⟨n, few, rest⟩ := ih s stack (by omega)
        exact ⟨n + 1, Nat.succ_le_succ few, .next (by rw [markStep?, known]) rest⟩
      | some productive =>
        obtain ⟨new, rfl⟩ := OrderedSet.insertNew?_eq_some_iff.1 known
        set s₀ : Solver := { s with productive := s.productive.insert q }
        have count : s₀.unmarked + (s₀.fields.incomingOf q).length = s.unmarked :=
          unmarked_add_incoming new
        have same : (s₀.witnessState q).unmarked = s₀.unmarked := by
          simp only [unmarked, fields_witnessState, (witnessState_posts s₀ q).1.productive_eq]
        obtain ⟨n, few, rest⟩ := ih (s₀.witnessState q)
          (((s₀.witnessState q).fields.incomingOf q |>.map (·.start)).reverse ++ stack) (by
            simp only [fields_witnessState, List.length_append, List.length_reverse,
              List.length_map, same]
            omega)
        exact ⟨n + 1, Nat.succ_le_succ few, .next (by rw [markStep?, known]) rest⟩

/-- Marking ends in every state of a solver. -/
theorem markProductive_loops (s : Solver) (q : FieldState) :
    ∃ n ≤ s.fields.size + 1, Loops markStep? n (s, [q]) (s.markProductive q, []) := by
  have enough := s.unmarked_le
  exact markStack_loops _ s [q] (by rw [List.length_singleton]; omega)

/-- A round takes a method off the stack. If it puts others there, it takes as many ways off those
that are blocked. -/
theorem openStack_loops (fuel : Nat) (s : Solver) (stack : List MethodName)
    (enough : stack.length + s.blockedCount ≤ fuel) :
    ∃ n ≤ fuel, Loops openStep? n (s, stack) (s.openStack fuel stack, []) := by
  induction fuel generalizing s stack with
  | zero =>
    obtain rfl : stack = [] := List.length_eq_zero_iff.1 (by omega)
    exact ⟨0, Nat.le_refl 0, .stop rfl⟩
  | succ fuel ih =>
    cases stack with
    | nil => exact ⟨0, Nat.zero_le _, .stop rfl⟩
    | cons m stack =>
      rw [List.length_cons] at enough
      unfold openStack
      cases known : s.unbalanced.insertNew? m with
      | none =>
        obtain ⟨n, few, rest⟩ := ih s stack (by omega)
        exact ⟨n + 1, Nat.succ_le_succ few, .next (by rw [openStep?, known]) rest⟩
      | some unbalanced =>
        set ways := s.blocked.getD m []
        set s₀ : Solver := { s with unbalanced, blocked := s.blocked.erase m }
        have count : s₀.blockedCount + ways.length = s.blockedCount := s.blockedCount_erase m
        have same : (s₀.remark (.leavesUnbalanced s.seed m)).blockedCount = s₀.blockedCount := rfl
        obtain ⟨n, few, rest⟩ := ih ((s₀.remark (.leavesUnbalanced s.seed m)).enterAll ways)
          ((ways.map (·.1.point.method)).reverse ++ stack) (by
            simp only [blockedCount_enterAll, same, List.length_append, List.length_reverse,
              List.length_map]
            omega)
        exact ⟨n + 1, Nat.succ_le_succ few, .next (by rw [openStep?, known]) rest⟩

/-- Opening ends in every state of a solver. -/
theorem openMethod_loops (s : Solver) (m : MethodName) :
    ∃ n ≤ s.blockedCount + 1, Loops openStep? n (s, [m]) (s.openMethod m, []) :=
  openStack_loops _ s [m] (by rw [List.length_singleton]; omega)

/-! ## The worklist -/

/-- If some number of steps empties the worklist, the loop ends there. -/
theorem saturateFor_loops (fuel : Nat) (idle : (s.saturateFor fuel).worklist.pending = []) :
    ∃ n ≤ fuel, Loops step? n s (s.saturateFor fuel) := by
  induction fuel generalizing s with
  | zero => exact ⟨0, Nat.le_refl 0, .stop (step?_eq_none_iff.2 idle)⟩
  | succ fuel ih =>
    unfold saturateFor at idle ⊢
    cases e : s.step? with
    | none => exact ⟨0, Nat.zero_le _, .stop e⟩
    | some s₁ =>
      rw [e] at idle
      obtain ⟨n, few, rest⟩ := ih idle
      exact ⟨n + 1, Nat.succ_le_succ few, .next e rest⟩

/-- The loop ends within as many steps as there are transitions over the names of the solver, and
saturation computes where it ends. -/
theorem Regular.saturate_loops (h : s.Regular) (below : s.Below N.ways N.facts) :
    ∃ n ≤ N.fieldTransitions.card + N.callTransitions.card, Loops step? n s s.saturate := by
  obtain ⟨-, idle⟩ := h.saturateFor_idle
    (fun run => (run.below Names.closed below).size_le_card) _ (Nat.le_add_left _ _)
  obtain ⟨-, idle'⟩ := saturate_spec h
  obtain ⟨n, few, loops⟩ := saturateFor_loops _ idle
  have same : s.saturateFor (N.fieldTransitions.card + N.callTransitions.card) = s.saturate := by
    rcases Nat.le_total s.capacity (N.fieldTransitions.card + N.callTransitions.card) with le | le
    · exact saturateFor_eq_of_idle idle' le
    · exact (saturateFor_eq_of_idle idle le).symm
  exact ⟨n, few, same ▸ loops⟩

/-- Whatever was asked of a solver before, each further operation ends: the worklist is empty after
finitely many steps, and all transitions are built from the names of the program, of the seed and of
what the operations were given. Within a step, marking and opening end from wherever they start. -/
theorem serve_ends (direction : Direction) (graph : Supergraph) (seed : Fact)
    (requests : List Request) (request : Request) :
    let fresh := create direction graph seed
    let s := (fresh.serveAll requests).2
    let s' := (s.serve request).2
    let N := fresh.supply (requests ++ [request])
    (∀ o ∈ request.operations, ∃ n ≤ N.fieldTransitions.card + N.callTransitions.card,
        Loops step? n (o.begin s) s') ∧
      s'.worklist.pending = [] ∧
      (∀ t ∈ s'.fields, t ∈ N.fieldTransitions) ∧ (∀ t ∈ s'.calls, t ∈ N.callTransitions) ∧
      (∀ (s : Solver) q, ∃ n ≤ s.fields.size + 1,
        Loops markStep? n (s, [q]) (s.markProductive q, [])) ∧
      ∀ (s : Solver) m, ∃ n ≤ s.blockedCount + 1,
        Loops openStep? n (s, [m]) (s.openMethod m, []) := by
  intro fresh s s' N
  have born : fresh.Fresh := create_fresh direction graph seed
  have serves := born.resting.serveAll requests
  have program : fresh.graph.program.names ≤ N := fresh.names_le_supply _
  have granted := fresh.grants_supply (requests ++ [request])
  have covers (known : OrderedSet ClassName) :
      N.ways.CoversUpTo known fresh.direction fresh.graph :=
    (Names.covers program fresh.direction).upTo known
  have below : s.Below N.ways N.facts :=
    born.resting.below_serveAll (covers _) Names.closed
      (fun r hr => granted r (List.mem_append_left _ hr))
      (born.below (obeys_of_le program) trivial trivial)
  have last : request.Grants s.seed N.facts := by
    rw [serves.seed]
    exact granted request (List.mem_append_right _ (List.mem_singleton.2 rfl))
  have below' : s'.Below N.ways N.facts := by
    refine serves.resting.below_serve ?_ Names.closed last below
    rw [serves.direction, serves.graph]
    exact covers _
  refine ⟨?_, (serves.resting.serve request).resting.idle,
    fun t ht => Names.mem_fieldTransitions (below'.field t ht),
    fun t ht => Names.mem_callTransitions (below'.call t ht), markProductive_loops,
    openMethod_loops⟩
  intro o ho
  rcases request with (o' | _ | _ | _ | _ | _) | _ | _
  · obtain rfl : o = o' := List.mem_singleton.1 ho
    have admits := begin_admits serves.resting.regular o
    have same : s' = (o.begin s).saturate := apply_eq_saturate serves.resting.idle o
    rw [same]
    exact admits.regular.saturate_loops (admits.below Names.closed below last)
  all_goals exact absurd ho List.not_mem_nil

end Solver

end PointsTo
