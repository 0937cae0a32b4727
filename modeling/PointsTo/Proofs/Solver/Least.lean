import PointsTo.Proofs.Solver.Operations

/-!
# A solver computes the least closed facts

A solver that was created for a seed and told of some allocated classes starts from two facts: the
seed is productive, and its method may be left with an empty call stack. Whatever operations follow,
the facts of the solver are then the least that are closed under the saturation rules and contain
what was granted (`applyAll_least`).
-/

namespace PointsTo

/-- The least closed facts that meet `base`. -/
structure Facts.Least (W : Ways) (base : Facts → Prop) (F : Facts) : Prop where
  closed : F.Closed W
  meets : base F
  sub : ∀ {G : Facts}, G.Closed W → base G → F.Sub G

/-- What a solver for a seed starts from, and what the operations grant. -/
structure Granted (seed : Fact) (os : List Operation) (F : Facts) : Prop where
  opened : F.opened seed.point.method
  productive : F.productive (.alloc seed)
  grants : ∀ o ∈ os, o.Grants seed F

namespace Solver

/-- The solver knows of classes that have objects. -/
def allocate (s : Solver) (types : List ClassName) : Solver :=
  types.foldl (fun s type => (s.addAllocatedType type).2) s

def applyAll (s : Solver) (os : List Operation) : Solver := os.foldl Operation.apply s

def solveAll (s : Solver) (starts : List Fact) : Solver := starts.foldl solve s

theorem solveAll_eq_applyAll (s : Solver) (starts : List Fact) :
    s.solveAll starts = s.applyAll (starts.map .solve) := by
  rw [applyAll, List.foldl_map]
  rfl

theorem allocate_eq (s : Solver) (types : List ClassName) : s.allocate types =
    { s with propagation := { s.propagation with allocated := types.foldl .insert s.allocated } } := by
  induction types generalizing s with
  | nil => rfl
  | cons type types ih =>
    rw [allocate, List.foldl_cons, addAllocatedType_eq]
    exact ih _

@[simp] theorem seed_allocate (s : Solver) (types : List ClassName) :
    (s.allocate types).seed = s.seed := by
  rw [allocate_eq]

@[simp] theorem graph_allocate (s : Solver) (types : List ClassName) :
    (s.allocate types).graph = s.graph := by
  rw [allocate_eq]
  rfl

@[simp] theorem direction_allocate (s : Solver) (types : List ClassName) :
    (s.allocate types).direction = s.direction := by
  rw [allocate_eq]
  rfl

/-! ## Fresh solvers -/

/-- Nothing has been asked of the solver. -/
structure Fresh (s : Solver) : Prop where
  fields : s.fields = ∅
  calls : s.calls = ∅
  worklist : s.worklist = ∅
  rules : s.rules = ∅
  fieldFlows : s.fieldFlows = ∅
  callFlows : s.callFlows = ∅
  pops : s.pops = ∅
  exits : s.exits = ∅
  blocked : s.blocked = ∅
  unbalanced : s.unbalanced = .ofList [s.seed.point.method]
  productive : s.productive = .ofList [s.seedState]
  reached : s.reached = ∅
  methods : s.methods = ∅
  announced : s.announced = ∅
  outbox : s.outbox = ∅
  tickets : s.tickets = []
  foreign : s.foreign = 1

theorem create_fresh (direction : Direction) (graph : Supergraph) (seed : Fact) :
    (create direction graph seed).Fresh :=
  ⟨rfl, rfl, rfl, rfl, rfl, rfl, rfl, rfl, rfl, rfl, rfl, rfl, rfl, rfl, rfl, rfl, rfl⟩

theorem Fresh.allocate {s : Solver} (h : s.Fresh) (types : List ClassName) :
    (s.allocate types).Fresh := by
  rw [allocate_eq]
  exact { h with }

theorem not_mem_empty {σ ℓ : Type} [Ord σ] [Ord ℓ] [Std.TransOrd σ] [Std.TransOrd ℓ]
    {t : Transition σ ℓ} : t ∉ (∅ : Automaton σ ℓ) := List.not_mem_nil

theorem Fresh.below {s : Solver} (h : s.Fresh) {W : Ways} {F : Facts} (obeys : s.Obeys W)
    (opened : F.opened s.seed.point.method) (productive : F.productive s.seedState) :
    s.Below W F where
  obeys := obeys
  field := fun t ht => absurd (h.fields ▸ ht) not_mem_empty
  call := fun t ht => absurd (h.calls ▸ ht) not_mem_empty
  pop := fun hf => by simp [h.pops] at hf
  fieldFlow := fun hf => by simp [h.fieldFlows] at hf
  callFlow := fun hf => by simp [h.callFlows] at hf
  opened := fun m hm => by
    rw [h.unbalanced, OrderedSet.mem_ofList, List.mem_singleton] at hm
    exact hm ▸ opened
  productive := fun q hq => by
    rw [h.productive, OrderedSet.mem_ofList, List.mem_singleton] at hq
    exact hq ▸ productive
  rooted := fun q hq => by
    rw [h.productive, OrderedSet.mem_ofList, List.mem_singleton] at hq
    exact ⟨[], hq ▸ .nil⟩
  rule := fun hr => by simp [h.rules] at hr
  entered := fun known => by simp [h.rules] at known
  exit := fun he => by simp [h.exits] at he
  blocked := fun hb => by simp [h.blocked] at hb
  pendingField := fun t ht => by simp [h.worklist] at ht
  pendingCall := fun t ht => by simp [h.worklist] at ht
  reached := fun f hf => by simp [h.reached] at hf
  witnessed := fun f hf => by simp [h.reached] at hf
  visited := fun m hm => by simp [h.methods] at hm
  announced := fun a ha => by simp [h.announced] at ha

/-- The names of the program and of the seed. -/
def names (s : Solver) : Names := s.graph.program.names.add (.connectAlias s.seed s.seedState)

theorem Fresh.regular {s : Solver} (h : s.Fresh) : s.Regular where
  settled := by
    refine ⟨fun w hw => ?_, fun hr _ => by simp [h.rules] at hr, fun hr => by simp [h.rules] at hr⟩
    cases w with
    | field t => exact absurd (h.fields ▸ (show t ∈ s.fields from hw)) not_mem_empty
    | call t => exact absurd (h.calls ▸ (show t ∈ s.calls from hw)) not_mem_empty
  posted := by
    rw [Posted, h.worklist, h.fields, h.calls]
    rfl
  named := by
    refine ⟨s.names, Names.le_add, Names.has_of_mem_facts (by simp [Operation.facts]), ?_, ?_⟩
    · exact h.below (obeys_of_le Names.le_add) trivial trivial
    · rw [h.foreign]
      exact s.graph.program.names_le.add (by simp [Operation.facts]) (by simp [Operation.fields])

theorem Fresh.idle {s : Solver} (h : s.Fresh) : s.worklist.pending = [] := by
  rw [h.worklist]
  rfl

theorem Fresh.told {s : Solver} (h : s.Fresh) : s.Told where
  reached := by simp [events, h.outbox, h.reached]
  announced := by simp [events, h.outbox, h.announced]
  field := by
    rw [events, h.outbox, h.fields]
    exact .nil
  call := by
    rw [events, h.outbox, h.calls]
    exact .nil

theorem Fresh.current {s : Solver} (h : s.Fresh) : s.Current := fun hr => by
  simp [h.rules] at hr

/-! ## Any number of operations -/

/-- What holds after some operations. -/
structure PerformsAll (os : List Operation) (s s' : Solver) : Prop extends Keeps s s' where
  regular : s'.Regular
  idle : s'.worklist.pending = []
  grants : ∀ o ∈ os, o.Grants s.seed s'.facts
  below : ∀ {W F}, F.Closed W → s.Below W F → (∀ o ∈ os, o.Grants s.seed F) → s'.Below W F
  current : s.Current → s'.Current

theorem applyAll_performs {s : Solver} (h : s.Regular) (idle : s.worklist.pending = [])
    (os : List Operation) : PerformsAll os s (s.applyAll os) := by
  induction os generalizing s with
  | nil =>
    exact { Keeps.refl s with
      regular := h
      idle
      grants := fun _ ho => absurd ho List.not_mem_nil
      below := fun _ hb _ => hb
      current := id }
  | cons o os ih =>
    have p := apply_performs h idle o
    have ps := ih p.regular p.idle
    refine {
      toKeeps := p.toKeeps.trans ps.toKeeps
      regular := ps.regular
      idle := ps.idle
      grants := fun o' ho => ?_
      below := fun hF hb hg => ?_
      current := fun hc => ps.current (p.current hc) }
    · obtain rfl | ho := List.mem_cons.1 ho
      · exact p.grants.mono ps.facts_sub
      · exact p.seed ▸ ps.grants o' ho
    · refine ps.below hF (p.below hF hb (hg o List.mem_cons_self)) fun o' ho => ?_
      exact p.seed.symm ▸ hg o' (List.mem_cons_of_mem o ho)

theorem Below.sub {s : Solver} {W : Ways} {F : Facts} (h : s.Below W F) : s.facts.Sub F where
  field := h.field
  call := h.call
  pop := fun _ _ => h.pop
  fieldFlow := fun _ _ => h.fieldFlow
  callFlow := fun _ _ => h.callFlow
  opened := h.opened
  productive := h.productive

/-- The facts of a solver are the least that follow from what it was asked for. -/
theorem applyAll_least {s : Solver} (h : s.Fresh) (os : List Operation) :
    Facts.Least s.propagation.ways (Granted s.seed os) (s.applyAll os).facts := by
  have p := applyAll_performs h.regular h.idle os
  refine ⟨p.regular.settled.closed p.idle fun {f rs} hr {r} hw => ?_, ⟨?_, ?_, p.grants⟩,
    fun hG base => ?_⟩
  · rw [p.current h.current hr, p.propagation]
    exact hw
  · refine p.opened _ ?_
    rw [h.unbalanced]
    exact OrderedSet.mem_ofList.2 (List.mem_singleton.2 rfl)
  · refine p.productive _ ?_
    rw [h.productive]
    exact OrderedSet.mem_ofList.2 (List.mem_singleton.2 rfl)
  · exact (p.below hG (h.below (fun _ => ⟨fun _ => id, fun _ => id⟩) base.opened base.productive)
      base.grants).sub

/-- A solver that was told of some classes and then only asked to solve some facts. -/
theorem solveAll_least (direction : Direction) (graph : Supergraph) (seed : Fact)
    (types : List ClassName) (starts : List Fact) :
    Facts.Least ((create direction graph seed).allocate types).propagation.ways
      (Granted seed (starts.map .solve))
      (((create direction graph seed).allocate types).solveAll starts).facts := by
  have least := applyAll_least ((create_fresh direction graph seed).allocate types)
    (starts.map .solve)
  rwa [seed_allocate, ← solveAll_eq_applyAll] at least

end Solver

end PointsTo
