import PointsTo.Proofs.Analysis.Agreement
import PointsTo.Proofs.Analysis.Aliases
import PointsTo.Proofs.Analysis.FieldShape
import PointsTo.Proofs.Execution.Soundness
import PointsTo.Proofs.Solver.Reversal

/-!
# Access paths that an analysis finds

Once an analysis has solved its queries, the solver of a value brings it to a variable, below some
fields, if it has reached the variable with this path to its seed (`Analysis.Brings`). Instructions pass
it on (`Answers.brings_carried`). In the solver of a backward query, what is reached after an
instruction comes from what is reached before it, and a field that is asked for after a store is
answered there (`Answers.reached_before_store`).

At loads and stores, the other names of an object count as well, if they were imported from a base that
has them under the path that is asked for (`Analysis.Conveys`).
-/

namespace PointsTo

/-! ## Solvers at rest -/

namespace Facts

variable {W : Ways} {F : Facts} {seed f : Fact} {r : Rule} {g : Field}

variable (F) in
/-- The fact is reached, and the field is the next to be read. -/
def Asks (f : Fact) (g : Field) : Prop :=
  F.live f ∧ ∃ q, F.field ⟨.single f, g, q⟩ ∧ F.productive q

variable (F seed) in
/-- From everything that is connected to the seed a transition leads on to something connected, up to
the seed, and labels fit the ends of their transitions. -/
structure Grounded : Prop where
  leads_on : ∀ {q}, F.productive q → q = .alloc seed ∨ ∃ l q', F.field ⟨q, l, q'⟩ ∧ F.productive q'
  shaped : ∀ {t}, F.field t → Shaped t

variable (closed : F.Closed W) (hr : W.rule f r) (stays : r.call = .stay)
include closed hr stays

theorem live_of_stay (h : F.live f) : F.live r.target :=
  h.imp fun _ enters => closed.stay enters hr stays

theorem Asks.keep (h : F.Asks f g) (e : r.field = .keep) : F.Asks r.target g := by
  obtain ⟨live, q, ht, hq⟩ := h
  exact ⟨live_of_stay closed hr stays live, q, closed.keep live hr e ht, hq⟩

section Grounded

variable (grounded : F.Grounded seed)
include grounded

theorem reached.keep (h : F.reached f) (e : r.field = .keep) : F.reached r.target := by
  obtain ⟨live, productive⟩ := h
  obtain seed | ⟨l, q, ht, hq⟩ := grounded.leads_on productive
  · cases seed
  · exact ⟨live_of_stay closed hr stays live, closed.productive (closed.keep live hr e ht) hq⟩

/-- What is looked for is now looked for in a field. -/
theorem reached.push (h : F.reached f) (e : r.field = .push g) : F.Asks r.target g := by
  obtain ⟨live, productive⟩ := h
  obtain seed | ⟨l, q, ht, hq⟩ := grounded.leads_on productive
  · cases seed
  · obtain ⟨pushed, below⟩ := closed.push live hr e ht
    exact ⟨live_of_stay closed hr stays live, _, pushed, closed.productive below hq⟩

/-- The field was found, and what was written there is looked for. -/
theorem Asks.pop (h : F.Asks f g) (e : r.field = .pop g) (named : g ≠ .epsilon) :
    F.reached r.target := by
  obtain ⟨live, q, ht, hq⟩ := h
  refine ⟨live_of_stay closed hr stays live, ?_⟩
  obtain rfl | ⟨l, q', ht', hq'⟩ := grounded.leads_on hq
  · exact absurd ((grounded.shaped ht).silent_iff.2 ⟨_, rfl⟩) named
  · exact closed.productive (closed.takeOver (closed.pop live hr e ht) ht') hq'

end Grounded

end Facts

namespace Analysis

variable {source : String} {program : Program} {config : Config} {qs : List Query} {a : Analysis}
  {q base flow : Query} {access : FieldAccess} {f : Fact} {w w' : List Field} {point next : Point}
  {y z v : Var} {i : Instruction}

/-- The solver of the query spells the path from the fact to its seed. -/
def Spells (a : Analysis) (q : Query) (f : Fact) (w : List Field) : Prop :=
  ∃ s, a.solver? q = some s ∧ s.Spells q.fact f w

/-- The solver of the query reaches the fact in some context, with the path to its seed. -/
def Brings (a : Analysis) (q : Query) (f : Fact) (w : List Field) : Prop :=
  (a.factsOf q).live f ∧ a.Spells q f w

/-- Whenever the variable was imported as an alias at the access, it was found at this point, and the
base that it was imported for has it under the path. -/
def Conveys (a : Analysis) (access : FieldAccess) (f : Fact) (w : List Field) : Prop :=
  ∀ {base flow p}, a.Imports access base flow p f.var → p.1 = f.point ∧ a.Spells base f w

theorem Spells.knows (h : a.Spells q f w) : a.Knows q := by
  obtain ⟨s, hs, -⟩ := h
  obtain ⟨i, e, he, -⟩ := Pool.find?_eq_some_iff.1 hs
  exact ⟨i, e, he⟩

/-! ## What is known of each query -/

namespace Answers

section Rest

variable (h : Answers program config qs a)
include h

theorem solves (static : program.Static) (hq : a.Knows q) :
    ∃ p, Solves program q.direction q.fact p (a.factsOf q) := by
  obtain ⟨S, n, running⟩ := h.running
  obtain ⟨i, e, he⟩ := hq
  rw [factsOf_eq he]
  exact ⟨_, (running.program ▸ running.host he).solves (Supply.not_reversed running.proper _) static⟩

theorem shaped (named : program.Named) {t : FieldTransition} (ht : (a.factsOf q).field t) :
    Shaped t := by
  have within : a.Within (PointsTo.shaped program) :=
    h.solved.inside (obeys_of_open fun _ _ _ _ _ => trivial) (fun _ _ => trivial)
      (within_create (shaped_closed named config))
  exact within.factsOf_sub.field t ht

theorem grounded (named : program.Named) (hq : a.Knows q) : (a.factsOf q).Grounded q.fact := by
  refine ⟨fun {state} productive => ?_, h.shaped named⟩
  obtain ⟨S, n, running⟩ := h.running
  obtain ⟨i, e, he⟩ := hq
  have host := running.host he
  have seed : e.solver.seedState = .alloc q.fact := congrArg FieldState.alloc host.seed
  rw [factsOf_eq he] at productive ⊢
  obtain ⟨labels, path⟩ := host.below.rooted state productive
  cases labels with
  | nil => exact .inl (path.eq_of_nil.trans seed)
  | cons l labels =>
    obtain ⟨next, ht, path⟩ := Automaton.path_cons_iff.1 path
    exact .inr ⟨l, next, ht, (host.resting.productive_iff (seed ▸ host.productive)).2 ⟨labels, path⟩⟩

/-- What a solver brings somewhere has reached it. -/
theorem reached_of_brings (brings : a.Brings q f w) : (a.factsOf q).reached f := by
  obtain ⟨live, s, hs, labels, path, -⟩ := brings
  obtain ⟨S, n, running⟩ := h.running
  obtain ⟨i, e, he, rfl⟩ := Pool.find?_eq_some_iff.1 hs
  have host := running.host he
  have seed : e.solver.seedState = .alloc q.fact := congrArg FieldState.alloc host.seed
  refine ⟨live, ?_⟩
  rw [factsOf_eq he]
  exact (host.resting.productive_iff (seed ▸ host.productive)).2 ⟨labels, seed ▸ path⟩

/-- A path without fields is one transition into the seed. -/
theorem spells_nil_iff (named : program.Named) (hq : a.Knows q) :
    a.Spells q f [] ↔ (a.factsOf q).field ⟨.single f, .epsilon, .alloc q.fact⟩ := by
  obtain ⟨S, n, running⟩ := h.running
  obtain ⟨i, e, he⟩ := hq
  have seed : e.solver.seed = q.fact := (running.host he).seed
  have iff := Solver.spells_nil_iff (s := e.solver) (f := f) fun t ht =>
    h.shaped named ((sub_factsOf he).field t ht)
  rw [Solver.seedState, seed] at iff
  rw [factsOf_eq he]
  refine Iff.trans ⟨?_, fun spells => ?_⟩ iff
  · rintro ⟨s, hs, spells⟩
    rw [show a.solver? q = some e.solver from Pool.find?_eq_some_iff.2 ⟨i, e, he, rfl⟩] at hs
    exact Option.some.inj hs ▸ spells
  · exact ⟨e.solver, Pool.find?_eq_some_iff.2 ⟨i, e, he, rfl⟩, spells⟩

/-- A solver begins at the points next to its seed. -/
theorem brings_seed (named : program.Named) (static : program.Static) (hq : a.Knows q)
    (hn : next ∈ (⟨program, q.direction⟩ : Supergraph).successors q.fact.point) :
    a.Brings q ⟨next, q.fact.var⟩ [] := by
  obtain ⟨p, solves⟩ := h.solves static hq
  obtain ⟨field, enters⟩ := solves.begun next hn
  exact ⟨⟨_, enters⟩, (h.spells_nil_iff named hq).2 field⟩

/-- What a solver brings to an instruction, it brings to where the instruction passes it on. -/
theorem brings_carried (named : program.Named) (static : program.Static)
    (brings : a.Brings q ⟨point, y⟩ w) (forward : q.direction = .forward)
    (hi : program.instruction? point = some i) (hr : ¬ i.isReturn)
    (carries : ∀ p : Propagation, (p.forwardTransfer point y i).Carries w z w')
    (hn : next ∈ program.successors point) : a.Brings q ⟨next, z⟩ w' := by
  obtain ⟨live, spells⟩ := brings
  obtain ⟨p, solves⟩ := h.solves static spells.knows
  rw [forward] at solves
  obtain ⟨e, hc, changes⟩ := carries p
  have rule : p.ways.rule ⟨point, y⟩ ⟨⟨next, z⟩, e, .stay⟩ :=
    Propagation.forward_stay solves.direction solves.graph hi hr hc hn
  refine ⟨Facts.live_of_stay solves.closed rule rfl live, ?_⟩
  obtain ⟨s, hs, spells⟩ := spells
  have same : a.factsOf q = s.facts := factsOf_of_solver? hs
  have shaped {t} (ht : t ∈ s.fields) : Shaped t := h.shaped named (q := q) (same ▸ ht)
  refine ⟨s, hs, spells.follow (same ▸ solves.closed) (fun ht => (shaped ht).start_ne)
    (fun ht => (shaped ht).silent_iff) (same ▸ live) rule (fun hg => ?_) changes⟩
  exact Solver.field_named (by rwa [solves.graph]) rule hg

end Rest

/-! ## Against the flow of control -/

section Before

variable (h : Answers program config qs a) (parsed : Source.readProgram source = .ok program)
  (static : program.Static) (hq : a.Knows q) (backward : q.direction = .backward)
  (hi : program.instruction? point = some i)
include h parsed static hq backward hi

/-- The variable that an instruction took a value from comes next. -/
theorem exists_rule_before {e : FieldEffect}
    (hc : ∀ p : Propagation, (z, e) ∈ (p.backwardTransfer point y i).carried) {previous : Point}
    (hp : previous ∈ program.predecessors point) :
    ∃ W, (a.factsOf q).Closed W ∧ W.rule ⟨point, y⟩ ⟨⟨previous, z⟩, e, .stay⟩ := by
  obtain ⟨p, solves⟩ := h.solves static hq
  rw [backward] at solves
  have inside := Source.readProgram_entry parsed (Program.mem_predecessors.1 hp) point.method
  exact ⟨p.ways, solves.closed,
    Propagation.backward_stay solves.direction solves.graph hi inside (hc p) hp⟩

theorem reached_before (hc : ∀ p : Propagation, (z, .keep) ∈ (p.backwardTransfer point y i).carried)
    (reached : (a.factsOf q).reached ⟨point, y⟩) :
    ∀ previous ∈ program.predecessors point, (a.factsOf q).reached ⟨previous, z⟩ := by
  intro previous hp
  obtain ⟨W, closed, rule⟩ := h.exists_rule_before parsed static hq backward hi hc hp
  have grounded := h.grounded (Source.readProgram_named parsed) hq
  exact Facts.reached.keep closed rule rfl grounded reached rfl

theorem asks_before {g : Field}
    (hc : ∀ p : Propagation, (z, .keep) ∈ (p.backwardTransfer point y i).carried)
    (asks : (a.factsOf q).Asks ⟨point, y⟩ g) :
    ∀ previous ∈ program.predecessors point, (a.factsOf q).Asks ⟨previous, z⟩ g := by
  intro previous hp
  obtain ⟨W, closed, rule⟩ := h.exists_rule_before parsed static hq backward hi hc hp
  exact asks.keep closed rule rfl rfl

/-- Before a load, the field of the base is asked for. -/
theorem asks_before_load {g : Field}
    (hc : ∀ p : Propagation, (z, .push g) ∈ (p.backwardTransfer point y i).carried)
    (reached : (a.factsOf q).reached ⟨point, y⟩) :
    ∀ previous ∈ program.predecessors point, (a.factsOf q).Asks ⟨previous, z⟩ g := by
  intro previous hp
  obtain ⟨W, closed, rule⟩ := h.exists_rule_before parsed static hq backward hi hc hp
  have grounded := h.grounded (Source.readProgram_named parsed) hq
  exact Facts.reached.push closed rule rfl grounded reached rfl

/-- Before a store, what is written is looked for. -/
theorem reached_before_store {g : Field} (named : g ≠ .epsilon)
    (hc : ∀ p : Propagation, (z, .pop g) ∈ (p.backwardTransfer point y i).carried)
    (asks : (a.factsOf q).Asks ⟨point, y⟩ g) :
    ∀ previous ∈ program.predecessors point, (a.factsOf q).reached ⟨previous, z⟩ := by
  intro previous hp
  obtain ⟨W, closed, rule⟩ := h.exists_rule_before parsed static hq backward hi hc hp
  have grounded := h.grounded (Source.readProgram_named parsed) hq
  exact asks.pop closed rule rfl grounded rfl named

end Before

end Answers

/-! ## Imported names -/

/-- A name of the base was imported, from a base with the path that is asked for. -/
theorem Answers.conveyed (h : Answers program config qs a) (isBase : a.view.base access base)
    (isFlow : a.view.flow access flow) {p : Point × List Point} (place : p ∈ access.imports program)
    (spells : a.Spells base ⟨p.1, z⟩ w') (conveys : a.Conveys access ⟨p.1, z⟩ w) :
    ∃ base' p', p' ∈ access.imports program ∧ p'.1 = p.1 ∧ a.Spells base' ⟨p.1, z⟩ w ∧
      ∀ point ∈ p'.2,
        a.view.visits base' (.importInto flow access ⟨p.1, z⟩ ⟨point, z⟩) (.single ⟨p.1, z⟩) ∧
          (access.Connects z → (a.factsOf flow).callFlow access.fact ⟨point, z⟩) := by
  obtain ⟨S, n, running⟩ := h.running
  obtain ⟨s, hs, spells⟩ := spells
  obtain ⟨l, state, -, ht, -, -⟩ := spells.first
  have found : (a.factsOf base).field ⟨.single ⟨p.1, z⟩, l, state⟩ := by
    rwa [factsOf_of_solver? hs]
  rw [← running.program] at place ⊢
  obtain ⟨base', p', imports⟩ := running.hasImported h.solved.idle isBase isFlow place found
  obtain ⟨here, spells'⟩ := conveys imports
  dsimp only at here
  exact ⟨base', p', imports.place, here, spells', here ▸ imports.done⟩

/-- Whenever the variable was imported as an alias at the access, it was imported from this point, for a
base that it holds. -/
def ImportsDirectly (a : Analysis) (access : FieldAccess) (f : Fact) : Prop :=
  ∀ m ∈ a.importers, m.1.access = access → m.1.source.var = f.var → m.1.source = f ∧
    ∃ s ∈ a.solver? m.1.base, s.fields.contains ⟨.single f, .epsilon, .alloc m.1.base.fact⟩

instance (a : Analysis) (access : FieldAccess) (f : Fact) : Decidable (a.ImportsDirectly access f) :=
  inferInstanceAs (Decidable (∀ m ∈ a.importers, _))

/-- Then it is of use where nothing is to be read from it. -/
theorem Answers.conveys_of_direct (h : Answers program config qs a)
    (goes_on : ∀ p ∈ access.imports program, p.2 ≠ []) (direct : a.ImportsDirectly access f) :
    a.Conveys access f [] := by
  obtain ⟨S, n, running⟩ := h.running
  intro base flow p imports
  obtain ⟨point, hm⟩ := List.exists_mem_of_ne_nil _ (goes_on p (running.program ▸ imports.place))
  obtain ⟨states, mem, -⟩ := mem_importers_of_visits (imports.done point hm).1
  obtain ⟨here, s, hs, silent⟩ := direct _ mem rfl rfl
  exact ⟨congrArg Fact.point here, s, hs, Solver.spells_of_mem (Automaton.contains_iff.1 silent) .nil⟩

section Aliases

variable (h : Answers program config qs a) (connects : access.Connects z)
include h connects

/-- After a store, the value is found below the field of each name that was imported. -/
theorem Answers.brings_alias {below : List Field} (value : a.Brings flow access.fact below)
    (spells : a.Spells base ⟨next, z⟩ w)
    (visits : a.view.visits base (.importInto flow access ⟨next, z⟩ ⟨next, z⟩)
      (.single ⟨next, z⟩))
    (callFlow : (a.factsOf flow).callFlow access.fact ⟨next, z⟩) (static : program.Static)
    (named : access.field ≠ .epsilon) : a.Brings flow ⟨next, z⟩ (w ++ access.field :: below) := by
  obtain ⟨S, n, running⟩ := h.running
  obtain ⟨live, s', hs', labels', path', rfl⟩ := value
  obtain ⟨s, hs, labels, path, rfl⟩ := spells
  obtain ⟨p, solves⟩ := h.solves static (Spells.knows ⟨s', hs', labels', path', rfl⟩)
  refine ⟨live.imp fun _ enters => solves.closed.callFlow callFlow enters, s', hs', ?_⟩
  obtain ⟨seed, -⟩ | ⟨copied, through, names⟩ :=
    running.transplants h.solved.idle hs hs' connects path visits
  · cases seed
  · refine ⟨copied ++ [access.field] ++ labels', through.append path', ?_⟩
    have name : access.field.isEpsilon = false := by
      cases e : access.field with
      | epsilon => exact absurd e named
      | named => rfl
    rw [List.append_assoc, Field.names_append, names, List.singleton_append, Field.names_cons,
      Field.spell_of_named name]

/-- At a load, the field is asked for in each name that was imported. -/
theorem Answers.asks_alias (static : program.Static) (reached : (a.factsOf flow).reached access.fact)
    (hq : a.Knows flow) {previous : Point}
    (silent : (a.factsOf base).field ⟨.single ⟨point, z⟩, .epsilon, .alloc base.fact⟩)
    (visits : a.view.visits base (.importInto flow access ⟨point, z⟩ ⟨previous, z⟩)
      (.single ⟨point, z⟩))
    (callFlow : (a.factsOf flow).callFlow access.fact ⟨previous, z⟩) :
    (a.factsOf flow).Asks ⟨previous, z⟩ access.field := by
  obtain ⟨S, n, running⟩ := h.running
  obtain ⟨p, solves⟩ := h.solves static hq
  obtain ⟨live, productive⟩ := reached
  obtain ⟨-, -, connected⟩ := running.visited h.solved.idle visits silent
  have joined := connected connects rfl
  rw [FieldState.rename, if_pos rfl] at joined
  exact ⟨live.imp fun _ enters => solves.closed.callFlow callFlow enters, _, joined, productive⟩

end Aliases

end Analysis

end PointsTo
