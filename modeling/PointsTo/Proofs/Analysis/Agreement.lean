import PointsTo.Proofs.Analysis.Closure
import PointsTo.Proofs.Source.Reader

/-!
# The order of queries

An analysis that has solved some queries has found a least closed world. So two analyses that have
solved the same queries, in any two orders, have found the same, unless the order decides which aliases
are imported. A variable is imported into a flow for the first base that has it, and what other bases
have is passed over. As long as nothing is lost by what the one analysis passes over and the other one
imports (`Reconciles`), the two agree (`solveAll_agrees`), and this is also necessary for them to know
the same (`Answers.facts_eq_iff`). It holds if both import the same aliases
(`reconciles_of_importers`) or if in one of them no variable is an alias of two bases of one
access (`Answers.agree_of_separate`).
-/

namespace PointsTo

namespace Analysis

/-- Solves queries, one after the other. -/
def solveAll (a : Analysis) (qs : List Query) : Except Halt Analysis := qs.foldlM solve a

variable {p : Program} {config : Config} {S : Supply p} {n : Nat} {w : Realm} {a b c : Analysis}
  {q : Query} {qs qs' : List Query}

theorem Solved.trans (h : Solved qs a b) (h' : Solved qs' b c) : Solved (qs ++ qs') a c where
  toGrows := h.toGrows.trans h'.toGrows
  idle := h'.idle
  knows q hq := (List.mem_append.1 hq).elim (fun hq => h'.toGrows.knows (h.knows q hq)) (h'.knows q)
  inside obeys hw within := h'.inside obeys (fun q hq => hw q (List.mem_append_right _ hq))
    (h.inside (h'.toGrows.obeys obeys) (fun q hq => hw q (List.mem_append_left _ hq)) within)

theorem Running.solveAll (h : Running S n a) (idle : a.Idle) (qs : List Query) :
    Yields (a.solveAll qs) fun b => (∃ (S : Supply p) (n : Nat), Running S n b) ∧ Solved qs a b := by
  induction qs generalizing S n a with
  | nil =>
    exact .ok ⟨⟨S, n, h⟩, .refl a, idle, by simp, fun _ _ within => within⟩
  | cons q qs ih =>
    rw [Analysis.solveAll, List.foldlM_cons]
    refine (h.solve q).bind fun b ⟨running, first⟩ => ?_
    exact (ih running first.idle).imp fun c ⟨running, rest⟩ => ⟨running, first.trans rest⟩

/-- The analysis is at rest after it has solved the queries for a program, and nothing else. -/
structure Answers (p : Program) (config : Config) (qs : List Query) (a : Analysis) : Prop where
  running : ∃ (S : Supply p) (n : Nat), Running S n a
  solved : Solved qs (create p config) a

theorem yields_answers (p : Program) (config : Config) (qs : List Query) :
    Yields ((create p config).solveAll qs) (Answers p config qs) :=
  ((running_create p config).solveAll (idle_create p config) qs).imp fun _ ⟨running, solved⟩ =>
    ⟨running, solved⟩

theorem yields_answer (p : Program) (config : Config) (q : Query) :
    Yields ((create p config).solve q) (Answers p config [q]) :=
  ((running_create p config).solve q).imp fun _ ⟨running, solved⟩ => ⟨⟨_, _, running⟩, solved⟩

/-- What was found is a closed world, where the flow goes on from all accesses. -/
theorem Answers.view_closed (h : Answers p config qs a) (static : p.Static) (separate : a.Separate) :
    (a.view : Realm).Closed p config := by
  obtain ⟨S, n, running⟩ := h.running
  have closed := running.view_closed h.solved.idle (running.program ▸ static) separate
  rw [running.program, h.solved.config] at closed
  exact closed

theorem Answers.settled_closed (h : Answers p config qs a) (static : p.Static) :
    (a.settled : Realm).Closed p config := by
  obtain ⟨S, n, running⟩ := h.running
  have closed := running.settled_closed h.solved.idle (running.program ▸ static)
  rw [running.program, h.solved.config] at closed
  exact closed

/-! ## One world inside the other -/

/-- The allocation sites of a query are the forward queries that get to its fact with an empty field
stack. -/
theorem Within.mem_allocationSites_iff (h : a.Within w) {x : Query} : x ∈ a.allocationSites q ↔
    x.direction = .forward ∧ a.Knows x ∧ (a.factsOf x).live q.fact ∧
      (a.factsOf x).field ⟨.single q.fact, .epsilon, .alloc x.fact⟩ := by
  rw [Analysis.mem_allocationSites_iff]
  constructor
  · rintro ⟨forward, i, e, he, reaches⟩
    obtain ⟨known, empty⟩ := Solver.reachesWithEmptyStack_iff.1 reaches
    rw [factsOf_eq he, ← (h.host he).seed]
    exact ⟨forward, ⟨i, e, he⟩, (h.host he).below.entered known, empty⟩
  · rintro ⟨forward, ⟨i, e, he⟩, live, field⟩
    rw [factsOf_eq he] at live field
    rw [← (h.host he).seed] at field
    exact ⟨forward, i, e, he, (h.host he).resting.reachesWithEmptyStack live field⟩

/-- An analysis has no more aliases of bases than another one if it stays inside a world that has no
more. -/
theorem Within.separate_of (h : b.Within w) (same : b.program = a.program)
    (base : ∀ {access q}, w.base access q → a.view.base access q ∧ (w.facts q).Sub (a.factsOf q))
    (separate : a.Separate) : b.Separate := by
  have based {access base'} (hb : b.view.base access base') :
      a.view.base access base' ∧ (b.factsOf base').Sub (a.factsOf base') := by
    obtain ⟨j, x, hj, hq⟩ := hb
    obtain ⟨based, sub⟩ := base ((h.fieldJoin hj).base base' hq).1
    exact ⟨based, h.factsOf_sub.trans sub⟩
  intro access base₁ base₂ i₁ i₂ v l₁ l₂ state₁ state₂ h₁ h₂ hi₁ hi₂ ht₁ ht₂
  rw [same] at hi₁ hi₂
  obtain ⟨h₁, sub₁⟩ := based h₁
  obtain ⟨h₂, sub₂⟩ := based h₂
  exact separate h₁ h₂ hi₁ hi₂ (sub₁.field _ ht₁) (sub₂.field _ ht₂)

/-- No variable is an alias of two bases of one join, as far as the solvers of the bases know. -/
def SeparateJoins (a : Analysis) : Prop :=
  ∀ e ∈ a.fieldJoins.toList, ∀ base ∈ e.2.bases.toList, ∀ base' ∈ e.2.bases.toList,
    ∀ i ∈ e.1.imports a.program, ∀ i' ∈ e.1.imports a.program, base = base' ∧ i = i' ∨
      ∀ s ∈ a.solver? base, ∀ s' ∈ a.solver? base', ∀ t ∈ s.fields.toList, ∀ t' ∈ s'.fields.toList,
        t.start = .single ⟨i.1, t.start.fact.var⟩ → t'.start ≠ .single ⟨i'.1, t.start.fact.var⟩

instance (a : Analysis) : Decidable a.SeparateJoins :=
  inferInstanceAs (Decidable (∀ e ∈ a.fieldJoins.toList, _))

theorem SeparateJoins.separate (h : a.SeparateJoins) : a.Separate := by
  intro access base base' i i' v l l' state state' hb hb' hi hi' ht ht'
  obtain ⟨j, x, hj, hb⟩ := hb
  obtain ⟨j', x', hj', hb'⟩ := hb'
  obtain rfl := FieldJoinAt.index_eq hj hj'
  obtain ⟨-, rfl⟩ := FieldJoinAt.unique hj hj'
  obtain ⟨k, e, he, ht⟩ := ht
  obtain ⟨k', e', he', ht'⟩ := ht'
  refine (h (access, x) (List.mem_of_getElem? hj) base hb base' hb' i hi i' hi').resolve_right ?_
  intro apart
  exact apart e.solver (Pool.find?_eq_some_iff.2 ⟨k, e, he, rfl⟩) e'.solver
    (Pool.find?_eq_some_iff.2 ⟨k', e', he', rfl⟩) _ ht _ ht' rfl rfl

/-! ## Reconciled analyses -/

/-- Where the other analysis has imported an alias and this one has not, importing it would add nothing
to what this one knows. -/
def Reconciles (a b : Analysis) : Prop :=
  ∀ access base flow p v, b.Imports access base flow p v → ¬ a.Imports access base flow p v →
    a.Absorbs access base flow p v

section Inside

variable (ha : Answers p config qs a) (hb : Answers p config qs' b) (static : p.Static)
  (same : ∀ q ∈ qs', q ∈ qs)
include ha hb static same

/-- What was imported elsewhere only adds nothing, so the other analysis has found no more. -/
theorem Answers.inside (reconciles : a.Reconciles b) : b.Within (a.settled : Realm) := by
  refine hb.solved.inside (fun access base flow p v imports => ?_)
    (fun q hq => ha.solved.knows q (same q hq)) (within_create (ha.settled_closed static))
  obtain ⟨S, n, running⟩ := ha.running
  by_cases too : a.Imports access base flow p v
  · exact running.absorbs_of_imports ha.solved.idle too
  · exact reconciles access base flow p v imports too

variable (reconciles : a.Reconciles b)
include reconciles

/-- What the one analysis has reached, the other one has reached. -/
theorem Answers.mem_reached {i j : Nat} {e e' : PoolEntry} (he : a.pool.Has i q e)
    (he' : b.pool.Has j q e') {f : Fact} (hf : f ∈ e'.solver.reached) : f ∈ e.solver.reached := by
  obtain ⟨S, n, running⟩ := ha.running
  have inside := ha.inside hb static same reconciles
  have reached := (factsOf_sub he).reached ((inside.host he').below.reached f hf)
  exact (running.host he).resting.mem_reached reached

/-- The allocation sites that the one analysis has found, the other one has found. -/
theorem Answers.mem_allocationSites {x : Query} (hx : x ∈ b.allocationSites q) :
    x ∈ a.allocationSites q := by
  obtain ⟨S, n, running⟩ := ha.running
  have inside := ha.inside hb static same reconciles
  obtain ⟨forward, known, live, field⟩ := inside.mem_allocationSites_iff.1 hx
  exact running.within.mem_allocationSites_iff.2
    ⟨forward, inside.query known, inside.factsOf_sub.live live, inside.factsOf_sub.field _ field⟩

end Inside

/-! ## Agreement -/

/-- Two analyses tell the same about a query. -/
structure Agree (a b : Analysis) (q : Query) : Prop where
  reached : ∃ s s', a.solver? q = some s ∧ b.solver? q = some s' ∧ ∀ f, f ∈ s.reached ↔ f ∈ s'.reached
  sites : ∀ x, x ∈ a.allocationSites q ↔ x ∈ b.allocationSites q

section Agree

variable (ha : Answers p config qs a) (hb : Answers p config qs' b) (static : p.Static)
  (same : ∀ q, q ∈ qs ↔ q ∈ qs')
include ha hb static same

theorem Answers.agree (reconciles : a.Reconciles b) (reconciles' : b.Reconciles a) (hq : q ∈ qs) :
    Agree a b q := by
  have le : ∀ q ∈ qs', q ∈ qs := fun q => (same q).2
  have ge : ∀ q ∈ qs, q ∈ qs' := fun q => (same q).1
  obtain ⟨i, e, he⟩ := ha.solved.knows q hq
  obtain ⟨j, e', he'⟩ := hb.solved.knows q (ge q hq)
  refine ⟨⟨e.solver, e'.solver, ?_, ?_, fun f => ⟨?_, ?_⟩⟩, fun x => ⟨?_, ?_⟩⟩
  · exact Pool.find?_eq_some_iff.2 ⟨i, e, he, rfl⟩
  · exact Pool.find?_eq_some_iff.2 ⟨j, e', he', rfl⟩
  · exact hb.mem_reached ha static ge reconciles' he' he
  · exact ha.mem_reached hb static le reconciles he he'
  · exact hb.mem_allocationSites ha static ge reconciles'
  · exact ha.mem_allocationSites hb static le reconciles

omit ha static same in
/-- What was imported adds nothing to an analysis that knows the same. -/
theorem Answers.reconciles_of_facts (facts : ∀ q, a.factsOf q = b.factsOf q) : a.Reconciles b := by
  obtain ⟨S, n, running⟩ := hb.running
  intro access base flow p v imports _ _ _ _ point hm
  obtain ⟨visits, connected⟩ := imports.done point hm
  refine ⟨fun t path ht => ?_, facts flow ▸ connected⟩
  have acts := running.spent hb.solved.idle visits t (facts base ▸ path) (facts base ▸ ht)
  simpa only [World.Acts, view, facts] using acts

/-- Two orders let everything be known alike exactly if the analyses are reconciled. -/
theorem Answers.facts_eq_iff :
    (∀ q, a.factsOf q = b.factsOf q) ↔ a.Reconciles b ∧ b.Reconciles a := by
  constructor
  · exact fun facts => ⟨hb.reconciles_of_facts facts, ha.reconciles_of_facts fun q => (facts q).symm⟩
  · rintro ⟨reconciles, reconciles'⟩ q
    have sub := (hb.inside ha static (fun q => (same q).1) reconciles').factsOf_sub (q := q)
    have sup := (ha.inside hb static (fun q => (same q).2) reconciles).factsOf_sub (q := q)
    exact sub.antisymm sup

omit static same in
/-- If no variable is an alias of two bases of one access, nothing was passed over. -/
theorem Answers.reconciles_of_separate (separate : a.Separate) : a.Reconciles b := by
  obtain ⟨S, n, running⟩ := ha.running
  obtain ⟨S', n', running'⟩ := hb.running
  intro access base flow p v imports _ isBase isFlow found point hm
  obtain ⟨l, state, ht⟩ := found
  have place : p ∈ access.imports a.program := by
    rw [running.program, ← running'.program]
    exact imports.place
  have done := running.imported ha.solved.idle isBase isFlow place ht fun isBase' place' ht' =>
    separate isBase' isBase place' place ht' ht
  exact (done point hm).imp_left (running.spent ha.solved.idle)

/-- The analyses agree if in one of them no variable is an alias of two bases of one access. -/
theorem Answers.agree_of_separate (separate : a.Separate) (hq : q ∈ qs) : Agree a b q := by
  obtain ⟨S, n, running⟩ := ha.running
  obtain ⟨S', n', running'⟩ := hb.running
  have reconciles := ha.reconciles_of_separate hb separate
  have inside := ha.inside hb static (fun q => (same q).2) reconciles
  have separate' : b.Separate := inside.separate_of
    (running'.program.trans running.program.symm) (fun isBase => ⟨isBase, .refl⟩) separate
  exact ha.agree hb static same reconciles (hb.reconciles_of_separate ha separate') hq

end Agree

/-! ## The imports that were made -/

/-- An alias of a base is imported into a flow, from one point to another. -/
structure Import where
  base : Query
  flow : Query
  access : FieldAccess
  source : Fact
  target : Fact

/-- The imports that visitors make, and how far each of them has come. -/
def importers (a : Analysis) : List (Import × List FieldState) := a.visitors.toList.filterMap fun y =>
  match y.action with
  | .importInto flow join (.single source) (.single target) _ => do
    let base ← a.pool.entries.toList[y.solver]?
    let flow ← a.pool.entries.toList[flow]?
    let access ← a.fieldJoins.toList[join]?
    some (⟨base.1, flow.1, access.1, source, target⟩, y.visited.toList)
  | _ => none

/-- The import leads nowhere beyond the states and finds nothing to do on the way. -/
def Import.Idles (a : Analysis) (m : Import) (states : List FieldState) : Prop :=
  ∃ s ∈ a.solver? m.flow,
    (m.access.Connects m.source.var → m.target ∈ s.callFlows.of m.access.fact) ∧
    ∀ s' ∈ a.solver? m.base, ∀ t ∈ s'.fields.toList, t.start ∈ states → t.target ∈ states ∧
      s.fields.contains
        ⟨t.start.rename m.source m.target, t.label, t.target.rename m.source m.target⟩ ∧
      (m.access.Connects m.source.var → t.target = .alloc m.base.fact → s.fields.contains
        ⟨t.start.rename m.source m.target, m.access.field, .single m.access.fact⟩)

instance (a : Analysis) (m : Import) (states : List FieldState) : Decidable (m.Idles a states) :=
  inferInstanceAs (Decidable (∃ s ∈ a.solver? m.flow, _ ∧ ∀ s' ∈ a.solver? m.base, _))

theorem mem_importers_of_visits {base flow : Query} {access : FieldAccess} {source target : Fact}
    {state : FieldState} (h : a.view.visits base (.importInto flow access source target) state) :
    ∃ states, (⟨base, flow, access, source, target⟩, states) ∈ a.importers ∧ state ∈ states := by
  obtain ⟨v, y, hv, ⟨e, hi⟩, means, hs⟩ := h
  refine ⟨y.visited.toList, List.mem_filterMap.2
    ⟨y, List.mem_of_getElem? (Array.getElem?_toList ▸ hv), ?_⟩, hs⟩
  cases action : y.action <;> rw [action] at means <;> try exact means.elim
  obtain ⟨⟨e', hk⟩, ⟨x, hj⟩, rfl, rfl, -⟩ := means
  dsimp only
  rw [hi, hk, hj]
  rfl

/-- What the other analysis has imported adds nothing if going over it once more finds nothing to do. -/
theorem reconciles_of_importers (all : ∀ m ∈ b.importers, m.1.Idles a m.2) : a.Reconciles b := by
  intro access base flow p v imports _ _ _ _ point hm
  obtain ⟨states, mem, start⟩ := mem_importers_of_visits (imports.done point hm).1
  obtain ⟨s, hs, connected, passed⟩ := all _ mem
  dsimp only at hs connected passed
  obtain ⟨k, e, he, rfl⟩ := Pool.find?_eq_some_iff.1 hs
  have idles {t : FieldTransition} (ht : (a.factsOf base).field t) (here : t.start ∈ states) :=
    have ⟨i, e', he', ht⟩ := ht
    passed e'.solver (Pool.find?_eq_some_iff.2 ⟨i, e', he', rfl⟩) t ht here
  have come {state : FieldState} (path : Relation.ReflTransGen
      (fun s s' => ∃ l, (a.factsOf base).field ⟨s, l, s'⟩) (.single ⟨p.1, v⟩) state) :
      state ∈ states := by
    induction path with
    | refl => exact start
    | tail _ step ih =>
      obtain ⟨l, ht⟩ := step
      exact (idles ht ih).1
  refine ⟨fun t path ht => ?_, fun hc => ⟨k, e, he, connected hc⟩⟩
  obtain ⟨-, copied, joined⟩ := idles ht (come path)
  exact ⟨⟨k, e, he, Automaton.contains_iff.1 copied⟩,
    fun hc target => ⟨k, e, he, Automaton.contains_iff.1 (joined hc target)⟩⟩

/-- The order of queries does not matter, unless something is lost because an alias was imported for
one base and not for the other. -/
theorem solveAll_agrees (p : Program) (config : Config) (static : p.Static)
    (same : ∀ q, q ∈ qs ↔ q ∈ qs') :
    Yields ((create p config).solveAll qs) fun a => Yields ((create p config).solveAll qs') fun b =>
      a.Reconciles b → b.Reconciles a → ∀ q ∈ qs, Agree a b q :=
  (yields_answers p config qs).imp fun _ ha => (yields_answers p config qs').imp fun _ hb =>
    fun reconciles reconciles' _ hq => ha.agree hb static same reconciles reconciles' hq

/-- A method that puts an object in a box under another name and takes it out. -/
def renamedBox : String :=
  "method m() \x7b\n  x = new A\n  v = new B\n  y = x\n  y.f = v\n  r = x.f\n  q: nop\n\x7d"

/-- What is taken out of the box. -/
def takenOut : Query := .backward ⟨.ofIndex ⟨"m"⟩ 6, ⟨"r", ⟨"m"⟩⟩⟩

/-- The box and the object, which gets to each name of the box below a field. -/
def renamed : Query := ⟨.forward, ⟨.ofIndex ⟨"m"⟩ 1, ⟨"x", ⟨"m"⟩⟩⟩, some ⟨"A"⟩⟩

def boxedObject : Query := ⟨.forward, ⟨.ofIndex ⟨"m"⟩ 2, ⟨"v", ⟨"m"⟩⟩⟩, some ⟨"B"⟩⟩

/-- The names of the box are aliases of two bases of the load. In both orders they are imported for the
box, and the object is found. -/
theorem renamedBox_agrees : ∃ program, Source.readProgram renamedBox = .ok program ∧
    program.Static ∧ Yields ((create program default).solveAll [renamed, takenOut]) fun a =>
      Yields ((create program default).solveAll [takenOut, renamed]) fun b =>
        ¬ a.Separate ∧ boxedObject ∈ a.allocationSites takenOut ∧
        a.Reconciles b ∧ b.Reconciles a ∧ ∀ q ∈ [renamed, takenOut], Agree a b q := by
  let load : FieldAccess :=
    ⟨.read, .ofIndex ⟨"m"⟩ 5, ⟨"x", ⟨"m"⟩⟩, .named "f", ⟨"r", ⟨"m"⟩⟩⟩
  let found (a : Analysis) (q : Query) : Bool :=
    ((a.fieldJoins.get? load).any fun x => x.bases.contains q) && (a.solver? q).any fun s =>
      s.fields.toList.any fun t => t.start = .single load.baseFact
  have checked : (Source.readProgram renamedBox).toOption.any fun program =>
      decide program.Static &&
      ((create program default).solveAll [renamed, takenOut]).toOption.any fun a =>
      ((create program default).solveAll [takenOut, renamed]).toOption.any fun b =>
        found a renamed && found a boxedObject && decide (boxedObject ∈ a.allocationSites takenOut ∧
          (∀ m ∈ b.importers, m.1.Idles a m.2) ∧ ∀ m ∈ a.importers, m.1.Idles b m.2) := by
    decide +kernel
  obtain ⟨program, read, h⟩ := exists_ok_of_any checked
  obtain ⟨static, h⟩ := Bool.and_eq_true_iff.1 h
  obtain ⟨a', ha', h⟩ := exists_ok_of_any h
  obtain ⟨b', hb', h⟩ := exists_ok_of_any h
  rw [Bool.and_eq_true, Bool.and_eq_true] at h
  obtain ⟨⟨box, object⟩, h⟩ := h
  obtain ⟨site, idle, idle'⟩ := of_decide_eq_true h
  have static := of_decide_eq_true static
  have same (q : Query) : q ∈ [renamed, takenOut] ↔ q ∈ [takenOut, renamed] := by
    simp [or_comm]
  obtain ⟨a, ha, b, hb, agree⟩ := solveAll_agrees program default static same
  obtain rfl := Except.ok.inj (ha.symm.trans ha')
  obtain rfl := Except.ok.inj (hb.symm.trans hb')
  have reconciles := reconciles_of_importers idle
  have reconciles' := reconciles_of_importers idle'
  refine ⟨program, read, static, a, ha, b, hb, fun separate => ?_, site, reconciles, reconciles',
    agree reconciles reconciles'⟩
  -- the box and the object both get to the variable at the load
  have alias' {q : Query} (hq : found a q) : a.view.base load q ∧ ∃ l state,
      (a.factsOf q).field ⟨.single load.baseFact, l, state⟩ := by
    obtain ⟨joins, knows⟩ := Bool.and_eq_true_iff.1 hq
    obtain ⟨x, hx, hb⟩ := (Option.any_eq_true _ _).1 joins
    obtain ⟨j, hj⟩ := List.mem_iff_getElem?.1 (OrderedMap.get?_eq_some_iff.1 hx)
    obtain ⟨s, hs, ht⟩ := (Option.any_eq_true _ _).1 knows
    obtain ⟨i, e, he, rfl⟩ := Pool.find?_eq_some_iff.1 hs
    obtain ⟨⟨start, l, state⟩, ht, same⟩ := List.any_eq_true.1 ht
    obtain rfl := of_decide_eq_true same
    exact ⟨⟨j, x, hj, OrderedSet.contains_iff.1 hb⟩, l, state, i, e, he, ht⟩
  obtain ⟨isBase, l, state, ht⟩ := alias' box
  obtain ⟨isBase', l', state', ht'⟩ := alias' object
  obtain ⟨points, place⟩ : ∃ points, (load.point, points) ∈ load.imports a.program :=
    ⟨_, List.mem_cons_self⟩
  exact absurd (separate isBase isBase' place place ht ht').1 (by decide)

end Analysis

end PointsTo
