import PointsTo.Analysis.Basic
import PointsTo.Proofs.Solver.Operations
import PointsTo.Proofs.Solver.Changes

/-!
# Bounds on what an analysis may come to know

A `World` says for each query which facts its solver may know, which queries there may be, and what
the joins between them may record. It is closed (`World.Closed`) if it also has whatever the handlers
of events add to it. So an analysis that starts inside a closed world stays inside, and invariants of
all reachable states are shown by giving a closed world.

A world speaks of queries and field accesses where the analysis speaks of positions, so an `Errand` is
a visitor's action without positions.

Clients may start a query against its direction, and then a field access may come up from which the
flow does not go on. A `Realm` is a world together with the queries for which this is done.
-/

namespace PointsTo

/-! ## Accesses and allocations of a program -/

namespace Program

variable (p : Program)

/-- The instruction at the point of the access is this access. -/
def Accesses (access : FieldAccess) : Prop :=
  p.instruction? access.point = some (match access.kind with
    | .write => .store access.base access.field access.value
    | .read => .load access.value access.base access.field)

instance (access : FieldAccess) : Decidable (p.Accesses access) :=
  inferInstanceAs (Decidable (_ = _))

section Accesses

variable {p} {access : FieldAccess} (h : p.Accesses access)
include h

theorem Accesses.store (write : access.kind = .write) :
    p.instruction? access.point = some (.store access.base access.field access.value) := by
  rwa [Accesses, write] at h

theorem Accesses.load (read : access.kind = .read) :
    p.instruction? access.point = some (.load access.value access.base access.field) := by
  rwa [Accesses, read] at h

/-- What the access is about is mentioned where it stands. -/
theorem Accesses.exists_instruction : ∃ i, p.instruction? access.point = some i ∧
    access.base ∈ i.vars ∧ access.value ∈ i.vars ∧ access.field ∈ i.fields := by
  cases kind : access.kind with
  | write => exact ⟨_, h.store kind, by simp [Instruction.vars], by simp [Instruction.vars], .head _⟩
  | read => exact ⟨_, h.load kind, by simp [Instruction.vars], by simp [Instruction.vars], .head _⟩

end Accesses

/-- The fact is about the variable that an allocation at its point writes. -/
def Allocates (f : Fact) : Prop :=
  (∃ type, p.instruction? f.point = some (.new f.var type)) ∨
    p.instruction? f.point = some (.null f.var)

/-- The ways through the program for some set of allocated classes. -/
def ways (direction : Direction) : Ways where
  rule f r := ∃ allocated,
    r ∈ (({ direction, graph := ⟨p, direction⟩, allocated } : Propagation).flow f).rules
  tell f a := ∃ allocated,
    a ∈ (({ direction, graph := ⟨p, direction⟩, allocated } : Propagation).flow f).announcements

theorem covers_ways (direction : Direction) :
    (p.ways direction).Covers direction ⟨p, direction⟩ :=
  fun allocated _ => ⟨fun _ hr => ⟨allocated, hr⟩, fun _ ha => ⟨allocated, ha⟩⟩

end Program

namespace FieldAccess

/-- The direction of the queries that follow the value of the access. -/
def direction (a : FieldAccess) : Direction :=
  match a.kind with
  | .write => .forward
  | .read => .backward

theorem direction_eq_forward_iff {a : FieldAccess} : a.direction = .forward ↔ a.kind = .write := by
  cases kind : a.kind <;> simp [direction, kind]

/-- The base at the access. -/
def baseFact (a : FieldAccess) : Fact := ⟨a.point, a.base⟩

/-- Where aliases of the base are looked for, and to which points they are imported. -/
def imports (a : FieldAccess) (p : Program) : List (Point × List Point) :=
  let next := (⟨p, a.direction⟩ : Supergraph).successors a.point
  match a.kind with
  | .write => next.map fun point => (point, [point])
  | .read => [(a.point, next)]

/-- Aliases are imported to points after the access, which are those where they are looked for or come
after those. -/
theorem successor_of_mem_imports {a : FieldAccess} {p : Program} {i : Point × List Point}
    {point : Point} (hi : i ∈ a.imports p) (hm : point ∈ i.2) :
    point ∈ (⟨p, a.direction⟩ : Supergraph).successors a.point ∧
      (point = i.1 ∨ point ∈ (⟨p, a.direction⟩ : Supergraph).successors i.1) := by
  unfold imports at hi
  split at hi
  · obtain ⟨next, hn, rfl⟩ := List.mem_map.1 hi
    obtain rfl : point = next := List.mem_singleton.1 hm
    exact ⟨hn, .inl rfl⟩
  · obtain rfl := List.mem_singleton.1 hi
    exact ⟨hm, .inr hm⟩

/-- The variable is an alias that the flow does not reach by itself. -/
def Connects (a : FieldAccess) (v : Var) : Prop := v ≠ a.base ∧ v ≠ a.value

instance (a : FieldAccess) (v : Var) : Decidable (a.Connects v) :=
  inferInstanceAs (Decidable (_ ∧ _))

end FieldAccess

theorem FieldJoin.executes_iff {j : FieldJoin} {q : Query} :
    j.executes q ↔ q.direction = j.access.direction := by
  unfold FieldJoin.executes FieldAccess.direction Query.isForward
  cases j.access.kind <;> cases q.direction <;> decide

/-! ## Worlds -/

/-- What is done at each transition that is visited. -/
inductive Errand where
  | importInto (flow : Query) (access : FieldAccess) (source target : Fact)
  | flowAllocation (site returnSite : Point) (returned : Var)
  | splice (flow : Query)
  | baseAllocation (access : FieldAccess)
deriving DecidableEq

/-- A state where an alias is imported, seen from the flow. -/
def FieldState.rename (source target : Fact) (state : FieldState) : FieldState :=
  if state = .single source then .single target else state

theorem FieldState.rename_eq_alloc_iff {source target f : Fact} {state : FieldState} :
    state.rename source target = .alloc f ↔ state = .alloc f := by
  unfold rename
  split
  · next e => simp [e]
  · rfl

theorem FieldState.rename_eq_generated_iff {source target f : Fact} {g : Field} {state : FieldState} :
    state.rename source target = .generated f g ↔ state = .generated f g := by
  unfold rename
  split
  · next e => simp [e]
  · rfl

/-- What holds of a state and of the target of the flow holds of the state as it is imported. -/
theorem FieldState.rename_of {P : FieldState → Prop} {source target : Fact} {state : FieldState}
    (h : P state) (ht : P (.single target)) : P (state.rename source target) := by
  unfold rename
  split
  · exact ht
  · exact h

/-- What is imported at the same point keeps its names. -/
theorem FieldState.rename_self (f : Fact) (state : FieldState) : state.rename f f = state := by
  unfold rename
  split
  · next e => exact e.symm
  · rfl

structure World where
  ways : Direction → Ways
  facts : Query → Facts
  query : Query → Prop
  /-- The query has been started. -/
  started : Query → Prop
  /-- An allocation whose calling contexts are watched -/
  watched : Query → Prop
  base : FieldAccess → Query → Prop
  flow : FieldAccess → Query → Prop
  /-- The errand takes the visitor of a query to the state. -/
  visits : Query → Errand → FieldState → Prop
  callSite : Point × Point → Prop
  returned : Point × Point → FlowSource × Query → Prop
  bypassed : Point × Point → Query × Var → Prop
  /-- The alias that the base has next to the access may be imported into the flow. -/
  imports : FieldAccess → (base flow : Query) → Point × List Point → Var → Prop :=
    fun _ _ _ _ _ => True

namespace World

variable (w : World) (p : Program)

/-- The world has what an errand for `q` does at a transition. -/
def Acts (q : Query) (t : FieldTransition) : Errand → Prop
  | .importInto flow access source target =>
    (w.facts flow).field
        ⟨t.start.rename source target, t.label, t.target.rename source target⟩ ∧
      (access.Connects source.var → t.target = .alloc q.fact →
        (w.facts flow).field ⟨t.start.rename source target, access.field, .single access.fact⟩)
  | .flowAllocation site returnSite returned => ∀ {fact}, t.target = .alloc fact →
    t.label = .epsilon →
      w.returned (site, returnSite) (⟨q, returned, t.start⟩, .allocation p fact)
  | .splice flow => (w.facts flow).field t
  | .baseAllocation access => t.target = .alloc q.fact → w.base access q

/-- The world has what follows when a base and a flow meet at an access, as far as aliases may be
imported. -/
structure Pairs (access : FieldAccess) (base flow : Query) : Prop where
  hasBase : w.query base
  hasFlow : w.query flow
  visits : ∀ {i v l q point}, i ∈ access.imports p → w.imports access base flow i v →
    (w.facts base).field ⟨.single ⟨i.1, v⟩, l, q⟩ → point ∈ i.2 →
      w.visits base (.importInto flow access ⟨i.1, v⟩ ⟨point, v⟩) (.single ⟨i.1, v⟩)
  connects : ∀ {i v l q point}, i ∈ access.imports p → w.imports access base flow i v →
    (w.facts base).field ⟨.single ⟨i.1, v⟩, l, q⟩ → point ∈ i.2 → access.Connects v →
      (w.facts flow).callFlow access.fact ⟨point, v⟩

/-- The world has what follows when a value that comes back from a call meets one that went past. -/
structure Activates (returnSite : Point) (source : FlowSource) (bypassing : Query) (v : Var) :
    Prop where
  hasBypassing : w.query bypassing
  hasFlow : w.query source.query
  visits : w.visits bypassing (.splice source.query) (.single ⟨returnSite, v⟩)
  pop : source.state.isGenerated → (w.facts source.query).pop source.state ⟨returnSite, v⟩
  fieldFlow : (w.facts source.query).fieldFlow ⟨returnSite, source.returned⟩ ⟨returnSite, v⟩
  callFlow : (w.facts source.query).callFlow ⟨returnSite, source.returned⟩ ⟨returnSite, v⟩

/-- The world has whatever the handlers of events add to it. -/
structure Closed (config : Config) : Prop where
  covers : ∀ d, (w.ways d).Covers d ⟨p, d⟩
  facts : ∀ {q}, w.query q → (w.facts q).Closed (w.ways q.direction)
  opened : ∀ {q}, w.query q → (w.facts q).opened q.fact.point.method
  productive : ∀ {q}, w.query q → (w.facts q).productive (.alloc q.fact)
  started : ∀ {q}, w.started q → w.query q ∧
    ∀ next ∈ (⟨p, q.direction⟩ : Supergraph).successors q.fact.point,
      (Operation.solve ⟨next, q.fact.var⟩).Grants q.fact (w.facts q)
  allocation : ∀ {q f}, w.query q → q.direction = .backward → (w.facts q).reached f →
    p.Allocates f → w.started (.allocation p f) ∧ w.watched (.allocation p f)
  watched : ∀ {q t v point}, w.watched q → (w.facts q).call t → t.target = .generated v point →
    (w.facts q).opened point.method
  value : ∀ {q access}, w.query q → q.direction = access.direction → p.Accesses access →
    (w.facts q).reached access.fact →
      w.started (.backward access.baseFact) ∧ w.flow access q
  writeBase : ∀ {q access}, w.query q → q.direction = .forward → p.Accesses access →
    access.kind = .write ∨ config.readBaseRule = .emptyFieldOnly →
      (w.facts q).reached access.baseFact →
        (w.facts q).field ⟨.single access.baseFact, .epsilon, .alloc q.fact⟩ → w.base access q
  readBase : ∀ {q access}, w.query q → q.direction = .forward → p.Accesses access →
    access.kind = .read → config.readBaseRule = .seedTransition →
      (w.facts q).reached access.baseFact →
        w.visits q (.baseAllocation access) (.single access.baseFact)
  pair : ∀ {access base flow}, w.base access base → w.flow access flow →
    flow.direction = access.direction → w.Pairs p access base flow
  visit : ∀ {q e t}, w.visits q e t.start → (w.facts q).field t →
    w.visits q e t.target ∧ w.Acts p q t e
  returned : ∀ {q f site fact}, w.query q → (w.facts q).live f →
    (w.ways q.direction).tell f (.returned site fact) → w.callSite (site, fact.point) ∧
      w.visits q (.flowAllocation site fact.point fact.var) (.single fact)
  bypassed : ∀ {q f site returnSite v}, w.query q → (w.facts q).live f →
    (w.ways q.direction).tell f (.bypassed site returnSite v) →
      w.callSite (site, returnSite) ∧ w.bypassed (site, returnSite) (q, v)
  activation : ∀ {site returnSite source bypassing v},
    w.returned (site, returnSite) (source, bypassing) →
      w.bypassed (site, returnSite) (bypassing, v) → source.query ≠ bypassing →
        w.Activates returnSite source bypassing v

end World

/-! ## Larger worlds -/

/-- Every fact and record of the one is one of the other. -/
structure World.Sub (w w' : World) : Prop where
  facts : ∀ q, (w.facts q).Sub (w'.facts q)
  query : ∀ {q}, w.query q → w'.query q
  started : ∀ {q}, w.started q → w'.started q
  watched : ∀ {q}, w.watched q → w'.watched q
  base : ∀ {access q}, w.base access q → w'.base access q
  flow : ∀ {access q}, w.flow access q → w'.flow access q
  visits : ∀ {q e state}, w.visits q e state → w'.visits q e state
  callSite : ∀ {k}, w.callSite k → w'.callSite k
  returned : ∀ {k e}, w.returned k e → w'.returned k e
  bypassed : ∀ {k e}, w.bypassed k e → w'.bypassed k e

theorem World.Acts.mono {w w' : World} {p : Program} {q : Query} {t : FieldTransition} {e : Errand}
    (h : w.Acts p q t e) (sub : w.Sub w') : w'.Acts p q t e := by
  cases e with
  | importInto flow access source target =>
    exact ⟨(sub.facts flow).field _ h.1, fun hc ht => (sub.facts flow).field _ (h.2 hc ht)⟩
  | flowAllocation site returnSite returned =>
    intro fact ht hl
    exact sub.returned (h ht hl)
  | splice flow => exact (sub.facts flow).field _ h
  | baseAllocation access => exact fun ht => sub.base (h ht)

/-! ## Realms -/

/-- A world, and the queries that clients start against their direction. -/
structure Realm extends World where
  reversed : Query → Prop

namespace Realm

/-- The world, with all queries started in their direction. -/
def ofWorld (w : World) : Realm := { w with reversed := fun _ => False }

instance : Coe World Realm := ⟨ofWorld⟩

variable (w : Realm)

/-- Some query may be started against its direction. -/
def Lax : Prop := ∃ q, w.reversed q

/-- The query may be started in the direction. -/
def Starts (d : Direction) (q : Query) : Prop := w.started q ∧ d = q.direction ∨ w.reversed q

/-- The world is closed, reversed queries begin inside it, and unless there are any, the flow goes on
from all accesses where it meets a base. -/
structure Closed (p : Program) (config : Config) : Prop extends w.toWorld.Closed p config where
  begins : ∀ {q}, w.reversed q → w.query q ∧
    ∀ d, ∀ next ∈ (⟨p, d⟩ : Supergraph).successors q.fact.point,
      (Operation.solve ⟨next, q.fact.var⟩).Grants q.fact (w.facts q)
  goes_on : ∀ {access base flow}, w.base access base → w.flow access flow →
    flow.direction = access.direction →
      w.Lax ∨ (⟨p, access.direction⟩ : Supergraph).successors access.point ≠ []

structure Sub (w w' : Realm) : Prop extends w.toWorld.Sub w'.toWorld where
  reversed : ∀ {q}, w.reversed q → w'.reversed q

variable {w}

theorem Starts.query {p : Program} {config : Config} {d : Direction} {q : Query}
    (h : w.Starts d q) (closed : w.Closed p config) : w.query q ∧
      ∀ next ∈ (⟨p, d⟩ : Supergraph).successors q.fact.point,
        (Operation.solve ⟨next, q.fact.var⟩).Grants q.fact (w.facts q) := by
  obtain ⟨hs, rfl⟩ | hr := h
  · exact closed.started hs
  · exact (closed.begins hr).imp_right fun begins => begins d

end Realm

end PointsTo
