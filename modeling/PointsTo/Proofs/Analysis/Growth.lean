import PointsTo.Analysis.Events
import PointsTo.Proofs.Analysis.Pool
import PointsTo.Proofs.Analysis.World

/-!
# How an analysis grows

An analysis never forgets: solvers, listeners, visitors and joins keep their positions and only grow
(`Grows`). Its state can be read as a `World` (`Analysis.view`), which grows with it, and what the
handler of an event leaves behind is stated through this view.
-/

namespace PointsTo

/-! ## Parts -/

structure FieldJoin.Sub (x y : FieldJoin) : Prop where
  access : y.access = x.access
  base : ∀ q ∈ x.bases, q ∈ y.bases
  flow : ∀ q ∈ x.flows, q ∈ y.flows
  aliased : ∀ {q v}, v ∈ x.aliases.of q → v ∈ y.aliases.of q

structure CallJoin.Sub (x y : CallJoin) : Prop where
  site : y.site = x.site
  returnSite : y.returnSite = x.returnSite
  returned : ∀ e ∈ x.flows, e ∈ y.flows
  bypassed : ∀ e ∈ x.bypasses, e ∈ y.bypasses

structure Visitor.Sub (x y : Visitor) : Prop where
  solver : y.solver = x.solver
  listener : y.listener = x.listener
  action : y.action = x.action
  visited : ∀ state ∈ x.visited, state ∈ y.visited

namespace Analysis

/-! ## Reading a state -/

section Reading

variable (a : Analysis)

/-- The solver at the position belongs to the query. -/
def Index (i : Nat) (q : Query) : Prop := ∃ e, a.pool.Has i q e

/-- The query has a solver. -/
def Knows (q : Query) : Prop := ∃ i, a.Index i q

/-- What the solver of a query knows. A query without a solver knows nothing. -/
def factsOf (q : Query) : Facts where
  field t := ∃ i e, a.pool.Has i q e ∧ e.solver.facts.field t
  call t := ∃ i e, a.pool.Has i q e ∧ e.solver.facts.call t
  pop state f := ∃ i e, a.pool.Has i q e ∧ e.solver.facts.pop state f
  fieldFlow f g := ∃ i e, a.pool.Has i q e ∧ e.solver.facts.fieldFlow f g
  callFlow f g := ∃ i e, a.pool.Has i q e ∧ e.solver.facts.callFlow f g
  opened m := ∃ i e, a.pool.Has i q e ∧ e.solver.facts.opened m
  productive state := ∃ i e, a.pool.Has i q e ∧ e.solver.facts.productive state

/-- The query is known to reach the fact. -/
def Reaches (q : Query) (f : Fact) : Prop := ∃ i e, a.pool.Has i q e ∧ f ∈ e.solver.reached

/-- The query has reached the value of the access, in the direction in which values are followed. -/
structure Carries (q : Query) (access : FieldAccess) : Prop where
  direction : q.direction = access.direction
  reaches : a.Reaches q access.fact

/-- The query has reached the base of the access, and the base is the seed itself unless the
configuration does not ask for that. -/
structure Underlies (q : Query) (access : FieldAccess) : Prop where
  direction : q.direction = .forward
  reaches : a.Reaches q access.baseFact
  held : access.kind = .write ∨ a.config.readBaseRule = .emptyFieldOnly →
    (a.factsOf q).field ⟨.single access.baseFact, .epsilon, .alloc q.fact⟩

/-- The solver of the query serves the ticket for the fact. -/
def Serves (q : Query) (f : Fact) (ticket : Nat) : Prop :=
  ∃ i e, a.pool.Has i q e ∧ (f, ticket) ∈ e.solver.tickets

/-- `x` is the forward query for an allocation that `q` reaches. -/
def Finds (q x : Query) : Prop :=
  ∃ f, x = .allocation a.program f ∧ a.program.Allocates f ∧ a.Reaches q f

/-- What clients were told, in order. -/
def told : List Entry := a.pool.told

/-- What the holder of a ticket is told of an allocation, if the holder is a client. -/
def telling? (ticket : Nat) (allocation : Fact) : Option Entry := do
  let t ← a.tickets[ticket]?
  let client ← t.client
  return .found client t.query allocation

/-- What a client is told when an event is handled, and under which ticket. -/
def tells? : Event → Option (Nat × Entry)
  | .announced (.witnessed ticket allocation) => (a.telling? ticket allocation).map (ticket, ·)
  | _ => none

/-- What clients were told of by the events that were handled, and under which tickets. -/
def tellings : List (Nat × Entry) := a.queue.taken.filterMap fun e => a.tells? e.2

def Subscribed (i : Nat) (subscription : Subscription FieldState) (listener : Nat) : Prop :=
  ∃ q e, a.pool.Has i q e ∧ (subscription, listener) ∈ e.solver.fields.subscriptions

/-- The calling contexts of the query are watched. -/
def Watched (q : Query) : Prop :=
  ∃ i e l, a.pool.Has i q e ∧ (.any, l) ∈ e.solver.calls.subscriptions

def FieldJoinAt (j : Nat) (access : FieldAccess) (x : FieldJoin) : Prop :=
  a.fieldJoins.toList[j]? = some (access, x)

def CallJoinAt (j : Nat) (k : Point × Point) (x : CallJoin) : Prop :=
  a.callJoins.toList[j]? = some (k, x)

/-- The action is this errand, with positions for queries and joins. -/
def Means : VisitAction → Errand → Prop
  | .importInto flow join source target connect, .importInto q access f g =>
    a.Index flow q ∧ (∃ x, a.FieldJoinAt join access x) ∧ source = .single f ∧
      target = .single g ∧ connect = decide (access.Connects f.var)
  | .flowAllocation join returned, .flowAllocation site returnSite v =>
    (∃ x, a.CallJoinAt join (site, returnSite) x) ∧ returned = v
  | .splice flow, .splice q => a.Index flow q
  | .baseAllocation join, .baseAllocation access => ∃ x, a.FieldJoinAt join access x
  | _, _ => False

/-- The state as a world. -/
def view : World where
  ways := a.program.ways
  facts := a.factsOf
  query := a.Knows
  started := a.Knows
  watched := a.Watched
  base access q := ∃ j x, a.FieldJoinAt j access x ∧ q ∈ x.bases
  flow access q := ∃ j x, a.FieldJoinAt j access x ∧ q ∈ x.flows
  visits q e state := ∃ (v : Nat) (x : Visitor), a.visitors[v]? = some x ∧ a.Index x.solver q ∧
    a.Means x.action e ∧ state ∈ x.visited
  callSite k := ∃ j x, a.CallJoinAt j k x
  returned k e := ∃ j x, a.CallJoinAt j k x ∧ e ∈ x.flows
  bypassed k e := ∃ j x, a.CallJoinAt j k x ∧ e ∈ x.bypasses

end Reading

/-! ## Growth -/

structure Grows (a b : Analysis) : Prop where
  program : b.program = a.program
  config : b.config = a.config
  entry : ∀ {i q e}, a.pool.Has i q e →
    ∃ e', b.pool.Has i q e' ∧ e.solver.Later e'.solver
  fieldListener : ∀ {l : Nat} {x}, a.fieldListeners[l]? = some x → b.fieldListeners[l]? = some x
  callListener : ∀ {l : Nat} {x}, a.callListeners[l]? = some x → b.callListeners[l]? = some x
  visitor : ∀ {v : Nat} {x}, a.visitors[v]? = some x → ∃ y, b.visitors[v]? = some y ∧ x.Sub y
  fieldJoin : ∀ {j access x}, a.FieldJoinAt j access x → ∃ y, b.FieldJoinAt j access y ∧ x.Sub y
  callJoin : ∀ {j k x}, a.CallJoinAt j k x → ∃ y, b.CallJoinAt j k y ∧ x.Sub y
  allocation : ∀ {q x}, x ∈ a.allocations.of q → x ∈ b.allocations.of q
  ticket : ∀ {k : Nat} {t}, a.tickets[k]? = some t → b.tickets[k]? = some t
  foreign : a.foreign ≤ b.foreign

variable {a b c : Analysis}

/-- What reaches a fact has a solver. -/
theorem Reaches.knows {q : Query} {f : Fact} (h : a.Reaches q f) : a.Knows q :=
  have ⟨i, e, he, _⟩ := h
  ⟨i, e, he⟩

theorem mem_allocationSites_iff {q x : Query} : x ∈ a.allocationSites q ↔ x.direction = .forward ∧
    ∃ i e, a.pool.Has i x e ∧ e.solver.reachesWithEmptyStack q.fact := by
  have forward {x : Query} : x.isForward ↔ x.direction = .forward := beq_iff_eq
  simp only [allocationSites, List.mem_map, List.mem_filter, Bool.and_eq_true, forward]
  constructor
  · rintro ⟨⟨x, s⟩, ⟨hs, forward, reaches⟩, rfl⟩
    obtain ⟨i, e, he, rfl⟩ := Pool.mem_toList_iff.1 hs
    exact ⟨forward, i, e, he, reaches⟩
  · rintro ⟨forward, i, e, he, reaches⟩
    exact ⟨(x, e.solver), ⟨Pool.mem_toList_iff.2 ⟨i, e, he, rfl⟩, forward, reaches⟩, rfl⟩

namespace Grows

theorem refl (a : Analysis) : Grows a a where
  program := rfl
  config := rfl
  entry h := ⟨_, h, .refl _⟩
  fieldListener := id
  callListener := id
  visitor h := ⟨_, h, rfl, rfl, rfl, fun _ => id⟩
  fieldJoin h := ⟨_, h, rfl, fun _ => id, fun _ => id, id⟩
  callJoin h := ⟨_, h, rfl, rfl, fun _ => id, fun _ => id⟩
  allocation := id
  ticket := id
  foreign := Nat.le_refl _

theorem trans (h : Grows a b) (h' : Grows b c) : Grows a c where
  program := h'.program.trans h.program
  config := h'.config.trans h.config
  entry he := by
    obtain ⟨e₁, h₁, l₁⟩ := h.entry he
    obtain ⟨e₂, h₂, l₂⟩ := h'.entry h₁
    exact ⟨e₂, h₂, l₁.trans l₂⟩
  fieldListener hl := h'.fieldListener (h.fieldListener hl)
  callListener hl := h'.callListener (h.callListener hl)
  visitor hv := by
    obtain ⟨y, hy, s⟩ := h.visitor hv
    obtain ⟨z, hz, s'⟩ := h'.visitor hy
    exact ⟨z, hz, s'.solver.trans s.solver, s'.listener.trans s.listener, s'.action.trans s.action,
      fun state hs => s'.visited state (s.visited state hs)⟩
  fieldJoin hj := by
    obtain ⟨y, hy, s⟩ := h.fieldJoin hj
    obtain ⟨z, hz, s'⟩ := h'.fieldJoin hy
    exact ⟨z, hz, s'.access.trans s.access, fun q hq => s'.base q (s.base q hq),
      fun q hq => s'.flow q (s.flow q hq), fun hv => s'.aliased (s.aliased hv)⟩
  callJoin hj := by
    obtain ⟨y, hy, s⟩ := h.callJoin hj
    obtain ⟨z, hz, s'⟩ := h'.callJoin hy
    exact ⟨z, hz, s'.site.trans s.site, s'.returnSite.trans s.returnSite,
      fun e he => s'.returned e (s.returned e he), fun e he => s'.bypassed e (s.bypassed e he)⟩
  allocation hx := h'.allocation (h.allocation hx)
  ticket ht := h'.ticket (h.ticket ht)
  foreign := h.foreign.trans h'.foreign

variable (g : Grows a b)
include g

theorem index {i : Nat} {q : Query} (h : a.Index i q) : b.Index i q :=
  have ⟨_, he⟩ := h
  have ⟨e', he', _⟩ := g.entry he
  ⟨e', he'⟩

theorem knows {q : Query} (h : a.Knows q) : b.Knows q := h.imp fun _ => g.index

theorem factsOf (q : Query) : (a.factsOf q).Sub (b.factsOf q) where
  field := fun _ ⟨i, _, he, h⟩ => have ⟨e', he', l⟩ := g.entry he; ⟨i, e', he', l.facts.field _ h⟩
  call := fun _ ⟨i, _, he, h⟩ => have ⟨e', he', l⟩ := g.entry he; ⟨i, e', he', l.facts.call _ h⟩
  pop := fun _ _ ⟨i, _, he, h⟩ => have ⟨e', he', l⟩ := g.entry he; ⟨i, e', he', l.facts.pop _ _ h⟩
  fieldFlow := fun _ _ ⟨i, _, he, h⟩ =>
    have ⟨e', he', l⟩ := g.entry he; ⟨i, e', he', l.facts.fieldFlow _ _ h⟩
  callFlow := fun _ _ ⟨i, _, he, h⟩ =>
    have ⟨e', he', l⟩ := g.entry he; ⟨i, e', he', l.facts.callFlow _ _ h⟩
  opened := fun _ ⟨i, _, he, h⟩ => have ⟨e', he', l⟩ := g.entry he; ⟨i, e', he', l.facts.opened _ h⟩
  productive := fun _ ⟨i, _, he, h⟩ =>
    have ⟨e', he', l⟩ := g.entry he; ⟨i, e', he', l.facts.productive _ h⟩

theorem reaches {q : Query} {f : Fact} (h : a.Reaches q f) : b.Reaches q f :=
  have ⟨i, _, he, hf⟩ := h
  have ⟨e', he', later⟩ := g.entry he
  ⟨i, e', he', later.reached f hf⟩

theorem carries {q : Query} {access : FieldAccess} (h : a.Carries q access) :
    b.Carries q access :=
  ⟨h.direction, g.reaches h.reaches⟩

theorem underlies {q : Query} {access : FieldAccess} (h : a.Underlies q access) :
    b.Underlies q access :=
  ⟨h.direction, g.reaches h.reaches, fun hk =>
    (g.factsOf q).field _ (h.held (hk.imp_right fun e => g.config ▸ e))⟩

theorem serves {q : Query} {f : Fact} {ticket : Nat} (h : a.Serves q f ticket) :
    b.Serves q f ticket :=
  have ⟨i, _, he, ht⟩ := h
  have ⟨e', he', later⟩ := g.entry he
  ⟨i, e', he', later.ticket _ ht⟩

theorem finds {q x : Query} (h : a.Finds q x) : b.Finds q x := by
  obtain ⟨f, hx, ha, hr⟩ := h
  refine ⟨f, ?_, ?_, g.reaches hr⟩
  · rw [g.program]
    exact hx
  · rw [g.program]
    exact ha

theorem subscribed {i : Nat} {subscription : Subscription FieldState} {l : Nat}
    (h : a.Subscribed i subscription l) : b.Subscribed i subscription l :=
  have ⟨q, _, he, hs⟩ := h
  have ⟨e', he', later⟩ := g.entry he
  ⟨q, e', he', later.fieldSubscription _ hs⟩

theorem isWatched {q : Query} (h : a.Watched q) : b.Watched q :=
  have ⟨i, _, l, he, hs⟩ := h
  have ⟨e', he', later⟩ := g.entry he
  ⟨i, e', l, he', later.callSubscription _ hs⟩

theorem means {action : VisitAction} {e : Errand} (h : a.Means action e) : b.Means action e := by
  cases action <;> cases e <;> try exact h.elim
  · obtain ⟨hi, ⟨x, hx⟩, h⟩ := h
    obtain ⟨y, hy, -⟩ := g.fieldJoin hx
    exact ⟨g.index hi, ⟨y, hy⟩, h⟩
  · obtain ⟨⟨x, hx⟩, h⟩ := h
    obtain ⟨y, hy, -⟩ := g.callJoin hx
    exact ⟨⟨y, hy⟩, h⟩
  · exact g.index h
  · obtain ⟨x, hx⟩ := h
    obtain ⟨y, hy, -⟩ := g.fieldJoin hx
    exact ⟨y, hy⟩

/-- The view of an analysis grows with it. -/
theorem view : a.view.Sub b.view where
  facts := g.factsOf
  query := g.knows
  started := g.knows
  watched := g.isWatched
  base := fun ⟨j, _, hj, hq⟩ => have ⟨y, hy, s⟩ := g.fieldJoin hj; ⟨j, y, hy, s.base _ hq⟩
  flow := fun ⟨j, _, hj, hq⟩ => have ⟨y, hy, s⟩ := g.fieldJoin hj; ⟨j, y, hy, s.flow _ hq⟩
  visits := fun ⟨v, _, hv, hi, hm, hs⟩ =>
    have ⟨y, hy, s⟩ := g.visitor hv
    ⟨v, y, hy, s.solver ▸ g.index hi, s.action ▸ g.means hm, s.visited _ hs⟩
  callSite := fun ⟨j, _, hj⟩ => have ⟨y, hy, _⟩ := g.callJoin hj; ⟨j, y, hy⟩
  returned := fun ⟨j, _, hj, he⟩ => have ⟨y, hy, s⟩ := g.callJoin hj; ⟨j, y, hy, s.returned _ he⟩
  bypassed := fun ⟨j, _, hj, he⟩ => have ⟨y, hy, s⟩ := g.callJoin hj; ⟨j, y, hy, s.bypassed _ he⟩

end Grows

end Analysis

end PointsTo
