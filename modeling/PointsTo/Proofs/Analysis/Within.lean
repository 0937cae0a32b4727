import PointsTo.Proofs.Analysis.Handled
import PointsTo.Proofs.Program.Edges

/-!
# Staying inside a closed realm

`Within w a` says that everything the analysis knows lies in the world, that each listener has a
reason to listen, and that the tables fit together. The small changes of which the handlers are made
keep this (`Proceeds`), and so do the handlers, which draw the consequences of what they record
(`Advances`).

Each new listener is paid for by what the joins record (`credit`), up to a number of listeners and
tickets that `Proceeds` counts.
-/

namespace PointsTo

variable {w : Realm} {p : Program} {q : Query} {e e' : PoolEntry}

/-- The solver of a query stays inside a world, and its propagation has begun. Only a reversed query
may have begun elsewhere. -/
structure Hosts (w : Realm) (p : Program) (q : Query) (e : PoolEntry) : Prop where
  query : w.query q
  seed : e.solver.seed = q.fact
  direction : e.solver.direction = q.direction
  graph : e.solver.graph = ⟨p, q.direction⟩
  tidy : e.Tidy
  resting : e.solver.Resting
  below : e.solver.Below (w.ways q.direction) (w.facts q)
  started : e.started
  opened : e.solver.facts.opened q.fact.point.method
  productive : e.solver.facts.productive (.alloc q.fact)
  begun : ¬ w.reversed q → ∀ next ∈ (⟨p, q.direction⟩ : Supergraph).successors q.fact.point,
    (Operation.solve ⟨next, q.fact.var⟩).Grants q.fact e.solver.facts

theorem Hosts.revised {config : Config} {cs : List Change} (h : Hosts w p q e)
    (hw : w.Closed p config) (r : e.Revised cs e')
    (grants : ∀ c ∈ cs, c.Grants q.fact (w.facts q)) : Hosts w p q e' where
  query := h.query
  seed := r.alters.seed.trans h.seed
  direction := r.alters.direction.trans h.direction
  graph := r.alters.graph.trans h.graph
  tidy := r.tidy h.tidy
  resting := r.alters.resting
  below := by
    refine r.alters.below ?_ (hw.facts h.query) (fun c hc => ?_) h.below
    · rw [h.direction, h.graph]
      exact (hw.covers q.direction).upTo _
    · rw [h.seed]
      exact grants c hc
  started := r.started.trans h.started
  opened := r.alters.facts.opened _ h.opened
  productive := r.alters.facts.productive _ h.productive
  begun := fun hq next hn => (h.begun hq next hn).mono r.alters.facts

theorem Hosts.mono {w' : Realm} (h : Hosts w p q e) (sub : w.Sub w') (ways : w'.ways = w.ways) :
    Hosts w' p q e := { h with
  query := sub.query h.query
  below := by
    rw [ways]
    exact h.below.mono id id (sub.facts q) h.below.obeys
  begun := fun hq => h.begun fun hr => hq (sub.reversed hr) }

/-! ## Reasons and records -/

namespace Analysis

section Reasons

variable (w : Realm) (a : Analysis)

/-- Why a listener is subscribed to the field transitions of a query. -/
def Justified (q : Query) (subscription : Subscription FieldState) (l : Nat) :
    FieldListener → Prop
  | .baseAllocation j => ∃ access x, a.FieldJoinAt j access x ∧
    subscription = .leaving (.single access.baseFact) ∧ q.direction = .forward ∧
    (access.kind = .write ∨ a.config.readBaseRule = .emptyFieldOnly) ∧
    a.Reaches q access.baseFact
  | .importAliases j k point points => ∃ access x flow, a.FieldJoinAt j access x ∧
    a.Index k flow ∧ subscription = .any ∧ (point, points) ∈ access.imports a.program ∧
    q ∈ x.bases ∧ flow ∈ x.flows
  | .visit v => ∃ (y : Visitor) (state : FieldState), a.visitors[v]? = some y ∧ y.listener = l ∧
    a.Index y.solver q ∧ subscription = .leaving state ∧ state ∈ y.visited

/-- Why a query is sent on an errand. What it reaches under any access path is a base only of reads,
and only if the configuration says so. -/
def Sends (q : Query) : Errand → Prop
  | .baseAllocation access => q.direction = .forward ∧ access.kind = .read ∧
    a.config.readBaseRule = .seedTransition ∧ a.Reaches q access.baseFact
  | _ => True

/-- A visitor does an errand of the world. -/
structure Guided (v : Nat) (y : Visitor) : Prop where
  hears : a.fieldListeners[y.listener]? = some (.visit v)
  errand : ∃ q e, a.Index y.solver q ∧ a.Means y.action e ∧ a.Sends q e ∧
    ∀ state ∈ y.visited, w.visits q e state

structure JoinsField (access : FieldAccess) (x : FieldJoin) : Prop where
  same : x.access = access
  accesses : a.program.Accesses access
  base : ∀ q ∈ x.bases, w.base access q ∧ a.Underlies q access
  flow : ∀ q ∈ x.flows, w.flow access q ∧ a.Carries q access

structure JoinsCall (k : Point × Point) (x : CallJoin) : Prop where
  site : x.site = k.1
  returnSite : x.returnSite = k.2
  callSite : w.callSite k
  returned : ∀ e ∈ x.flows, w.returned k e ∧ a.Knows e.1.query
  bypassed : ∀ e ∈ x.bypasses, w.bypassed k e ∧ a.Knows e.1

/-- The query owes an answer to a ticket, as it is an allocation that the holder has found. -/
def Owes (q : Query) (t : Fact × Nat) : Prop :=
  ∃ holder client, a.tickets[t.2]? = some ⟨holder, client⟩ ∧ holder.fact = t.1 ∧
    q ∈ a.allocations.of holder

/-- Everything the analysis knows lies in a closed world. -/
structure Within : Prop where
  closed : w.Closed a.program a.config
  host : ∀ {i q e}, a.pool.Has i q e → Hosts w a.program q e
  listener : ∀ {i q e}, a.pool.Has i q e → ∀ s ∈ e.solver.fields.subscriptions,
    ∃ x, a.fieldListeners[s.2]? = some x ∧ a.Justified q s.1 s.2 x
  nodup : ∀ {i q e}, a.pool.Has i q e → e.solver.fields.subscriptions.Nodup
  ticket : ∀ {i q e}, a.pool.Has i q e → ∀ t ∈ e.solver.tickets, a.Owes q t
  watcher : ∀ {i q e}, a.pool.Has i q e → e.solver.calls.subscriptions = [] ∨
    ∃ l : Nat, e.solver.calls.subscriptions = [(.any, l)] ∧
      a.callListeners[l]? = some .unbalancedFlow ∧ w.watched q ∧ i ∈ a.watched
  watched : ∀ i ∈ a.watched, ∃ q e l, a.pool.Has i q e ∧ (.any, l) ∈ e.solver.calls.subscriptions
  visitor : ∀ {v : Nat} {y : Visitor}, a.visitors[v]? = some y → a.Guided w v y
  fieldJoin : ∀ {j access x}, a.FieldJoinAt j access x → a.JoinsField w access x
  callJoin : ∀ {j k x}, a.CallJoinAt j k x → a.JoinsCall w k x

end Reasons

variable {a b c : Analysis}

namespace Grows

variable (g : Grows a b)
include g

theorem justified {s : Subscription FieldState} {l : Nat} {x : FieldListener}
    (h : a.Justified q s l x) : b.Justified q s l x := by
  cases x with
  | baseAllocation j =>
    obtain ⟨access, x, hx, hs, hd, hk, hf⟩ := h
    obtain ⟨y, hy, -⟩ := g.fieldJoin hx
    exact ⟨access, y, hy, hs, hd, g.config ▸ hk, g.reaches hf⟩
  | importAliases j k point points =>
    obtain ⟨access, x, flow, hx, hk, hs, hp, hb, hf⟩ := h
    obtain ⟨y, hy, s⟩ := g.fieldJoin hx
    exact ⟨access, y, flow, hy, g.index hk, hs, g.program ▸ hp, s.base _ hb, s.flow _ hf⟩
  | visit v =>
    obtain ⟨y, state, hy, hl, hi, hs, hm⟩ := h
    obtain ⟨z, hz, s⟩ := g.visitor hy
    exact ⟨z, state, hz, s.listener.trans hl, s.solver ▸ g.index hi, hs, s.visited _ hm⟩

theorem owes {t : Fact × Nat} (h : a.Owes q t) : b.Owes q t :=
  have ⟨holder, client, ht, hf, hq⟩ := h
  ⟨holder, client, g.ticket ht, hf, g.allocation hq⟩

theorem sends {e : Errand} (h : a.Sends q e) : b.Sends q e := by
  cases e with
  | baseAllocation access =>
    obtain ⟨hd, hk, hr, hf⟩ := h
    exact ⟨hd, hk, g.config ▸ hr, g.reaches hf⟩
  | _ => trivial

theorem guided {v : Nat} {y : Visitor} (h : a.Guided w v y) : b.Guided w v y where
  hears := g.fieldListener h.hears
  errand := by
    obtain ⟨q, e, hi, hm, hs, hv⟩ := h.errand
    exact ⟨q, e, g.index hi, g.means hm, g.sends hs, hv⟩

theorem joinsField {access : FieldAccess} {x : FieldJoin} (h : a.JoinsField w access x) :
    b.JoinsField w access x where
  same := h.same
  accesses := g.program.symm ▸ h.accesses
  base q hq := (h.base q hq).imp_right g.underlies
  flow q hq := (h.flow q hq).imp_right g.carries

theorem joinsCall {k : Point × Point} {x : CallJoin} (h : a.JoinsCall w k x) :
    b.JoinsCall w k x where
  site := h.site
  returnSite := h.returnSite
  callSite := h.callSite
  returned q hq := (h.returned q hq).imp_right g.knows
  bypassed q hq := (h.bypassed q hq).imp_right g.knows

end Grows

end Analysis

/-! ## What joins pay for -/

/-- The listeners for pairs and aliases of the join, for each point they are imported to. -/
def FieldJoin.weight (x : FieldJoin) : Nat :=
  x.bases.size * x.flows.size + (x.flows.toList.map fun q => (x.aliases.of q).length).sum

/-- The listeners for activations of the join. -/
def CallJoin.weight (x : CallJoin) : Nat := x.flows.size * x.bypasses.size

namespace Analysis

variable {a b c : Analysis}

/-- How many listeners there may be because of what the joins have recorded. -/
def credit (a : Analysis) : Nat :=
  a.program.extent * (a.fieldJoins.toList.map (·.2.weight)).sum +
    (a.callJoins.toList.map (·.2.weight)).sum

/-- How many listeners and tickets there are that no join pays for. -/
def balance (a : Analysis) : Int := a.fieldListeners.size + a.tickets.size - a.credit

theorem balance_congr (program : b.program = a.program)
    (listeners : b.fieldListeners = a.fieldListeners) (fieldJoins : b.fieldJoins = a.fieldJoins)
    (callJoins : b.callJoins = a.callJoins) (tickets : b.tickets = a.tickets) :
    b.balance = a.balance := by
  rw [balance, balance, credit, credit, program, listeners, fieldJoins, callJoins, tickets]

theorem Within.keep (h : a.Within w) (g : Grows a b)
    (has : ∀ {i q e}, b.pool.Has i q e ↔ a.pool.Has i q e) (watched : b.watched = a.watched)
    (visitor : ∀ {v : Nat} {y : Visitor}, b.visitors[v]? = some y →
      a.visitors[v]? = some y ∨ b.Guided w v y)
    (fieldJoin : ∀ {j access y}, b.FieldJoinAt j access y →
      a.FieldJoinAt j access y ∨ b.JoinsField w access y)
    (callJoin : ∀ {j k y}, b.CallJoinAt j k y → a.CallJoinAt j k y ∨ b.JoinsCall w k y) :
    b.Within w where
  closed := by
    rw [g.program, g.config]
    exact h.closed
  host he := g.program.symm ▸ h.host (has.1 he)
  listener he s hs := (h.listener (has.1 he) s hs).imp fun _ hx =>
    ⟨g.fieldListener hx.1, g.justified hx.2⟩
  nodup he := h.nodup (has.1 he)
  ticket he t ht := g.owes (h.ticket (has.1 he) t ht)
  watcher he := (h.watcher (has.1 he)).imp_right fun ⟨l, hs, hl, hw, hi⟩ =>
    ⟨l, hs, g.callListener hl, hw, watched ▸ hi⟩
  watched i hi := by
    obtain ⟨q, e, l, he, hs⟩ := h.watched i (watched ▸ hi)
    exact ⟨q, e, l, has.2 he, hs⟩
  visitor hv := (visitor hv).elim (fun hv => g.guided (h.visitor hv)) id
  fieldJoin hj := (fieldJoin hj).elim (fun hj => g.joinsField (h.fieldJoin hj)) id
  callJoin hj := (callJoin hj).elim (fun hj => g.joinsCall (h.callJoin hj)) id

/-- An analysis stays inside a world that becomes larger. -/
theorem Within.mono {w' : Realm} (h : a.Within w) (sub : w.Sub w') (ways : w'.ways = w.ways)
    (closed : w'.Closed a.program a.config) : a.Within w' where
  closed := closed
  host he := (h.host he).mono sub ways
  listener := h.listener
  nodup := h.nodup
  ticket := h.ticket
  watcher he := (h.watcher he).imp_right fun ⟨l, hs, hl, hw, hi⟩ => ⟨l, hs, hl, sub.watched hw, hi⟩
  watched := h.watched
  visitor hv := by
    obtain ⟨hears, q, e, hi, means, sends, visits⟩ := h.visitor hv
    exact ⟨hears, q, e, hi, means, sends, fun state hs => sub.visits (visits state hs)⟩
  fieldJoin hj :=
    have joins := h.fieldJoin hj
    { joins with
      base := fun q hq => (joins.base q hq).imp_left sub.base
      flow := fun q hq => (joins.flow q hq).imp_left sub.flow }
  callJoin hj :=
    have joins := h.callJoin hj
    { joins with
      callSite := sub.callSite joins.callSite
      returned := fun e he => (joins.returned e he).imp_left sub.returned
      bypassed := fun e he => (joins.bypassed e he).imp_left sub.bypassed }

/-! ## Ways on -/

/-- The analysis has grown inside a world, by at most `k` listeners and tickets that no join pays
for. -/
structure Proceeds (w : Realm) (k : Int) (a b : Analysis) : Prop extends Grows a b where
  within : b.Within w
  queue : b.queue = a.queue
  delivered : b.pool.delivered = a.pool.delivered
  told : b.told = a.told
  balance : b.balance ≤ a.balance + k

/-- The analysis proceeds and has drawn the consequences of what it recorded. -/
structure Advances (w : Realm) (k : Int) (a b : Analysis) : Prop extends
    Proceeds w k a b, Extends a b where
  /-- No visitor has come to another state. -/
  kept : ∀ {v : Nat} {y : Visitor}, a.visitors[v]? = some y → b.visitors[v]? = some y

variable {k l : Int}

theorem Proceeds.trans (h : Proceeds w k a b) (h' : Proceeds w l b c) :
    Proceeds w (k + l) a c where
  toGrows := h.toGrows.trans h'.toGrows
  within := h'.within
  queue := h'.queue.trans h.queue
  delivered := h'.delivered.trans h.delivered
  told := h'.told.trans h.told
  balance := by have := h.balance; have := h'.balance; omega

theorem Proceeds.weaken (h : Proceeds w k a b) (le : k ≤ l) : Proceeds w l a b :=
  { h with balance := by have := h.balance; omega }

theorem Proceeds.advances (h : Proceeds w k a b)
    (kept : ∀ {v : Nat} {y : Visitor}, a.visitors[v]? = some y → b.visitors[v]? = some y)
    (e : Extends a b) : Advances w k a b :=
  { h, e with kept }

theorem Advances.trans (h : Advances w k a b) (h' : Advances w l b c) :
    Advances w (k + l) a c :=
  (h.toProceeds.trans h'.toProceeds).advances (fun hv => h'.kept (h.kept hv))
    (h.toExtends.trans h'.toExtends)

theorem Advances.weaken (h : Advances w k a b) (le : k ≤ l) : Advances w l a b :=
  (h.toProceeds.weaken le).advances h.kept h.toExtends

theorem Within.proceeds_refl (h : a.Within w) : Proceeds w 0 a a where
  toGrows := .refl a
  within := h
  queue := rfl
  delivered := rfl
  told := rfl
  balance := by omega

theorem Within.advances_refl (h : a.Within w) : Advances w 0 a a :=
  h.proceeds_refl.advances id (.refl a)

end Analysis

end PointsTo
