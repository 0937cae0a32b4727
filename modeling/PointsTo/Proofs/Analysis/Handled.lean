import PointsTo.Proofs.Analysis.Growth

/-!
# What the handling of events leaves behind

Some records have consequences that are drawn as soon as the record is made: pairs of a base and a
flow, imported aliases, activations at call sites, the allocations that a query finds, the tickets of
the query, and the states a visitor has come to. `Extends` is growth that draws them for new records,
so it keeps `Complete` states complete. What the handler of an event does beyond that is `Handled`,
and it lasts while the analysis grows.
-/

namespace PointsTo

namespace Analysis

section Consequences

variable (a : Analysis)

/-- Aliases of the base are looked for and imported into the flow. -/
def Executed (access : FieldAccess) (base flow : Query) : Prop :=
  ∃ i j k x, a.Index i base ∧ a.FieldJoinAt j access x ∧ a.Index k flow ∧
    ∀ p ∈ access.imports a.program, ∃ l : Nat,
      a.fieldListeners[l]? = some (.importAliases j k p.1 p.2) ∧ a.Subscribed i .any l

/-- What reaches the variable next to the access in the base is imported into the flow. -/
structure Imports (access : FieldAccess) (base flow : Query) (p : Point × List Point) (v : Var) :
    Prop where
  isBase : a.view.base access base
  place : p ∈ access.imports a.program
  found : ∃ l q, (a.factsOf base).field ⟨.single ⟨p.1, v⟩, l, q⟩
  done : ∀ point ∈ p.2,
    a.view.visits base (.importInto flow access ⟨p.1, v⟩ ⟨point, v⟩) (.single ⟨p.1, v⟩) ∧
      (access.Connects v → (a.factsOf flow).callFlow access.fact ⟨point, v⟩)

/-- The variable is imported into the flow, from some base. -/
def Imported (access : FieldAccess) (flow : Query) (v : Var) : Prop :=
  ∃ base p, a.Imports access base flow p v

/-- No aliases were imported but such as the world lets in. -/
def Obeys (w : Realm) : Prop := ∀ access base flow p v,
  a.Imports access base flow p v → w.imports access base flow p v

/-- A variable that went past a call is unified with a value that came back. -/
structure Activated (returnSite : Point) (source : FlowSource) (bypassing : Query) (v : Var) :
    Prop where
  visits : a.view.visits bypassing (.splice source.query) (.single ⟨returnSite, v⟩)
  pop : source.state.isGenerated → (a.factsOf source.query).pop source.state ⟨returnSite, v⟩
  fieldFlow : (a.factsOf source.query).fieldFlow ⟨returnSite, source.returned⟩ ⟨returnSite, v⟩
  callFlow : (a.factsOf source.query).callFlow ⟨returnSite, source.returned⟩ ⟨returnSite, v⟩

/-- The alias was imported into the flow. -/
def HasAlias (access : FieldAccess) (flow : Query) (v : Var) : Prop :=
  ∃ j x, a.FieldJoinAt j access x ∧ v ∈ x.aliases.of flow

/-- A listener waits for the base of the access to be the seed itself. -/
def Awaits (q : Query) (access : FieldAccess) : Prop :=
  ∃ (i j l : Nat) (x : FieldJoin), a.Index i q ∧ a.FieldJoinAt j access x ∧
    a.fieldListeners[l]? = some (.baseAllocation j) ∧
    a.Subscribed i (.leaving (.single access.baseFact)) l

end Consequences

variable {a b c : Analysis}

namespace Grows

variable (g : Grows a b)
include g

theorem executed {access : FieldAccess} {base flow : Query} (h : a.Executed access base flow) :
    b.Executed access base flow := by
  obtain ⟨i, j, k, x, hi, hx, hk, h⟩ := h
  obtain ⟨y, hy, -⟩ := g.fieldJoin hx
  refine ⟨i, j, k, y, g.index hi, hy, g.index hk, fun p hp => ?_⟩
  obtain ⟨l, hl, hs⟩ := h p (g.program ▸ hp)
  exact ⟨l, g.fieldListener hl, g.subscribed hs⟩

theorem imports {access : FieldAccess} {base flow : Query} {p : Point × List Point} {v : Var}
    (h : a.Imports access base flow p v) : b.Imports access base flow p v where
  isBase := g.view.base h.isBase
  place := g.program.symm ▸ h.place
  found := by
    obtain ⟨l, state, ht⟩ := h.found
    exact ⟨l, state, (g.factsOf base).field _ ht⟩
  done point hm := (h.done point hm).imp g.view.visits fun connected hc =>
    (g.factsOf flow).callFlow _ _ (connected hc)

theorem imported {access : FieldAccess} {flow : Query} {v : Var} (h : a.Imported access flow v) :
    b.Imported access flow v :=
  have ⟨base, p, imports⟩ := h
  ⟨base, p, g.imports imports⟩

theorem obeys {w : Realm} (h : b.Obeys w) : a.Obeys w :=
  fun access base flow p v imports => h access base flow p v (g.imports imports)

theorem activated {returnSite : Point} {source : FlowSource} {bypassing : Query} {v : Var}
    (h : a.Activated returnSite source bypassing v) : b.Activated returnSite source bypassing v where
  visits := g.view.visits h.visits
  pop := fun hs => (g.factsOf _).pop _ _ (h.pop hs)
  fieldFlow := (g.factsOf _).fieldFlow _ _ h.fieldFlow
  callFlow := (g.factsOf _).callFlow _ _ h.callFlow

theorem hasAlias {access : FieldAccess} {flow : Query} {v : Var} (h : a.HasAlias access flow v) :
    b.HasAlias access flow v :=
  have ⟨j, _, hj, hv⟩ := h
  have ⟨y, hy, s⟩ := g.fieldJoin hj
  ⟨j, y, hy, s.aliased hv⟩

theorem awaits {q : Query} {access : FieldAccess} (h : a.Awaits q access) : b.Awaits q access :=
  have ⟨i, j, l, _, hi, hj, hl, hs⟩ := h
  have ⟨y, hy, _⟩ := g.fieldJoin hj
  ⟨i, j, l, y, g.index hi, hy, g.fieldListener hl, g.subscribed hs⟩

end Grows

/-- A world may let in all aliases. -/
theorem obeys_of_open {w : Realm}
    (all : ∀ access base flow p v, w.imports access base flow p v) : a.Obeys w :=
  fun access base flow p v _ => all access base flow p v

/-! ## Consequences drawn at once -/

/-- Growth that draws the consequences of new records. -/
structure Extends (a b : Analysis) : Prop extends Grows a b where
  newPair : ∀ {access base flow}, b.view.base access base → b.view.flow access flow →
    a.view.base access base ∧ a.view.flow access flow ∨ b.Executed access base flow
  newAlias : ∀ {access flow v}, b.HasAlias access flow v →
    a.HasAlias access flow v ∨ b.Imported access flow v
  newActivation : ∀ {k source bypassing v}, b.view.returned k (source, bypassing) →
    b.view.bypassed k (bypassing, v) → source.query ≠ bypassing →
      a.view.returned k (source, bypassing) ∧ a.view.bypassed k (bypassing, v) ∨
        b.Activated k.2 source bypassing v
  newAllocation : ∀ {q x}, x ∈ b.allocations.of q →
    x ∈ a.allocations.of q ∨ b.Knows x ∧ b.Finds q x
  newTicket : ∀ {q x client} {k : Nat}, x ∈ b.allocations.of q →
    b.tickets[k]? = some ⟨q, client⟩ →
      x ∈ a.allocations.of q ∧ a.tickets[k]? = some ⟨q, client⟩ ∨ b.Serves x q.fact k
  newVisited : ∀ {v : Nat} {y : Visitor}, b.visitors[v]? = some y → ∀ state ∈ y.visited,
    (∃ x : Visitor, a.visitors[v]? = some x ∧ state ∈ x.visited) ∨
      b.Subscribed y.solver (.leaving state) y.listener

/-- The consequences of all records are drawn. -/
structure Complete (a : Analysis) : Prop where
  pair : ∀ {access base flow}, a.view.base access base → a.view.flow access flow →
    a.Executed access base flow
  alias' : ∀ {access flow v}, a.HasAlias access flow v → a.Imported access flow v
  activation : ∀ {k source bypassing v}, a.view.returned k (source, bypassing) →
    a.view.bypassed k (bypassing, v) → source.query ≠ bypassing →
      a.Activated k.2 source bypassing v
  allocation : ∀ {q x}, x ∈ a.allocations.of q → a.Knows x ∧ a.Finds q x
  ticket : ∀ {q x client} {k : Nat}, x ∈ a.allocations.of q → a.tickets[k]? = some ⟨q, client⟩ →
    a.Serves x q.fact k
  visited : ∀ {v : Nat} {x : Visitor}, a.visitors[v]? = some x → ∀ state ∈ x.visited,
    a.Subscribed x.solver (.leaving state) x.listener

theorem Extends.refl (a : Analysis) : Extends a a where
  toGrows := .refl a
  newPair hb hf := .inl ⟨hb, hf⟩
  newAlias := .inl
  newActivation hr hb _ := .inl ⟨hr, hb⟩
  newAllocation := .inl
  newTicket hx ht := .inl ⟨hx, ht⟩
  newVisited hv _ hs := .inl ⟨_, hv, hs⟩

theorem Extends.trans (h : Extends a b) (h' : Extends b c) : Extends a c where
  toGrows := h.toGrows.trans h'.toGrows
  newPair hb hf := (h'.newPair hb hf).elim
    (fun ⟨hb, hf⟩ => (h.newPair hb hf).imp_right h'.executed) .inr
  newAlias hv := (h'.newAlias hv).elim (fun hv => (h.newAlias hv).imp_right h'.imported) .inr
  newActivation hr hb hne := (h'.newActivation hr hb hne).elim
    (fun ⟨hr, hb⟩ => (h.newActivation hr hb hne).imp_right h'.activated) .inr
  newAllocation hx := (h'.newAllocation hx).elim
    (fun hx => (h.newAllocation hx).imp_right (.imp h'.knows h'.finds)) .inr
  newTicket hx ht := (h'.newTicket hx ht).elim
    (fun ⟨hx, ht⟩ => (h.newTicket hx ht).imp_right h'.serves) .inr
  newVisited {v y} hy state hs := (h'.newVisited hy state hs).elim
    (fun ⟨x, hx, hs⟩ => by
      obtain ⟨y', hy', sub⟩ := h'.visitor hx
      obtain rfl := Option.some.inj (hy.symm.trans hy')
      rw [sub.solver, sub.listener]
      exact (h.newVisited hx state hs).imp_right h'.subscribed) .inr

theorem Complete.extend (h : Complete a) (e : Extends a b) : Complete b where
  pair hb hf := (e.newPair hb hf).elim (fun ⟨hb, hf⟩ => e.executed (h.pair hb hf)) id
  alias' hv := (e.newAlias hv).elim (fun hv => e.imported (h.alias' hv)) id
  activation hr hb hne := (e.newActivation hr hb hne).elim
    (fun ⟨hr, hb⟩ => e.activated (h.activation hr hb hne)) id
  allocation hx := (e.newAllocation hx).elim
    (fun hx => (h.allocation hx).imp e.knows e.finds) id
  ticket hx ht := (e.newTicket hx ht).elim (fun ⟨hx, ht⟩ => e.serves (h.ticket hx ht)) id
  visited {v y} hy state hs := (e.newVisited hy state hs).elim
    (fun ⟨x, hx, hs⟩ => by
      obtain ⟨y', hy', sub⟩ := e.visitor hx
      obtain rfl := Option.some.inj (hy.symm.trans hy')
      rw [sub.solver, sub.listener]
      exact e.subscribed (h.visited hx state hs)) id

theorem fieldJoinAt_congr (h : b.fieldJoins = a.fieldJoins) {j : Nat} {access : FieldAccess}
    {x : FieldJoin} : b.FieldJoinAt j access x ↔ a.FieldJoinAt j access x := by
  rw [FieldJoinAt, FieldJoinAt, h]

theorem callJoinAt_congr (h : b.callJoins = a.callJoins) {j : Nat} {k : Point × Point}
    {x : CallJoin} : b.CallJoinAt j k x ↔ a.CallJoinAt j k x := by
  rw [CallJoinAt, CallJoinAt, h]

/-- Growth that leaves joins, allocations, tickets and visitors alone. -/
theorem Grows.extend (g : Grows a b) (fieldJoins : b.fieldJoins = a.fieldJoins)
    (callJoins : b.callJoins = a.callJoins) (allocations : b.allocations = a.allocations)
    (tickets : b.tickets = a.tickets)
    (visited : ∀ {v : Nat} {y : Visitor}, b.visitors[v]? = some y → ∀ state ∈ y.visited,
      (∃ x : Visitor, a.visitors[v]? = some x ∧ state ∈ x.visited) ∨
        b.Subscribed y.solver (.leaving state) y.listener) : Extends a b where
  toGrows := g
  newPair := fun ⟨j, x, hj, hb⟩ ⟨k, y, hk, hf⟩ =>
    .inl ⟨⟨j, x, (fieldJoinAt_congr fieldJoins).1 hj, hb⟩,
      ⟨k, y, (fieldJoinAt_congr fieldJoins).1 hk, hf⟩⟩
  newAlias := fun ⟨j, x, hj, hv⟩ => .inl ⟨j, x, (fieldJoinAt_congr fieldJoins).1 hj, hv⟩
  newActivation := fun ⟨j, x, hj, hr⟩ ⟨k, y, hk, hb⟩ _ =>
    .inl ⟨⟨j, x, (callJoinAt_congr callJoins).1 hj, hr⟩,
      ⟨k, y, (callJoinAt_congr callJoins).1 hk, hb⟩⟩
  newAllocation := by
    rw [allocations]
    exact .inl
  newTicket := by
    rw [allocations, tickets]
    exact fun hx ht => .inl ⟨hx, ht⟩
  newVisited := visited

/-! ## Events -/

/-- What is left behind by the handling of a fact that a query reaches. -/
structure Reached (a : Analysis) (q : Query) (f : Fact) : Prop where
  allocation : q.direction = .backward → a.program.Allocates f →
    .allocation a.program f ∈ a.allocations.of q ∧ a.Knows (.allocation a.program f) ∧
      a.Watched (.allocation a.program f)
  value : ∀ {access : FieldAccess}, q.direction = access.direction → a.program.Accesses access →
    access.fact = f → a.Knows (.backward access.baseFact) ∧ a.view.flow access q
  writeBase : ∀ {access : FieldAccess}, q.direction = .forward → a.program.Accesses access →
    access.kind = .write ∨ a.config.readBaseRule = .emptyFieldOnly → access.baseFact = f →
      a.Awaits q access
  readBase : ∀ {access : FieldAccess}, q.direction = .forward → a.program.Accesses access →
    access.kind = .read → a.config.readBaseRule = .seedTransition → access.baseFact = f →
      a.view.visits q (.baseAllocation access) (.single f)

/-- What is left behind when a listener for field transitions of a query has heard of one. -/
def Heard (a : Analysis) (q : Query) (t : FieldTransition) : FieldListener → Prop
  | .baseAllocation j => ∃ access x, a.FieldJoinAt j access x ∧
    (t.target = .alloc q.fact → t.label = .epsilon → a.view.base access q)
  | .importAliases j k point _ => ∃ access x flow, a.FieldJoinAt j access x ∧ a.Index k flow ∧
    ∀ {v}, t.start = .single ⟨point, v⟩ → a.HasAlias access flow v
  | .visit v => ∃ (y : Visitor) (e : Errand), a.visitors[v]? = some y ∧ a.Means y.action e ∧
    t.target ∈ y.visited ∧ a.view.Acts a.program q t e

/-- What is left behind by the handling of an event. -/
def Handled (a : Analysis) (q : Query) : Event → Prop
  | .reached f => a.Reached q f
  | .fieldTransition l t => ∃ x, a.fieldListeners[l]? = some x ∧ a.Heard q t x
  | .callTransition _ t => ∀ {v point}, t.target = .generated v point →
    (a.factsOf q).opened point.method
  | .announced (.returned site f) =>
    a.view.visits q (.flowAllocation site f.point f.var) (.single f)
  | .announced (.bypassed site returnSite v) => a.view.bypassed (site, returnSite) (q, v)
  | .announced (.witnessed ticket _) => ∃ t, a.tickets[ticket]? = some t

theorem Grows.reached (g : Grows a b) {q : Query} {f : Fact} (h : a.Reached q f) : b.Reached q f where
  allocation hd hf := by
    rw [g.program] at hf ⊢
    exact (h.allocation hd hf).imp g.allocation (.imp g.knows g.isWatched)
  value hd hac hf := (h.value hd (g.program ▸ hac) hf).imp g.knows g.view.flow
  writeBase hd hac hk hf := g.awaits (h.writeBase hd (g.program ▸ hac) (g.config ▸ hk) hf)
  readBase hd hac hk hr hf := g.view.visits (h.readBase hd (g.program ▸ hac) hk (g.config ▸ hr) hf)

theorem Grows.heard (g : Grows a b) {q : Query} {t : FieldTransition} {x : FieldListener}
    (h : a.Heard q t x) : b.Heard q t x := by
  cases x with
  | baseAllocation j =>
    obtain ⟨access, x, hx, h⟩ := h
    obtain ⟨y, hy, -⟩ := g.fieldJoin hx
    exact ⟨access, y, hy, fun ht hl => g.view.base (h ht hl)⟩
  | importAliases j k point points =>
    obtain ⟨access, x, flow, hx, hk, h⟩ := h
    obtain ⟨y, hy, -⟩ := g.fieldJoin hx
    exact ⟨access, y, flow, hy, g.index hk, fun hs => g.hasAlias (h hs)⟩
  | visit v =>
    obtain ⟨x, e, hx, he, ht, h⟩ := h
    obtain ⟨y, hy, s⟩ := g.visitor hx
    refine ⟨y, e, hy, s.action ▸ g.means he, s.visited _ ht, ?_⟩
    rw [g.program]
    exact h.mono g.view

theorem Grows.handled (g : Grows a b) {q : Query} {event : Event} (h : a.Handled q event) :
    b.Handled q event := by
  cases event with
  | reached f => exact g.reached h
  | fieldTransition l t =>
    obtain ⟨x, hx, h⟩ := h
    exact ⟨x, g.fieldListener hx, g.heard h⟩
  | callTransition l t => exact fun ht => (g.factsOf q).opened _ (h ht)
  | announced announcement =>
    cases announcement with
    | returned site f => exact g.view.visits h
    | bypassed site returnSite v => exact g.view.bypassed h
    | witnessed ticket seed => exact h.imp fun _ => g.ticket

/-- What a client was told when an event was handled does not change. -/
theorem Grows.tells? (g : Grows a b) {q : Query} {event : Event} (h : a.Handled q event) :
    b.tells? event = a.tells? event := by
  cases event with
  | announced announcement =>
    cases announcement with
    | witnessed ticket seed =>
      obtain ⟨t, ht⟩ := h
      simp only [Analysis.tells?, telling?, ht, g.ticket ht]
    | _ => rfl
  | _ => rfl

/-- Events that were handled tell the same later. -/
theorem Grows.filterMap_tells? (g : Grows a b) {events : List (Nat × Event)}
    (handled : ∀ e ∈ events, ∃ q, a.Handled q e.2) :
    (events.filterMap fun e => b.tells? e.2) = events.filterMap fun e => a.tells? e.2 := by
  refine List.filterMap_congr fun e he => ?_
  obtain ⟨q, done⟩ := handled e he
  exact g.tells? done

end Analysis

end PointsTo
