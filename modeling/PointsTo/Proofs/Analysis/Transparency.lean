import PointsTo.Proofs.Analysis.Agreement
import PointsTo.Proofs.Analysis.Aliases
import PointsTo.Proofs.Analysis.Copies
import PointsTo.Proofs.Program.Relays

/-!
# Queries on both sides of a `nop`

A `nop` changes no variable, so a backward query asked at the `nop` should find the allocation sites of
one that is asked at the next point. It does (`relays_allocationSites`) if classes need not be known to
resolve calls, no variable is an alias of two bases, no instruction exchanges the variable at the next
point, and callers hand nothing to the variable at the `nop`. Each of the two analyses stays inside a
world made of the other (`World.before`, `World.after`). That the query at the next point finds no more
needs a look at what a closed world may leave out: forward everything comes to the next point from
the `nop`, and backward nothing comes to the `nop` by itself (`World.through`).

The answers may differ where the next point exchanges the variable (`unpacking_differs`). A query at
the `nop` with which a method begins does not get to the callers, and misses what they hand over
(`handedOver_differs`).
-/

namespace PointsTo

variable {p : Program} {config : Config} {n s : Point} {v : Var} {x y : Fact} {G : Facts}

/-! ## What goes through the two points -/

theorem Fact.eq_of_state {f g : Fact} (var : CallState.single f.var = .single g.var)
    (point : f.point = g.point) : f = g := by
  obtain ⟨_, _⟩ := f
  obtain ⟨_, _⟩ := g
  cases var
  cases point
  rfl

namespace Facts

/-- What is known forward if whatever holds at `y` holds at `x`. Neither is at the end of a path. -/
def forwardThrough (x y : Fact) (G : Facts) : Facts :=
  { G with
    field := fun t => G.field t ∧ t.target ≠ .single x ∧ t.target ≠ .single y ∧
      (t.start = .single y → G.field { t with start := .single x })
    call := fun t => G.call t ∧ (t.start = .single y.var → t.label = y.point → G.enters x t.target)
    pop := fun state f => G.pop state f ∧ f ≠ y
    fieldFlow := fun f g => G.fieldFlow f g ∧ g ≠ y
    callFlow := fun f g => G.callFlow f g ∧ g ≠ y }

/-- What is known backward if nothing holds at `x` unless control comes there, and nothing is found
from there. -/
def backwardThrough (x : Fact) (G : Facts) : Facts :=
  { G with
    field := fun t => G.field t ∧ t.target ≠ .single x ∧ (t.start = .single x → G.live x)
    pop := fun state f => G.pop state f ∧ state ≠ .single x ∧ (f = x → G.live x)
    fieldFlow := fun _ _ => False
    callFlow := fun f g => G.callFlow f g ∧ f ≠ x }

theorem forwardThrough_sub : (G.forwardThrough x y).Sub G :=
  ⟨fun _ => And.left, fun _ => And.left, fun _ _ => And.left, fun _ _ => And.left, fun _ _ => And.left,
    fun _ => id, fun _ => id⟩

theorem backwardThrough_sub : (G.backwardThrough x).Sub G :=
  ⟨fun _ => And.left, fun _ => id, fun _ _ => And.left, fun _ _ => False.elim, fun _ _ => And.left,
    fun _ => id, fun _ => id⟩

variable (relays : p.Relays n s v)
include relays

theorem forwardThrough_closed (h : G.Closed (p.ways .forward)) :
    (G.forwardThrough ⟨n, v⟩ ⟨s, v⟩).Closed (p.ways .forward) where
  keep hl hr e ht := by
    refine ⟨h.keep (forwardThrough_sub.live hl) hr e ht.1, ht.2.1, ht.2.2.1, fun into => ?_⟩
    obtain ⟨rfl, -, -⟩ := relays.rule_into hr (FieldState.single.inj into)
    exact ht.1
  push hl hr e ht := by
    obtain ⟨top, rest⟩ := h.push (forwardThrough_sub.live hl) hr e ht.1
    refine ⟨⟨top, nofun, nofun, fun into => ?_⟩, rest, ht.2.1, ht.2.2.1, nofun⟩
    obtain ⟨-, keep, -⟩ := relays.rule_into hr (FieldState.single.inj into)
    cases keep.symm.trans e
  pop hl hr e ht := by
    refine ⟨h.pop (forwardThrough_sub.live hl) hr e ht.1, fun into => ?_⟩
    obtain ⟨-, keep, -⟩ := relays.rule_into hr into
    cases keep.symm.trans e
  takeOver hp ht :=
    ⟨h.takeOver hp.1 ht.1, ht.2.1, ht.2.2.1, fun into => absurd (FieldState.single.inj into) hp.2⟩
  fieldFlow hg ht :=
    ⟨h.fieldFlow hg.1 ht.1, ht.2.1, ht.2.2.1, fun into => absurd (FieldState.single.inj into) hg.2⟩
  stay he hr e := by
    refine ⟨h.stay he.1 hr e, fun var point => ?_⟩
    obtain ⟨rfl, -, -⟩ := relays.rule_into hr (Fact.eq_of_state var point)
    exact he.1
  enter he hr e := by
    obtain ⟨entered, frame⟩ := h.enter he.1 hr e
    refine ⟨⟨entered, fun var point => ?_⟩, frame, nofun⟩
    obtain ⟨-, -, stay⟩ := relays.rule_into hr (Fact.eq_of_state var point)
    cases stay.symm.trans e
  leave he hr e hc := by
    refine ⟨h.leave he.1 hr e hc.1, fun var point => ?_⟩
    obtain ⟨-, -, stay⟩ := relays.rule_into hr (Fact.eq_of_state var point)
    cases stay.symm.trans e
  leaveBottom he hr e opened := by
    obtain ⟨left, opened⟩ := h.leaveBottom he.1 hr e opened
    refine ⟨⟨left, fun var point => ?_⟩, opened⟩
    obtain ⟨-, -, stay⟩ := relays.rule_into hr (Fact.eq_of_state var point)
    cases stay.symm.trans e
  callFlow hg he :=
    ⟨h.callFlow hg.1 he.1, fun var point => absurd (Fact.eq_of_state var point) hg.2⟩
  productive ht := h.productive ht.1

theorem backwardThrough_closed (plain : ∀ i ∈ p.instruction? s, ¬ i.Exchanges v)
    (h : G.Closed (p.ways .backward)) :
    (G.backwardThrough ⟨n, v⟩).Closed (p.ways .backward) := by
  have live {f r} (hl : G.live f) (hr : (p.ways .backward).rule f r) (into : r.target = ⟨n, v⟩) :
      G.live ⟨n, v⟩ :=
    have ⟨c, hc⟩ := hl
    into ▸ ⟨c, h.stay hc hr (relays.stay_into plain hr into)⟩
  exact { h with
    keep := fun hl hr e ht =>
      ⟨h.keep hl hr e ht.1, ht.2.1, fun into => live hl hr (FieldState.single.inj into)⟩
    push := fun hl hr e ht =>
      have ⟨top, rest⟩ := h.push hl hr e ht.1
      ⟨⟨top, nofun, fun into => live hl hr (FieldState.single.inj into)⟩, rest, ht.2.1, nofun⟩
    pop := fun hl hr e ht => ⟨h.pop hl hr e ht.1, ht.2.1, live hl hr⟩
    takeOver := fun hp ht =>
      ⟨h.takeOver hp.1 ht.1, ht.2.1, fun into => hp.2.2 (FieldState.single.inj into)⟩
    fieldFlow := False.elim
    callFlow := fun hg he => h.callFlow hg.1 he
    productive := fun ht => h.productive ht.1 }

end Facts

namespace World

variable (w : World)

/-- What is done in a state tells nothing about `y` that does not hold at `x`, and nothing about `x`
unless control comes there. -/
def Passes (p : Program) (x y : Fact) : Errand → FieldState → Prop
  | .importInto flow access source target, state => p.Accesses access ∧
    match flow.direction with
    | .forward => source = target ∧ access.fact ≠ y ∧ state ≠ .single y
    | .backward => state ≠ .single x ∧ (target = x → source = y ∧ (w.facts flow).live x)
  | .flowAllocation _ returnSite _, _ => returnSite ≠ y.point
  | .splice flow, state => flow.direction = .forward ∧ state ≠ .single y
  | .baseAllocation access, _ => p.Accesses access

/-- What the world may have if all that is known at `y` forward comes from `x`, where no query begins
and nothing is found. -/
def through (p : Program) (x y : Fact) : World where
  ways := w.ways
  facts q := match q.direction with
    | .forward => (w.facts q).forwardThrough x y
    | .backward => (w.facts q).backwardThrough x
  query := w.query
  started q := w.started q ∧ (q.direction = .forward → q.fact.point ≠ x.point)
  watched := w.watched
  base access q := w.base access q ∧ p.Accesses access ∧ q.direction = .forward
  flow access q := w.flow access q ∧ p.Accesses access ∧ (w.facts q).live access.fact
  visits q e state := w.visits q e state ∧ q.direction = .forward ∧ w.Passes p x y e state
  callSite := w.callSite
  returned k e := w.returned k e ∧ e.1.query.direction = .forward ∧ k.2 ≠ y.point
  bypassed k e := w.bypassed k e ∧ e.1.direction = .forward ∧ k.2 ≠ y.point
  imports := w.imports

variable {w : World} {q : Query} {t : FieldTransition} {e : Errand} {access : FieldAccess}

theorem through_facts_forward (hd : q.direction = .forward) :
    (w.through p x y).facts q = (w.facts q).forwardThrough x y := by
  show (match q.direction with | .forward => _ | .backward => _) = _
  rw [hd]

theorem through_facts_backward (hd : q.direction = .backward) :
    (w.through p x y).facts q = (w.facts q).backwardThrough x := by
  show (match q.direction with | .forward => _ | .backward => _) = _
  rw [hd]

theorem through_facts_sub : ((w.through p x y).facts q).Sub (w.facts q) := by
  cases hd : q.direction with
  | forward => exact through_facts_forward hd ▸ Facts.forwardThrough_sub
  | backward => exact through_facts_backward hd ▸ Facts.backwardThrough_sub

theorem Passes.leave {state state' : FieldState} (h : w.Passes p x y e state)
    (hx : state' ≠ .single x) (hy : state' ≠ .single y) : w.Passes p x y e state' := by
  cases e with
  | importInto flow access source target =>
    obtain ⟨accesses, h⟩ := h
    refine ⟨accesses, ?_⟩
    cases hd : flow.direction with
    | forward =>
      rw [hd] at h
      exact ⟨h.1, h.2.1, hy⟩
    | backward =>
      rw [hd] at h
      exact ⟨hx, h.2⟩
  | flowAllocation site returnSite returned => exact h
  | splice flow => exact ⟨h.1, hy⟩
  | baseAllocation access => exact h

variable (relays : p.Relays n s v)
include relays

theorem through_acts (h : w.Acts p q t e) (hq : q.direction = .forward)
    (passes : w.Passes p ⟨n, v⟩ ⟨s, v⟩ e t.start) (hx : t.target ≠ .single ⟨n, v⟩)
    (hy : t.target ≠ .single ⟨s, v⟩) : (w.through p ⟨n, v⟩ ⟨s, v⟩).Acts p q t e := by
  cases e with
  | importInto flow access source target =>
    obtain ⟨accesses, passes⟩ := passes
    have elsewhere : access.fact ≠ ⟨n, v⟩ := fun e =>
      relays.point_ne_of_accesses accesses (congrArg Fact.point e)
    cases hd : flow.direction with
    | forward =>
      rw [hd] at passes
      obtain ⟨rfl, other, start⟩ := passes
      simp only [Acts, FieldState.rename_self, through_facts_forward hd] at h ⊢
      exact ⟨⟨h.1, hx, hy, fun e => absurd e start⟩, fun connects ends => ⟨h.2 connects ends,
        fun e => elsewhere (FieldState.single.inj e), fun e => other (FieldState.single.inj e),
        fun e => absurd e start⟩⟩
    | backward =>
      rw [hd] at passes
      obtain ⟨start, entered⟩ := passes
      have live (into : t.start.rename source target = .single ⟨n, v⟩) :
          (w.facts flow).live ⟨n, v⟩ := by
        unfold FieldState.rename at into
        split at into
        · exact (entered (FieldState.single.inj into)).2
        · exact absurd into start
      have away : t.target.rename source target ≠ .single ⟨n, v⟩ := by
        intro into
        unfold FieldState.rename at into
        split at into
        · next e =>
          obtain ⟨rfl, -⟩ := entered (FieldState.single.inj into)
          exact hy e
        · exact hx into
      simp only [Acts, through_facts_backward hd] at h ⊢
      exact ⟨⟨h.1, away, live⟩, fun connects ends => ⟨h.2 connects ends,
        fun e => elsewhere (FieldState.single.inj e), live⟩⟩
  | flowAllocation site returnSite returned =>
    intro fact ends silent
    exact ⟨h ends silent, hq, passes⟩
  | splice flow =>
    obtain ⟨hd, start⟩ := passes
    simp only [Acts, through_facts_forward hd] at h ⊢
    exact ⟨h, hx, hy, fun e => absurd e start⟩
  | baseAllocation access => exact fun ends => ⟨h ends, passes, hq⟩

/-- Aliases are imported at the two points only from the one to the other. -/
theorem through_pairs (plain : ∀ i ∈ p.instruction? s, ¬ i.Exchanges v) (h : w.Closed p config)
    (ways : w.ways = p.ways) {base flow : Query} (pairs : w.Pairs p access base flow)
    (accesses : p.Accesses access) (hb : base.direction = .forward)
    (hd : flow.direction = access.direction) (live : (w.facts flow).live access.fact) :
    (w.through p ⟨n, v⟩ ⟨s, v⟩).Pairs p access base flow where
  hasBase := pairs.hasBase
  hasFlow := pairs.hasFlow
  visits {i v' l q point} hi lets ht hp := by
    rw [through_facts_forward hb] at ht
    refine ⟨pairs.visits hi lets ht.1 hp, hb, accesses, ?_⟩
    have away := relays.point_ne_of_accesses accesses
    obtain ⟨kind, here, base, field, value⟩ := access
    cases kind with
    | write =>
      have forward : flow.direction = .forward := hd
      obtain ⟨next, hn, rfl⟩ := List.mem_map.1 hi
      obtain rfl : point = next := List.mem_singleton.1 hp
      rw [forward]
      refine ⟨rfl, fun e => ?_, fun e => ?_⟩
      · obtain ⟨rfl, rfl⟩ := Fact.mk.inj e
        exact plain _ accesses rfl
      · obtain ⟨rfl, -⟩ := Fact.mk.inj (FieldState.single.inj e)
        exact away (relays.eq_of_mem_successors hn)
    | read =>
      have backward : flow.direction = .backward := hd
      obtain rfl := List.mem_singleton.1 hi
      rw [backward]
      refine ⟨fun e => away (congrArg Fact.point (FieldState.single.inj e)), fun e => ?_⟩
      obtain ⟨rfl, rfl⟩ := Fact.mk.inj e
      obtain rfl : here = s := relays.eq_of_mem_predecessors hp
      refine ⟨rfl, ?_⟩
      obtain ⟨c, hc⟩ := live
      have closed := h.facts pairs.hasFlow
      rw [backward, ways] at closed
      by_cases connects : (⟨.read, here, base, field, value⟩ : FieldAccess).Connects v'
      · exact ⟨c, closed.callFlow (pairs.connects hi lets ht.1 hp connects) hc⟩
      · -- the value is none of the two, so it is the base
        have same : v' = base := by
          by_contra other
          exact connects ⟨other, fun e => plain _ accesses e.symm⟩
        subst same
        exact ⟨c, closed.stay hc (relays.rule_load accesses) rfl⟩
  connects {i v' l q point} hi lets ht hp connects := by
    rw [through_facts_forward hb] at ht
    have flows := pairs.connects hi lets ht.1 hp connects
    have away := relays.point_ne_of_accesses accesses
    cases hd' : flow.direction with
    | forward =>
      rw [through_facts_forward hd']
      refine ⟨flows, fun e => ?_⟩
      obtain ⟨rfl, -⟩ := Fact.mk.inj e
      have next := (FieldAccess.successor_of_mem_imports hi hp).1
      rw [← hd, hd'] at next
      exact away (relays.eq_of_mem_successors next)
    | backward =>
      rw [through_facts_backward hd']
      exact ⟨flows, fun e => away (congrArg Fact.point e)⟩

/-- Nothing follows from that but more of it. -/
theorem through_closed (plain : ∀ i ∈ p.instruction? s, ¬ i.Exchanges v) (h : w.Closed p config)
    (ways : w.ways = p.ways) : (w.through p ⟨n, v⟩ ⟨s, v⟩).Closed p config where
  covers := h.covers
  facts {q} hq := by
    show Facts.Closed (w.ways q.direction) _
    have closed := h.facts hq
    rw [ways] at closed ⊢
    cases hd : q.direction with
    | forward =>
      rw [hd] at closed
      rw [through_facts_forward hd]
      exact Facts.forwardThrough_closed relays closed
    | backward =>
      rw [hd] at closed
      rw [through_facts_backward hd]
      exact Facts.backwardThrough_closed relays plain closed
  opened {q} hq := by
    cases hd : q.direction with
    | forward => exact through_facts_forward hd ▸ h.opened hq
    | backward => exact through_facts_backward hd ▸ h.opened hq
  productive {q} hq := by
    cases hd : q.direction with
    | forward => exact through_facts_forward hd ▸ h.productive hq
    | backward => exact through_facts_backward hd ▸ h.productive hq
  started {q} hs := by
    obtain ⟨hs, elsewhere⟩ := hs
    obtain ⟨hq, begins⟩ := h.started hs
    refine ⟨hq, fun next hn => ?_⟩
    obtain ⟨field, enters⟩ := begins next hn
    cases hd : q.direction with
    | forward =>
      -- what comes after the fact of the query is not the second point
      have away : next ≠ s := by
        rintro rfl
        rw [hd] at hn
        exact elsewhere hd (relays.eq_of_mem_successors hn)
      rw [through_facts_forward hd]
      exact ⟨⟨field, nofun, nofun,
        fun e => absurd (congrArg Fact.point (FieldState.single.inj e)) away⟩,
        enters, fun _ e => absurd e away⟩
    | backward =>
      rw [through_facts_backward hd]
      refine ⟨⟨field, nofun, fun e => ?_⟩, enters⟩
      rw [← FieldState.single.inj e]
      exact ⟨_, enters⟩
  allocation hq hd hf made :=
    have ⟨started, watched⟩ := h.allocation hq hd (through_facts_sub.reached hf) made
    ⟨⟨started, fun _ => relays.point_ne_of_allocates made⟩, watched⟩
  watched {q t v' point} hw ht hg := by
    have opened := h.watched hw (through_facts_sub.call t ht) hg
    cases hd : q.direction with
    | forward => exact through_facts_forward hd ▸ opened
    | backward => exact through_facts_backward hd ▸ opened
  value hq hd accesses hf :=
    have reached := through_facts_sub.reached hf
    have ⟨started, flows⟩ := h.value hq hd accesses reached
    ⟨⟨started, nofun⟩, flows, accesses, reached.1⟩
  writeBase hq hd accesses hk hf ht :=
    ⟨h.writeBase hq hd accesses hk (through_facts_sub.reached hf) (through_facts_sub.field _ ht),
      accesses, hd⟩
  readBase hq hd accesses hk hr hf :=
    ⟨h.readBase hq hd accesses hk hr (through_facts_sub.reached hf), hd, accesses⟩
  pair hb hf hd :=
    through_pairs relays plain h ways (h.pair hb.1 hf.1 hd) hb.2.1 hb.2.2 hd hf.2.2
  visit {q e t} hv ht := by
    obtain ⟨hv, hd, passes⟩ := hv
    rw [through_facts_forward hd] at ht
    obtain ⟨ht, hx, hy, -⟩ := ht
    obtain ⟨visits, acts⟩ := h.visit hv ht
    exact ⟨⟨visits, hd, passes.leave hx hy⟩, through_acts relays acts hd passes hx hy⟩
  returned {q f site fact} hq hf told := by
    obtain ⟨callSite, visits⟩ := h.returned hq (through_facts_sub.live hf) told
    obtain ⟨forward, away⟩ := relays.returned_away (ways ▸ told)
    exact ⟨callSite, visits, forward, away⟩
  bypassed {q f site returnSite v'} hq hf told := by
    obtain ⟨callSite, bypassed⟩ := h.bypassed hq (through_facts_sub.live hf) told
    obtain ⟨forward, away⟩ := relays.bypassed_away (ways ▸ told)
    exact ⟨callSite, bypassed, forward, away⟩
  activation {site returnSite source bypassing v'} hr hb different := by
    obtain ⟨hr, forward, away⟩ := hr
    obtain ⟨hb, forward', -⟩ := hb
    have activates := h.activation hr hb different
    have other (var : Var) : (⟨returnSite, var⟩ : Fact) ≠ ⟨s, v⟩ := fun e =>
      away (congrArg Fact.point e)
    exact {
      hasBypassing := activates.hasBypassing
      hasFlow := activates.hasFlow
      visits := ⟨activates.visits, forward', forward, fun e => other _ (FieldState.single.inj e)⟩
      pop := fun generated => by
        rw [through_facts_forward forward]
        exact ⟨activates.pop generated, other _⟩
      fieldFlow := by
        rw [through_facts_forward forward]
        exact ⟨activates.fieldFlow, other _⟩
      callFlow := by
        rw [through_facts_forward forward]
        exact ⟨activates.callFlow, other _⟩ }

theorem through_realm_closed (plain : ∀ i ∈ p.instruction? s, ¬ i.Exchanges v)
    (h : (w : Realm).Closed p config) (ways : w.ways = p.ways) :
    (w.through p ⟨n, v⟩ ⟨s, v⟩ : Realm).Closed p config where
  toClosed := through_closed relays plain h.toClosed ways
  begins := False.elim
  goes_on hb hf hd := h.goes_on hb.1 hf.1 hd

end World

/-! ## A query at the next point -/

/-- What is known about the seed `y` if the only way from it leads to `x`, the seed so far. -/
def Facts.preceded (x y : Fact) (F : Facts) : Facts :=
  { F.reseed y x with
    field := fun t => (F.reseed y x).field t ∨ t = ⟨.single x, .epsilon, .alloc y⟩
    call := fun t => F.call t ∨ t = ⟨.single x.var, x.point, .initial y.var⟩
    productive := fun state => (F.reseed y x).productive state ∨ state = .single x }

/-- What may be known for a query at `n`, if the world is what is known for the query at `s`. -/
def World.before (w : World) (n s : Point) (v : Var) : World :=
  w.replaced (.backward ⟨n, v⟩) (.backward ⟨s, v⟩)
    ((w.facts (.backward ⟨s, v⟩)).reseed ⟨n, v⟩ ⟨s, v⟩)

/-- What may be known for a query at `s`, if the world is what is known for the query at `n`. -/
def World.after (w : World) (p : Program) (n s : Point) (v : Var) : World :=
  (w.through p ⟨n, v⟩ ⟨s, v⟩).replaced (.backward ⟨s, v⟩) (.backward ⟨n, v⟩)
    (((w.facts (.backward ⟨n, v⟩)).backwardThrough ⟨n, v⟩).preceded ⟨n, v⟩ ⟨s, v⟩)

namespace Program.Relays

variable {w : World} (relays : p.Relays n s v)
include relays

theorem preceded_closed
    (closed : (G.backwardThrough ⟨n, v⟩).Closed (p.ways .backward))
    (begins : ∀ next ∈ (⟨p, .backward⟩ : Supergraph).successors n,
      (Operation.solve ⟨next, v⟩).Grants ⟨n, v⟩ (G.backwardThrough ⟨n, v⟩)) :
    ((G.backwardThrough ⟨n, v⟩).preceded ⟨n, v⟩ ⟨s, v⟩).Closed (p.ways .backward) := by
  set H := G.backwardThrough ⟨n, v⟩ with hH
  set F := H.preceded ⟨n, v⟩ ⟨s, v⟩ with hF
  have reseeded : (H.reseed ⟨s, v⟩ ⟨n, v⟩).Closed (p.ways .backward) := Facts.reseed_closed closed
  have enters_iff {f c} : F.enters f c ↔ H.enters f c ∨ f = ⟨n, v⟩ ∧ c = .initial v := by
    refine or_congr Iff.rfl ⟨fun e => ?_, ?_⟩
    · obtain ⟨var, point, rfl⟩ := Transition.mk.inj e
      exact ⟨Fact.eq_of_state var point, rfl⟩
    · rintro ⟨rfl, rfl⟩
      rfl
  have keeps {r g} (hr : (p.ways .backward).rule ⟨n, v⟩ r) :
      r.field ≠ .push g ∧ r.field ≠ .pop g ∧ r.call = .stay := by
    obtain ⟨next, -, rfl⟩ := relays.rule_backward.1 hr
    exact ⟨nofun, nofun, rfl⟩
  have live_of_ne {f} (hl : F.live f) (other : f ≠ ⟨n, v⟩) : H.live f :=
    hl.imp fun c hc => (enters_iff.1 hc).resolve_right fun e => other e.1
  exact {
    keep := fun {f r l q} hl hr e ht => by
      by_cases at_nop : f = ⟨n, v⟩
      · subst at_nop
        obtain ⟨next, hn, rfl⟩ := relays.rule_backward.1 hr
        obtain ht | ht := ht
        · exact .inl (reseeded.keep (ht.2.2 rfl) hr e ht)
        · obtain ⟨-, rfl, rfl⟩ := Transition.mk.inj ht
          exact .inl (Facts.reseed_field_seed.2 (begins next hn).1)
      · obtain ht | ht := ht
        · exact .inl (reseeded.keep (live_of_ne hl at_nop) hr e ht)
        · exact absurd (FieldState.single.inj (Transition.mk.inj ht).1) at_nop
    push := fun {f r g l q} hl hr e ht => by
      by_cases at_nop : f = ⟨n, v⟩
      · subst at_nop
        exact absurd e (keeps hr).1
      · obtain ht | ht := ht
        · obtain ⟨top, rest⟩ := reseeded.push (live_of_ne hl at_nop) hr e ht
          exact ⟨.inl top, .inl rest⟩
        · exact absurd (FieldState.single.inj (Transition.mk.inj ht).1) at_nop
    pop := fun {f r g q} hl hr e ht => by
      by_cases at_nop : f = ⟨n, v⟩
      · subst at_nop
        exact absurd e (keeps hr).2.1
      · obtain ht | ht := ht
        · exact reseeded.pop (live_of_ne hl at_nop) hr e ht
        · exact absurd (FieldState.single.inj (Transition.mk.inj ht).1) at_nop
    takeOver := fun {q f l q'} hp ht => by
      obtain ht | ht := ht
      · exact .inl (reseeded.takeOver hp ht)
      · obtain ⟨rfl, -, -⟩ := Transition.mk.inj ht
        exact absurd rfl hp.2.1
    fieldFlow := False.elim
    stay := fun {f r c} he hr e => by
      obtain he | ⟨rfl, rfl⟩ := enters_iff.1 he
      · exact .inl (closed.stay he hr e)
      · obtain ⟨next, hn, rfl⟩ := relays.rule_backward.1 hr
        exact .inl (begins next hn).2
    enter := fun {f r site c} he hr e => by
      obtain he | ⟨rfl, -⟩ := enters_iff.1 he
      · exact (closed.enter he hr e).imp .inl .inl
      · cases (keeps hr (g := default)).2.2.symm.trans e
    leave := fun {f r site v' point c} he hr e hc => by
      obtain he | ⟨-, e⟩ := enters_iff.1 he
      · obtain hc | hc := hc
        · exact .inl (closed.leave he hr e hc)
        · cases hc
      · cases e
    leaveBottom := fun {f r site v'} he hr e opened => by
      obtain he | ⟨rfl, -⟩ := enters_iff.1 he
      · exact (closed.leaveBottom he hr e opened).imp_left .inl
      · cases (keeps hr (g := default)).2.2.symm.trans e
    callFlow := fun {f g c} hg he => by
      obtain he | ⟨rfl, -⟩ := enters_iff.1 he
      · exact .inl (closed.callFlow hg he)
      · exact absurd rfl hg.2
    productive := fun {t} ht hp => by
      obtain ht | rfl := ht
      · obtain hp | hp := hp
        · exact .inl (reseeded.productive ht hp)
        · refine absurd ?_ ht.2.1
          show t.target.reseed _ _ = _
          rw [hp, FieldState.reseed_single]
      · exact .inr rfl }

/-- A query at the `nop` finds what a query at the next point has found. -/
theorem copies_before (h : w.Closed p config) (ways : w.ways = p.ways)
    (hs : w.started (.backward ⟨s, v⟩)) :
    w.Copies p (.backward ⟨n, v⟩) (.backward ⟨s, v⟩)
      ((w.facts (.backward ⟨s, v⟩)).reseed ⟨n, v⟩ ⟨s, v⟩) := by
  obtain ⟨hq, begins⟩ := h.started hs
  have closed : (w.facts (.backward ⟨s, v⟩)).Closed (w.ways .backward) := h.facts hq
  have at_nop : n ∈ (⟨p, .backward⟩ : Supergraph).successors s := by
    show n ∈ p.predecessors s
    rw [relays.previous]
    exact List.mem_singleton_self n
  obtain ⟨field, enters⟩ := begins n at_nop
  exact {
    backward := rfl
    query := hq
    untyped := rfl
    not_allocates := relays.not_allocates
    closed := Facts.reseed_closed closed
    opened := by
      show (w.facts _).opened n.method
      rw [← relays.method_eq]
      exact h.opened hq
    productive := Facts.reseed_productive_seed.2 (h.productive hq)
    begins := fun next hn => by
      have step : (w.ways .backward).rule ⟨n, v⟩ ⟨⟨next, v⟩, .keep, .stay⟩ := by
        rw [ways]
        exact relays.rule_backward.2 ⟨next, hn, rfl⟩
      exact ⟨Facts.reseed_field_seed.2 (closed.keep ⟨_, enters⟩ step rfl field),
        closed.stay enters step rfl⟩
    reached := .inl
    field := Facts.reseed_field
    callFlow := id }

/-- A query at the next point finds what a query at the `nop` has found, and the `nop`. -/
theorem copies_after (plain : ∀ i ∈ p.instruction? s, ¬ i.Exchanges v) (h : w.Closed p config)
    (ways : w.ways = p.ways) (hs : w.started (.backward ⟨n, v⟩)) :
    (w.through p ⟨n, v⟩ ⟨s, v⟩).Copies p (.backward ⟨s, v⟩) (.backward ⟨n, v⟩)
      (((w.facts (.backward ⟨n, v⟩)).backwardThrough ⟨n, v⟩).preceded ⟨n, v⟩ ⟨s, v⟩) := by
  have through := World.through_closed relays plain h ways
  obtain ⟨hq, begins⟩ := through.started (q := .backward ⟨n, v⟩) ⟨hs, nofun⟩
  have closed : ((w.facts (.backward ⟨n, v⟩)).backwardThrough ⟨n, v⟩).Closed (p.ways .backward) :=
    Facts.backwardThrough_closed relays plain (ways ▸ h.facts hq)
  exact {
    backward := rfl
    query := hq
    untyped := rfl
    not_allocates := by
      rintro (⟨type, e⟩ | e)
      · exact plain _ e rfl
      · exact plain _ e rfl
    closed := by
      show Facts.Closed (w.ways .backward) _
      rw [ways]
      exact relays.preceded_closed closed begins
    opened := by
      show (w.facts _).opened s.method
      rw [relays.method_eq]
      exact h.opened hq
    productive := .inl (Facts.reseed_productive_seed.2 (h.productive hq))
    begins := fun next hn => by
      obtain rfl : next = n := relays.eq_of_mem_successors (Program.mem_predecessors.1 hn)
      exact ⟨.inr rfl, .inr rfl⟩
    reached := by
      rintro f ⟨⟨c, hc⟩, hp⟩
      obtain hc | e := hc
      · obtain hp | e := hp
        · exact .inl ⟨⟨c, hc⟩, hp⟩
        · rw [FieldState.single.inj e]
          exact .inr relays.nop
      · right
        rw [(Transition.mk.inj e).2.1]
        exact relays.nop
    field := fun ht start target => .inl (Facts.reseed_field ht start target)
    callFlow := id }

end Program.Relays

/-! ## The two queries agree -/

namespace Analysis

variable {a b : Analysis}

theorem Answers.view_ways {qs : List Query} (h : Answers p config qs a) : a.view.ways = p.ways := by
  obtain ⟨S, n, running⟩ := h.running
  show a.program.ways = p.ways
  rw [running.program]

section Sides

variable (ha : Answers p config [.backward ⟨n, v⟩] a) (hb : Answers p config [.backward ⟨s, v⟩] b)
include ha hb

/-- If no variable is an alias of two bases in the one analysis, then neither in the other. -/
theorem separate_before (inside : a.Within (b.view.before n s v)) (separate : b.Separate) :
    a.Separate := by
  obtain ⟨S, k, running⟩ := ha.running
  obtain ⟨S', k', running'⟩ := hb.running
  refine inside.separate_of (running.program.trans running'.program.symm) (fun hq => ⟨hq.1, ?_⟩)
    separate
  exact World.replaced_facts_sub hq.2

theorem separate_after (inside : b.Within (a.view.after p n s v)) (separate : a.Separate) :
    b.Separate := by
  obtain ⟨S, k, running⟩ := ha.running
  obtain ⟨S', k', running'⟩ := hb.running
  refine inside.separate_of (running'.program.trans running.program.symm) (fun hq => ⟨hq.1.1, ?_⟩)
    separate
  exact (World.replaced_facts_sub hq.2).trans World.through_facts_sub

omit hb in
/-- The allocation sites at the next point are among those at the `nop`. -/
theorem mem_allocationSites_before (inside : b.Within (a.view.after p n s v)) {x : Query}
    (hx : x ∈ b.allocationSites (.backward ⟨s, v⟩)) : x ∈ a.allocationSites (.backward ⟨n, v⟩) := by
  obtain ⟨S, k, running⟩ := ha.running
  obtain ⟨forward, known, live, field⟩ := inside.mem_allocationSites_iff.1 hx
  obtain rfl | ⟨known, kept⟩ := inside.query known
  · cases forward
  · have sub : (b.factsOf x).Sub ((a.factsOf x).forwardThrough ⟨n, v⟩ ⟨s, v⟩) := by
      have through := World.through_facts_forward (w := a.view) (p := p) (x := ⟨n, v⟩) (y := ⟨s, v⟩) forward
      exact through ▸ inside.factsOf_sub.trans (World.replaced_facts_sub kept)
    obtain ⟨c, -, hc⟩ := sub.live live
    exact running.within.mem_allocationSites_iff.2
      ⟨forward, known, ⟨c, hc rfl rfl⟩, (sub.field _ field).2.2.2 rfl⟩

variable (relays : p.Relays n s v) (static : p.Static)
include relays static

omit ha in
/-- The allocation sites at the `nop` are among those at the next point. -/
theorem mem_allocationSites_after (separate : b.Separate) (inside : a.Within (b.view.before n s v))
    {x : Query} (hx : x ∈ a.allocationSites (.backward ⟨n, v⟩)) :
    x ∈ b.allocationSites (.backward ⟨s, v⟩) := by
  obtain ⟨S, k, running⟩ := hb.running
  obtain ⟨forward, known, live, field⟩ := inside.mem_allocationSites_iff.1 hx
  obtain rfl | ⟨known, kept⟩ := inside.query known
  · cases forward
  · have sub : (a.factsOf x).Sub (b.factsOf x) :=
      inside.factsOf_sub.trans (World.replaced_facts_sub kept)
    have closed : (b.factsOf x).Closed (b.view.ways x.direction) :=
      (hb.view_closed static separate).facts known
    rw [hb.view_ways, forward] at closed
    have step : (p.ways .forward).rule ⟨n, v⟩ ⟨⟨s, v⟩, .keep, .stay⟩ := relays.rule_forward.2 rfl
    obtain ⟨c, hc⟩ := sub.live live
    exact running.within.mem_allocationSites_iff.2 ⟨forward, known, ⟨c, closed.stay hc step rfl⟩,
      closed.keep ⟨c, hc⟩ step rfl (sub.field _ field)⟩

/-- What there is to know for a query at the `nop` is known from a query at the next point. -/
theorem within_before (separate : b.Separate) : a.Within (b.view.before n s v) := by
  have closed := hb.view_closed static separate
  have known : b.Knows (.backward ⟨s, v⟩) := hb.solved.knows _ List.mem_cons_self
  have copies := relays.copies_before closed.toClosed hb.view_ways known
  refine ha.solved.inside (obeys_of_open fun _ _ _ _ _ => trivial) (fun q hq => ?_)
    (within_create ?_)
  · obtain rfl := List.mem_singleton.1 hq
    exact .inl rfl
  · refine World.replaced_realm_closed copies closed fun {f x} => ?_
    rw [hb.view_ways]
    exact Program.not_tell_backward

/-- What there is to know for a query at the next point is known from a query at the `nop`. -/
theorem within_after (plain : ∀ i ∈ p.instruction? s, ¬ i.Exchanges v) (separate : a.Separate) :
    b.Within (a.view.after p n s v) := by
  have closed := ha.view_closed static separate
  have known : a.Knows (.backward ⟨n, v⟩) := ha.solved.knows _ List.mem_cons_self
  have copies := relays.copies_after plain closed.toClosed ha.view_ways known
  have through := World.through_realm_closed relays plain closed ha.view_ways
  refine hb.solved.inside (obeys_of_open fun _ _ _ _ _ => trivial) (fun q hq => ?_)
    (within_create ?_)
  · obtain rfl := List.mem_singleton.1 hq
    exact .inl rfl
  · refine World.replaced_realm_closed copies through fun {f x} => ?_
    show ¬ (a.view.ways .backward).tell f x
    rw [ha.view_ways]
    exact Program.not_tell_backward

end Sides

/-- A backward query at a `nop` has the allocation sites of a backward query at the next point, in
programs without virtual calls. -/
theorem relays_allocationSites (p : Program) (config : Config) (static : p.Static)
    (relays : p.Relays n s v) (plain : ∀ i ∈ p.instruction? s, ¬ i.Exchanges v) :
    Yields ((create p config).solve (.backward ⟨n, v⟩)) fun a =>
      Yields ((create p config).solve (.backward ⟨s, v⟩)) fun b => a.Separate ∨ b.Separate →
        ∀ x, x ∈ a.allocationSites (.backward ⟨n, v⟩) ↔ x ∈ b.allocationSites (.backward ⟨s, v⟩) := by
  refine (yields_answer p config _).imp fun a ha => (yields_answer p config _).imp fun b hb => ?_
  intro separate x
  have both : a.Separate ∧ b.Separate := by
    obtain separate | separate := separate
    · exact ⟨separate, separate_after ha hb (within_after ha hb relays static plain separate) separate⟩
    · exact ⟨separate_before ha hb (within_before ha hb relays static separate) separate, separate⟩
  constructor
  · exact mem_allocationSites_after hb relays static both.2
      (within_before ha hb relays static both.2)
  · exact mem_allocationSites_before ha (within_after ha hb relays static plain both.1)

/-- A method that does nothing between a load and another use of what was loaded. -/
def idling : String :=
  "method m() \x7b\n  x = new A\n  v = new B\n  y = x\n  y.f = v\n  r = x.f\n  nop\n  z = r\n\x7d"

/-- The object that comes out of the field is found at the `nop` and at the next point. Only the box
counts as a base there, and its other name is imported for it. -/
theorem idling_allocationSites : ∃ program, Source.readProgram idling = .ok program ∧
    program.Static ∧ program.Relays (.ofIndex ⟨"m"⟩ 6) (.ofIndex ⟨"m"⟩ 7) ⟨"r", ⟨"m"⟩⟩ ∧
    (∀ i ∈ program.instruction? (.ofIndex ⟨"m"⟩ 7), ¬ i.Exchanges ⟨"r", ⟨"m"⟩⟩) ∧
    Yields ((create program ⟨.ignore, .emptyFieldOnly, false⟩).solve (.backward (variableAt 6 "r")))
      fun a => Yields ((create program ⟨.ignore, .emptyFieldOnly, false⟩).solve
        (.backward (variableAt 7 "r"))) fun b => (a.Separate ∨ b.Separate) ∧
          ⟨.forward, variableAt 2 "v", some ⟨"B"⟩⟩ ∈ a.allocationSites (.backward (variableAt 6 "r")) ∧
          ∀ x, x ∈ a.allocationSites (.backward (variableAt 6 "r")) ↔
            x ∈ b.allocationSites (.backward (variableAt 7 "r")) := by
  let config : Config := ⟨.ignore, .emptyFieldOnly, false⟩
  have checked : (Source.readProgram idling).toOption.any fun program =>
      decide (program.Static ∧
        program.Relays (.ofIndex ⟨"m"⟩ 6) (.ofIndex ⟨"m"⟩ 7) ⟨"r", ⟨"m"⟩⟩ ∧
        ∀ i ∈ program.instruction? (.ofIndex ⟨"m"⟩ 7), ¬ i.Exchanges ⟨"r", ⟨"m"⟩⟩) &&
      ((create program config).solve (.backward (variableAt 6 "r"))).toOption.any fun a =>
        decide (a.SeparateJoins ∧ ⟨.forward, variableAt 2 "v", some ⟨"B"⟩⟩ ∈
          a.allocationSites (.backward (variableAt 6 "r"))) := by
    decide +kernel
  obtain ⟨program, read, h⟩ := exists_ok_of_any checked
  obtain ⟨h, answer⟩ := Bool.and_eq_true_iff.1 h
  obtain ⟨static, relays, plain⟩ := of_decide_eq_true h
  obtain ⟨a, ha, b, hb, agree⟩ := relays_allocationSites program config static relays plain
  obtain ⟨a', ha', h⟩ := exists_ok_of_any answer
  obtain rfl := Except.ok.inj (ha.symm.trans ha')
  obtain ⟨joins, found⟩ := of_decide_eq_true h
  exact ⟨program, read, static, relays, plain, a, ha, b, hb, .inl joins.separate, found,
    agree (.inl joins.separate)⟩

/-!
## Where the next point exchanges the variable

Then more than the step from the `nop` may be known of the variable at one of the two points, and only
the query at the next point takes it up. No variable needs to be an alias of two bases for that:

* A load into `v` has the aliases of its base imported at the `nop`, and `v` may be one of them
  (`unpacking_differs`).
* An allocation of `v` has the seed of the query as its own, so what is imported of it reaches the
  seed of the query: `o = new O; L: nop; v = new T; b = v; y = new Y; r = v; if * goto K; r = new R;
  c = o; c.h = r; c = null; K: if * goto M; y.g = r; if * goto Z; y = null; M: r = b.f; v = r;
  if * goto L; v = o.h; goto L; Z: v = y; goto L`.
* A store of `v` makes its fact a state below a field, and ways out of that state are imported:
  `L: nop; z.f = v; z = null; y = new A; y.g = y; v = y.f; if * goto L; v = y; y.f = z; goto L`.
* A callee leads back to the `nop` in whatever context it was entered: with `g(p)` that returns `p`,
  `o = new O; w = new W; c = o; c.f = w; c = null; if * goto K; v = call g(a); v = v.h; goto N;
  K: v = o.f; v.h = w; N: nop; call g(v)`.
-/

/-- A loop in which `v` is first one of two names of a box, and then what comes out of the box. -/
def unpacking : String :=
  "method m() \x7b\n  z = new A\n  x = new B\n  v = x\n  v.f = z\n  x.f = x\n" ++
    "  L: nop\n  v = x.f\n  goto L\n\x7d"

/-- That the next point does not exchange the variable can not be left out of `relays_allocationSites`,
even if no variable is an alias of two bases. The load at the next point has `v` imported at the `nop`,
under the old name of the box. A query at the `nop` is never there again, but one at the next point
starts there, and takes over what is imported. -/
theorem unpacking_differs : ∃ program a b made, Source.readProgram unpacking = .ok program ∧
    program.Static ∧ program.Relays (.ofIndex ⟨"m"⟩ 6) (.ofIndex ⟨"m"⟩ 7) ⟨"v", ⟨"m"⟩⟩ ∧
    (create program ⟨.ignore, .emptyFieldOnly, false⟩).solve (.backward (variableAt 6 "v")) = .ok a ∧
    (create program ⟨.ignore, .emptyFieldOnly, false⟩).solve (.backward (variableAt 7 "v")) = .ok b ∧
    a.Separate ∧ made ∉ a.allocationSites (.backward (variableAt 6 "v")) ∧
    made ∈ b.allocationSites (.backward (variableAt 7 "v")) := by
  let config : Config := ⟨.ignore, .emptyFieldOnly, false⟩
  let made : Query := ⟨.forward, variableAt 1 "z", some ⟨"A"⟩⟩
  have checked : (Source.readProgram unpacking).toOption.any fun program =>
      decide (program.Static ∧
        program.Relays (.ofIndex ⟨"m"⟩ 6) (.ofIndex ⟨"m"⟩ 7) ⟨"v", ⟨"m"⟩⟩) &&
      ((create program config).solve (.backward (variableAt 6 "v"))).toOption.any fun a =>
        ((create program config).solve (.backward (variableAt 7 "v"))).toOption.any fun b =>
          decide (a.SeparateJoins ∧ made ∉ a.allocationSites (.backward (variableAt 6 "v")) ∧
            made ∈ b.allocationSites (.backward (variableAt 7 "v"))) := by
    decide +kernel
  obtain ⟨program, read, h⟩ := exists_ok_of_any checked
  obtain ⟨points, h⟩ := Bool.and_eq_true_iff.1 h
  obtain ⟨static, relays⟩ := of_decide_eq_true points
  obtain ⟨a, ha, h⟩ := exists_ok_of_any h
  obtain ⟨b, hb, h⟩ := exists_ok_of_any h
  obtain ⟨joins, missed, found⟩ := of_decide_eq_true h
  exact ⟨program, a, b, made, read, static, relays, ha, hb, joins.separate, missed, found⟩

/-! ## Where a method begins -/

/-- A method that hands an object to another one. -/
def handedOver : String :=
  "method m() \x7b\n  x = new A\n  y = call f(x)\n\x7d\n" ++
    "method f(p) \x7b\n  L: q = p\n  return q\n\x7d"

/-- The object that is handed over is found at the first instruction of the other method, and not at
the `nop` before it. -/
theorem handedOver_differs : ∃ program a b made, Source.readProgram handedOver = .ok program ∧
    program.instruction? (.ofIndex ⟨"f"⟩ 0) = some .nop ∧
    program.successors (.ofIndex ⟨"f"⟩ 0) = [.ofIndex ⟨"f"⟩ 1] ∧
    program.predecessors (.ofIndex ⟨"f"⟩ 1) = [.ofIndex ⟨"f"⟩ 0] ∧
    (create program default).solve (.backward ⟨.ofIndex ⟨"f"⟩ 0, ⟨"p", ⟨"f"⟩⟩⟩) = .ok a ∧
    (create program default).solve (.backward ⟨.ofIndex ⟨"f"⟩ 1, ⟨"p", ⟨"f"⟩⟩⟩) = .ok b ∧
    made ∈ b.allocationSites (.backward ⟨.ofIndex ⟨"f"⟩ 1, ⟨"p", ⟨"f"⟩⟩⟩) ∧
    made ∉ a.allocationSites (.backward ⟨.ofIndex ⟨"f"⟩ 0, ⟨"p", ⟨"f"⟩⟩⟩) := by
  let first : Query := .backward ⟨.ofIndex ⟨"f"⟩ 0, ⟨"p", ⟨"f"⟩⟩⟩
  let second : Query := .backward ⟨.ofIndex ⟨"f"⟩ 1, ⟨"p", ⟨"f"⟩⟩⟩
  let made : Query := ⟨.forward, variableAt 1 "x", some ⟨"A"⟩⟩
  have checked : (Source.readProgram handedOver).toOption.any fun program =>
      decide (program.instruction? (.ofIndex ⟨"f"⟩ 0) = some .nop ∧
        program.successors (.ofIndex ⟨"f"⟩ 0) = [.ofIndex ⟨"f"⟩ 1] ∧
        program.predecessors (.ofIndex ⟨"f"⟩ 1) = [.ofIndex ⟨"f"⟩ 0]) &&
      ((create program default).solve first).toOption.any fun a =>
        ((create program default).solve second).toOption.any fun b =>
          decide (made ∈ b.allocationSites second ∧ made ∉ a.allocationSites first) := by
    decide +kernel
  obtain ⟨program, read, h⟩ := exists_ok_of_any checked
  obtain ⟨edges, h⟩ := Bool.and_eq_true_iff.1 h
  obtain ⟨a, ha, h⟩ := exists_ok_of_any h
  obtain ⟨b, hb, h⟩ := exists_ok_of_any h
  obtain ⟨nop, next, previous⟩ := of_decide_eq_true edges
  obtain ⟨found, missed⟩ := of_decide_eq_true h
  exact ⟨program, a, b, made, read, nop, next, previous, ha, hb, found, missed⟩

end Analysis

end PointsTo
