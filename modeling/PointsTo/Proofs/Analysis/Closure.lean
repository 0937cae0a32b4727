import PointsTo.Proofs.Analysis.Running
import PointsTo.Proofs.Solver.StaticCalls

/-!
# What an analysis has found is closed

Once every event is handled, what an analysis has found is a closed world, and since an analysis stays
inside every closed world, it is the least one. There is an exception. An alias is imported into a
flow only once, for the first base that has it. So the world lets in only the aliases that have
nothing to add (`settled`), and it lets in all of them if no variable is an alias of two bases of one
access (`Separate`, `Running.view_closed`).
-/

namespace PointsTo

/-- The ways through a program do not depend on the allocated classes if no call is virtual. -/
theorem Hosts.ways_eq {w : Realm} {p : Program} {q : Query} {e : PoolEntry} (h : Hosts w p q e)
    (static : p.Static) : p.ways q.direction = e.solver.propagation.ways := by
  have graph : e.solver.propagation.graph = ⟨p, q.direction⟩ := h.graph
  have same (allocated : OrderedSet ClassName) (f : Fact) :
      ({ direction := q.direction, graph := ⟨p, q.direction⟩, allocated } : Propagation).flow f =
        e.solver.propagation.flow f := by
    rw [← graph, ← h.direction]
    exact Propagation.flow_allocated (p := e.solver.propagation) (by rwa [graph]) allocated f
  have some (P : Flow → Prop) (f : Fact) :
      (∃ allocated, P (({ direction := q.direction, graph := ⟨p, q.direction⟩, allocated } :
        Propagation).flow f)) ↔ P (e.solver.propagation.flow f) :=
    ⟨fun ⟨allocated, h⟩ => same allocated f ▸ h, fun h => ⟨∅, (same ∅ f).symm ▸ h⟩⟩
  ext f x
  · exact some (x ∈ ·.rules) f
  · exact some (x ∈ ·.announcements) f

theorem Program.Fieldless.not_accesses {p : Program} {access : FieldAccess} (h : p.Fieldless) :
    ¬ p.Accesses access := fun accesses => by
  have kind := h.instruction accesses
  split at kind <;> cases kind

namespace Analysis

variable {p : Program} {S : Supply p} {n : Nat} {a : Analysis} {i l : Nat} {q : Query}
  {e : PoolEntry} {access : FieldAccess}

/-- No variable is an alias of two bases of one access. -/
def Separate (a : Analysis) : Prop :=
  ∀ {access base base' i i' v l l' state state'}, a.view.base access base →
    a.view.base access base' → i ∈ access.imports a.program → i' ∈ access.imports a.program →
    (a.factsOf base).field ⟨.single ⟨i.1, v⟩, l, state⟩ →
    (a.factsOf base').field ⟨.single ⟨i'.1, v⟩, l', state'⟩ → base = base' ∧ i = i'

/-- Nothing is left to do for the errand, from the state on. -/
def Spent (a : Analysis) (q : Query) (e : Errand) (state : FieldState) : Prop :=
  ∀ t, Relation.ReflTransGen (fun s s' => ∃ l, (a.factsOf q).field ⟨s, l, s'⟩) state t.start →
    (a.factsOf q).field t → a.view.Acts a.program q t e

/-- If the variable is an alias of the base next to the access, importing it would add nothing to the
flow. -/
def Absorbs (a : Analysis) (access : FieldAccess) (base flow : Query) (p : Point × List Point)
    (v : Var) : Prop :=
  a.view.base access base → a.view.flow access flow →
    (∃ l state, (a.factsOf base).field ⟨.single ⟨p.1, v⟩, l, state⟩) → ∀ point ∈ p.2,
      a.Spent base (.importInto flow access ⟨p.1, v⟩ ⟨point, v⟩) (.single ⟨p.1, v⟩) ∧
        (access.Connects v → (a.factsOf flow).callFlow access.fact ⟨point, v⟩)

/-- The state as a world where visitors go as far as they find nothing to do, and which lets in the
aliases that `imports` names. -/
def viewWith (a : Analysis) (visits : Query → Errand → FieldState → Prop)
    (imports : FieldAccess → Query → Query → Point × List Point → Var → Prop) : World :=
  { a.view with visits, imports }

/-- The state as a world that lets in the aliases which have nothing to add. -/
def settled (a : Analysis) : World := a.viewWith a.Spent a.Absorbs

theorem factsOf_eq (he : a.pool.Has i q e) : a.factsOf q = e.solver.facts :=
  (factsOf_sub he).antisymm (sub_factsOf he)

/-- An action is one errand. -/
theorem Means.unique {action : VisitAction} {e e' : Errand} (h : a.Means action e)
    (h' : a.Means action e') : e = e' := by
  cases action with
  | importInto flow join source target connect =>
    cases e <;> cases e' <;> try exact absurd ‹_› id
    obtain ⟨hi, ⟨x, hx⟩, rfl, rfl, -⟩ := h
    obtain ⟨hi', ⟨x', hx'⟩, hs, ht, -⟩ := h'
    obtain rfl := hi.unique hi'
    obtain ⟨rfl, -⟩ := hx.unique hx'
    obtain rfl := FieldState.single.inj hs
    obtain rfl := FieldState.single.inj ht
    rfl
  | flowAllocation join returned =>
    cases e <;> cases e' <;> try exact absurd ‹_› id
    obtain ⟨⟨x, hx⟩, rfl⟩ := h
    obtain ⟨⟨x', hx'⟩, rfl⟩ := h'
    obtain ⟨e, -⟩ := hx.unique hx'
    obtain ⟨rfl, rfl⟩ := Prod.mk.inj e
    rfl
  | splice flow =>
    cases e <;> cases e' <;> try exact absurd ‹_› id
    obtain rfl := Index.unique h h'
    rfl
  | baseAllocation join =>
    cases e <;> cases e' <;> try exact absurd ‹_› id
    obtain ⟨x, hx⟩ := h
    obtain ⟨x', hx'⟩ := h'
    obtain ⟨rfl, -⟩ := hx.unique hx'
    rfl

/-! ## Listeners have heard -/

namespace Working

variable (h : Working S n a) (idle : a.Idle)
include h

theorem host (he : a.pool.Has i q e) : Hosts S.realm a.program q e := h.within.host he

include idle

/-- Every listener has heard of every transition that its subscription covers. -/
theorem heard (hi : a.Index i q) {subscription : Subscription FieldState}
    (hl : a.Subscribed i subscription l) {t : FieldTransition} (ht : (a.factsOf q).field t)
    (covers : subscription.covers t) :
    ∃ x, a.fieldListeners[l]? = some x ∧ a.Heard q t x := by
  obtain ⟨e, he⟩ := hi
  obtain ⟨q', e', he', hs⟩ := hl
  obtain ⟨rfl, rfl⟩ := he.unique he'
  have event := (h.host he).resting.told.field_iff.2
    ⟨(factsOf_sub he).field t ht, subscription, hs, covers⟩
  exact h.all_handled idle he event

/-- What was reached was handled. -/
theorem reached_of_reaches {f : Fact} (hf : a.Reaches q f) : a.Reached q f := by
  obtain ⟨i, e, he, reached⟩ := hf
  exact h.all_handled idle he ((h.host he).resting.told.reached_iff.2 reached)

theorem reached {f : Fact} (hf : (a.factsOf q).reached f) : a.Reached q f := by
  obtain ⟨c, i, e, he, hc⟩ := hf.1
  refine h.reached_of_reaches idle ⟨i, e, he, (h.host he).resting.mem_reached ?_⟩
  exact (factsOf_sub he).reached hf

/-- Who waits for the base to be the seed itself has heard of it. -/
theorem awaited (awaits : a.Awaits q access)
    (ht : (a.factsOf q).field ⟨.single access.baseFact, .epsilon, .alloc q.fact⟩) :
    a.view.base access q := by
  obtain ⟨i, j, l, x, hi, hj, hl, hs⟩ := awaits
  obtain ⟨y, hy, heard⟩ := h.heard idle hi hs ht (by simp [Subscription.covers])
  obtain rfl := Option.some.inj (hl.symm.trans hy)
  obtain ⟨access', x', hj', base⟩ := heard
  obtain ⟨rfl, -⟩ := hj.unique hj'
  exact base rfl rfl

/-- What there is to tell about the facts of a query was handled. -/
theorem announced (static : a.program.Static) (hq : a.Knows q) {f : Fact}
    (hf : (a.factsOf q).live f) {x : Announcement} (hx : (a.program.ways q.direction).tell f x) :
    a.Handled q (.announced x) := by
  obtain ⟨i, e, he⟩ := hq
  have host := h.host he
  rw [factsOf_eq he] at hf
  rw [host.ways_eq static] at hx
  have told := host.resting.mem_announced (by rw [host.graph]; exact static) hf hx
  exact h.all_handled idle he (host.resting.told.announced_iff.2 told)

/-! ## The world of what was found -/

/-- An alias was imported, for some base and some point where it is found. -/
theorem hasImported {base flow : Query} (hb : a.view.base access base) (hf : a.view.flow access flow)
    {p : Point × List Point} {v : Var} {l : Field} {state : FieldState}
    (hp : p ∈ access.imports a.program) (ht : (a.factsOf base).field ⟨.single ⟨p.1, v⟩, l, state⟩) :
    a.Imported access flow v := by
  obtain ⟨i, j, k, x, hi, hj, hk, listens⟩ := h.complete.pair hb hf
  obtain ⟨m, hm, hs⟩ := listens p hp
  obtain ⟨y, hy, heard⟩ := h.heard idle hi hs ht rfl
  obtain rfl := Option.some.inj (hm.symm.trans hy)
  obtain ⟨access', x', flow', hj', hk', has⟩ := heard
  obtain ⟨rfl, -⟩ := hj.unique hj'
  obtain rfl := hk.unique hk'
  exact h.complete.alias' (has rfl)

/-- An alias was imported for the base and the point where it was found, if it is found nowhere
else. -/
theorem imported {base flow : Query} (hb : a.view.base access base) (hf : a.view.flow access flow)
    {p : Point × List Point} {v : Var} {l : Field} {state : FieldState}
    (hp : p ∈ access.imports a.program) (ht : (a.factsOf base).field ⟨.single ⟨p.1, v⟩, l, state⟩)
    (only : ∀ {base' p' l' state'}, a.view.base access base' → p' ∈ access.imports a.program →
      (a.factsOf base').field ⟨.single ⟨p'.1, v⟩, l', state'⟩ → base' = base ∧ p' = p) :
    ∀ point ∈ p.2,
      a.view.visits base (.importInto flow access ⟨p.1, v⟩ ⟨point, v⟩) (.single ⟨p.1, v⟩) ∧
        (access.Connects v → (a.factsOf flow).callFlow access.fact ⟨point, v⟩) := by
  -- some base imported the variable, and there is only one that has it
  obtain ⟨base', p', hb', hp', ⟨l', state', ht'⟩, done⟩ := h.hasImported idle hb hf hp ht
  obtain ⟨rfl, rfl⟩ := only hb' hp' ht'
  exact done

/-- Aliases were imported for the bases that have them, since no two bases have the same one. -/
theorem pairs (separate : a.Separate) {base flow : Query} (hb : a.view.base access base)
    (hf : a.view.flow access flow) : a.view.Pairs a.program access base flow := by
  have ⟨i, _, k, _, hi, _, hk, _⟩ := h.complete.pair hb hf
  have imported {p v l state} (hp : p ∈ access.imports a.program)
      (ht : (a.factsOf base).field ⟨.single ⟨p.1, v⟩, l, state⟩) :=
    h.imported idle hb hf hp ht fun hb' hp' ht' => separate hb' hb hp' hp ht' ht
  exact {
    hasBase := ⟨i, hi⟩
    hasFlow := ⟨k, hk⟩
    visits := fun hp _ ht hm => (imported hp ht _ hm).1
    connects := fun hp _ ht hm => (imported hp ht _ hm).2 }

/-- A visitor has come to all that is reached from where it was, and has acted on the way. -/
theorem visited {errand : Errand} {t : FieldTransition} (hv : a.view.visits q errand t.start)
    (ht : (a.factsOf q).field t) :
    a.view.visits q errand t.target ∧ a.view.Acts a.program q t errand := by
  obtain ⟨v, y, hy, hi, means, hs⟩ := hv
  obtain ⟨x, hx, heard⟩ := h.heard idle hi (h.complete.visited hy _ hs) ht (by simp [Subscription.covers])
  obtain rfl := Option.some.inj ((h.within.visitor hy).hears.symm.trans hx)
  obtain ⟨y', errand', hy', means', ht', acts⟩ := heard
  obtain rfl := Option.some.inj (hy.symm.trans hy')
  obtain rfl := means.unique means'
  exact ⟨⟨v, y, hy, hi, means, ht'⟩, acts⟩

/-- A visitor has left nothing to do where it has been. -/
theorem spent {errand : Errand} {state : FieldState} (hv : a.view.visits q errand state) :
    a.Spent q errand state := by
  have come {s : FieldState} (path : Relation.ReflTransGen
      (fun s s' => ∃ l, (a.factsOf q).field ⟨s, l, s'⟩) state s) : a.view.visits q errand s := by
    induction path with
    | refl => exact hv
    | tail _ step ih =>
      obtain ⟨l, step⟩ := step
      exact (h.visited idle ih step).1
  exact fun t path ht => (h.visited idle (come path) ht).2

/-- Importing an alias again would add nothing. -/
theorem absorbs_of_imports {base flow : Query} {p : Point × List Point} {v : Var}
    (imports : a.Imports access base flow p v) : a.Absorbs access base flow p v :=
  fun _ _ _ point hm => (imports.done point hm).imp_left (h.spent idle)

/-- A visitor has come to all states that are reached from where it was. -/
theorem visited_along {errand : Errand} {state last : FieldState} {labels : List Field}
    (he : a.pool.Has i q e) (path : e.solver.fields.Path last state labels)
    (hv : a.view.visits q errand state) : a.view.visits q errand last := by
  induction path with
  | nil => exact hv
  | cons ht _ ih => exact ih (h.visited idle hv ((sub_factsOf he).field _ ht)).1

end Working

namespace Running

variable (h : Running S n a) (idle : a.Idle)
include h idle

/-- What was found is closed under everything that the handlers do, if it has what follows from the
aliases that it lets in. -/
theorem viewWith_closed (static : a.program.Static)
    {visits : Query → Errand → FieldState → Prop}
    {imports : FieldAccess → Query → Query → Point × List Point → Var → Prop}
    (go : ∀ {q e state}, a.view.visits q e state → visits q e state)
    (act : ∀ {q e t}, visits q e t.start → (a.factsOf q).field t →
      visits q e t.target ∧ a.view.Acts a.program q t e)
    (pairs : ∀ {access base flow}, a.view.base access base → a.view.flow access flow →
      (a.viewWith visits imports).Pairs a.program access base flow) :
    (a.viewWith visits imports).Closed a.program a.config where
  covers := a.program.covers_ways
  facts {q} hq := by
    obtain ⟨i, e, he⟩ := hq
    have host := h.host he
    show (a.factsOf q).Closed (a.program.ways q.direction)
    rw [factsOf_eq he, host.ways_eq static]
    exact host.resting.closed (by rw [host.graph]; exact static)
  opened {q} hq := by
    obtain ⟨i, e, he⟩ := hq
    exact ⟨i, e, he, (h.host he).opened⟩
  productive {q} hq := by
    obtain ⟨i, e, he⟩ := hq
    exact ⟨i, e, he, (h.host he).productive⟩
  started {q} hq := by
    obtain ⟨i, e, he⟩ := hq
    have begun := (h.host he).begun (Supply.not_reversed h.proper q)
    exact ⟨⟨i, e, he⟩, fun next hn => (begun next hn).mono (sub_factsOf he)⟩
  allocation _ hd hf hp := ((h.reached idle hf).allocation hd hp).2
  watched {q t v point} hw ht hg := by
    obtain ⟨i, e, l, he, hs⟩ := hw
    have event := (h.host he).resting.told.call_iff.2
      ⟨(factsOf_sub he).call t ht, .any, hs, rfl⟩
    exact h.all_handled idle he event hg
  value _ hd ha hf := (h.reached idle hf).value hd ha rfl
  writeBase _ hd ha hk hf ht := h.awaited idle ((h.reached idle hf).writeBase hd ha hk rfl) ht
  readBase _ hd ha hk hr hf := go ((h.reached idle hf).readBase hd ha hk hr rfl)
  pair hb hf _ := pairs hb hf
  visit hv ht := act hv ht
  returned {q f site fact} hq hf ht := by
    have visited := h.announced idle static hq hf ht
    refine ⟨?_, go visited⟩
    obtain ⟨v, y, hy, hi, means, hs⟩ := visited
    cases action : y.action <;> rw [action] at means <;> try exact means.elim
    obtain ⟨⟨x, hx⟩, -⟩ := means
    exact ⟨_, x, hx⟩
  bypassed {q f site returnSite v} hq hf ht := by
    have bypassed := h.announced idle static hq hf ht
    obtain ⟨j, x, hj, hb⟩ := bypassed
    exact ⟨⟨j, x, hj⟩, j, x, hj, hb⟩
  activation {site returnSite source bypassing v} hr hb hne := by
    have activated := h.complete.activation hr hb hne
    obtain ⟨_, y, hy, hi, -⟩ := activated.visits
    obtain ⟨k, e, he, -⟩ := activated.callFlow
    exact {
      hasBypassing := ⟨_, hi⟩
      hasFlow := ⟨k, e, he⟩
      visits := go activated.visits
      pop := activated.pop
      fieldFlow := activated.fieldFlow
      callFlow := activated.callFlow }

omit idle in
/-- The flow goes on wherever it meets a base. -/
theorem goes_on {base flow : Query} (hb : a.view.base access base) (hf : a.view.flow access flow)
    (hd : flow.direction = access.direction) :
    (⟨a.program, access.direction⟩ : Supergraph).successors access.point ≠ [] := by
  obtain ⟨j, x, hj, hq⟩ := hb
  obtain ⟨j', x', hj', hq'⟩ := hf
  have based := ((h.within.fieldJoin hj).base base hq).1
  have flows := ((h.within.fieldJoin hj').flow flow hq').1
  exact (h.within.closed.goes_on based flows hd).resolve_left (Supply.not_lax h.proper)

/-- What was found is closed if no variable is an alias of two bases of one access. -/
theorem view_closed (static : a.program.Static) (separate : a.Separate) :
    (a.view : Realm).Closed a.program a.config where
  toClosed := h.viewWith_closed idle static id (h.visited idle) fun hb hf => h.pairs idle separate hb hf
  begins := False.elim
  goes_on hb hf hd := .inr (h.goes_on hb hf hd)

/-- What was found is closed as far as aliases add nothing. -/
theorem settled_closed (static : a.program.Static) :
    (a.settled : Realm).Closed a.program a.config where
  toClosed := by
    refine h.viewWith_closed idle static (h.spent idle) (fun {q e t} hv ht => ?_) fun hb hf => ?_
    · exact ⟨fun u path => hv u (path.head ⟨t.label, ht⟩), hv t .refl ht⟩
    · have ⟨i, _, k, _, hi, _, hk, _⟩ := h.complete.pair hb hf
      exact {
        hasBase := ⟨i, hi⟩
        hasFlow := ⟨k, hk⟩
        visits := fun hp absorbs ht hm => (absorbs hb hf ⟨_, _, ht⟩ _ hm).1
        connects := fun hp absorbs ht hm => (absorbs hb hf ⟨_, _, ht⟩ _ hm).2 }
  begins := False.elim
  goes_on hb hf hd := .inr (h.goes_on hb hf hd)

end Running

end Analysis

end PointsTo
