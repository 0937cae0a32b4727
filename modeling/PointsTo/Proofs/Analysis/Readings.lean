import PointsTo.Proofs.Analysis.Agreement
import PointsTo.Proofs.Analysis.Witnesses
import PointsTo.Proofs.Execution.Retracing

/-!
# Two readings of a backward answer

What a backward query finds can be read in two ways: off what its client was told of, or off the
forward solvers, some of which get to the fact of the query with an empty field stack. A client is
told of their allocations only (`Witnesses.mem_sites`), but a forward solver may have been started for
another query, and this one may have missed the allocation.

In a reversible program nothing is missed. Forward solvers get to no place from which a backward
solver would not find back: this is a closed world (`retracing_closed`), and an analysis that is only
asked backward queries stays inside (`Ready.within_adding`). A call that writes its own argument tells
the two readings apart (`overwriting_parts`).
-/

namespace PointsTo

/-! ## A world where every way is retraced -/

/-- What a forward solver may know if it gets nowhere without being retraced, and no value is put
into a field. -/
def retracedFacts (p : Program) (made : Fact) : Facts :=
  { contextFacts (Solves.Retraced p made) (fun _ => True) with
    field := fun t => t.label = .epsilon ∧ t.target = .alloc made
    pop := fun _ _ => False
    fieldFlow := fun _ _ => False }

/-- The query is the forward query for an allocation of the program. -/
def Query.IsAllocation (q : Query) (p : Program) : Prop := ∃ f, q = .allocation p f ∧ p.Allocates f

/-- Backward queries may know anything, and forward queries are those for allocations. -/
def retracing (p : Program) : World where
  ways := p.ways
  facts q := match q.direction with
    | .forward => retracedFacts p q.fact
    | .backward => .all
  query q := q.direction = .backward ∨ q.IsAllocation p
  started q := q.direction = .backward ∨ q.IsAllocation p
  watched _ := True
  base _ _ := False
  flow _ _ := False
  visits q e _ := q.IsAllocation p ∧ ∃ site returnSite v, e = .flowAllocation site returnSite v
  callSite _ := True
  returned _ e := e.1.query = e.2
  bypassed _ _ := True

section Retracing

variable {p : Program} {made : Fact} {q : Query} (reversible : p.Reversible)

theorem retracing_opened {m : MethodName} : ((retracing p).facts q).opened m := by
  obtain ⟨_ | _, _, _⟩ := q <;> trivial

theorem retracing_productive {state : FieldState} : ((retracing p).facts q).productive state := by
  obtain ⟨_ | _, _, _⟩ := q <;> trivial

theorem facts_of_backward (h : q.direction = .backward) : (retracing p).facts q = .all := by
  obtain ⟨_ | _, _, _⟩ := q
  · cases h
  · rfl

include reversible

theorem retracedFacts_closed : (retracedFacts p made).Closed (p.ways .forward) := by
  have context : (contextFacts (Solves.Retraced p made) fun _ => True).Closed (p.ways .forward) :=
    contextFacts_closed (Solves.followsRules_retraced reversible)
  have keeps {f r} (hr : (p.ways .forward).rule f r) : r.field = .keep :=
    have ⟨_, hr⟩ := hr
    Propagation.keep_of_mem_rules reversible.fieldless hr
  exact { context with
    keep := fun _ _ _ ht => ht
    push := fun _ hr e => by rw [keeps hr] at e; cases e
    pop := fun _ hr e => by rw [keeps hr] at e; cases e
    takeOver := False.elim
    fieldFlow := False.elim
    productive := fun _ _ => trivial }

/-- Nothing but what is retraced follows from the events of solvers. -/
theorem retracing_closed (config : Config) : (retracing p).Closed p config where
  covers := p.covers_ways
  facts {q} hq := by
    obtain hd | ⟨f, rfl, -⟩ := hq
    · rw [facts_of_backward hd]
      exact Facts.all_closed _
    · exact retracedFacts_closed reversible
  opened _ := retracing_opened
  productive _ := retracing_productive
  started {q} hq := by
    refine ⟨hq, fun next hn => ?_⟩
    obtain hd | ⟨f, rfl, -⟩ := hq
    · rw [facts_of_backward hd]
      exact ⟨trivial, trivial⟩
    · refine ⟨⟨rfl, rfl⟩, ⟨[], rfl⟩, fun sites hs => ?_⟩
      obtain rfl : sites = [] := hs
      exact Solves.retraced_start hn
  allocation _ _ _ made := ⟨.inr ⟨_, rfl, made⟩, trivial⟩
  watched _ _ _ := retracing_opened
  value _ _ ha _ := absurd ha reversible.fieldless.not_accesses
  writeBase _ _ ha _ _ _ := absurd ha reversible.fieldless.not_accesses
  readBase _ _ ha _ _ _ := absurd ha reversible.fieldless.not_accesses
  pair hb _ _ := hb.elim
  visit {q e t} hv ht := by
    refine ⟨hv, ?_⟩
    obtain ⟨⟨f, rfl, -⟩, site, returnSite, v, rfl⟩ := hv
    intro fact target _
    obtain rfl := FieldState.alloc.inj (ht.2.symm.trans target)
    rfl
  returned {q f site fact} hq _ ht := by
    obtain ⟨allocated, ht⟩ := ht
    have forward : q.direction = .forward := (Propagation.mem_announcements ht).1
    obtain hd | allocation := hq
    · rw [hd] at forward
      cases forward
    · exact ⟨trivial, allocation, site, fact.point, fact.var, rfl⟩
  bypassed _ _ _ := ⟨trivial, trivial⟩
  activation same _ different := absurd same different

theorem retracing_realm_closed (config : Config) : (retracing p : Realm).Closed p config where
  toClosed := retracing_closed reversible config
  begins := False.elim
  goes_on hb _ _ := hb.elim

end Retracing

namespace Analysis

variable {p : Program} {config : Config} {S : Supply p} {n : Nat} {w : Realm} {a b : Analysis}
  {q : Query} {client : Nat} {asked : List (Query × Nat)} {strayed : Prop}

/-! ## The readings -/

/-- The allocations that a client was told of for a query. -/
def reported (a : Analysis) (q : Query) (client : Nat) : Set Fact :=
  {f | .found client q f ∈ a.told}

/-- The allocations of which some object gets to the fact of the query. -/
def sites (a : Analysis) (q : Query) : Set Fact := {f | ∃ x ∈ a.allocationSites q, x.fact = f}

/-- What a query witnesses is one of its allocation sites. -/
theorem Witnesses.mem_sites {f : Fact} (h : a.Witnesses q f) : f ∈ a.sites q := by
  obtain ⟨s, hs, reaches⟩ := h.arrives
  obtain ⟨i, e, he, rfl⟩ := Pool.find?_eq_some_iff.1 hs
  exact ⟨_, mem_allocationSites_iff.2 ⟨rfl, i, e, he, reaches⟩, rfl⟩

/-- In a reversible program, a query that is not asked at the entry of a method has reached all
its allocation sites. -/
theorem Running.witnesses_of_mem_sites (h : Running S n a)
    (reversible : p.Reversible) (within : a.Within (retracing p)) (known : a.Knows q)
    (backward : q.direction = .backward) (inside : ∀ m, q.fact.point ∉ p.entries m) {f : Fact}
    (hf : f ∈ a.sites q) : a.Witnesses q f := by
  obtain ⟨x, hx, rfl⟩ := hf
  obtain ⟨forward, i, e, he, reaches⟩ := mem_allocationSites_iff.1 hx
  have host := within.host he
  obtain hd | ⟨f, rfl, made⟩ := host.query
  · rw [hd] at forward
    cases forward
  obtain ⟨c, ⟨sites, stands⟩, retraced⟩ := host.below.live (Solver.reachesWithEmptyStack_iff.1 reaches).1
  obtain ⟨j, e', he'⟩ := known
  have host' := h.host he'
  have solves : Solves p .backward q.fact e'.solver.propagation e'.solver.facts := by
    rw [← backward]
    exact h.program ▸ host'.solves (Supply.not_reversed h.proper q) (h.program ▸ reversible.static)
  have reached := retraced sites stands solves (solves.sought_seed inside)
  refine ⟨⟨_, Pool.find?_eq_some_iff.2 ⟨j, e', he', rfl⟩, host'.resting.mem_reached reached⟩, ?_, ?_⟩
  · rwa [h.program]
  · rw [h.program]
    exact ⟨_, Pool.find?_eq_some_iff.2 ⟨i, e, he, rfl⟩, reaches⟩

/-! ## Clients that add backward queries -/

/-- Queries are added for clients, one after the other. -/
def adding (asked : List (Query × Nat)) : List ClientCall :=
  asked.map fun x => .addBackwardQuery x.1 x.2

/-- If all the queries may be started in a world, the analysis stays inside. -/
theorem Ready.within_adding (h : Ready p strayed a) (starts : ∀ x ∈ asked, w.Starts .backward x.1)
    (all : ∀ access base flow p v, w.imports access base flow p v) (within : a.Within w)
    (called : a.performAll (adding asked) = .ok b) : b.Within w := by
  induction asked generalizing strayed a with
  | nil =>
    obtain rfl := Except.ok.inj called
    exact within
  | cons x asked ih =>
    rw [adding, List.map_cons, Analysis.performAll, List.foldlM_cons] at called
    obtain ⟨a₁, first, rest⟩ := bind_eq_ok.1 called
    obtain ⟨S, n, working, -⟩ := h.working
    obtain ⟨-, added⟩ := (working.addBackwardQuery x.1 x.2).of_eq_ok first
    exact ih ((h.perform _).of_eq_ok first).1 (fun y hy => starts y (List.mem_cons_of_mem x hy))
      (added.inside (obeys_of_open all) (starts x List.mem_cons_self) within) rest

/-- Whoever has added a query keeps the ticket for it. -/
theorem exists_ticket {calls : List ClientCall} (asks : .addBackwardQuery q client ∈ calls)
    (called : (create p config).performAll calls = .ok b) :
    b.Knows q ∧ ∃ ticket : Nat, b.tickets[ticket]? = some ⟨q, some client⟩ := by
  obtain ⟨before, after, rfl⟩ := List.append_of_mem asks
  obtain ⟨a₁, a₂, first, second, third⟩ := performAll_append_cons called
  have ready := ready_of_performAll first
  obtain ⟨S, n, working, -⟩ := ready.working
  obtain ⟨-, added⟩ := (working.addBackwardQuery q client).of_eq_ok second
  obtain ⟨ready₂, -⟩ := (ready.perform _).of_eq_ok second
  obtain ⟨-, grows⟩ := (ready₂.performAll after).of_eq_ok third
  exact ⟨grows.knows added.knows, _, grows.ticket added.taken⟩

/-- If clients only add backward queries, what they are told of is among the allocation sites of
their queries. In a reversible program it is all of them, unless a query is asked at the entry of a
method. -/
theorem reported_eq_sites (p : Program) (config : Config)
    (backward : ∀ x ∈ asked, x.1.direction = .backward) :
    ∃ a, (create p config).performAll (adding asked) = .ok a ∧ ∀ q client, (q, client) ∈ asked →
      a.reported q client ⊆ a.sites q ∧
        (p.Reversible → (∀ m, q.fact.point ∉ p.entries m) → a.reported q client = a.sites q) := by
  have proper : ¬ (False ∨ ∃ call ∈ adding asked, call.Reverses) := by
    rintro (absurd | ⟨call, hc, reverses⟩)
    · exact absurd
    · obtain ⟨x, hx, rfl⟩ := List.mem_map.1 hc
      exact Direction.noConfusion ((backward x hx).symm.trans reverses)
  obtain ⟨a, called, ready, -⟩ := ((ready_create p config).performAll (adding asked)).yields proper
  obtain ⟨S, n, working, may⟩ := ready.working
  have running : Running S n a := ⟨working, Finset.not_nonempty_iff_eq_empty.1 fun hr => proper (may hr)⟩
  refine ⟨a, called, fun q client asks => ?_⟩
  have hd := backward _ asks
  have asks' : .addBackwardQuery q client ∈ adding asked := List.mem_map.2 ⟨_, asks, rfl⟩
  obtain ⟨known, ticket, held⟩ := exists_ticket asks' called
  have told {f} : f ∈ a.reported q client ↔ a.Witnesses q f :=
    working.mem_told_iff ready.idle hd held
  refine ⟨fun f hf => (told.1 hf).mem_sites, fun reversible inside => ?_⟩
  have within : a.Within (retracing p) := (ready_create p config).within_adding
    (fun x hx => .inl ⟨.inl (backward x hx), (backward x hx).symm⟩) (fun _ _ _ _ _ => trivial)
    (within_create (retracing_realm_closed reversible config)) called
  ext f
  rw [told]
  exact ⟨Witnesses.mem_sites, running.witnesses_of_mem_sites reversible within known hd inside⟩

/-- Queries for the second argument of `reassigning`, before and after the call. -/
def aroundCall : List (Query × Nat) :=
  [(.backward ⟨.ofIndex ⟨"m"⟩ 3, ⟨"b", ⟨"m"⟩⟩⟩, 0), (.backward ⟨.ofIndex ⟨"m"⟩ 4, ⟨"b", ⟨"m"⟩⟩⟩, 1)]

/-- After the call, the client is told of the first object, too, and of nothing that is not found
forward. -/
theorem reassigning_reported : ∃ program a, Source.readProgram Solver.reassigning = .ok program ∧
    (create program default).performAll (adding aroundCall) = .ok a ∧ program.Reversible ∧
    Solver.firstObject ∈ a.reported (.backward ⟨.ofIndex ⟨"m"⟩ 4, ⟨"b", ⟨"m"⟩⟩⟩) 1 ∧
    a.reported (.backward ⟨.ofIndex ⟨"m"⟩ 4, ⟨"b", ⟨"m"⟩⟩⟩) 1 =
      a.sites (.backward ⟨.ofIndex ⟨"m"⟩ 4, ⟨"b", ⟨"m"⟩⟩⟩) := by
  let after : Query := .backward ⟨.ofIndex ⟨"m"⟩ 4, ⟨"b", ⟨"m"⟩⟩⟩
  have checked : (Source.readProgram Solver.reassigning).toOption.any fun program =>
      decide ((program.Fieldless ∧ program.Static) ∧
        (∀ b ∈ program.bodies, ∀ i ∈ b.instructions.toList, i.overwritesArgument = false) ∧
        (∀ b ∈ program.bodies, b.parameters.Nodup) ∧ after.fact.point ∉ program.entries ⟨"m"⟩) &&
      ((create program default).performAll (adding aroundCall)).toOption.any fun a =>
        a.told.contains (.found 1 after Solver.firstObject) := by
    decide +kernel
  obtain ⟨program, read, h⟩ := exists_ok_of_any checked
  obtain ⟨kinds, h⟩ := Bool.and_eq_true_iff.1 h
  obtain ⟨⟨fieldless, static⟩, intact, distinct, inside⟩ := of_decide_eq_true kinds
  obtain ⟨a, called, told⟩ := exists_ok_of_any h
  have reversible : program.Reversible :=
    ⟨static, fieldless, intact, distinct, Source.readProgram_entry read⟩
  have backward : ∀ x ∈ aroundCall, x.1.direction = .backward := by decide
  obtain ⟨a', called', agree⟩ := reported_eq_sites program default backward
  obtain rfl := Except.ok.inj (called.symm.trans called')
  obtain ⟨-, equal⟩ := agree after 1 (by decide)
  exact ⟨program, a, read, called, reversible, List.contains_iff_mem.1 told,
    equal reversible (Program.not_mem_entries inside)⟩

/-! ## What parts the readings -/

/-- The readings differ if a client is not told of an allocation site. -/
theorem reported_ne_sites {x : Query} (site : x ∈ a.allocationSites q)
    (untold : .found client q x.fact ∉ a.told) : a.reported q client ≠ a.sites q := by
  intro same
  have told : x.fact ∈ a.reported q client := by
    rw [same]
    exact ⟨x, site, rfl⟩
  exact untold told

/-- A method that asks another one for a new object and passes the old one, which is dropped. -/
def overwriting : String :=
  "method m() \x7b\n  x = new A\n  x = call f(x)\n  nop\n\x7d\nmethod f(p) \x7b\n  return\n\x7d"

/-- Queries for the variable before and after the call. -/
def aroundOverwriting : List (Query × Nat) :=
  [(.backward ⟨.ofIndex ⟨"m"⟩ 2, ⟨"x", ⟨"m"⟩⟩⟩, 0), (.backward ⟨.ofIndex ⟨"m"⟩ 3, ⟨"x", ⟨"m"⟩⟩⟩, 1)]

/-- The forward solver brings the object past the call, but the backward one does not: the other
method returns nothing. The client of the second query is told of nothing. -/
theorem overwriting_parts : ∃ program a, Source.readProgram overwriting = .ok program ∧
    program.Static ∧ (create program default).performAll (adding aroundOverwriting) = .ok a ∧
    a.reported (.backward ⟨.ofIndex ⟨"m"⟩ 3, ⟨"x", ⟨"m"⟩⟩⟩) 1 ≠
      a.sites (.backward ⟨.ofIndex ⟨"m"⟩ 3, ⟨"x", ⟨"m"⟩⟩⟩) := by
  let made : Query := ⟨.forward, ⟨.ofIndex ⟨"m"⟩ 1, ⟨"x", ⟨"m"⟩⟩⟩, some ⟨"A"⟩⟩
  let after : Query := .backward ⟨.ofIndex ⟨"m"⟩ 3, ⟨"x", ⟨"m"⟩⟩⟩
  have checked : (Source.readProgram overwriting).toOption.any fun program =>
      decide program.Static &&
      ((create program default).performAll (adding aroundOverwriting)).toOption.any fun a =>
        decide (made ∈ a.allocationSites after ∧ .found 1 after made.fact ∉ a.told) := by
    decide +kernel
  obtain ⟨program, read, h⟩ := exists_ok_of_any checked
  obtain ⟨static, h⟩ := Bool.and_eq_true_iff.1 h
  obtain ⟨a, called, h⟩ := exists_ok_of_any h
  obtain ⟨site, untold⟩ := of_decide_eq_true h
  exact ⟨program, a, read, of_decide_eq_true static, called, reported_ne_sites site untold⟩

/-- A method that puts an object into a box and takes it out again, when the name under which it was
put there is gone. -/
def dropping : String :=
  "method m() \x7b\n  o = new A\n  v = new B\n  b = o\n  b.f = v\n  b = null\n  r = o.f\n  nop\n\x7d"

/-- Queries for what comes out of the box, and then for what was put into it. -/
def aroundDropping : List (Query × Nat) :=
  [(.backward ⟨.ofIndex ⟨"m"⟩ 7, ⟨"r", ⟨"m"⟩⟩⟩, 0), (.backward ⟨.ofIndex ⟨"m"⟩ 4, ⟨"v", ⟨"m"⟩⟩⟩, 1)]

/-- Fields part the readings, even if no variable is an alias of two bases. Forward, the other name of
the box is an alias at the store, and the object gets out. Backward, the name under which it was stored
is no alias at the load any more, and the way to the store is not found. So the first client is told of
nothing, but once the second query has started the forward solver, there is an allocation site. -/
theorem dropping_parts : ∃ program a, Source.readProgram dropping = .ok program ∧ program.Static ∧
    (create program ⟨.ignore, .emptyFieldOnly, false⟩).performAll (adding aroundDropping) = .ok a ∧
    a.Separate ∧ a.reported (.backward ⟨.ofIndex ⟨"m"⟩ 7, ⟨"r", ⟨"m"⟩⟩⟩) 0 ≠
      a.sites (.backward ⟨.ofIndex ⟨"m"⟩ 7, ⟨"r", ⟨"m"⟩⟩⟩) := by
  let config : Config := ⟨.ignore, .emptyFieldOnly, false⟩
  let made : Query := ⟨.forward, ⟨.ofIndex ⟨"m"⟩ 2, ⟨"v", ⟨"m"⟩⟩⟩, some ⟨"B"⟩⟩
  let taken : Query := .backward ⟨.ofIndex ⟨"m"⟩ 7, ⟨"r", ⟨"m"⟩⟩⟩
  have checked : (Source.readProgram dropping).toOption.any fun program =>
      decide program.Static &&
      ((create program config).performAll (adding aroundDropping)).toOption.any fun a =>
        decide (a.SeparateJoins ∧ made ∈ a.allocationSites taken ∧
          .found 0 taken made.fact ∉ a.told) := by
    decide +kernel
  obtain ⟨program, read, h⟩ := exists_ok_of_any checked
  obtain ⟨static, h⟩ := Bool.and_eq_true_iff.1 h
  obtain ⟨a, called, h⟩ := exists_ok_of_any h
  obtain ⟨joins, site, untold⟩ := of_decide_eq_true h
  exact ⟨program, a, read, of_decide_eq_true static, called, joins.separate,
    reported_ne_sites site untold⟩

end Analysis

end PointsTo
