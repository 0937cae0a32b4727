import PointsTo.Proofs.Analysis.Reachable
import PointsTo.Proofs.Program.Edges
import PointsTo.Proofs.Program.Shape
import PointsTo.Proofs.Solver.AccessPaths
import PointsTo.Proofs.Source.Reader

/-!
# Fields that nothing writes

In the direction of control, a label is put on a field automaton where a store writes the field, and
the aliases of its base carry the same label. What other forward solvers hand over bears such labels
too. Against the direction of control the labels are the fields of loads, but what such a solver knows
does not get into one that runs forward: bases and allocations are forward queries, and an alias of a
base is imported into the flow of a store if the flow runs forward. So the realm in which forward
solvers have no label but those that stores write is closed (`stored_closed`).

A load of a field that nothing writes then finds nothing to take out of it. Where control comes from
this load only, its destination holds nothing, and so it has no allocation sites (`fields_stored`).
-/

namespace PointsTo

namespace Program

variable {p : Program} {source : String} {f : Fact} {r : Rule} {site : Point} {g : Field}

/-- The fact is about the destination of a load from a field that nothing writes, and control has just
come from this load. -/
def Hollow (p : Program) (f : Fact) : Prop :=
  ∃ load base g, p.predecessors f.point = [load] ∧
    p.instruction? load = some (.load f.var base g) ∧ ¬ p.Writes g

/-- The point comes after nothing but the load. -/
theorem Hollow.load (h : p.Hollow f) (hn : f.point ∈ p.successors site) :
    ∃ base g, p.instruction? site = some (.load f.var base g) ∧ ¬ p.Writes g := by
  obtain ⟨load, base, g, only, hi, unwritten⟩ := h
  have hp := mem_predecessors.2 hn
  rw [only] at hp
  obtain rfl := List.mem_singleton.1 hp
  exact ⟨base, g, hi, unwritten⟩

/-- After anything but a load of its variable, a fact is not hollow. -/
theorem not_hollow_of_successor {i : Instruction} (hi : p.instruction? site = some i)
    (hn : f.point ∈ p.successors site) (other : ∀ base g, i ≠ .load f.var base g) :
    ¬ p.Hollow f := by
  intro hollow
  obtain ⟨base, g, hi', -⟩ := hollow.load hn
  exact other base g (Option.some.inj (hi.symm.trans hi'))

/-- No rule leads to the destination of the load but the one that takes the value out of the field. -/
theorem Hollow.pop_of_rule (hollow : p.Hollow r.target) (read : Source.readProgram source = .ok p)
    (hr : (p.ways .forward).rule f r) : ∃ g, r.field = .pop g ∧ ¬ p.Writes g := by
  obtain ⟨allocated, hr⟩ := hr
  obtain ⟨i, hi, h | ⟨w, e, carried, ⟨-, h⟩ | ⟨-, next, hn, rfl⟩⟩⟩ := Propagation.mem_rules_iff.1 hr
  · -- no edge leads to the entry of a method, but there is one from the load
    obtain ⟨method, start, w, hs, -, rfl⟩ := Propagation.mem_entering h
    obtain ⟨load, _, _, only, -, -⟩ := hollow
    have edge := mem_predecessors.1 (only ▸ List.mem_cons_self : load ∈ p.predecessors start)
    exact absurd hs (Source.readProgram_entry read edge method)
  · -- the value comes back to a return site, where control comes from a call
    obtain ⟨site, dest, callee, args, returnSite, w', -, call, hs, -, rfl⟩ :=
      Propagation.mem_exitRules_iff.1 h
    exact absurd hollow (not_hollow_of_successor call hs fun _ _ => nofun)
  · obtain ⟨base, g, load, unwritten⟩ := hollow.load hn
    obtain rfl := Option.some.inj (hi.symm.trans load)
    exact ⟨g, Propagation.pop_of_carried_load rfl carried, unwritten⟩

theorem not_hollow_of_rule (read : Source.readProgram source = .ok p)
    (hr : (p.ways .forward).rule f r) (other : ∀ g, r.field ≠ .pop g) : ¬ p.Hollow r.target := by
  intro hollow
  obtain ⟨g, pop, -⟩ := hollow.pop_of_rule read hr
  exact other g pop

/-- In the direction of control, values are put into fields that stores write. -/
theorem writes_of_push (hr : (p.ways .forward).rule f r) (push : r.field = .push g) :
    p.Writes g := by
  obtain ⟨allocated, hr⟩ := hr
  obtain ⟨i, w, hi, carried⟩ := Propagation.carried_of_mem_rules hr (by rw [push]; nofun)
  rw [push] at carried
  rw [Propagation.store_of_carried_push rfl carried] at hi
  exact writes_of_store hi

end Program

/-! ## A realm without unwritten labels -/

section Stored

variable (p : Program)

/-- The label is empty or a field that something writes, and the transition does not lead from a
hollow fact. -/
structure Stored (t : FieldTransition) : Prop where
  label : t.label = .epsilon ∨ p.Writes t.label
  start : ∀ f, t.start = .single f → ¬ p.Hollow f

/-- Against the direction of control, a solver may know anything. -/
def storedFacts (d : Direction) : Facts :=
  { Facts.all with
    field t := d = .forward → Stored p t
    pop _ f := d = .forward → ¬ p.Hollow f
    fieldFlow _ f := d = .forward → ¬ p.Hollow f }

/-- The second point comes after a call at the first one. -/
def AfterCall (k : Point × Point) : Prop :=
  k.2 ∈ p.successors k.1 ∧ ∃ dest callee args, p.instruction? k.1 = some (.call dest callee args)

/-- In solvers that run forward, all transitions are `Stored`. Visitors go to such solvers only, so
bases and what comes back from calls are allocations. -/
def stored : Realm where
  ways := p.ways
  facts q := storedFacts p q.direction
  query _ := True
  started q := q.direction = .forward → p.Allocates q.fact
  watched _ := True
  base _ q := q.direction = .forward
  flow access _ := p.Accesses access
  visits q e _ := q.direction = .forward ∧
    match e with
    | .importInto flow access _ target => p.Accesses access ∧
        flow.direction = access.direction ∧ (access.direction = .forward → ¬ p.Hollow target)
    | .flowAllocation site returnSite _ => AfterCall p (site, returnSite)
    | .splice _ | .baseAllocation _ => True
  callSite := AfterCall p
  returned k e := AfterCall p k ∧ e.2.direction = .forward
  bypassed _ _ := True
  reversed q := q.direction = .backward

variable {p} {d : Direction} {f : Fact} {q : FieldState} {l : Field} {site : Point} {source : String}

theorem Stored.of_single (label : l = .epsilon ∨ p.Writes l) (hf : ¬ p.Hollow f) :
    Stored p ⟨.single f, l, q⟩ where
  label := label
  start _ e := FieldState.single.inj e ▸ hf

theorem AfterCall.not_hollow {k : Point × Point} (h : AfterCall p k) (v : Var) :
    ¬ p.Hollow ⟨k.2, v⟩ := by
  obtain ⟨edge, dest, callee, args, call⟩ := h
  exact Program.not_hollow_of_successor call edge fun _ _ => nofun

/-- What comes back from a call is told by solvers that run forward. -/
theorem afterCall_of_returned {fact : Fact} (ht : (p.ways d).tell f (.returned site fact)) :
    d = .forward ∧ AfterCall p (site, fact.point) := by
  obtain ⟨allocated, ht⟩ := ht
  obtain ⟨forward, ⟨_, _, dest, callee, args, e, edge, call, -⟩ | ⟨_, -, e, -⟩⟩ :=
    Propagation.mem_announcements ht
  · obtain rfl : d = .forward := forward
    obtain ⟨rfl, rfl⟩ := Announcement.returned.inj e
    exact ⟨rfl, edge, dest, callee, args, call⟩
  · cases e

theorem afterCall_of_bypassed {returnSite : Point} {v : Var}
    (ht : (p.ways d).tell f (.bypassed site returnSite v)) : AfterCall p (site, returnSite) := by
  obtain ⟨allocated, ht⟩ := ht
  obtain ⟨forward, ⟨_, _, _, _, _, e, -⟩ | ⟨_, edge, e, dest, callee, args, call⟩⟩ :=
    Propagation.mem_announcements ht
  · cases e
  · obtain rfl : d = .forward := forward
    obtain ⟨rfl, rfl, rfl⟩ := Announcement.bypassed.inj e
    exact ⟨edge, dest, callee, args, call⟩

/-- Aliases are imported into the flow of a store at points after it. -/
theorem not_hollow_of_import {access : FieldAccess} {i : Point × List Point} {point : Point} {v : Var}
    (accesses : p.Accesses access) (write : access.direction = .forward)
    (hi : i ∈ access.imports p) (hm : point ∈ i.2) : ¬ p.Hollow ⟨point, v⟩ := by
  obtain ⟨next, -⟩ := FieldAccess.successor_of_mem_imports hi hm
  rw [write] at next
  exact Program.not_hollow_of_successor (accesses.store (FieldAccess.direction_eq_forward_iff.1 write)) next fun _ _ => nofun

/-- A forward query begins after its allocation. -/
theorem stored_begins {x : Query} {next : Point}
    (made : x.direction = .forward → p.Allocates x.fact ∧ d = .forward)
    (hn : next ∈ (⟨p, d⟩ : Supergraph).successors x.fact.point) :
    (Operation.solve ⟨next, x.fact.var⟩).Grants x.fact (storedFacts p x.direction) := by
  refine ⟨fun forward => ?_, trivial⟩
  obtain ⟨allocates, rfl⟩ := made forward
  apply Stored.of_single (.inl rfl)
  obtain ⟨type, hi⟩ | hi := allocates
  · exact Program.not_hollow_of_successor hi hn fun _ _ => nofun
  · exact Program.not_hollow_of_successor hi hn fun _ _ => nofun

section Read

variable (read : Source.readProgram source = .ok p)
include read

theorem storedFacts_closed (d : Direction) : (storedFacts p d).Closed (p.ways d) :=
  { Facts.all_closed (p.ways d) with
    keep := by
      intro f r l q _ hr e ht forward
      subst forward
      apply Stored.of_single (ht rfl).label
      exact Program.not_hollow_of_rule read hr (by rw [e]; nofun)
    push := by
      intro f r g l q _ hr e ht
      refine ⟨fun forward => ?_, fun forward => ⟨(ht forward).label, nofun⟩⟩
      subst forward
      apply Stored.of_single (.inr (Program.writes_of_push hr e))
      exact Program.not_hollow_of_rule read hr (by rw [e]; nofun)
    pop := by
      intro f r g q _ hr e ht forward hollow
      subst forward
      obtain ⟨g', pop, unwritten⟩ := hollow.pop_of_rule read hr
      obtain rfl : g = g' := FieldEffect.pop.inj (e.symm.trans pop)
      -- nothing lies in the field, as no transition has it as its label
      obtain silent | written := (ht rfl).label
      · obtain ⟨allocated, hr⟩ := hr
        have := Solver.field_named (Source.readProgram_named read) hr (.inr e)
        rw [show g = .epsilon from silent] at this
        cases this
      · exact unwritten written
    takeOver := fun hf ht forward => .of_single (ht forward).label (hf forward)
    fieldFlow := fun hf ht forward => .of_single (ht forward).label (hf forward)
    productive := fun _ _ => trivial }

/-- Nothing that follows from events puts other labels on solvers that run forward. -/
theorem stored_closed (config : Config) : (stored p).Closed p config where
  covers := p.covers_ways
  facts {q} _ := storedFacts_closed read q.direction
  opened _ := trivial
  productive _ := trivial
  started hq := ⟨trivial, fun _ hn => stored_begins (fun forward => ⟨hq forward, forward⟩) hn⟩
  allocation _ _ _ ha := ⟨fun _ => ha, trivial⟩
  watched _ _ _ := trivial
  value _ _ ha _ := ⟨nofun, ha⟩
  writeBase _ forward _ _ _ _ := forward
  readBase _ forward _ _ _ _ := ⟨forward, trivial⟩
  pair forward accesses direction := {
    hasBase := trivial
    hasFlow := trivial
    visits := by
      intro i v l q point hi _ _ hm
      exact ⟨forward, accesses, direction, fun write => not_hollow_of_import accesses write hi hm⟩
    connects := fun _ _ _ _ _ => trivial }
  visit {q e t} hv ht := by
    refine ⟨hv, ?_⟩
    obtain ⟨forward, he⟩ := hv
    have known : Stored p t := ht forward
    cases e with
    | importInto flow access source target =>
      obtain ⟨accesses, direction, imported⟩ := he
      -- the start of what is imported is as it was, or it is the target
      have start (write : access.direction = .forward) :
          ∀ f, t.start.rename source target = .single f → ¬ p.Hollow f :=
        FieldState.rename_of (P := fun state => ∀ f, state = .single f → ¬ p.Hollow f) known.start
          fun f e => FieldState.single.inj e ▸ imported write
      refine ⟨fun runs => ⟨known.label, start (direction ▸ runs)⟩, fun _ _ runs => ?_⟩
      have write : access.direction = .forward := direction ▸ runs
      exact ⟨.inr (Program.writes_of_store (accesses.store (FieldAccess.direction_eq_forward_iff.1 write))), start write⟩
    | flowAllocation site returnSite returned =>
      intro fact _ _
      exact ⟨he, rfl⟩
    | splice flow => exact fun _ => known
    | baseAllocation access =>
      intro _
      exact forward
  returned _ _ ht := by
    obtain ⟨forward, after⟩ := afterCall_of_returned ht
    exact ⟨after, forward, after⟩
  bypassed _ _ ht := ⟨afterCall_of_bypassed ht, trivial⟩
  activation hr _ _ := {
    hasBypassing := trivial
    hasFlow := trivial
    visits := ⟨hr.2, trivial⟩
    pop := fun _ _ => hr.1.not_hollow _
    fieldFlow := fun _ => hr.1.not_hollow _
    callFlow := trivial }
  begins backward :=
    have other {P : Prop} (forward : _ = Direction.forward) : P :=
      nomatch (forward.symm.trans backward : Direction.forward = .backward)
    ⟨trivial, fun _ _ hn => stored_begins other hn⟩
  goes_on _ _ _ := .inl ⟨.backward default, rfl⟩

end Read

end Stored

namespace Analysis

variable {p : Program} {config : Config} {calls : List ClientCall} {a : Analysis} {q : Query}
  {s : Solver} {source : String}

theorem Reachable.stored (h : Reachable p config calls a)
    (read : Source.readProgram source = .ok p)
    (asked : ∀ call ∈ calls, ∀ q ∈ call.query?, q.direction = .backward)
    (hs : a.solver? q = some s) (forward : q.direction = .forward) {t : FieldTransition}
    (ht : t ∈ s.fields) : Stored p t := by
  obtain ⟨i, e, he, rfl⟩ := Pool.find?_eq_some_iff.1 hs
  exact ((h.within (stored_closed read config) (fun _ _ _ _ _ => trivial)
    asked).host he).below.field t ht forward

/-- In a program that was read, if clients ask backward queries, every label on the field automaton
of a solver that runs forward is empty or a field that some store writes. So a load of a field that
no store writes finds nothing: its destination has no allocation sites where control comes from this
load only, whatever else was asked. -/
theorem fields_stored (read : Source.readProgram source = .ok p) (h : Reachable p config calls a)
    (asked : ∀ call ∈ calls, ∀ q ∈ call.query?, q.direction = .backward) :
    (∀ q s, q.direction = .forward → a.solver? q = some s →
      ∀ t ∈ s.fields, t.label = .epsilon ∨ p.Writes t.label) ∧
    ∀ load dest base g point, p.instruction? load = some (.load dest base g) → ¬ p.Writes g →
      p.predecessors point = [load] → a.allocationSites (.backward ⟨point, dest⟩) = [] := by
  refine ⟨fun q s forward hs t ht => (h.stored read asked hs forward ht).label, ?_⟩
  intro load dest base g point hi unwritten only
  apply List.eq_nil_iff_forall_not_mem.2
  intro x hx
  obtain ⟨forward, i, e, he, reaches⟩ := mem_allocationSites_iff.1 hx
  -- the destination would have the seed right below it
  obtain ⟨-, seeded⟩ := Solver.reachesWithEmptyStack_iff.1 reaches
  have hs : a.solver? x = some e.solver := Pool.find?_eq_some_iff.2 ⟨i, e, he, rfl⟩
  exact (h.stored read asked hs forward seeded).start _ rfl ⟨load, base, g, only, hi, unwritten⟩

/-- A box is put into another one, and a field is read from it that nothing writes. -/
def emptyBox : String :=
  "method m() \x7b\n  b = new B\n  c.f = b\n  d = b.g\n  nop\n\x7d"

/-- The box, where it is read -/
def boxRead : Query := .backward ⟨.ofIndex ⟨"m"⟩ 3, ⟨"b", ⟨"m"⟩⟩⟩

/-- What was read from the box -/
def contentRead : Query := .backward ⟨.ofIndex ⟨"m"⟩ 4, ⟨"d", ⟨"m"⟩⟩⟩

/-- The box is found, and the solver that follows it has a label for the field in which it lies.
Nothing is found in the box. -/
theorem emptyBox_stored : ∃ program a x s t, Source.readProgram emptyBox = .ok program ∧
    Reachable program default [.solve contentRead] a ∧
    x ∈ a.allocationSites boxRead ∧ a.solver? x = some s ∧ t ∈ s.fields ∧ t.label = .named "f" ∧
    program.Writes t.label ∧ ¬ program.Writes (.named "g") ∧
    (a.solver? contentRead).isSome ∧ a.allocationSites contentRead = [] := by
  have checked : (Source.readProgram emptyBox).toOption.any fun program =>
      ((create program default).performAll [.solve contentRead]).toOption.any fun a =>
      (a.allocationSites boxRead).any fun x => (a.solver? x).any fun s =>
      s.fields.toList.any fun t => decide (x.direction = .forward ∧ t.label = .named "f" ∧
        program.instruction? (.ofIndex ⟨"m"⟩ 3) =
          some (.load ⟨"d", ⟨"m"⟩⟩ ⟨"b", ⟨"m"⟩⟩ (.named "g")) ∧
        ¬ program.Writes (.named "g") ∧
        program.predecessors (.ofIndex ⟨"m"⟩ 4) = [.ofIndex ⟨"m"⟩ 3] ∧
        (a.solver? contentRead).isSome) := by
    decide +kernel
  obtain ⟨program, read, h⟩ := exists_ok_of_any checked
  obtain ⟨a, called, h⟩ := exists_ok_of_any h
  obtain ⟨x, site, h⟩ := List.any_eq_true.1 h
  obtain ⟨s, hs, h⟩ := (Option.any_eq_true _ _).1 h
  obtain ⟨t, ht, h⟩ := List.any_eq_true.1 h
  obtain ⟨forward, label, load, unwritten, only, solved⟩ := of_decide_eq_true h
  have reachable := reachable_of_performAll called
  have asked : ∀ call ∈ [ClientCall.solve contentRead], ∀ q ∈ call.query?,
      q.direction = .backward := by decide
  obtain ⟨labels, nothing⟩ := fields_stored read reachable asked
  obtain silent | written := labels x s forward hs t ht
  · rw [label] at silent
    cases silent
  · exact ⟨program, a, x, s, t, read, reachable, site, hs, ht, label, written, unwritten, solved,
      nothing _ _ _ _ _ load unwritten only⟩

end Analysis

end PointsTo
