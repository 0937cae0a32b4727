import PointsTo.Proofs.Analysis.World
import PointsTo.Proofs.Program.Edges

/-!
# The world over a supply of names

Everything that an analysis ever builds is made of a finite supply of names: those of the program and
those that clients brought in. The world of all that can be built from a supply is closed
(`Supply.closed`), so an analysis never leaves it. Queries are those of clients, allocations, and
backward queries. As long as clients start queries in their direction only, forward queries arrive at
points with predecessors only, so they never come to a field read that they can not get past.
-/

namespace PointsTo

/-- The point follows another one, or is an entry, if one walks along the flow of control. -/
def Program.Arrives (p : Program) (direction : Direction) (point : Point) : Prop :=
  direction = .forward → (∃ previous, point ∈ p.successors previous) ∨ ∃ m, point ∈ p.entries m

theorem Program.arrives_of_successors {p : Program} {direction : Direction} {point next : Point}
    (h : next ∈ (⟨p, direction⟩ : Supergraph).successors point) : p.Arrives direction next := by
  rintro rfl
  exact .inl ⟨point, h⟩

theorem Program.arrives_of_startPoints {p : Program} {direction : Direction} {m : MethodName}
    {next : Point} (h : next ∈ (⟨p, direction⟩ : Supergraph).startPoints m) :
    p.Arrives direction next := by
  rintro rfl
  exact .inr ⟨m, h⟩

/-- A transition into an accepting state reads no field. -/
def FieldTransition.Accepts (t : FieldTransition) : Prop :=
  ∀ f, t.target = .alloc f → t.label = .epsilon

/-- Names and the queries of clients, some of which are started against their direction. -/
structure Supply (p : Program) where
  names : Names
  clients : Finset Query
  reversed : Finset Query
  program_le : p.names ≤ names
  epsilon : Field.epsilon ∈ names.fields
  client : ∀ q ∈ clients, names.Has q.fact
  reversed_sub : reversed ⊆ clients

namespace Supply

variable {p : Program} (S : Supply p)

inductive HasQuery : Query → Prop
  | client {q : Query} : q ∈ S.clients → HasQuery q
  | allocation {f : Fact} : S.names.Has f → HasQuery (.allocation p f)
  | backward {f : Fact} : S.names.Has f → HasQuery (.backward f)

structure HasCallSite (k : Point × Point) : Prop where
  site : k.1 ∈ S.names.points
  returnSite : k.2 ∈ p.successors k.1

/-- If no query is started against its direction, the point is arrived at. -/
def Arrives (direction : Direction) (point : Point) : Prop :=
  S.reversed.Nonempty ∨ p.Arrives direction point

/-- An access of the program whose flow goes on if no query is started against its direction. -/
structure GoesPast (access : FieldAccess) : Prop where
  accesses : p.Accesses access
  goes_on : S.reversed.Nonempty ∨
    (⟨p, access.direction⟩ : Supergraph).successors access.point ≠ []

def HasErrand : Errand → Prop
  | .importInto flow access _ target =>
    S.HasQuery flow ∧ p.Accesses access ∧ S.names.Has target
  | .flowAllocation site returnSite returned =>
    S.HasCallSite (site, returnSite) ∧ returned ∈ S.names.vars
  | .splice flow => S.HasQuery flow
  | .baseAllocation access => S.GoesPast access

structure HasSource (source : FlowSource) : Prop where
  query : S.HasQuery source.query
  returned : source.returned ∈ S.names.vars
  state : S.names.HasFieldState source.state

/-- Everything that can be built from the supply. -/
def world : World where
  ways := p.ways
  facts q := { S.names.facts with
    field := fun t => S.names.facts.field t ∧ t.Accepts
    call := fun t => S.names.facts.call t ∧ ∀ v, t.start = .single v → S.Arrives q.direction t.label
    callFlow := fun _ g => S.names.Has g ∧ S.Arrives q.direction g.point }
  query := S.HasQuery
  started := S.HasQuery
  watched := S.HasQuery
  base access q := S.GoesPast access ∧ S.HasQuery q
  flow access q := p.Accesses access ∧ S.HasQuery q
  visits q e state := S.HasQuery q ∧ S.HasErrand e ∧ S.names.HasFieldState state
  callSite := S.HasCallSite
  returned k e := S.HasCallSite k ∧ S.HasSource e.1 ∧ S.HasQuery e.2
  bypassed k e := S.HasCallSite k ∧ S.HasQuery e.1 ∧ e.2 ∈ S.names.vars

def realm : Realm := { S.world with reversed := (· ∈ S.reversed) }

variable {S}

theorem has_fact {q : Query} (h : S.HasQuery q) : S.names.Has q.fact := by
  cases h with
  | client h => exact S.client q h
  | allocation h => exact h
  | backward h => exact h

theorem ways_rule {d : Direction} {f : Fact} {r : Rule} (h : (p.ways d).rule f r) :
    S.names.ways.rule f r ∧ S.Arrives d r.target.point := by
  obtain ⟨allocated, h⟩ := h
  refine ⟨?_, .inr ?_⟩
  · have stays := Propagation.stays_of_mem_rules h
    have le := S.program_le
    exact ⟨le.1 stays.point, stays.var.imp_right (@le.2.1 _), fun hg => le.2.2 (stays.field hg),
      fun hs => le.1 (stays.site hs)⟩
  · obtain ⟨i, -, h | ⟨w, e, -, ⟨-, h⟩ | ⟨-, next, hn, rfl⟩⟩⟩ := Propagation.mem_rules_iff.1 h
    · obtain ⟨method, start, w, hs, -, rfl⟩ := Propagation.mem_entering h
      exact Program.arrives_of_startPoints hs
    · obtain ⟨site, dest, callee, args, returnSite, w', -, -, hr, -, rfl⟩ :=
        Propagation.mem_exitRules_iff.1 h
      exact Program.arrives_of_successors hr
    · exact Program.arrives_of_successors hn

theorem ways_tell {d : Direction} {f : Fact} {a : Announcement} (h : (p.ways d).tell f a) :
    (∃ site fact, a = .returned site fact ∧ S.HasCallSite (site, fact.point) ∧
      fact.var ∈ S.names.vars) ∨
    ∃ returnSite, a = .bypassed f.point returnSite f.var ∧ S.HasCallSite (f.point, returnSite) := by
  obtain ⟨allocated, h⟩ := h
  have le := S.program_le
  obtain ⟨rfl, h⟩ := Propagation.mem_announcements h
  obtain ⟨site, fact, _, _, _, rfl, hs, hi, hv⟩ | ⟨returnSite, hr, rfl, _, _, _, hi⟩ := h
  · obtain ⟨hp, vars, -⟩ := Program.instruction?_eq_some hi
    exact .inl ⟨site, fact, rfl, ⟨le.1 hp, hs⟩, le.2.1 (vars _ hv)⟩
  · exact .inr ⟨returnSite, rfl, le.1 (Program.instruction?_eq_some hi).1, hr⟩

theorem facts_closed (q : Query) : (S.world.facts q).Closed (S.world.ways q.direction) := by
  have closed := S.names.closed
  have live {f : Fact} : (S.world.facts q).live f → S.names.facts.live f := fun ⟨c, hc, _⟩ => ⟨c, hc⟩
  have enters {f : Fact} {c : CallState} (hf : S.names.facts.enters f c)
      (ha : S.Arrives q.direction f.point) : (S.world.facts q).enters f c := ⟨hf, fun _ _ => ha⟩
  have rule {f : Fact} {r : Rule} (hr : (S.world.ways q.direction).rule f r) := ways_rule (S := S) hr
  exact {
    keep := fun hf hr e ht => ⟨closed.keep (live hf) (rule hr).1 e ht.1, ht.2⟩
    push := fun hf hr e ht =>
      have ⟨h₁, h₂⟩ := closed.push (live hf) (rule hr).1 e ht.1
      ⟨⟨h₁, fun _ e => by cases e⟩, h₂, ht.2⟩
    pop := fun hf hr e ht => closed.pop (live hf) (rule hr).1 e ht.1
    takeOver := fun hf ht => ⟨closed.takeOver hf ht.1, ht.2⟩
    fieldFlow := fun hg ht => ⟨closed.fieldFlow hg ht.1, ht.2⟩
    stay := fun hf hr e => enters (closed.stay hf.1 (rule hr).1 e) (rule hr).2
    enter := fun hf hr e =>
      have ⟨h₁, h₂⟩ := closed.enter hf.1 (rule hr).1 e
      ⟨enters h₁ (rule hr).2, h₂, fun _ e => by cases e⟩
    leave := fun hf hr e ht => enters (closed.leave hf.1 (rule hr).1 e ht.1) (rule hr).2
    leaveBottom := fun hf hr e ho =>
      have ⟨h₁, h₂⟩ := closed.leaveBottom hf.1 (rule hr).1 e ho
      ⟨enters h₁ (rule hr).2, h₂⟩
    callFlow := fun hg hf => enters (closed.callFlow hg.1 hf.1) hg.2
    productive := fun ht => closed.productive ht.1 }

/-- A forward query does not get to an access that it can not get past. -/
theorem goesPast {q : Query} {access : FieldAccess} (hd : q.direction = .forward)
    (accesses : p.Accesses access) (hf : (S.world.facts q).live access.baseFact) :
    S.GoesPast access := by
  refine ⟨accesses, ?_⟩
  obtain ⟨kind, point, base, field, value⟩ := access
  cases kind with
  | write =>
    exact .inr (Program.successors_ne_nil (i := .store base field value) accesses
      (by simp [Instruction.isReturn]))
  | read =>
    obtain ⟨c, -, ha⟩ := hf
    have ha : S.Arrives q.direction point := ha base rfl
    refine ha.imp_right fun ha => ?_
    obtain ⟨previous, hp⟩ | ⟨m, hm⟩ := ha hd
    · exact List.ne_nil_of_mem (Program.mem_predecessors.2 hp)
    · have e : p.instruction? point = some (.load value base field) := accesses
      rw [Program.instruction?_of_mem_entries hm] at e
      cases e

theorem has_access {access : FieldAccess} (h : p.Accesses access) :
    S.names.Has access.baseFact ∧ S.names.Has access.fact ∧ access.field ∈ S.names.fields := by
  obtain ⟨i, hi, base, value, field⟩ := h.exists_instruction
  obtain ⟨hp, vars, fields⟩ := Program.instruction?_eq_some hi
  have le := S.program_le
  exact ⟨⟨le.1 hp, le.2.1 (vars _ base)⟩, ⟨le.1 hp, le.2.1 (vars _ value)⟩, le.2.2 (fields _ field)⟩

theorem has_import {access : FieldAccess} {i : Point × List Point} {point : Point}
    (hi : i ∈ access.imports p) (hm : point ∈ i.2) :
    point ∈ S.names.points ∧ S.Arrives access.direction point := by
  obtain ⟨successor, -⟩ := FieldAccess.successor_of_mem_imports hi hm
  exact ⟨S.program_le.1 (Supergraph.mem_points_of_successors successor),
    .inr (Program.arrives_of_successors successor)⟩

theorem has_rename {source target : Fact} {state : FieldState} (ht : S.names.Has target)
    (h : S.names.HasFieldState state) : S.names.HasFieldState (state.rename source target) :=
  FieldState.rename_of h ht

/-- A query may begin at all points next to its seed. -/
theorem begins {q : Query} {d : Direction} {next : Point} (hs : S.names.Has q.fact)
    (hn : next ∈ (⟨p, d⟩ : Supergraph).successors q.fact.point)
    (arrives : ∀ v, CallState.single q.fact.var = .single v → S.Arrives q.direction next) :
    (Operation.solve ⟨next, q.fact.var⟩).Grants q.fact (S.world.facts q) := by
  have ht : S.names.Has ⟨next, q.fact.var⟩ :=
    ⟨S.program_le.1 (Supergraph.mem_points_of_successors hn), hs.2⟩
  exact ⟨⟨⟨ht, S.epsilon, hs⟩, fun _ _ => rfl⟩, ⟨ht.2, ht.1, hs.2⟩, arrives⟩

/-- Whatever the handlers of events add is made of the names of the supply. -/
theorem world_closed (config : Config) : S.world.Closed p config where
  covers := p.covers_ways
  facts _ := facts_closed _
  opened _ := trivial
  productive _ := trivial
  started {q} hq := by
    have hs := has_fact hq
    refine ⟨hq, fun next hn => ?_⟩
    exact begins hs hn fun _ _ => .inr (Program.arrives_of_successors hn)
  allocation {q f} _ _ hf _ := by
    obtain ⟨⟨c, hc, -⟩, -⟩ := hf
    exact ⟨.allocation ⟨hc.2.1, hc.1⟩, .allocation ⟨hc.2.1, hc.1⟩⟩
  watched _ _ _ := trivial
  value hq _ ha _ := ⟨.backward (has_access ha).1, ha, hq⟩
  writeBase hq hd ha _ hf _ := ⟨goesPast hd ha hf.1, hq⟩
  readBase hq hd ha _ _ hf := ⟨hq, goesPast hd ha hf.1, (has_access ha).1⟩
  pair {access base flow} hb hf hd := {
    hasBase := hb.2
    hasFlow := hf.2
    visits := fun hi _ ht hm => by
      have hs : S.names.Has _ := ht.1.1
      exact ⟨hb.2, ⟨hf.2, hf.1, (has_import hi hm).1, hs.2⟩, hs⟩
    connects := fun hi _ ht hm _ => by
      have hs : S.names.Has _ := ht.1.1
      have ⟨hp, ha⟩ := has_import (S := S) hi hm
      exact ⟨⟨hp, hs.2⟩, hd ▸ ha⟩ }
  visit {q e t} hv ht := by
    obtain ⟨hq, he, -⟩ := hv
    obtain ⟨⟨hs, hl, hg⟩, accepts⟩ := ht
    refine ⟨⟨hq, he, hg⟩, ?_⟩
    cases e with
    | importInto flow access source target =>
      obtain ⟨-, ha, htarget⟩ := he
      refine ⟨⟨⟨has_rename htarget hs, hl, has_rename htarget hg⟩, fun f e => accepts f ?_⟩,
        fun _ _ => ⟨⟨has_rename htarget hs, (has_access ha).2.2, (has_access ha).2.1⟩,
          fun _ e => by cases e⟩⟩
      exact FieldState.rename_eq_alloc_iff.1 e
    | flowAllocation site returnSite returned =>
      intro fact e _
      rw [e] at hg
      exact ⟨he.1, ⟨hq, he.2, hs⟩, .allocation hg⟩
    | splice flow => exact ⟨⟨hs, hl, hg⟩, accepts⟩
    | baseAllocation access => exact fun _ => ⟨he, hq⟩
  returned {q f site fact} hq hf ht := by
    obtain ⟨site', fact', e, hk, hv⟩ | ⟨returnSite, e, -⟩ := ways_tell (S := S) ht
    · obtain ⟨rfl, rfl⟩ : site = site' ∧ fact = fact' := by simpa using e
      have hp := S.program_le.1 (Program.mem_points_of_successors hk.returnSite)
      exact ⟨hk, hq, ⟨hk, hv⟩, hp, hv⟩
    · cases e
  bypassed {q f site returnSite v} hq hf ht := by
    obtain ⟨c, hc, -⟩ := hf
    obtain ⟨_, _, e, -⟩ | ⟨returnSite', e, hk⟩ := ways_tell (S := S) ht
    · cases e
    · obtain ⟨rfl, rfl, rfl⟩ : site = f.point ∧ returnSite = returnSite' ∧ v = f.var := by
        simpa using e
      exact ⟨hk, hk, hq, hc.1⟩
  activation {site returnSite source bypassing v} hr hb _ := by
    obtain ⟨hk, hs, hq⟩ := hr
    obtain ⟨-, -, hv⟩ := hb
    have hp := S.program_le.1 (Program.mem_points_of_successors hk.returnSite)
    exact {
      hasBypassing := hq
      hasFlow := hs.query
      visits := ⟨hq, hs.query, hp, hv⟩
      pop := fun _ => ⟨hp, hv⟩
      fieldFlow := ⟨hp, hv⟩
      callFlow := ⟨⟨hp, hv⟩, .inr fun _ => .inl ⟨site, hk.returnSite⟩⟩ }

theorem closed (config : Config) : S.realm.Closed p config where
  toClosed := S.world_closed config
  begins {q} hq := by
    have hs := S.client q (S.reversed_sub hq)
    exact ⟨.client (S.reversed_sub hq), fun _ _ hn => begins hs hn fun _ _ => .inl ⟨q, hq⟩⟩
  goes_on hb _ _ := hb.1.goes_on.imp_left id

theorem not_reversed (proper : S.reversed = ∅) (q : Query) : ¬ S.realm.reversed q := fun hq => by
  have hq : q ∈ S.reversed := hq
  simp [proper] at hq

theorem not_lax (proper : S.reversed = ∅) : ¬ S.realm.Lax := fun ⟨q, hq⟩ => not_reversed proper q hq

/-! ## Clients -/

variable (p) in
/-- The names of the program, before any client brings in more. -/
def ofProgram : Supply p where
  names := { p.names with fields := insert .epsilon p.names.fields }
  clients := ∅
  reversed := ∅
  program_le := ⟨fun _ => id, fun _ => id, Finset.subset_insert _ _⟩
  epsilon := Finset.mem_insert_self _ _
  client := by simp
  reversed_sub := Finset.Subset.refl _

/-- The supply after a client has brought in a query, to be started in the direction. -/
def add (S : Supply p) (d : Direction) (q : Query) : Supply p where
  names := { S.names with
    points := insert q.fact.point S.names.points
    vars := insert q.fact.var S.names.vars }
  clients := insert q S.clients
  reversed := if d = q.direction then S.reversed else insert q S.reversed
  program_le :=
    ⟨S.program_le.1.trans (Finset.subset_insert _ _), S.program_le.2.1.trans (Finset.subset_insert _ _),
      S.program_le.2.2⟩
  epsilon := S.epsilon
  client q' hq := by
    obtain rfl | hq := Finset.mem_insert.1 hq
    · exact ⟨Finset.mem_insert_self _ _, Finset.mem_insert_self _ _⟩
    · exact (S.client q' hq).imp (Finset.mem_insert_of_mem ·) (Finset.mem_insert_of_mem ·)
  reversed_sub := by
    split
    · exact S.reversed_sub.trans (Finset.subset_insert _ _)
    · exact Finset.insert_subset_insert _ S.reversed_sub

variable (S) (d : Direction) (q : Query)

theorem names_le_add : S.names ≤ (S.add d q).names :=
  ⟨Finset.subset_insert _ _, Finset.subset_insert _ _, fun _ => id⟩

theorem reversed_sub_add : S.reversed ⊆ (S.add d q).reversed := by
  unfold add
  dsimp only
  split
  · exact Finset.Subset.refl _
  · exact Finset.subset_insert _ _

variable {S d q}

theorem HasQuery.add {q' : Query} (h : S.HasQuery q') : (S.add d q).HasQuery q' := by
  cases h with
  | client h => exact .client (Finset.mem_insert_of_mem h)
  | allocation h => exact .allocation (h.mono (S.names_le_add d q))
  | backward h => exact .backward (h.mono (S.names_le_add d q))

/-- The query may be started in the direction for which it was brought in. -/
theorem starts_add : (S.add d q).realm.Starts d q := by
  by_cases e : d = q.direction
  · exact .inl ⟨.client (Finset.mem_insert_self _ _), e⟩
  · have : q ∈ (S.add d q).reversed := by
      simp only [add, if_neg e, Finset.mem_insert, true_or]
    exact .inr this

variable (S d q)

/-- A larger supply makes a larger realm. -/
theorem realm_sub_add : S.realm.Sub (S.add d q).realm := by
  have le := S.names_le_add d q
  have facts := Names.facts_mono le
  have site {k : Point × Point} (h : S.HasCallSite k) : (S.add d q).HasCallSite k :=
    ⟨le.1 h.site, h.returnSite⟩
  have lax (h : S.reversed.Nonempty) : (S.add d q).reversed.Nonempty :=
    h.mono (S.reversed_sub_add d q)
  have past {access : FieldAccess} (h : S.GoesPast access) : (S.add d q).GoesPast access :=
    ⟨h.accesses, h.goes_on.imp_left lax⟩
  have errand {e : Errand} (h : S.HasErrand e) : (S.add d q).HasErrand e := by
    cases e with
    | importInto flow access source target => exact ⟨h.1.add, h.2.1, h.2.2.mono le⟩
    | flowAllocation site' returnSite returned => exact ⟨site h.1, le.2.1 h.2⟩
    | splice flow => exact HasQuery.add h
    | baseAllocation access => exact past h
  exact {
    facts := fun _ => { facts with
      field := fun t ht => ⟨facts.field t ht.1, ht.2⟩
      call := fun t ht => ⟨facts.call t ht.1, fun v e => (ht.2 v e).imp_left lax⟩
      callFlow := fun f g hg => ⟨facts.callFlow f g hg.1, hg.2.imp_left lax⟩ }
    query := .add
    started := .add
    watched := .add
    base := fun h => ⟨past h.1, h.2.add⟩
    flow := .imp_right .add
    visits := fun h => ⟨h.1.add, errand h.2.1, h.2.2.mono le⟩
    callSite := site
    returned := fun h => ⟨site h.1, ⟨h.2.1.query.add, le.2.1 h.2.1.returned, h.2.1.state.mono le⟩,
      h.2.2.add⟩
    bypassed := fun h => ⟨site h.1, h.2.1.add, le.2.1 h.2.2⟩
    reversed := fun h => S.reversed_sub_add d q h }

end Supply

end PointsTo
