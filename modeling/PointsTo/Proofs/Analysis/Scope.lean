import PointsTo.Proofs.Analysis.Reachable
import PointsTo.Proofs.Analysis.Splicing

/-!
# Facts stay in scope

Facts are put together from points and variables of different places: parameters of callees, arguments
of callers, return sites, and aliases that another solver has found. In a program that was read, all
of them are in scope nevertheless (`facts_inScope`), if the queries of clients are. The realm in which
all facts are in scope is closed (`confined_closed`): rules change the point and the variable together,
and what is carried from one point to another stays in its method (`InScope.along`).
-/

namespace PointsTo

namespace Program

variable (p : Program)

/-- A frame is that of a callee that was entered with a variable of its own. -/
def FrameInScope : CallState → Prop
  | .generated v point => p.InScope ⟨point, v⟩
  | .single _ | .initial _ => True

/-- A call transition at a point of the program: what it leads from is in scope there, and so are
frames where they were entered. -/
structure CallInScope (t : CallTransition) : Prop where
  label : (p.instruction? t.label).isSome
  single : ∀ v, t.start = .single v → p.InScope ⟨t.label, v⟩
  start : p.FrameInScope t.start
  target : p.FrameInScope t.target

variable {p}

theorem CallInScope.enters {f : Fact} {c : CallState} (hf : p.InScope f) (hc : p.FrameInScope c) :
    p.CallInScope ⟨.single f.var, f.point, c⟩ where
  label := hf.1
  single := fun _ e => CallState.single.inj e ▸ hf
  start := trivial
  target := hc

/-- A callee that is entered at a fact in scope has its frame there. -/
theorem CallInScope.frame {f : Fact} {site : Point} {c : CallState} (hf : p.InScope f)
    (hs : (p.instruction? site).isSome) (hc : p.FrameInScope c) :
    p.CallInScope ⟨.generated f.var f.point, site, c⟩ where
  label := hs
  single := fun _ => nofun
  start := hf
  target := hc

end Program

/-! ## The realm of facts in scope -/

section Confined

variable (p : Program)

def confinedFacts : Facts where
  field t := p.InScope t.start.fact ∧ p.InScope t.target.fact
  call := p.CallInScope
  pop _ f := p.InScope f
  fieldFlow _ f := p.InScope f
  callFlow _ f := p.InScope f
  opened _ := True
  productive _ := True

/-- All facts are in scope, those that errands and records are about as well. -/
def confined : Realm where
  ways := p.ways
  facts _ := confinedFacts p
  query q := p.InScope q.fact
  started q := p.InScope q.fact
  watched _ := True
  base _ q := p.InScope q.fact
  flow access q := p.Accesses access ∧ p.InScope q.fact
  visits q e _ := p.InScope q.fact ∧
    match e with
    | .importInto _ access _ target => p.Accesses access ∧ p.InScope target
    | .flowAllocation _ returnSite returned => p.InScope ⟨returnSite, returned⟩
    | .splice _ | .baseAllocation _ => True
  callSite _ := True
  returned k e := p.InScope e.1.query.fact ∧ p.InScope ⟨k.2, e.1.returned⟩
  bypassed k e := p.InScope e.1.fact ∧ p.InScope ⟨k.2, e.2⟩
  reversed q := p.InScope q.fact

variable {p}

theorem inScope_of_live {f : Fact} (h : (confinedFacts p).live f) : p.InScope f :=
  have ⟨_, hc⟩ := h
  hc.single f.var rfl

theorem inScope_rename {source target : Fact} {state : FieldState} (h : p.InScope state.fact)
    (ht : p.InScope target) : p.InScope (state.rename source target).fact :=
  FieldState.rename_of (P := (p.InScope ·.fact)) h ht

/-- An alias is imported to points of the method where it is found. -/
theorem inScope_import {access : FieldAccess} {i : Point × List Point} {point : Point} {v : Var}
    (hi : i ∈ access.imports p) (hv : p.InScope ⟨i.1, v⟩) (hm : point ∈ i.2) :
    p.InScope ⟨point, v⟩ := by
  obtain ⟨-, rfl | next⟩ := FieldAccess.successor_of_mem_imports hi hm
  · exact hv
  · exact hv.along next

/-- A query may begin next to its seed. -/
theorem confined_begins {q : Query} {d : Direction} {next : Point} (hq : p.InScope q.fact)
    (hn : next ∈ (⟨p, d⟩ : Supergraph).successors q.fact.point) :
    (Operation.solve ⟨next, q.fact.var⟩).Grants q.fact (confinedFacts p) :=
  ⟨⟨hq.along hn, hq⟩, .enters (hq.along hn) trivial⟩

theorem inScope_bypassed {d : Direction} {f : Fact} {site returnSite : Point} {v : Var}
    (hf : p.InScope f) (ht : (p.ways d).tell f (.bypassed site returnSite v)) :
    p.InScope ⟨returnSite, v⟩ :=
  have ⟨_, ht⟩ := ht
  have past := Propagation.inScope_of_bypassed ht hf
  past

variable (sealed : p.Local)
include sealed

/-- The base and the value of a field access are in scope there. -/
theorem inScope_access {access : FieldAccess} (h : p.Accesses access) :
    p.InScope access.baseFact ∧ p.InScope access.fact := by
  obtain ⟨i, hi, base, value, -⟩ := h.exists_instruction
  exact ⟨sealed.inScope hi base, sealed.inScope hi value⟩

theorem inScope_rule {d : Direction} {f : Fact} {r : Rule} (hf : p.InScope f)
    (hr : (p.ways d).rule f r) : p.InScope r.target :=
  have ⟨_, hr⟩ := hr
  have target := Propagation.inScope_of_mem_rules hr sealed hf
  target

theorem inScope_returned {d : Direction} {f : Fact} {site : Point} {fact : Fact}
    (ht : (p.ways d).tell f (.returned site fact)) : p.InScope fact :=
  have ⟨_, ht⟩ := ht
  have back := Propagation.inScope_of_returned ht sealed
  back

theorem confinedFacts_closed (d : Direction) : (confinedFacts p).Closed (p.ways d) where
  keep hf hr _ ht := ⟨inScope_rule sealed (inScope_of_live hf) hr, ht.2⟩
  push hf hr _ ht :=
    have target := inScope_rule sealed (inScope_of_live hf) hr
    ⟨⟨target, target⟩, target, ht.2⟩
  pop hf hr _ _ := inScope_rule sealed (inScope_of_live hf) hr
  takeOver hf ht := ⟨hf, ht.2⟩
  fieldFlow hg ht := ⟨hg, ht.2⟩
  stay hf hr _ := .enters (inScope_rule sealed (inScope_of_live ⟨_, hf⟩) hr) hf.target
  enter {f r site c} hf hr e := by
    have target := inScope_rule sealed (inScope_of_live ⟨_, hf⟩) hr
    obtain ⟨_, hr⟩ := hr
    have hs : site ∈ p.names.points := (Propagation.stays_of_mem_rules hr).site (.inl e)
    exact ⟨.enters target target, .frame target (Program.mem_points_iff.1 hs) hf.target⟩
  leave hf hr _ ht := .enters (inScope_rule sealed (inScope_of_live ⟨_, hf⟩) hr) ht.target
  leaveBottom hf hr _ _ :=
    ⟨.enters (inScope_rule sealed (inScope_of_live ⟨_, hf⟩) hr) trivial, trivial⟩
  callFlow hg hf := .enters hg hf.target
  productive _ _ := trivial

/-- Nothing that follows from events leads out of scope. -/
theorem confined_closed (config : Config) : (confined p).Closed p config where
  covers := p.covers_ways
  facts {q} _ := confinedFacts_closed sealed q.direction
  opened _ := trivial
  productive _ := trivial
  started hq := ⟨hq, fun _ hn => confined_begins hq hn⟩
  allocation _ _ hf _ := ⟨inScope_of_live hf.1, trivial⟩
  watched _ _ _ := trivial
  value hq _ ha _ := ⟨(inScope_access sealed ha).1, ha, hq⟩
  writeBase hq _ _ _ _ _ := hq
  readBase hq _ _ _ _ _ := ⟨hq, trivial⟩
  pair hb hf _ := {
    hasBase := hb
    hasFlow := hf.2
    visits := by
      intro i v l q point hi _ ht hm
      exact ⟨hb, hf.1, inScope_import hi ht.1 hm⟩
    connects := by
      intro i v l q point hi _ ht hm _
      exact inScope_import hi ht.1 hm }
  visit {q e t} hv ht := by
    refine ⟨hv, ?_⟩
    obtain ⟨hq, he⟩ := hv
    cases e with
    | importInto flow access source target =>
      obtain ⟨accesses, imported⟩ := he
      have start : p.InScope (t.start.rename source target).fact := inScope_rename ht.1 imported
      refine ⟨⟨start, inScope_rename ht.2 imported⟩, fun _ _ => ?_⟩
      exact ⟨start, (inScope_access sealed accesses).2⟩
    | flowAllocation site returnSite returned =>
      intro fact _ _
      exact ⟨hq, he⟩
    | splice flow => exact ht
    | baseAllocation access =>
      intro _
      exact hq
  returned hq _ ht := ⟨trivial, hq, inScope_returned sealed ht⟩
  bypassed hq hf ht := ⟨trivial, hq, inScope_bypassed (inScope_of_live hf) ht⟩
  activation hr hb _ := ⟨hb.1, hr.1, ⟨hb.1, trivial⟩, fun _ => hb.2, hb.2, hb.2⟩
  begins hq := ⟨hq, fun _ _ hn => confined_begins hq hn⟩
  goes_on {_ base _} hb _ _ := .inl ⟨base, hb⟩

end Confined

namespace Analysis

variable {p : Program} {config : Config} {calls : List ClientCall} {a : Analysis} {q : Query}
  {s : Solver} {source : String}

/-- In a program that was read, if clients ask about facts in scope, every solver of every reachable
state keeps to facts in scope: in the states of its field automaton, at the labels of its call
automaton, which are points of the program, and in the frames of callees. -/
theorem facts_inScope (read : Source.readProgram source = .ok p) (h : Reachable p config calls a)
    (asked : ∀ call ∈ calls, ∀ q ∈ call.query?, p.InScope q.fact) (hs : a.solver? q = some s) :
    p.InScope s.seed ∧
    (∀ t ∈ s.fields, p.InScope t.start.fact ∧ p.InScope t.target.fact) ∧
    ∀ t ∈ s.calls, (p.instruction? t.label).isSome ∧
      (∀ v, t.start = .single v → p.InScope ⟨t.label, v⟩) ∧
      ∀ v point, t.start = .generated v point ∨ t.target = .generated v point →
        p.InScope ⟨point, v⟩ := by
  have closed := confined_closed (Source.readProgram_local read) config
  obtain ⟨i, e, he, rfl⟩ := Pool.find?_eq_some_iff.1 hs
  have host := (h.within closed (fun _ _ _ _ _ => trivial) asked).host he
  refine ⟨host.seed ▸ host.query, host.below.field, fun t ht => ?_⟩
  have call : p.CallInScope t := host.below.call t ht
  refine ⟨call.label, call.single, fun v point frame => ?_⟩
  obtain start | target := frame
  · exact (start ▸ call.start : p.FrameInScope (.generated v point))
  · exact (target ▸ call.target : p.FrameInScope (.generated v point))

/-- In the callee the content lies in the parameter, below the frame in which it was entered. -/
theorem crated_inScope : ∃ program a s, Source.readProgram crated = .ok program ∧
    Reachable program default [.solve content] a ∧ program.InScope content.fact ∧
    a.solver? content = some s ∧ program.InScope s.seed ∧
    insideCallee ∈ s.fields ∧ program.InScope insideCallee.start.fact ∧
    program.InScope insideCallee.target.fact ∧
    calleeFrame ∈ s.calls ∧ (program.instruction? calleeFrame.label).isSome ∧
    program.InScope ⟨.ofIndex ⟨"id"⟩ 0, ⟨"x", ⟨"id"⟩⟩⟩ := by
  obtain ⟨program, a, s, run⟩ := exists_crated
  have reachable := reachable_of_performAll run.called
  have asked : ∀ call ∈ [ClientCall.solve content], ∀ q ∈ call.query?, program.InScope q.fact := by
    simpa [ClientCall.query?] using run.inScope
  obtain ⟨seed, fields, calls⟩ := facts_inScope run.read reachable asked run.solver
  obtain ⟨label, -, frame⟩ := calls _ run.calleeFrame
  obtain ⟨start, target⟩ := fields _ run.insideCallee
  exact ⟨program, a, s, run.read, reachable, run.inScope, run.solver, seed, run.insideCallee, start,
    target, run.calleeFrame, label, frame _ _ (.inl rfl)⟩

end Analysis

end PointsTo
