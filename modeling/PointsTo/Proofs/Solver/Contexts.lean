import PointsTo.Proofs.Paths
import PointsTo.Proofs.Solver.Least

/-!
# The call automaton is exact

Rules are followed one after another with a stack of call sites: a rule into a callee pushes its call
site, and a rule out of a callee pops it. With an empty stack there is nothing to pop; then a rule out
of a method may be followed if the method is open. What holds along the rules (`FollowsRules`) holds of
every fact in every context of a call automaton (`contextFacts_closed`).

`Reaches` is the least such relation, together with the methods that are `Open`, as a method gets open
when it is returned into with an empty stack. The call automaton of a solver that was only asked to
solve accepts a stack at a fact if and only if the fact is reached with this stack
(`Solver.accepts_iff_reaches`).
-/

namespace PointsTo

/-! ## Along the rules -/

section Rules

variable (W : Ways) (R : Fact → List Point → Prop) (O : MethodName → Prop)

/-- The relation of facts to stacks holds on wherever the rules lead, and methods get open on the
way. -/
structure FollowsRules : Prop where
  stay : ∀ {f r w}, R f w → W.rule f r → r.call = .stay → R r.target w
  enter : ∀ {f r site w}, R f w → W.rule f r → r.call = .enter site → R r.target (site :: w)
  leave : ∀ {f r site w}, R f (site :: w) → W.rule f r → r.call = .leave site → R r.target w
  leaveBottom : ∀ {f r site}, R f [] → W.rule f r → r.call = .leave site → O f.point.method →
    R r.target [] ∧ O r.target.point.method

/-- The stacks that a call state stands for. -/
def Stands : CallState → List Point → Prop
  | .single _, _ => False
  | .initial _, w => w = []
  | .generated v point, w => R ⟨point, v⟩ w

/-- The transitions that agree with the relation: their target stands for some stack, and with every
such stack it holds of what they start from. -/
def contextFacts : Facts where
  field _ := True
  call t := (∃ w, Stands R t.target w) ∧ match t.start with
    | .single v => ∀ w, Stands R t.target w → R ⟨t.label, v⟩ w
    | .initial _ => False
    | .generated v point => ∀ w, Stands R t.target w → R ⟨point, v⟩ (t.label :: w)
  pop _ _ := True
  fieldFlow _ _ := True
  callFlow _ _ := False
  opened := O
  productive _ := True

variable {W R O}

theorem contextFacts_closed (h : FollowsRules W R O) : (contextFacts R O).Closed W where
  keep := fun _ _ _ _ => trivial
  push := fun _ _ _ _ => ⟨trivial, trivial⟩
  pop := fun _ _ _ _ => trivial
  takeOver := fun _ _ => trivial
  fieldFlow := fun _ _ => trivial
  stay := fun ⟨hc, hf⟩ hr e => ⟨hc, fun w hw => h.stay (hf w hw) hr e⟩
  enter := fun ⟨⟨w, hw⟩, hf⟩ hr e =>
    ⟨⟨⟨_, h.enter (hf w hw) hr e⟩, fun _ hw => hw⟩, ⟨w, hw⟩, fun w hw => h.enter (hf w hw) hr e⟩
  leave := fun ⟨_, hf⟩ hr e ⟨hc, ht⟩ => ⟨hc, fun w hw => h.leave (hf _ (ht w hw)) hr e⟩
  leaveBottom := fun ⟨hc, hf⟩ hr e hm =>
    have ⟨holds, opened⟩ := h.leaveBottom (hf [] rfl) hr e hm
    ⟨⟨hc, fun _ hw => hw ▸ holds⟩, opened⟩
  callFlow := fun h _ => h.elim
  productive := fun _ _ => trivial

end Rules

/-! ## Reached facts -/

section Reaches

variable (p : Propagation) (seed : Fact) (starts : List Fact)

mutual

/-- The fact is reached from a start with this stack of call sites. -/
inductive Reaches : Fact → List Point → Prop
  | start {f} : f ∈ starts → Reaches f []
  | stay {f r w} : Reaches f w → r ∈ (p.flow f).rules → r.call = .stay → Reaches r.target w
  | enter {f r site w} : Reaches f w → r ∈ (p.flow f).rules → r.call = .enter site →
      Reaches r.target (site :: w)
  | leave {f r site w} : Reaches f (site :: w) → r ∈ (p.flow f).rules → r.call = .leave site →
      Reaches r.target w
  | leaveBottom {f r site} : Reaches f [] → r ∈ (p.flow f).rules → r.call = .leave site →
      Open f.point.method → Reaches r.target []

/-- The method may be left with an empty stack: it is the method of the seed, or it was returned
into with an empty stack. -/
inductive Open : MethodName → Prop
  | seed : Open seed.point.method
  | returned {f r site} : Reaches f [] → r ∈ (p.flow f).rules → r.call = .leave site →
      Open f.point.method → Open r.target.point.method

end

end Reaches

namespace Solver

/-- The call automaton accepts the stack at the fact. -/
def Accepts (s : Solver) (seed f : Fact) (w : List Point) : Prop :=
  ∃ c, ⟨.single f.var, f.point, c⟩ ∈ s.calls ∧ s.calls.Path (.initial seed.var) c w

section Exact

variable {p : Propagation} {seed : Fact} {starts : List Fact}

/-! ## Every accepted stack is reached -/

theorem followsRules_reaches : FollowsRules p.ways (Reaches p seed starts) (Open p seed starts) where
  stay := .stay
  enter := .enter
  leave := .leave
  leaveBottom := fun h hr e hm => ⟨.leaveBottom h hr e hm, .returned h hr e hm⟩

theorem contextFacts_granted : Granted seed (starts.map .solve)
    (contextFacts (Reaches p seed starts) (Open p seed starts)) where
  opened := .seed
  productive := trivial
  grants := by
    intro o ho
    obtain ⟨f, hf, rfl⟩ := List.mem_map.1 ho
    exact ⟨trivial, ⟨[], rfl⟩, fun _ hw => hw ▸ .start hf⟩

variable {s : Solver} (least : Facts.Least p.ways (Granted seed (starts.map .solve)) s.facts)
include least

/-- A stack that the automaton reads from a state is one that the state stands for. -/
theorem stands_of_path {c : CallState} {w : List Point}
    (h : s.calls.Path (.initial seed.var) c w) :
    Stands (Reaches p seed starts) c w ∨ ∃ v, c = .single v := by
  induction h with
  | nil => exact .inl rfl
  | @cons t w ht _ ih =>
    obtain ⟨⟨_, hc⟩, hf⟩ :=
      (least.sub (contextFacts_closed followsRules_reaches) contextFacts_granted).call t ht
    obtain ⟨start, l, target⟩ := t
    have stands := ih.resolve_right fun ⟨v, e⟩ => by
      rw [e] at hc
      exact hc
    cases start with
    | single v => exact .inr ⟨v, rfl⟩
    | initial v => exact hf.elim
    | generated v point => exact .inl (hf w stands)

/-! ## Every stack that is reached is accepted -/

theorem accepts_of_reaches {f : Fact} {w : List Point} (h : Reaches p seed starts f w) :
    s.Accepts seed f w := by
  have transition {t} (ht : t ∈ s.calls) :=
    (least.sub (contextFacts_closed followsRules_reaches) contextFacts_granted).call t ht
  refine @Reaches.rec p seed starts (fun f w _ => s.Accepts seed f w) (fun m _ => m ∈ s.unbalanced)
    ?start ?stay ?enter ?leave ?leaveBottom ?seed ?returned f w h
  case start =>
    intro f hf
    have := least.meets.grants (.solve f) (List.mem_map_of_mem hf)
    exact ⟨.initial seed.var, this.2, .nil⟩
  case stay =>
    intro f r w _ hr e ⟨c, hc, hp⟩
    exact ⟨c, least.closed.stay hc hr e, hp⟩
  case enter =>
    intro f r site w _ hr e ⟨c, hc, hp⟩
    obtain ⟨h₁, h₂⟩ := least.closed.enter hc hr e
    exact ⟨_, h₁, .cons h₂ hp⟩
  case leave =>
    intro f r site w _ hr e ⟨c, hc, hp⟩
    obtain ⟨c', ht, hp'⟩ := Automaton.path_cons_iff.1 hp
    -- the stack is not empty, so the fact was reached in a frame
    cases c with
    | single v => exact (transition hc).1.elim fun _ stands => stands.elim
    | initial v => exact (transition ht).2.elim
    | generated v point => exact ⟨c', least.closed.leave hc hr e ht, hp'⟩
  case leaveBottom =>
    intro f r site _ hr e _ ⟨c, hc, hp⟩ hm
    obtain rfl := hp.eq_of_nil
    exact ⟨_, (least.closed.leaveBottom hc hr e hm).1, .nil⟩
  case seed => exact least.meets.opened
  case returned =>
    intro f r site _ hr e _ ⟨c, hc, hp⟩ hm
    obtain rfl := hp.eq_of_nil
    exact (least.closed.leaveBottom hc hr e hm).2

theorem reaches_of_accepts {f : Fact} {w : List Point} (h : s.Accepts seed f w) :
    Reaches p seed starts f w := by
  obtain ⟨c, hc, hp⟩ := h
  obtain ⟨⟨_, hs⟩, hf⟩ :=
    (least.sub (contextFacts_closed followsRules_reaches) contextFacts_granted).call _ hc
  exact hf w ((stands_of_path least hp).resolve_right fun ⟨v, e⟩ => by
    rw [e] at hs
    exact hs)

end Exact

/-- A solver of any direction on any graph, told of some classes beforehand and then asked to solve
some facts, accepts a call stack at a fact exactly if the fact is reached with that stack. -/
theorem accepts_iff_reaches (direction : Direction) (graph : Supergraph) (seed : Fact)
    (types : List ClassName) (starts : List Fact) (f : Fact) (w : List Point) :
    let s := (create direction graph seed).allocate types
    (∃ c, ⟨.single f.var, f.point, c⟩ ∈ (s.solveAll starts).calls ∧
        (s.solveAll starts).calls.Path (.initial seed.var) c w) ↔
      Reaches s.propagation seed starts f w := by
  have least := solveAll_least direction graph seed types starts
  exact ⟨reaches_of_accepts least, accepts_of_reaches least⟩

end Solver

end PointsTo
