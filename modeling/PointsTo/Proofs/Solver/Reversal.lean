import PointsTo.Proofs.Solver.AccessPaths
import PointsTo.Proofs.Solver.StaticCalls
import PointsTo.Proofs.Source.Reader

/-!
# Forward and backward solvers are inverse

In a program without calls a solver walks along edges, and what an instruction does to a variable and
to the fields that are to be read from its value is undone by the same instruction against the flow
of control (`Propagation.carries_reverse`). At a point, a forward solver has the instruction before
it, and a backward solver behind it. So a walk one way passes the instructions of a walk the other
way, with every point shifted by one edge (`Solver.reachesWithEmptyStack_reverse`).
-/

namespace PointsTo

/-- The value, with the fields `w` to be read from it, becomes that of `v` with the fields `w'`. -/
def Transfer.Carries (t : Transfer) (w : List Field) (v : Var) (w' : List Field) : Prop :=
  ∃ e, (v, e) ∈ t.carried ∧ e.Changes w w'

namespace Propagation

variable {p : Propagation} {live : Fact → Prop} {start f g : Fact} {w w' : List Field}

/-! ## Instructions -/

/-- An instruction that is no call undoes against the flow of control what it does along it. -/
theorem carries_reverse {p p' : Propagation} {point : Point} {i : Instruction}
    (hi : i.isCall = false) {v v' : Var} :
    (p.forwardTransfer point v i).Carries w v' w' ↔
      (p'.backwardTransfer point v' i).Carries w' v w := by
  unfold Transfer.Carries
  cases i with
  | call => cases hi
  | new dest type | null dest =>
    by_cases h : v = dest <;> by_cases h' : v' = dest <;>
      simp only [forwardTransfer, backwardTransfer, Transfer.carry] <;> grind
  | assign dest value =>
    by_cases h : v = value <;> by_cases h' : v' = dest <;>
      simp only [forwardTransfer, backwardTransfer, Transfer.carry] <;> grind
  | store base field value =>
    by_cases h : v = value <;> by_cases h' : v' = base <;>
      simp only [forwardTransfer, backwardTransfer, Transfer.carry] <;> grind
  | load dest base field =>
    by_cases h : v = base <;> by_cases h' : v' = dest <;>
      simp only [forwardTransfer, backwardTransfer, Transfer.carry] <;> grind
  | ret value | nop =>
    simp only [forwardTransfer, backwardTransfer, Transfer.carry]
    grind

theorem entering_eq_nil {point : Point} {v : Var} {i : Instruction} (hi : i.isCall = false) :
    (p.transfer point v i).entering = [] := by
  unfold transfer
  cases p.direction <;> cases i <;> first | rfl | cases hi

/-! ## Walks -/

/-- A rule leads from a fact, with fields to be read from it, to another one. -/
def Moves (p : Propagation) (x y : Fact × List Field) : Prop :=
  ∃ r ∈ (p.flow x.1).rules, r.target = y.1 ∧ r.field.Changes x.2 y.2

/-- Facts hold what walks from the start bring there, if all facts on the way count. -/
theorem holds_iff_moves (all : ∀ {f w}, Holds p live [start] f w → live f) :
    Holds p live [start] f w ↔ Relation.ReflTransGen p.Moves (start, []) (f, w) := by
  constructor
  · intro h
    induction h with
    | start hf =>
      obtain rfl := List.mem_singleton.1 hf
      exact .refl
    | keep _ _ hr e ih | push _ _ hr e ih | pop _ _ hr e ih =>
      exact ih.tail ⟨_, hr, rfl, by rw [e]; rfl⟩
  · intro h
    generalize hx : (f, w) = x at h
    induction h generalizing f w with
    | refl =>
      obtain ⟨rfl, rfl⟩ := Prod.mk.inj hx
      exact .start List.mem_cons_self
    | @tail y z _ move ih =>
      subst hx
      obtain ⟨r, hr, rfl, changes⟩ := move
      have held := ih (f := y.1) (w := y.2) rfl
      cases e : r.field with
      | keep =>
        rw [e] at changes
        obtain rfl : w = y.2 := changes
        exact .keep held (all held) hr e
      | push g =>
        rw [e] at changes
        obtain rfl : w = g :: y.2 := changes
        exact .push held (all held) hr e
      | pop g =>
        rw [e] at changes
        have held : Holds p live [start] y.1 (g :: w) := changes.subst held
        exact .pop held (all held) hr e

/-- Without calls a rule leads along an edge, with one of the variables that the instruction passes
on. -/
theorem mem_rules_of_callFree (callFree : p.graph.program.CallFree) {r : Rule} :
    r ∈ (p.flow f).rules ↔ ∃ i, p.graph.program.instruction? f.point = some i ∧
      ¬ p.graph.isEndPoint f.point ∧ ∃ next ∈ p.graph.successors f.point,
        ∃ v e, (v, e) ∈ (p.transfer f.point f.var i).carried ∧ r = ⟨⟨next, v⟩, e, .stay⟩ := by
  rw [mem_rules_iff]
  constructor
  · rintro ⟨i, hi, entering | ⟨v, e, hc, ⟨-, exit⟩ | ⟨inner, next, hn, rfl⟩⟩⟩
    · rw [entering_eq_nil (callFree.instruction hi)] at entering
      exact absurd entering List.not_mem_nil
    · obtain ⟨site, dest, callee, args, _, _, -, hs, -⟩ := mem_exitRules_iff.1 exit
      cases callFree.instruction hs
    · exact ⟨i, hi, inner, next, hn, v, e, hc, rfl⟩
  · rintro ⟨i, hi, inner, next, hn, v, e, hc, rfl⟩
    exact ⟨i, hi, .inr ⟨v, e, hc, .inr ⟨inner, next, hn, rfl⟩⟩⟩

theorem moves_iff (callFree : p.graph.program.CallFree) {x y : Fact × List Field} :
    p.Moves x y ↔ ∃ i, p.graph.program.instruction? x.1.point = some i ∧
      ¬ p.graph.isEndPoint x.1.point ∧ y.1.point ∈ p.graph.successors x.1.point ∧
        (p.transfer x.1.point x.1.var i).Carries x.2 y.1.var y.2 := by
  constructor
  · rintro ⟨r, hr, ht, changes⟩
    obtain ⟨i, hi, inner, next, hn, v, e, hc, rfl⟩ := (mem_rules_of_callFree callFree).1 hr
    rw [← ht]
    exact ⟨i, hi, inner, hn, e, hc, changes⟩
  · rintro ⟨i, hi, inner, hn, e, hc, changes⟩
    exact ⟨_, (mem_rules_of_callFree callFree).2 ⟨i, hi, inner, _, hn, _, e, hc, rfl⟩, rfl, changes⟩

end Propagation

/-! ## Along the edges of a program -/

namespace Program

variable {program : Program} {source : String} {x y : Fact × List Field} {point : Point}

/-- How a solver that knows no classes walks through the program. -/
def walk (program : Program) (d : Direction) : Propagation := ⟨d, ⟨program, d⟩, ∅⟩

/-- The instruction at the point turns the variable of the one fact, with its fields to be read, into
that of the other. -/
def Passes (program : Program) (point : Point) (x y : Fact × List Field) : Prop :=
  ∃ i, program.instruction? point = some i ∧
    ((program.walk .forward).forwardTransfer point x.1.var i).Carries x.2 y.1.var y.2

variable (read : Source.readProgram source = .ok program) (callFree : program.CallFree)
include read callFree

theorem moves_forward_iff : (program.walk .forward).Moves x y ↔
    y.1.point ∈ program.successors x.1.point ∧ program.Passes x.1.point x y := by
  rw [Propagation.moves_iff callFree]
  constructor
  · rintro ⟨i, hi, -, hn, carries⟩
    exact ⟨hn, i, hi, carries⟩
  · rintro ⟨hn, i, hi, carries⟩
    refine ⟨i, hi, fun isEnd => ?_, hn, carries⟩
    -- control does not go on after a `return`, but there is an edge
    obtain ⟨-, value, hr⟩ := mem_exits_iff.1 (List.contains_iff_mem.1 isEnd)
    exact Source.readProgram_return read hn value hr

theorem moves_backward_iff : (program.walk .backward).Moves y x ↔
    y.1.point ∈ program.successors x.1.point ∧ program.Passes y.1.point x y := by
  rw [Propagation.moves_iff callFree]
  constructor
  · rintro ⟨i, hi, -, hn, carries⟩
    exact ⟨mem_predecessors.1 hn, i, hi,
      (Propagation.carries_reverse (callFree.instruction hi)).2 carries⟩
  · rintro ⟨hn, i, hi, carries⟩
    refine ⟨i, hi, fun isEnd => ?_, mem_predecessors.2 hn,
      (Propagation.carries_reverse (callFree.instruction hi)).1 carries⟩
    -- no edge leads to the entry of a method, but there is one
    exact Source.readProgram_entry read hn _ (List.contains_iff_mem.1 isEnd)

/-! ## The shift by one edge -/

/-- The fact is moved to another point. -/
def shift (point : Point) (x : Fact × List Field) : Fact × List Field := (⟨point, x.1.var⟩, x.2)

/-- A walk against the flow of control, read from its end, is a walk along it from the next point
on. -/
theorem exists_forward_walk (h : Relation.ReflTransGen (program.walk .backward).Moves y x)
    (hn : point ∈ program.successors y.1.point) : ∃ s ∈ program.successors x.1.point,
      Relation.ReflTransGen (program.walk .forward).Moves (shift s x) (shift point y) := by
  induction h with
  | refl => exact ⟨point, hn, .refl⟩
  | @tail b c _ move ih =>
    obtain ⟨s, hs, walk⟩ := ih
    obtain ⟨edge, passes⟩ := (moves_backward_iff read callFree).1 move
    have first := (moves_forward_iff read callFree (x := shift b.1.point c) (y := shift s b)).2
      ⟨hs, passes⟩
    exact ⟨b.1.point, edge, .head first walk⟩

/-- A walk along the flow of control, read from its end, is a walk against it from the point
before. -/
theorem exists_backward_walk (h : Relation.ReflTransGen (program.walk .forward).Moves x y)
    (hp : x.1.point ∈ program.successors point) : ∃ u, y.1.point ∈ program.successors u ∧
      Relation.ReflTransGen (program.walk .backward).Moves (shift u y) (shift point x) := by
  induction h with
  | refl => exact ⟨point, hp, .refl⟩
  | @tail b c _ move ih =>
    obtain ⟨u, hu, walk⟩ := ih
    obtain ⟨edge, passes⟩ := (moves_forward_iff read callFree).1 move
    have first := (moves_backward_iff read callFree (x := shift u b) (y := shift b.1.point c)).2
      ⟨hu, passes⟩
    exact ⟨b.1.point, edge, .head first walk⟩

end Program

namespace Solver

variable {d : Direction} {program : Program} {seed start f : Fact} {s : Solver} {w : List Field}

theorem occurs_of_holds (callFree : program.CallFree) (hs : s.Occurs start)
    (closed : s.facts.Closed (program.walk d).ways)
    (h : Holds (program.walk d) s.Occurs [start] f w) : s.Occurs f := by
  have next {f : Fact} {r : Rule} (hf : s.Occurs f) (hr : r ∈ ((program.walk d).flow f).rules) :
      s.Occurs r.target := by
    obtain ⟨c, hc⟩ := hf
    obtain ⟨_, -, -, _, -, _, _, -, e⟩ :=
      (Propagation.mem_rules_of_callFree (p := program.walk d) callFree).1 hr
    exact ⟨c, closed.stay hc hr (e ▸ rfl)⟩
  cases h with
  | start hf => exact List.mem_singleton.1 hf ▸ hs
  | keep _ hf hr | push _ hf hr | pop _ hf hr => exact next hf hr

/-- A solver for one fact reaches another one with an empty field stack if a walk leads there that
reads all fields it has put on. -/
theorem Fresh.reachesWithEmptyStack_iff {s₀ : Solver} (fresh : s₀.Fresh)
    (walks : s₀.propagation = program.walk d) (named : program.Named) (callFree : program.CallFree) :
    (s₀.solve start).reachesWithEmptyStack f ↔
      Relation.ReflTransGen (program.walk d).Moves (start, []) (f, []) := by
  have alters := Resting.perform ⟨fresh.regular, fresh.idle, fresh.told⟩ (.solve start)
  have least : Facts.Least s₀.propagation.ways (Granted s₀.seed ([start].map .solve))
    (s₀.solve start).facts := applyAll_least fresh [.solve start]
  have resting : (s₀.solve start).Resting := alters.resting
  have origin : (s₀.solve start).seed = s₀.seed := alters.seed
  rw [walks] at least
  generalize s₀.solve start = s at *
  have starts : s.Occurs start := ⟨_, (least.meets.grants _ List.mem_cons_self).2⟩
  have seedState : s.seedState = .alloc s₀.seed := congrArg FieldState.alloc origin
  have occurs {f : Fact} {w : List Field} (h : Holds (program.walk d) s.Occurs [start] f w) :
      s.Occurs f := occurs_of_holds callFree starts least.closed h
  rw [← Propagation.holds_iff_moves occurs]
  constructor
  · intro reaches
    obtain ⟨-, field⟩ := Bool.and_eq_true_iff.1 reaches
    rw [seedState] at field
    have path : s.fields.Path (.alloc s₀.seed) (.single f) [.epsilon] :=
      .cons (Automaton.contains_iff.1 field) .nil
    exact standsFor_of_path named least path
  · intro held
    obtain ⟨l, q, labels, ht, hp, e⟩ := (spells_of_holds named least held).first
    obtain ⟨-, h⟩ := (pathFacts_of_mem named least ht).1
    refine resting.reachesWithEmptyStack (occurs held) ?_
    obtain ⟨rfl, rfl⟩ | ⟨hl, -⟩ := h
    · rw [origin]
      exact ht
    · rw [Field.spell_of_named hl] at e
      cases e

/-- In a program without calls, a forward solver that begins behind the point `p` reaches a fact
before the point `t` with an empty field stack exactly if a backward solver that begins before `t`
reaches, behind `p`, what the forward solver began with. -/
theorem reachesWithEmptyStack_reverse {source : String}
    (read : Source.readProgram source = .ok program) (callFree : program.CallFree)
    (seed seed' : Fact) {p s u t : Point} (x y : Var) (hs : program.successors p = [s])
    (hu : program.predecessors t = [u]) :
    ((create .forward ⟨program, .forward⟩ seed).solve ⟨s, x⟩).reachesWithEmptyStack ⟨t, y⟩ =
      ((create .backward ⟨program, .backward⟩ seed').solve ⟨u, y⟩).reachesWithEmptyStack ⟨p, x⟩ := by
  have named := Source.readProgram_named read
  have edge_s : s ∈ program.successors p := hs ▸ List.mem_cons_self
  have edge_t : t ∈ program.successors u := Program.mem_predecessors.1 (hu ▸ List.mem_cons_self)
  rw [Bool.eq_iff_iff, (create_fresh _ _ _).reachesWithEmptyStack_iff rfl named callFree,
    (create_fresh _ _ _).reachesWithEmptyStack_iff rfl named callFree]
  constructor
  · intro walk
    obtain ⟨u', edge, walk⟩ := Program.exists_backward_walk read callFree walk edge_s
    obtain rfl : u' = u := by simpa [hu] using Program.mem_predecessors.2 edge
    exact walk
  · intro walk
    obtain ⟨s', edge, walk⟩ := Program.exists_forward_walk read callFree walk edge_t
    obtain rfl : s' = s := by simpa [hs] using edge
    exact walk

/-- A method that puts an object into a field and takes it out again. -/
def storeAndLoad : String :=
  "method m() \x7b\n  x = new A\n  y.f = x\n  z = y.f\n  nop\n\x7d"

/-- The object is found again forward, and so it is backward. -/
theorem storeAndLoad_reverse : ∃ program, Source.readProgram storeAndLoad = .ok program ∧
    let point := Point.ofIndex ⟨"m"⟩
    let seed (k : Nat) (name : String) : Fact := ⟨point k, ⟨name, ⟨"m"⟩⟩⟩
    program.CallFree ∧ program.successors (point 1) = [point 2] ∧
      program.predecessors (point 4) = [point 3] ∧
      ((create .backward ⟨program, .backward⟩ (seed 4 "z")).solve (seed 3 "z")).reachesWithEmptyStack
        (seed 1 "x") := by
  have checked : (Source.readProgram storeAndLoad).toOption.any fun program =>
      let point := Point.ofIndex ⟨"m"⟩
      let seed (k : Nat) (name : String) : Fact := ⟨point k, ⟨name, ⟨"m"⟩⟩⟩
      decide (program.CallFree ∧ program.successors (point 1) = [point 2] ∧
        program.predecessors (point 4) = [point 3] ∧
        ((create .forward ⟨program, .forward⟩ (seed 1 "x")).solve (seed 2 "x")).reachesWithEmptyStack
          (seed 4 "z")) := by
    decide +kernel
  obtain ⟨program, read, h⟩ := exists_ok_of_any checked
  obtain ⟨callFree, hs, hu, reaches⟩ := of_decide_eq_true h
  refine ⟨program, read, callFree, hs, hu, ?_⟩
  rw [← reachesWithEmptyStack_reverse read callFree _ _ _ _ hs hu]
  exact reaches

end Solver

end PointsTo
