import PointsTo.Proofs.Solver.Reached
import PointsTo.Proofs.Source.Reader

/-!
# Which frames lie on which call sites

A frame is put on a call site by a rule that enters a callee. The rules of a fact are found when the
fact gets into its first context, for the classes that are known by then, and they are kept for ever,
while frames go on being put by them in whatever contexts the fact gets into later. Since classes only
ever become known, every rule that a solver uses was computed for some of the classes known in the end
(`Solver.waysUpTo`). So the frames that such rules allow (`Supergraph.MayEnter`) are a closed set, and
virtual calls never enter a class without objects (`frames_serveAll`).
-/

namespace PointsTo

/-- A call at `site` may enter a method at the point `first`, if these classes have objects. -/
structure Supergraph.MayEnter (graph : Supergraph) (known : OrderedSet ClassName)
    (site first : Point) : Prop where
  callee : first.method ∈ graph.program.callees site
  start : first ∈ graph.startPoints first.method
  allocated : ∀ {dest name args},
    graph.program.instruction? site = some (.call dest (.virtual name) args) →
      ∃ type, first.method.declaringClass? = some type ∧ type ∈ known

namespace Propagation

variable {p : Propagation} {site : Point} {method : MethodName}

/-- A virtual call enters methods of classes only, and only of classes with objects. -/
theorem declaringClass_of_mem_callees {dest : Option Var} {name : String} {args : List Var}
    (hi : p.graph.program.instruction? site = some (.call dest (.virtual name) args))
    (h : method ∈ p.callees site (.virtual name)) :
    ∃ type, method.declaringClass? = some type ∧ type ∈ p.allocated := by
  obtain ⟨resolved, known⟩ := List.mem_filter.1 h
  rw [Program.callees, hi] at resolved
  obtain ⟨-, shape⟩ := List.mem_filter.1 resolved
  rw [Bool.and_eq_true] at shape
  cases hd : method.declaringClass? with
  | none =>
    rw [hd] at shape
    cases shape.1
  | some type =>
    rw [hd] at known
    exact ⟨type, rfl, OrderedSet.contains_iff.1 known⟩

/-- A rule that enters a callee does so where the call may enter it. -/
theorem mayEnter_of_mem_rules {f : Fact} {r : Rule} (h : r ∈ (p.flow f).rules)
    (enter : r.call = .enter site) : p.graph.MayEnter p.allocated site r.target.point := by
  obtain ⟨i, hi, he⟩ := entering_of_enter h enter
  obtain ⟨dest, callee, args, rfl, method, hm, first, w, hs, -, rfl⟩ := mem_entering_callees he
  obtain rfl : f.point = site := CallEffect.enter.inj enter
  obtain rfl : first.method = method := Supergraph.method_of_mem_startPoints hs
  refine ⟨callees_subset hm, hs, ?_⟩
  intro dest' name args' hi'
  cases hi.symm.trans hi'
  exact declaringClass_of_mem_callees hi hm

end Propagation

theorem Supergraph.MayEnter.mono {graph : Supergraph} {known known' : OrderedSet ClassName}
    {site first : Point} (h : graph.MayEnter known site first)
    (more : ∀ type ∈ known, type ∈ known') : graph.MayEnter known' site first where
  callee := h.callee
  start := h.start
  allocated hi := by
    obtain ⟨type, declares, ht⟩ := h.allocated hi
    exact ⟨type, declares, more type ht⟩

namespace Solver

variable (direction : Direction) (graph : Supergraph) (known : OrderedSet ClassName)

/-- The rules that are computed when some of the classes are known. -/
def waysUpTo : Ways where
  rule f r := ∃ allocated, (∀ type ∈ allocated, type ∈ known) ∧
    r ∈ (({ direction, graph, allocated } : Propagation).flow f).rules
  tell _ _ := True

theorem waysUpTo_covers : (waysUpTo direction graph known).CoversUpTo known direction graph :=
  fun allocated sub _ => ⟨fun _ hr => ⟨allocated, sub, hr⟩, fun _ _ => trivial⟩

/-- Any facts, with frames only where calls may put them. -/
def framedFacts : Facts := { Facts.all with
  call := fun t => ∀ v first, t.start = .generated v first → graph.MayEnter known t.label first }

theorem framedFacts_closed :
    (framedFacts graph known).Closed (waysUpTo direction graph known) where
  keep _ _ _ _ := trivial
  push _ _ _ _ := ⟨trivial, trivial⟩
  pop _ _ _ _ := trivial
  takeOver _ _ := trivial
  fieldFlow _ _ := trivial
  stay _ _ _ := nofun
  enter := by
    intro f r site c _ rule enter
    obtain ⟨allocated, sub, hr⟩ := rule
    have may := Propagation.mayEnter_of_mem_rules hr enter
    refine ⟨nofun, fun v first e => ?_⟩
    obtain ⟨-, rfl⟩ := CallState.generated.inj e
    exact may.mono sub
  leave _ _ _ _ := nofun
  leaveBottom _ _ _ _ := ⟨nofun, trivial⟩
  callFlow _ _ := nofun
  productive _ _ := trivial

variable {graph known} in
/-- No request hands in a frame. -/
theorem framedFacts_granted (seed : Fact) (request : Request) :
    request.Grants seed (framedFacts graph known) := by
  rcases request with (o | _ | _ | _ | _ | _) | _ | _
  · cases o with
    | solve f => exact ⟨trivial, nofun⟩
    | _ => trivial
  all_goals trivial

/-- Whatever a solver is asked for, and whenever it hears of classes, a frame lies on a call site only
if the call may enter the method of the frame there: the method is a callee, it is entered where a
walk enters it, and if the call is virtual, the class of the method is known to have objects. -/
theorem frames_serveAll (seed : Fact) (requests : List Request) :
    let s := ((create direction graph seed).serveAll requests).2
    ∀ v first site c, ⟨.generated v first, site, c⟩ ∈ s.calls →
      graph.MayEnter s.allocated site first := by
  intro s v first site c frame
  have fresh := create_fresh direction graph seed
  have serves := fresh.resting.serveAll requests
  have covers := waysUpTo_covers direction graph s.allocated
  have obeys : (create direction graph seed).Obeys (waysUpTo direction graph s.allocated) :=
    covers _ serves.allocated
  have below : s.Below (waysUpTo direction graph s.allocated) (framedFacts graph s.allocated) :=
    fresh.resting.below_serveAll covers (framedFacts_closed direction graph s.allocated)
      (fun request _ => framedFacts_granted seed request) (fresh.below obeys trivial trivial)
  exact below.call _ frame v first rfl

/-- A virtual call with two callees, of classes that both have an object in the program. -/
def twoClasses : String :=
  "method m() \x7b\n  o = new T\n  a = new U\n  vcall o.g(a)\n  nop\n\x7d\n" ++
    "method T.g(this, p) \x7b\n  return\n\x7d\nmethod U.g(this, p) \x7b\n  return\n\x7d"

/-- The second object, where it is made. -/
def secondMade : Fact := ⟨.ofIndex ⟨"m"⟩ 2, ⟨"a", ⟨"m"⟩⟩⟩

/-- One class becomes known, and the second object is followed from where it begins to live. -/
def oneClassKnown : List Request :=
  [.change (.addAllocatedType ⟨"T"⟩), .change (.perform (.solve ⟨.ofIndex ⟨"m"⟩ 3, ⟨"a", ⟨"m"⟩⟩⟩))]

/-- The frame for the parameter of a method, on the call. -/
def parameterFrame (method : MethodName) : CallTransition :=
  ⟨.generated ⟨"p", method⟩ (.ofIndex method 0), .ofIndex ⟨"m"⟩ 3, .initial ⟨"a", ⟨"m"⟩⟩⟩

/-- The call enters the method of the class that is known, and not that of the other. -/
theorem twoClasses_frames : ∃ program, Source.readProgram twoClasses = .ok program ∧
    let s := ((create .forward ⟨program, .forward⟩ secondMade).serveAll oneClassKnown).2
    parameterFrame ⟨"T.g"⟩ ∈ s.calls ∧ parameterFrame ⟨"U.g"⟩ ∉ s.calls ∧
      (⟨program, .forward⟩ : Supergraph).MayEnter s.allocated (.ofIndex ⟨"m"⟩ 3)
        (.ofIndex ⟨"T.g"⟩ 0) := by
  have run : (Source.readProgram twoClasses).toOption.any fun program =>
      let s := ((create .forward ⟨program, .forward⟩ secondMade).serveAll oneClassKnown).2
      s.calls.contains (parameterFrame ⟨"T.g"⟩) && !s.calls.contains (parameterFrame ⟨"U.g"⟩) := by
    decide +kernel
  obtain ⟨program, read, found⟩ := exists_ok_of_any run
  rw [Bool.and_eq_true, Bool.not_eq_true'] at found
  obtain ⟨entered, missed⟩ := found
  have frame := Automaton.contains_iff.1 entered
  have allowed := frames_serveAll .forward ⟨program, .forward⟩ secondMade oneClassKnown
    ⟨"p", ⟨"T.g"⟩⟩ (.ofIndex ⟨"T.g"⟩ 0) (.ofIndex ⟨"m"⟩ 3) (.initial ⟨"a", ⟨"m"⟩⟩) frame
  refine ⟨program, read, frame, fun there => ?_, allowed⟩
  rw [Automaton.contains_iff.2 there] at missed
  cases missed

end Solver

end PointsTo
