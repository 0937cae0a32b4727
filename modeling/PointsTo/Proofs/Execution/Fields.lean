import PointsTo.Proofs.Execution.HeapSoundness

/-!
# Values in fields

A value that is read from a field is found if the trail of the run leads to it
(`mem_allocationSites_of_trail`). The trail follows values through stores and loads, also of nested
objects and through other names of an object, as long as they are imported. A value that is never read
from a field is found without such a condition, and then there may be calls as well
(`mem_allocationSites_of_unread`).

Values that are off the trail can be missed. An alias that is the base of the access itself is not
imported, even if it is one through a field, so what an object holds of itself is lost
(`selfReference_missed`). And a search from a load does not find the store if the name under which the
field was written has been given up since (`dropping_parts` has such a method).
-/

namespace PointsTo

namespace Analysis

/-! ## Values that are read -/

/-- In a program without calls, a value that a variable holds after a run is among the allocation
sites that a fresh analysis finds for the variable, if the trail of the run leads to the variable and
the variable can be traced. Whatever the configuration, there is an answer. -/
theorem mem_allocationSites_of_trail {source : String} {program : Program} {point : Point} {v : Var}
    (config : Config) (parsed : Source.readProgram source = .ok program)
    (callFree : program.CallFree) :
    Yields ((create program config).solve (.backward ⟨point, v⟩)) fun a =>
      ∀ s τ x y, program.Trails a.Conveys s τ → s.top.point = point → s.top.locals v = some x →
        τ.Finds v x → program.Allocates ⟨x.origin, y⟩ →
          .allocation program ⟨x.origin, y⟩ ∈ a.allocationSites (.backward ⟨point, v⟩) := by
  refine (yields_answer program config _).imp fun a answers => ?_
  intro s τ x y trails here held finds made
  subst here
  exact answers.mem_allocationSites_of_trails parsed callFree trails
    (answers.solved.knows _ List.mem_cons_self) held finds made

/-- The load from the box under its other name. -/
def boxLoad : FieldAccess :=
  ⟨.read, .ofIndex ⟨"m"⟩ 5, ⟨"x", ⟨"m"⟩⟩, .named "f", ⟨"r", ⟨"m"⟩⟩⟩

/-- On the way to the end, the object is put into the box under the one name of the box, and taken out
under the other one. -/
theorem renamedBox_trails {program : Program} (parsed : Source.readProgram renamedBox = .ok program)
    (conveyed : FieldAccess → Fact → List Field → Prop)
    (stored : conveyed (boxStore 4) (variableAt 5 "x") [])
    (loaded : conveyed boxLoad (variableAt 5 "y") []) :
    ∃ s τ, program.Trails conveyed s τ ∧ s.top.point = .ofIndex ⟨"m"⟩ 6 ∧
      s.top.locals ⟨"r", ⟨"m"⟩⟩ = some (.object (.ofIndex ⟨"m"⟩ 2) 1) ∧
      τ.Finds ⟨"r", ⟨"m"⟩⟩ (.object (.ofIndex ⟨"m"⟩ 2) 1) := by
  let inM (name : String) : Var := ⟨name, ⟨"m"⟩⟩
  let point (i : Nat) : Point := .ofIndex ⟨"m"⟩ i
  have checked : (Source.readProgram renamedBox).toOption.any fun program => decide
      (point 0 ∈ program.entries ⟨"m"⟩ ∧ program.instruction? (point 0) = some .nop ∧
        program.instruction? (point 1) = some (.new (inM "x") ⟨"A"⟩) ∧
        program.instruction? (point 2) = some (.new (inM "v") ⟨"B"⟩) ∧
        program.instruction? (point 3) = some (.assign (inM "y") (inM "x")) ∧
        program.instruction? (point 4) = some (.store (inM "y") (.named "f") (inM "v")) ∧
        program.instruction? (point 5) = some (.load (inM "r") (inM "x") (.named "f")) ∧
        ∀ i < 6, point (i + 1) ∈ program.successors (point i)) := by
    decide +kernel
  obtain ⟨program', same, h⟩ := exists_ok_of_any checked
  obtain rfl := Except.ok.inj (parsed.symm.trans same)
  obtain ⟨entry, i₀, i₁, i₂, i₃, i₄, i₅, next⟩ := of_decide_eq_true h
  have trails := (Program.Trails.initial entry : program.Trails conveyed _ _)
    |>.act i₀ rfl (next 0 (by decide)) |>.act i₁ rfl (next 1 (by decide))
    |>.act i₂ rfl (next 2 (by decide)) |>.act i₃ rfl (next 3 (by decide))
    |>.act i₄ rfl (next 4 (by decide)) |>.act i₅ rfl (next 5 (by decide))
  refine ⟨_, _, trails, rfl, rfl, ?_, ?_⟩
  · simpa [Trail.act, Trail.make, Trail.copy, Trail.store, Trail.load, Trail.empty, inM, point,
      Locals.object?, Locals.set, Heap.fresh, Heap.grow, FieldAccess.Connects, boxLoad, variableAt]
      using loaded
  · simpa [Trail.act, Trail.make, Trail.copy, Trail.store, Trail.load, Trail.empty, inM, point,
      Locals.object?, Locals.set, Heap.fresh, Heap.grow, Heap.empty, FieldAccess.Connects, boxStore,
      variableAt] using stored

/-- The object that is taken out of the box is found. -/
theorem takenOut_mem_allocationSites : ∃ program, Source.readProgram renamedBox = .ok program ∧
    program.CallFree ∧ Yields ((create program default).solve takenOut) fun a =>
      ∃ s τ, program.Trails a.Conveys s τ ∧ s.top.point = .ofIndex ⟨"m"⟩ 6 ∧
        s.top.locals ⟨"r", ⟨"m"⟩⟩ = some (.object (.ofIndex ⟨"m"⟩ 2) 1) ∧
        τ.Finds ⟨"r", ⟨"m"⟩⟩ (.object (.ofIndex ⟨"m"⟩ 2) 1) ∧
        .allocation program (variableAt 2 "v") ∈ a.allocationSites takenOut := by
  have checked : (Source.readProgram renamedBox).toOption.any fun program =>
      decide (program.CallFree ∧
        program.instruction? (.ofIndex ⟨"m"⟩ 2) = some (.new ⟨"v", ⟨"m"⟩⟩ ⟨"B"⟩) ∧
        (∀ p ∈ (boxStore 4).imports program, p.2 ≠ []) ∧
        ∀ p ∈ boxLoad.imports program, p.2 ≠ []) &&
      ((create program default).solve takenOut).toOption.any fun a =>
        decide (a.ImportsDirectly (boxStore 4) (variableAt 5 "x") ∧
          a.ImportsDirectly boxLoad (variableAt 5 "y")) := by
    decide +kernel
  obtain ⟨program, read, h⟩ := exists_ok_of_any checked
  obtain ⟨h, answer⟩ := Bool.and_eq_true_iff.1 h
  obtain ⟨callFree, made, fromStore, fromLoad⟩ := of_decide_eq_true h
  obtain ⟨a', solved', names⟩ := exists_ok_of_any answer
  obtain ⟨stored, loaded⟩ := of_decide_eq_true names
  obtain ⟨a, solved, found⟩ : Yields ((create program default).solve takenOut) _ :=
    mem_allocationSites_of_trail default read callFree
  obtain rfl := Except.ok.inj (solved.symm.trans solved')
  obtain ⟨a', solved', answers⟩ := yields_answer program default takenOut
  obtain rfl := Except.ok.inj (solved.symm.trans solved')
  obtain ⟨s, τ, trails, here, held, finds⟩ := renamedBox_trails read a.Conveys
    (answers.conveys_of_direct fromStore stored) (answers.conveys_of_direct fromLoad loaded)
  exact ⟨program, read, callFree, a, solved, s, τ, trails, here, held, finds,
    found s τ _ _ trails here held finds (.inl ⟨_, made⟩)⟩

/-! ## Values that are not read -/

/-- A value that a variable holds after a run that never read it from a field is among the allocation
sites that a fresh analysis finds for the variable. Whatever the configuration, there is an answer. -/
theorem mem_allocationSites_of_unread {source : String} {program : Program} {s : State} {v y : Var}
    {x : Value} (config : Config) (parsed : Source.readProgram source = .ok program)
    (static : program.Static) (run : program.RunsUnread x s)
    (inside : ∀ m, s.top.point ∉ program.entries m) (held : s.top.locals v = some x)
    (made : program.Allocates ⟨x.origin, y⟩) :
    Yields ((create program config).solve (.backward ⟨s.top.point, v⟩)) fun a =>
      .allocation program ⟨x.origin, y⟩ ∈ a.allocationSites (.backward ⟨s.top.point, v⟩) :=
  ((running_create program config).solve _).imp fun _ ⟨running, solved⟩ =>
    running.mem_allocationSites solved.idle (solved.knows _ List.mem_cons_self) parsed static run
      inside held made

/-- A method that writes two objects to fields and reads one of them. -/
def readingOther : String :=
  "method m() \x7b\n  b = new B\n  x = new A\n  b.f = b\n  x.f = x\n  c = b.f\n  y = x\n\x7d"

/-- The run to the end, which does not read the other object. -/
theorem readingOther_run : ∃ program, Source.readProgram readingOther = .ok program ∧
    program.Static ∧ program.Allocates ⟨.ofIndex ⟨"m"⟩ 2, ⟨"x", ⟨"m"⟩⟩⟩ ∧
    (∀ m, .ofIndex ⟨"m"⟩ 7 ∉ program.entries m) ∧
    ∃ s, program.RunsUnread (.object (.ofIndex ⟨"m"⟩ 2) 1) s ∧ s.top.point = .ofIndex ⟨"m"⟩ 7 ∧
      s.top.locals ⟨"y", ⟨"m"⟩⟩ = some (.object (.ofIndex ⟨"m"⟩ 2) 1) := by
  have checked : (Source.readProgram readingOther).toOption.any fun program =>
      decide (program.Static ∧
        program.instruction? (.ofIndex ⟨"m"⟩ 2) = some (.new ⟨"x", ⟨"m"⟩⟩ ⟨"A"⟩) ∧
        .ofIndex ⟨"m"⟩ 7 ∉ program.entries ⟨"m"⟩ ∧ .ofIndex ⟨"m"⟩ 0 ∈ program.entries ⟨"m"⟩ ∧
        ((State.initial (.ofIndex ⟨"m"⟩ 0)).follow?
          (fun s => s.read? program ≠ some (.object (.ofIndex ⟨"m"⟩ 2) 1)) program
          ([1, 2, 3, 4, 5, 6, 7].map (.ofIndex ⟨"m"⟩))).any fun s =>
          decide (s.top.point = .ofIndex ⟨"m"⟩ 7 ∧
            s.top.locals ⟨"y", ⟨"m"⟩⟩ = some (.object (.ofIndex ⟨"m"⟩ 2) 1))) := by
    decide +kernel
  obtain ⟨program, read, h⟩ := exists_ok_of_any checked
  obtain ⟨static, made, inside, entry, path⟩ := of_decide_eq_true h
  obtain ⟨s, run, h⟩ := Program.exists_runsWhile entry path
  obtain ⟨there, held⟩ := of_decide_eq_true h
  exact ⟨program, read, static, .inl ⟨_, made⟩, Program.not_mem_entries inside, s, run, there, held⟩

/-- The other object is found for the variable that it was copied to. -/
theorem other_mem_allocationSites : ∃ program, Source.readProgram readingOther = .ok program ∧
    Yields ((create program default).solve (.backward ⟨.ofIndex ⟨"m"⟩ 7, ⟨"y", ⟨"m"⟩⟩⟩)) fun a =>
      .allocation program ⟨.ofIndex ⟨"m"⟩ 2, ⟨"x", ⟨"m"⟩⟩⟩ ∈
        a.allocationSites (.backward ⟨.ofIndex ⟨"m"⟩ 7, ⟨"y", ⟨"m"⟩⟩⟩) := by
  obtain ⟨program, read, static, made, inside, s, run, there, held⟩ := readingOther_run
  have sites := mem_allocationSites_of_unread (x := .object _ 1) default read static run
    (by rwa [there]) held made
  rw [there] at sites
  exact ⟨program, read, sites⟩

/-! ## A value that is missed -/

/-- A method that reads what an object holds of itself. -/
def selfReference : String :=
  "method m() \x7b\n  b = new B\n  b.g = b\n  t = b.g\n  r = t.g\n  q: nop\n\x7d"

/-- The object that was read through itself is not found. -/
theorem selfReference_missed : ∃ program, Source.readProgram selfReference = .ok program ∧
    program.Static ∧ program.Allocates ⟨.ofIndex ⟨"m"⟩ 1, ⟨"b", ⟨"m"⟩⟩⟩ ∧
    (∃ s, program.Runs s ∧ s.top.point = .ofIndex ⟨"m"⟩ 5 ∧
      s.top.locals ⟨"r", ⟨"m"⟩⟩ = some (.object (.ofIndex ⟨"m"⟩ 1) 0)) ∧
    Yields ((create program default).solve (.backward ⟨.ofIndex ⟨"m"⟩ 5, ⟨"r", ⟨"m"⟩⟩⟩)) fun a =>
      a.allocationSites (.backward ⟨.ofIndex ⟨"m"⟩ 5, ⟨"r", ⟨"m"⟩⟩⟩) = [] := by
  have checked : (Source.readProgram selfReference).toOption.any fun program =>
      decide (program.Static ∧
        program.instruction? (.ofIndex ⟨"m"⟩ 1) = some (.new ⟨"b", ⟨"m"⟩⟩ ⟨"B"⟩) ∧
        .ofIndex ⟨"m"⟩ 0 ∈ program.entries ⟨"m"⟩ ∧
        (((State.initial (.ofIndex ⟨"m"⟩ 0)).follow? (fun _ => True) program
          ([1, 2, 3, 4, 5].map (.ofIndex ⟨"m"⟩))).any fun s =>
          decide (s.top.point = .ofIndex ⟨"m"⟩ 5 ∧
            s.top.locals ⟨"r", ⟨"m"⟩⟩ = some (.object (.ofIndex ⟨"m"⟩ 1) 0))) ∧
        ((create program default).solve
          (.backward ⟨.ofIndex ⟨"m"⟩ 5, ⟨"r", ⟨"m"⟩⟩⟩)).toOption.any fun a =>
          decide (a.allocationSites (.backward ⟨.ofIndex ⟨"m"⟩ 5, ⟨"r", ⟨"m"⟩⟩⟩) = [])) := by
    decide +kernel
  obtain ⟨program, read, h⟩ := exists_ok_of_any checked
  obtain ⟨static, made, entry, path, answer⟩ := of_decide_eq_true h
  obtain ⟨s, run, h⟩ := Program.exists_runsWhile entry path
  obtain ⟨a, solved, none⟩ := exists_ok_of_any answer
  exact ⟨program, read, static, .inl ⟨_, made⟩, ⟨s, run, of_decide_eq_true h⟩, a, solved,
    of_decide_eq_true none⟩

end Analysis

end PointsTo
