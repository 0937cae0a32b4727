import PointsTo.Proofs.Analysis.Reachable
import PointsTo.Proofs.Analysis.Splicing
import PointsTo.Proofs.Program.Shape
import PointsTo.Proofs.Solver.Reached

/-!
# The shape of the field automata

In every field automaton the empty label leads to a seed and no other label does, nothing leads on
from a seed, and what lies in a field is found under the name of the field (`Shaped`). Solvers hand
transitions to each other, so one keeps the shape only if all do: the realm in which every transition
is shaped is closed (`shaped_closed`), and it holds all reachable states (`fields_shaped`).

With this shape, a path without names is one transition into a seed. So the question whether a fact
is reached with an empty field stack, which looks for this transition only, has the answer that the
access path of the fact gives (`reachesWithEmptyStack_iff_accessPath`).
-/

namespace PointsTo

/-- The label of a field transition fits its ends. -/
structure Shaped (t : FieldTransition) : Prop where
  silent_iff : t.label = .epsilon ↔ ∃ f, t.target = .alloc f
  start_ne : ∀ f, t.start ≠ .alloc f
  generated : ∀ f g, t.target = .generated f g → t.label = g

namespace Shaped

variable {t : FieldTransition} {q : FieldState} {f : Fact} {g l : Field}

/-- The start counts only in that it is no seed. -/
theorem of_start {start : FieldState} (h : Shaped ⟨start, l, q⟩) {start' : FieldState}
    (ne : ∀ f, start' ≠ .alloc f) : Shaped ⟨start', l, q⟩ :=
  ⟨h.silent_iff, ne, h.generated⟩

theorem solve (initial seed : Fact) : Shaped ⟨.single initial, .epsilon, .alloc seed⟩ :=
  ⟨⟨fun _ => ⟨seed, rfl⟩, fun _ => rfl⟩, fun _ => nofun, fun _ _ => nofun⟩

theorem push (named : g ≠ .epsilon) : Shaped ⟨.single f, g, .generated f g⟩ where
  silent_iff := ⟨fun e => absurd e named, fun ⟨_, e⟩ => nomatch e⟩
  start_ne := fun _ => nofun
  generated := fun _ _ e => (FieldState.generated.inj e).2

/-- A field that is not empty leads to any fact. -/
theorem connect (named : g ≠ .epsilon) (ne : ∀ f, q ≠ .alloc f) : Shaped ⟨q, g, .single f⟩ where
  silent_iff := ⟨fun e => absurd e named, fun ⟨_, e⟩ => nomatch e⟩
  start_ne := ne
  generated := fun _ _ => nofun

theorem rename_ne (h : Shaped t) (source target f : Fact) : t.start.rename source target ≠ .alloc f :=
  fun e => h.start_ne f (FieldState.rename_eq_alloc_iff.1 e)

theorem rename (h : Shaped t) (source target : Fact) :
    Shaped ⟨t.start.rename source target, t.label, t.target.rename source target⟩ where
  silent_iff := h.silent_iff.trans (exists_congr fun _ => FieldState.rename_eq_alloc_iff.symm)
  start_ne := h.rename_ne source target
  generated := fun f g e => h.generated f g (FieldState.rename_eq_generated_iff.1 e)

end Shaped

/-! ## A realm of shaped transitions -/

def shapedFacts : Facts := { Facts.all with field := Shaped }

theorem shapedFacts_closed {W : Ways}
    (named : ∀ {f r g}, W.rule f r → r.field = .push g → g ≠ .epsilon) : shapedFacts.Closed W :=
  { Facts.all_closed W with
    keep := fun _ _ _ ht => ht.of_start fun _ => nofun
    push := fun _ hr e ht => ⟨.push (named hr e), ht.of_start fun _ => nofun⟩
    takeOver := fun _ ht => ht.of_start fun _ => nofun
    fieldFlow := fun _ ht => ht.of_start fun _ => nofun
    pop := fun _ _ _ _ => trivial
    productive := fun _ _ => trivial }

/-- Anything may come up, but all transitions are shaped and aliases are imported at the field
accesses of the program only. -/
def shaped (p : Program) : Realm where
  ways := p.ways
  facts _ := shapedFacts
  query _ := True
  started _ := True
  watched _ := True
  base _ _ := True
  flow access _ := p.Accesses access
  visits _ e _ := ∀ {flow access source target}, e = .importInto flow access source target →
    p.Accesses access
  callSite _ := True
  returned _ _ := True
  bypassed _ _ := True
  reversed _ := True

section Shaped

variable {p : Program} (named : p.Named)
include named

theorem field_ne_epsilon_of_accesses {access : FieldAccess} (h : p.Accesses access) :
    access.field ≠ .epsilon := by
  obtain ⟨i, hi, -, -, field⟩ := h.exists_instruction
  obtain ⟨b, hb, hi⟩ := Program.exists_body_of_instruction? hi
  intro e
  have silent := named b hb i hi _ field
  rw [e] at silent
  cases silent

theorem shaped_closed (config : Config) : (shaped p).Closed p config where
  covers := p.covers_ways
  facts {q} _ := shapedFacts_closed fun ⟨_, hr⟩ e eps => by
    have := Solver.field_named named hr (.inl e)
    rw [eps] at this
    cases this
  opened _ := trivial
  productive _ := trivial
  started _ := ⟨trivial, fun _ _ => ⟨.solve _ _, trivial⟩⟩
  allocation _ _ _ _ := ⟨trivial, trivial⟩
  watched _ _ _ := trivial
  value _ _ ha _ := ⟨trivial, ha⟩
  writeBase _ _ _ _ _ _ := trivial
  readBase _ _ _ _ _ _ := nofun
  pair _ hf _ := ⟨trivial, trivial, fun _ _ _ _ => fun e => by cases e; exact hf,
    fun _ _ _ _ _ => trivial⟩
  visit {q e t} hv ht := by
    refine ⟨hv, ?_⟩
    cases e with
    | importInto flow access source target =>
      refine ⟨ht.rename source target, fun _ _ => ?_⟩
      exact .connect (field_ne_epsilon_of_accesses named (hv rfl)) (ht.rename_ne source target)
    | flowAllocation => exact fun _ _ => trivial
    | splice flow => exact ht
    | baseAllocation access => exact fun _ => trivial
  returned _ _ _ := ⟨trivial, nofun⟩
  bypassed _ _ _ := ⟨trivial, trivial⟩
  activation _ _ _ := ⟨trivial, trivial, nofun, fun _ => trivial, trivial, trivial⟩
  begins _ := ⟨trivial, fun _ _ _ => ⟨.solve _ _, trivial⟩⟩
  goes_on _ _ _ := .inl ⟨default, trivial⟩

end Shaped

namespace Analysis

variable {p : Program} {config : Config} {calls : List ClientCall} {a : Analysis} {q : Query}
  {s : Solver} {source : String}

theorem Reachable.shaped (h : Reachable p config calls a) (named : p.Named)
    (hs : a.solver? q = some s) {t : FieldTransition} (ht : t ∈ s.fields) : Shaped t := by
  obtain ⟨i, e, he, rfl⟩ := Pool.find?_eq_some_iff.1 hs
  exact ((h.within (shaped_closed named config) (fun _ _ _ _ _ => trivial)
    fun _ _ _ _ => trivial).host he).below.field t ht

/-- In a program that was read, every field automaton of every reachable state keeps the shape:
exactly the empty labels lead to seeds, from which nothing leads on, and what leads to a state for
something in a field has this field as its label. -/
theorem fields_shaped (read : Source.readProgram source = .ok p) (h : Reachable p config calls a)
    (hs : a.solver? q = some s) {t : FieldTransition} (ht : t ∈ s.fields) :
    (t.label = .epsilon ↔ ∃ f, t.target = .alloc f) ∧ (∀ f, t.start ≠ .alloc f) ∧
      ∀ f g, t.target = .generated f g → t.label = g :=
  have shaped := h.shaped (Source.readProgram_named read) hs ht
  ⟨shaped.silent_iff, shaped.start_ne, shaped.generated⟩

/-- After the splice the solver for the content has a transition into the seed of the box. -/
theorem crated_shaped : ∃ program a s, Source.readProgram crated = .ok program ∧
    Reachable program default [.solve content] a ∧ a.solver? content = some s ∧ boxed ∈ s.fields ∧
    (boxed.label = .epsilon ↔ ∃ f, boxed.target = .alloc f) ∧ (∀ f, boxed.start ≠ .alloc f) ∧
      ∀ f g, boxed.target = .generated f g → boxed.label = g := by
  obtain ⟨program, a, s, run⟩ := exists_crated
  have reachable := reachable_of_performAll run.called
  exact ⟨program, a, s, run.read, reachable, run.solver, run.boxed,
    fields_shaped run.read reachable run.solver run.boxed⟩

end Analysis

/-! ## Empty access paths -/

namespace Solver

variable {s : Solver} {f : Fact}

/-- A path without names is one transition into the seed. -/
theorem spells_nil_iff (shaped : ∀ t ∈ s.fields, Shaped t) :
    s.Spells s.seed f [] ↔ ⟨.single f, .epsilon, s.seedState⟩ ∈ s.fields := by
  refine ⟨fun spells => ?_, fun ht => spells_of_mem ht .nil⟩
  obtain ⟨l, q, labels, ht, path, nameless⟩ := spells.first
  obtain rfl : l = .epsilon := by
    cases l with
    | epsilon => rfl
    | named name => cases nameless
  obtain ⟨seed, rfl⟩ := (shaped _ ht).silent_iff.1 rfl
  -- nothing leads on from a seed
  cases labels with
  | nil =>
    rw [path.eq_of_nil] at ht
    exact ht
  | cons l labels =>
    obtain ⟨q, ht', -⟩ := Automaton.path_cons_iff.1 path
    exact absurd rfl ((shaped _ ht').start_ne seed)

/-- At rest, a fact is reached with an empty field stack if it is in some context and its access path
may be empty. -/
theorem Resting.reachesWithEmptyStack_iff (h : s.Resting) (shaped : ∀ t ∈ s.fields, Shaped t) :
    s.reachesWithEmptyStack f ↔ s.facts.live f ∧ [] ∈ (s.accessPath f).language := by
  rw [Solver.reachesWithEmptyStack_iff, h.known_iff, mem_language_accessPath, spells_nil_iff shaped]

/-- At rest, a fact that is reached has an access path. -/
theorem Resting.accessPath_ne_empty (h : s.Resting) (seed : s.seedState ∈ s.productive)
    (hf : f ∈ s.reached) : s.accessPath f ≠ .empty := by
  obtain ⟨-, labels, path⟩ := (h.reached_iff seed).1 hf
  have spelled := mem_language_accessPath.2 ⟨labels, path, rfl⟩
  intro empty
  rw [empty] at spelled
  exact spelled

end Solver

namespace Analysis

variable {p : Program} {config : Config} {calls : List ClientCall} {a : Analysis} {q : Query}
  {s : Solver} {source : String}

/-- In a program that was read, after any calls of clients: a fact is reached with an empty field
stack by the solver of a query exactly if it is in some context and the empty word is among its access
paths to the seed, although other solvers have spliced in transitions into their seeds. Every fact
that is reached has some access path. -/
theorem reachesWithEmptyStack_iff_accessPath (read : Source.readProgram source = .ok p)
    (called : (create p config).performAll calls = .ok a) (hs : a.solver? q = some s) (n : Fact) :
    ∃ r, a.accessPath? q n = some r ∧
      (s.reachesWithEmptyStack n ↔
        (∃ c, ⟨.single n.var, n.point, c⟩ ∈ s.calls) ∧ [] ∈ r.language) ∧
      (n ∈ s.reached → r ≠ .empty) := by
  have reachable := reachable_of_performAll called
  have shaped {t} (ht : t ∈ s.fields) := reachable.shaped (Source.readProgram_named read) hs ht
  obtain ⟨⟨S, k, working, -⟩, -⟩ := ready_of_performAll called
  obtain ⟨i, e, he, rfl⟩ := Pool.find?_eq_some_iff.1 hs
  have host := working.within.host he
  refine ⟨e.solver.accessPath n, by rw [accessPath?, hs]; rfl, ?_, fun hn => ?_⟩
  · exact host.resting.reachesWithEmptyStack_iff fun t ht => shaped ht
  · refine host.resting.accessPath_ne_empty ?_ hn
    rw [Solver.seedState, host.seed]
    exact host.productive

/-- The content is reached under the empty path. The box is reached as well, and a nameless transition
leads from there into a seed, but it is the seed of the box. -/
theorem crated_accessPath : ∃ program a s r r', Source.readProgram crated = .ok program ∧
    (create program default).performAll [.solve content] = .ok a ∧ a.solver? content = some s ∧
    boxed ∈ s.fields ∧ afterCall "a" ∈ s.reached ∧
    a.accessPath? content (afterCall "o") = some r ∧ [] ∈ r.language ∧
    a.accessPath? content (afterCall "a") = some r' ∧ [] ∉ r'.language ∧ r' ≠ .empty := by
  obtain ⟨program, a, s, run⟩ := exists_crated
  obtain ⟨r, path, silent, -⟩ :=
    reachesWithEmptyStack_iff_accessPath run.read run.called run.solver (afterCall "o")
  obtain ⟨r', path', silent', some'⟩ :=
    reachesWithEmptyStack_iff_accessPath run.read run.called run.solver (afterCall "a")
  exact ⟨program, a, s, r, r', run.read, run.called, run.solver, run.boxed, run.reached, path,
    (silent.1 run.silent).2, path', fun empty => run.notSilent (silent'.2 ⟨⟨_, run.entered⟩, empty⟩),
    some' run.reached⟩

end Analysis

end PointsTo
