import PointsTo.Proofs.Paths
import PointsTo.Proofs.Regex.PathExpression
import PointsTo.Proofs.Solver.Least

/-!
# The field automaton is exact

`Holds` says which facts hold the start under which access path when the rules of the facts that
occur in the call automaton are followed one after another: putting a value into a field prepends
the field, and taking it out of the field removes it again.

The field automaton of a solver that was only asked to solve spells an access path from a fact to
the seed, with empty labels skipped, if and only if the fact holds a start under this path
(`spells_iff_holds`). Programs whose field labels are all names are assumed, as the reader makes no
others: a push of the empty label would be skipped, but would have to be popped.
-/

namespace PointsTo

/-- The fact holds one of the starts under an access path. Only the rules of live facts count. -/
inductive Holds (p : Propagation) (live : Fact → Prop) (starts : List Fact) :
    Fact → List Field → Prop
  | start {f} : f ∈ starts → Holds p live starts f []
  | keep {f r w} : Holds p live starts f w → live f → r ∈ (p.flow f).rules → r.field = .keep →
      Holds p live starts r.target w
  | push {f r g w} : Holds p live starts f w → live f → r ∈ (p.flow f).rules → r.field = .push g →
      Holds p live starts r.target (g :: w)
  | pop {f r g w} : Holds p live starts f (g :: w) → live f → r ∈ (p.flow f).rules →
      r.field = .pop g → Holds p live starts r.target w

/-- What a rule does to the fields that are to be read from a value. -/
def FieldEffect.Changes : FieldEffect → List Field → List Field → Prop
  | keep, w, w' => w' = w
  | push g, w, w' => w' = g :: w
  | pop g, w, w' => w = g :: w'

namespace FieldEffect

variable {g : Field} {w w' : List Field}

@[simp, grind =] theorem changes_keep : keep.Changes w w' ↔ w' = w := Iff.rfl

@[simp, grind =] theorem changes_push : (push g).Changes w w' ↔ w' = g :: w := Iff.rfl

@[simp, grind =] theorem changes_pop : (pop g).Changes w w' ↔ w = g :: w' := Iff.rfl

end FieldEffect

namespace Field

/-- The names among some labels. -/
def names (labels : List Field) : List Field := labels.filter (! ·.isEpsilon)

/-- A label in front of a path. -/
def spell (l : Field) (w : List Field) : List Field := if l.isEpsilon then w else l :: w

theorem names_cons (l : Field) (labels : List Field) :
    names (l :: labels) = l.spell (names labels) := by
  cases h : l.isEpsilon <;> simp [names, spell, h]

theorem names_append (labels labels' : List Field) :
    names (labels ++ labels') = names labels ++ names labels' :=
  List.filter_append labels labels'

theorem spell_of_named {g : Field} (h : g.isEpsilon = false) (w : List Field) :
    g.spell w = g :: w := by
  simp [spell, h]

end Field

namespace Solver

/-- The fact occurs in the call automaton. -/
def Occurs (s : Solver) (f : Fact) : Prop := ∃ c, ⟨.single f.var, f.point, c⟩ ∈ s.calls

section Exact

variable (p : Propagation) (seed : Fact) (starts : List Fact) (s : Solver)

/-! ## Every path that is spelled is held -/

/-- The access paths that a field state stands for. -/
def StandsFor : FieldState → List Field → Prop
  | .single f, w => Holds p s.Occurs starts f w
  | .alloc f, w => f = seed ∧ w = []
  | .generated f g, w => Holds p s.Occurs starts f (g :: w)

/-- A transition leads from its start to the seed, without a name, or to what lies below its
name. -/
def Leads (t : FieldTransition) : Prop :=
  (∀ f, t.start ≠ .alloc f) ∧
    (t.label = .epsilon ∧ t.target = .alloc seed ∨
      t.label.isEpsilon = false ∧ ∃ f, t.target = .generated f t.label)

/-- The transitions that agree with `Holds`: in front of the paths that its target stands for, the
label of a transition makes paths that its start stands for. -/
def pathFacts : Facts where
  field t := Leads seed t ∧
    ∀ w, StandsFor p seed starts s t.target w → StandsFor p seed starts s t.start (t.label.spell w)
  call t := t ∈ s.calls
  pop q f := ∀ w, StandsFor p seed starts s q w → Holds p s.Occurs starts f w
  fieldFlow _ _ := False
  callFlow f g := s.facts.callFlow f g
  opened m := m ∈ s.unbalanced
  productive _ := True

variable {p seed starts s}

section Named

variable (named : p.graph.program.Named)
include named

theorem field_named {f : Fact} {r : Rule} (hr : r ∈ (p.flow f).rules) {g : Field}
    (h : r.field = .push g ∨ r.field = .pop g) : g.isEpsilon = false := by
  have hg := (Propagation.stays_of_mem_rules hr).field h
  simp only [Program.names, List.mem_toFinset, List.mem_flatMap, Body.fields] at hg
  obtain ⟨b, hb, i, hi, hg⟩ := hg
  exact named b hb i hi g hg

theorem pathFacts_closed (closed : s.facts.Closed p.ways) :
    (pathFacts p seed starts s).Closed p.ways where
  keep := fun hf hr e ⟨⟨_, hl⟩, ht⟩ => ⟨⟨fun _ => nofun, hl⟩, fun w hw => .keep (ht w hw) hf hr e⟩
  push := by
    intro f r g l q hf hr e ⟨⟨_, hl⟩, ht⟩
    have hg := field_named named hr (.inl e)
    refine ⟨⟨⟨fun _ => nofun, .inr ⟨hg, _, rfl⟩⟩, fun w hw => ?_⟩, ⟨fun _ => nofun, hl⟩,
      fun w hw => .push (ht w hw) hf hr e⟩
    rw [Field.spell_of_named hg]
    exact hw
  pop := by
    intro f r g q hf hr e ⟨_, ht⟩ w hw
    refine .pop ?_ hf hr e
    rw [← Field.spell_of_named (field_named named hr (.inr e))]
    exact ht w hw
  takeOver := fun hf ⟨⟨_, hl⟩, ht⟩ => ⟨⟨fun _ => nofun, hl⟩, fun w hw => hf _ (ht w hw)⟩
  fieldFlow := fun h _ => h.elim
  stay := fun hf hr e => closed.stay hf hr e
  enter := fun hf hr e => closed.enter hf hr e
  leave := fun hf hr e ht => closed.leave hf hr e ht
  leaveBottom := fun hf hr e hm => closed.leaveBottom hf hr e hm
  callFlow := fun hg hf => closed.callFlow hg hf
  productive := fun _ _ => trivial

variable (least : Facts.Least p.ways (Granted seed (starts.map .solve)) s.facts)
include least

theorem pathFacts_of_mem {t : FieldTransition} (ht : t ∈ s.fields) :
    (pathFacts p seed starts s).field t := by
  refine (least.sub (pathFacts_closed named least.closed) ⟨?_, trivial, fun o ho => ?_⟩).field t ht
  · exact least.meets.opened
  · obtain ⟨f, hf, rfl⟩ := List.mem_map.1 ho
    refine ⟨⟨⟨fun _ => nofun, .inl ⟨rfl, rfl⟩⟩, fun w hw => ?_⟩, (least.meets.grants _ ho).2⟩
    obtain rfl := hw.2
    exact .start hf

theorem standsFor_of_path {q : FieldState} {labels : List Field}
    (h : s.fields.Path (.alloc seed) q labels) :
    StandsFor p seed starts s q (Field.names labels) := by
  induction h with
  | nil => exact ⟨rfl, rfl⟩
  | cons ht _ ih =>
    rw [Field.names_cons]
    exact (pathFacts_of_mem named least ht).2 _ ih

/-! ## Every path that is held is spelled -/

omit named least in
/-- The field automaton spells the path from the fact. -/
def Spells (s : Solver) (seed f : Fact) (w : List Field) : Prop :=
  ∃ labels, s.fields.Path (.alloc seed) (.single f) labels ∧ Field.names labels = w

omit named least in
/-- The first transition of a path from a fact. -/
theorem Spells.first {f : Fact} {w : List Field} (h : s.Spells seed f w) :
    ∃ l q labels, ⟨.single f, l, q⟩ ∈ s.fields ∧ s.fields.Path (.alloc seed) q labels ∧
      l.spell (Field.names labels) = w := by
  obtain ⟨labels, hp, rfl⟩ := h
  cases labels with
  | nil => exact nomatch hp.eq_of_nil
  | cons l labels =>
    obtain ⟨q, ht, hp⟩ := Automaton.path_cons_iff.1 hp
    exact ⟨l, q, labels, ht, hp, (Field.names_cons l labels).symm⟩

omit named least in
theorem spells_of_mem {f : Fact} {l : Field} {q : FieldState} {labels : List Field}
    (ht : ⟨.single f, l, q⟩ ∈ s.fields) (hp : s.fields.Path (.alloc seed) q labels) :
    s.Spells seed f (l.spell (Field.names labels)) :=
  ⟨l :: labels, .cons ht hp, Field.names_cons l labels⟩

omit named least in
/-- What a fact spells, its rules make of it, unless labels are empty where they should not be. -/
theorem Spells.follow {W : Ways} {f : Fact} {r : Rule} {w w' : List Field}
    (h : s.Spells seed f w) (closed : s.facts.Closed W)
    (ends : ∀ {t}, t ∈ s.fields → ∀ f, t.start ≠ .alloc f)
    (silent : ∀ {t}, t ∈ s.fields → (t.label = .epsilon ↔ ∃ f, t.target = .alloc f))
    (live : s.facts.live f) (hr : W.rule f r)
    (named : ∀ {g}, r.field = .push g ∨ r.field = .pop g → g.isEpsilon = false)
    (changes : r.field.Changes w w') : s.Spells seed r.target w' := by
  obtain ⟨l, q, labels, ht, hp, rfl⟩ := h.first
  cases e : r.field with
  | keep =>
    rw [e] at changes
    obtain rfl := changes
    exact spells_of_mem (closed.keep live hr e ht) hp
  | push g =>
    rw [e] at changes
    obtain rfl := changes
    obtain ⟨h₁, h₂⟩ := closed.push live hr e ht
    have := spells_of_mem h₁ (.cons h₂ hp)
    rwa [Field.spell_of_named (named (.inl e)), Field.names_cons] at this
  | pop g =>
    rw [e, FieldEffect.changes_pop] at changes
    cases l with
    | epsilon =>
      -- nothing leads on from the seed, so no name was spelled
      obtain ⟨f', rfl⟩ := (silent ht).1 rfl
      cases labels with
      | nil => cases changes
      | cons l labels =>
        obtain ⟨q, ht', -⟩ := Automaton.path_cons_iff.1 hp
        exact absurd rfl (ends ht' f')
    | named name =>
      obtain ⟨rfl, rfl⟩ := List.cons.inj changes
      have hpop := closed.pop live hr e ht
      cases labels with
      | nil =>
        rw [hp.eq_of_nil] at ht
        exact nomatch (silent ht).2 ⟨seed, rfl⟩
      | cons l labels =>
        obtain ⟨q', ht', hp⟩ := Automaton.path_cons_iff.1 hp
        rw [Field.names_cons]
        exact spells_of_mem (closed.takeOver hpop ht') hp

theorem spells_of_holds {f : Fact} {w : List Field} (h : Holds p s.Occurs starts f w) :
    s.Spells seed f w := by
  have leads {t} (ht : t ∈ s.fields) : Leads seed t := (pathFacts_of_mem named least ht).1
  have silent {t} (ht : t ∈ s.fields) : t.label = .epsilon ↔ ∃ f, t.target = .alloc f := by
    obtain ⟨e, target⟩ | ⟨e, f, target⟩ := (leads ht).2
    · exact ⟨fun _ => ⟨seed, target⟩, fun _ => e⟩
    · exact ⟨fun l => (by simp [l, Field.isEpsilon] at e), fun ⟨_, e⟩ => nomatch target.symm.trans e⟩
  have follow {f r w w'} (ih : s.Spells seed f w) (hf : s.Occurs f) (hr : r ∈ (p.flow f).rules)
      (changes : r.field.Changes w w') : s.Spells seed r.target w' :=
    ih.follow least.closed (fun ht => (leads ht).1) silent hf hr (field_named named hr) changes
  induction h with
  | start hf =>
    have := (least.meets.grants (.solve _) (List.mem_map_of_mem hf)).1
    exact ⟨[.epsilon], .cons this .nil, rfl⟩
  | keep _ hf hr e ih | push _ hf hr e ih | pop _ hf hr e ih =>
    exact follow ih hf hr (by rw [e]; rfl)

end Named

end Exact

/-- A solver of any direction on any graph, told of some classes beforehand and then asked to solve
some facts, spells an access path from a fact to its seed exactly if the fact holds a start under
this path. -/
theorem spells_iff_holds (direction : Direction) (graph : Supergraph) (seed : Fact)
    (types : List ClassName) (starts : List Fact) (named : graph.program.Named) (f : Fact)
    (w : List Field) :
    let s := (create direction graph seed).allocate types
    (∃ labels, (s.solveAll starts).fields.Path (.alloc seed) (.single f) labels ∧
        labels.filter (! ·.isEpsilon) = w) ↔
      Holds s.propagation (s.solveAll starts).Occurs starts f w := by
  have least := solveAll_least direction graph seed types starts
  have named' : ((create direction graph seed).allocate types).propagation.graph.program.Named := by
    have e := graph_allocate (create direction graph seed) types
    exact (congrArg (·.program.Named) e).mpr named
  refine ⟨fun ⟨labels, hp, e⟩ => ?_, spells_of_holds named' least⟩
  exact e ▸ standsFor_of_path named' least hp

/-! ## Access paths as expressions -/

/-- Walks that skip the empty labels read the names of the labels of a path. -/
theorem walk_edges_iff {a : Automaton FieldState Field} {last q : FieldState} {w : List Field} :
    Walk a.edges last q w ↔ ∃ labels, a.Path last q labels ∧ Field.names labels = w := by
  have word (l : Field) (w : List Field) :
      (if l.isEpsilon then none else some l).toList ++ w = l.spell w := by
    cases h : l.isEpsilon <;> simp [Field.spell, h]
  constructor
  · intro walk
    induction walk with
    | nil => exact ⟨[], .nil, rfl⟩
    | @cons e w he _ ih =>
      obtain ⟨t, ht, rfl⟩ := List.mem_map.1 he
      obtain ⟨labels, path, rfl⟩ := ih
      exact ⟨t.label :: labels, .cons (OrderedSet.mem_toList.1 ht) path,
        by rw [Field.names_cons, word]⟩
  · rintro ⟨labels, path, rfl⟩
    induction path with
    | nil => exact .nil
    | @cons t labels ht _ ih =>
      rw [Field.names_cons, ← word]
      exact .cons (List.mem_map.2 ⟨t, OrderedSet.mem_toList.2 ht, rfl⟩) ih

/-- The access path of a fact is an expression for what the field automaton spells from there. -/
theorem mem_language_accessPath {s : Solver} {f : Fact} {w : List Field} :
    w ∈ (s.accessPath f).language ↔ s.Spells s.seed f w := by
  rw [accessPath, language_pathExpression]
  exact walk_edges_iff

/-- The method `m` with the statements `v = new T` and `b.f = v`. -/
def storing : Program :=
  let v : Var := ⟨"v", ⟨"m"⟩⟩
  let lines : List Line :=
    [⟨none, .new v ⟨"T"⟩, .next⟩, ⟨none, .store ⟨"b", ⟨"m"⟩⟩ (.named "f") v, .next⟩]
  match Body.ofLines ⟨"m"⟩ [] lines with
  | .ok body => (Program.ofBodies [body]).toOption.getD default
  | .error _ => default

/-- After the store, the field automaton for the object spells its field from the base. -/
theorem spells_field_of_base : storing.Named ∧
    let s := (create .forward ⟨storing, .forward⟩ ⟨.ofIndex ⟨"m"⟩ 1, ⟨"v", ⟨"m"⟩⟩⟩).allocate []
    let s := s.solveAll [⟨.ofIndex ⟨"m"⟩ 2, ⟨"v", ⟨"m"⟩⟩⟩]
    ∃ labels, s.fields.Path (.alloc ⟨.ofIndex ⟨"m"⟩ 1, ⟨"v", ⟨"m"⟩⟩⟩)
        (.single ⟨.ofIndex ⟨"m"⟩ 3, ⟨"b", ⟨"m"⟩⟩⟩) labels ∧
      labels.filter (! ·.isEpsilon) = [.named "f"] := by
  refine ⟨by decide +kernel, (spells_iff_holds _ ⟨storing, .forward⟩ _ _ _ (by decide +kernel)
    ⟨.ofIndex ⟨"m"⟩ 3, ⟨"b", ⟨"m"⟩⟩⟩ _).2 ?_⟩
  refine Holds.push (r := ⟨⟨.ofIndex ⟨"m"⟩ 3, ⟨"b", ⟨"m"⟩⟩⟩, .push (.named "f"), .stay⟩)
    (.start List.mem_cons_self) ⟨.initial ⟨"v", ⟨"m"⟩⟩, Automaton.contains_iff.1 ?_⟩ ?_ rfl
  · decide +kernel
  · decide +kernel

end Solver

end PointsTo
