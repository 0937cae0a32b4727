import PointsTo.Proofs.Analysis.Clients
import PointsTo.Proofs.Analysis.Closure
import PointsTo.Proofs.Solver.AccessPaths

/-!
# Aliases at field writes

After `b.f = v`, whatever leads to the base `b` leads to `v` through the field `f`. So the paths of a
base, from an alias next to the write to its seed, are copied into the flow of the value, with the
field in place of the seed (`Working.transplants`).

An alias is imported into a flow once, for the first base and the first point next to the write where
it is found. If it is found nowhere else, all its paths are copied (`imports_paths`). If another base
has it too, the paths of that base are lost (`joinedBox_loses`).
-/

namespace PointsTo

namespace FieldAccess

variable {access : FieldAccess} {p : Program} {i : Point × List Point}

theorem mem_imports_of_write (hk : access.kind = .write) : i ∈ access.imports p ↔
    ∃ next ∈ p.successors access.point, i = (next, [next]) := by
  simp [imports, direction, hk, Supergraph.successors, eq_comm]

end FieldAccess

namespace Analysis

variable {p : Program} {S : Supply p} {n : Nat} {a : Analysis} {access : FieldAccess} {x : FieldJoin}
  {base flow : Query} {next : Point} {v : Var} {s : Solver}

/-- What the solver of a query knows is what the query knows. -/
theorem factsOf_of_solver? {q : Query} (hs : a.solver? q = some s) : a.factsOf q = s.facts := by
  obtain ⟨i, e, he, rfl⟩ := Pool.find?_eq_some_iff.1 hs
  exact factsOf_eq he

/-! ## Copied paths -/

/-- A path of the base that an import has come to is copied up to the seed of the base, from where
the field of the access leads to the value. -/
theorem Working.transplants (h : Working S n a) (idle : a.Idle) {f : Fact} {s' : Solver}
    (hs : a.solver? base = some s) (hs' : a.solver? flow = some s') (connects : access.Connects f.var)
    {state : FieldState} {labels : List Field} (path : s.fields.Path (.alloc base.fact) state labels)
    (hv : a.view.visits base (.importInto flow access f f) state) :
    state = .alloc base.fact ∧ labels = [] ∨
      ∃ labels', s'.fields.Path (.single access.fact) state (labels' ++ [access.field]) ∧
        Field.names labels' = Field.names labels := by
  have knows : a.view.facts flow = s'.facts := factsOf_of_solver? hs'
  induction path with
  | nil => exact .inl ⟨rfl, rfl⟩
  | @cons t labels ht rest ih =>
    have known : (a.factsOf base).field t := by
      rw [factsOf_of_solver? hs]
      exact ht
    obtain ⟨visits, copied, connected⟩ := h.visited idle hv known
    rw [knows, FieldState.rename_self, FieldState.rename_self] at copied
    rw [knows, FieldState.rename_self] at connected
    right
    obtain ⟨last, rfl⟩ | ⟨labels', path', names⟩ := ih visits
    · -- the seed is reached without a name, and the field of the access stands for it
      have silent : t.label = .epsilon := (h.within.factsOf_sub.field t known).2 _ last
      have bridge := connected connects last
      exact ⟨[], .cons bridge .nil, by simp [Field.names, silent, Field.isEpsilon]⟩
    · refine ⟨t.label :: labels', .cons copied path', ?_⟩
      rw [Field.names_cons, Field.names_cons, names]

/-- After any calls of clients: if an alias next to a field write is found for one base and at one
point only, then wherever a path leads from it to the seed of the base, the same path leads on through
the field to the written value, in each flow of the value. -/
theorem imports_paths {config : Config} {calls : List ClientCall}
    (called : (create p config).performAll calls = .ok a)
    (hx : (access, x) ∈ a.fieldJoins.toList) (write : access.kind = .write)
    (hb : base ∈ x.bases) (hf : flow ∈ x.flows) (hn : next ∈ p.successors access.point)
    (connects : access.Connects v) (hs : a.solver? base = some s)
    (only : ∀ {base' s' next'}, base' ∈ x.bases → a.solver? base' = some s' →
      next' ∈ p.successors access.point → (∃ t ∈ s'.fields, t.start = .single ⟨next', v⟩) →
        base' = base ∧ next' = next)
    {w : List Field} (spells : s.Spells s.seed ⟨next, v⟩ w) :
    ∃ s' labels, a.solver? flow = some s' ∧
      s'.fields.Path (.single access.fact) (.single ⟨next, v⟩) (labels ++ [access.field]) ∧
      Field.names labels = w := by
  obtain ⟨⟨S, n, working, -⟩, idle⟩ := ready_of_performAll called
  obtain ⟨j, hj⟩ := List.mem_iff_getElem?.1 hx
  have view_base {q} (hq : q ∈ x.bases) : a.view.base access q := ⟨j, x, hj, hq⟩
  have view_flow : a.view.flow access flow := ⟨j, x, hj, hf⟩
  obtain ⟨k, e', he'⟩ := ((working.within.fieldJoin hj).flow flow hf).2.reaches.knows
  have hs' : a.solver? flow = some e'.solver := Pool.find?_eq_some_iff.2 ⟨k, e', he', rfl⟩
  have imports {i} := FieldAccess.mem_imports_of_write write (p := p) (i := i)
  -- the path begins with a transition that brings the alias in
  obtain ⟨i, e, he, rfl⟩ := Pool.find?_eq_some_iff.1 hs
  have seed := (working.within.host he).seed
  obtain ⟨labels, path, rfl⟩ := spells
  rw [seed] at path
  cases labels with
  | nil => cases path.eq_of_nil
  | cons l labels =>
    obtain ⟨state, ht, -⟩ := Automaton.path_cons_iff.1 path
    have known : (a.factsOf base).field ⟨.single ⟨next, v⟩, l, state⟩ := (sub_factsOf he).field _ ht
    have key : (next, [next]) ∈ access.imports a.program := by
      rw [working.program]
      exact imports.2 ⟨next, hn, rfl⟩
    have done := working.imported idle (view_base hb) view_flow key known ?_
    · obtain ⟨visits, -⟩ := done next List.mem_cons_self
      obtain ⟨at_seed, -⟩ | ⟨labels', path', names⟩ :=
        working.transplants idle hs hs' connects path visits
      · cases at_seed
      · exact ⟨e'.solver, labels', hs', path', names⟩
    · rintro base' i' l' state' ⟨j', x', hj', hb'⟩ hi' ht'
      obtain rfl := FieldJoinAt.index_eq hj hj'
      obtain ⟨-, rfl⟩ := FieldJoinAt.unique hj hj'
      rw [working.program] at hi'
      obtain ⟨next', hn', rfl⟩ := imports.1 hi'
      obtain ⟨k', e₁, he₁, ht₁⟩ := ht'
      have found : a.solver? base' = some e₁.solver := Pool.find?_eq_some_iff.2 ⟨k', e₁, he₁, rfl⟩
      obtain ⟨rfl, rfl⟩ := only hb' found hn' ⟨_, ht₁, rfl⟩
      exact ⟨rfl, rfl⟩

/-- A variable of the method `m` before its instruction at an index. -/
def variableAt (index : Nat) (name : String) : Fact :=
  ⟨.ofIndex ⟨"m"⟩ index, ⟨name, ⟨"m"⟩⟩⟩

/-- What the value that was made first in the method `m` flows to. -/
def firstValue : Query := ⟨.forward, variableAt 1 "v", none⟩

/-- The store of a value in a box. -/
def boxStore (index : Nat) : FieldAccess :=
  ⟨.write, .ofIndex ⟨"m"⟩ index, ⟨"y", ⟨"m"⟩⟩, .named "f", ⟨"v", ⟨"m"⟩⟩⟩

/-- A method that puts a box in another box and then a value in the first. -/
def nestedBox : String :=
  "method m() \x7b\n  v = null\n  x = new A\n  y = new A\n  x.h = y\n  y.f = v\n  q: nop\n\x7d"

/-- The outer box leads through its field to the inner box, and so through both fields to the
value. -/
theorem nestedBox_paths : ∃ program a x s, Source.readProgram nestedBox = .ok program ∧
    (create program default).performAll [.solve firstValue] = .ok a ∧
    (boxStore 5, x) ∈ a.fieldJoins.toList ∧
    a.solver? ⟨.forward, variableAt 3 "y", some ⟨"A"⟩⟩ = some s ∧
    s.Spells s.seed (variableAt 6 "x") [.named "h"] ∧
    ∃ s' labels, a.solver? firstValue = some s' ∧
      s'.fields.Path (.single (variableAt 5 "v")) (.single (variableAt 6 "x"))
        (labels ++ [.named "f"]) ∧
      Field.names labels = [.named "h"] := by
  let base : Query := ⟨.forward, variableAt 3 "y", some ⟨"A"⟩⟩
  let inner : FieldState := .generated (variableAt 5 "x") (.named "h")
  have checked : (Source.readProgram nestedBox).toOption.any fun program =>
      ((create program default).performAll [.solve firstValue]).toOption.any fun a =>
        decide (program.successors (.ofIndex ⟨"m"⟩ 5) = [.ofIndex ⟨"m"⟩ 6]) &&
          ((a.fieldJoins.get? (boxStore 5)).any fun x =>
            decide (x.bases.toList = [base] ∧ x.flows.toList = [firstValue])) &&
          ((a.solver? base).any fun s =>
            s.fields.contains ⟨.single (variableAt 6 "x"), .named "h", inner⟩ &&
              s.fields.contains ⟨inner, .epsilon, .alloc s.seed⟩) := by
    decide +kernel
  obtain ⟨program, read, h⟩ := exists_ok_of_any checked
  obtain ⟨a, called, h⟩ := exists_ok_of_any h
  rw [Bool.and_eq_true, Bool.and_eq_true] at h
  obtain ⟨⟨next, joins⟩, found⟩ := h
  obtain ⟨x, hx, sides⟩ := (Option.any_eq_true _ _).1 joins
  obtain ⟨s, hs, path⟩ := (Option.any_eq_true _ _).1 found
  have next := of_decide_eq_true next
  have hx := OrderedMap.get?_eq_some_iff.1 hx
  obtain ⟨bases, flows⟩ := of_decide_eq_true sides
  obtain ⟨named, silent⟩ := Bool.and_eq_true_iff.1 path
  have spells : s.Spells s.seed (variableAt 6 "x") [.named "h"] :=
    ⟨[.named "h", .epsilon], .cons (Automaton.contains_iff.1 named)
      (.cons (Automaton.contains_iff.1 silent) .nil), rfl⟩
  refine ⟨program, a, x, s, read, called, hx, hs, spells, ?_⟩
  have hb : base ∈ x.bases := OrderedSet.mem_toList.1 (by simp [bases])
  have hf : firstValue ∈ x.flows := OrderedSet.mem_toList.1 (by simp [flows])
  have hn : .ofIndex ⟨"m"⟩ 6 ∈ program.successors (.ofIndex ⟨"m"⟩ 5) := by simp [next]
  refine imports_paths called hx rfl hb hf hn (by decide) hs ?_ spells
  -- there is one base and one point next to the store
  intro base' s' next' hb' _ hn' _
  constructor
  · simpa [bases] using OrderedSet.mem_toList.2 hb'
  · simpa [boxStore, next] using hn'

/-! ## Paths that are lost -/

/-- A method that stores a value in one of two boxes, one of which holds the other. -/
def joinedBox : String :=
  "method m() \x7b\n  v = null\n  x = new A\n  y = new A\n  x.h = y\n" ++
    "  if * goto L\n  y = x\n  L: y.f = v\n  q: nop\n\x7d"

/-- After the store the outer box may hold the value, through one field or through both. The path
through both is there and the path through one is missing, although the base leads there. -/
theorem joinedBox_loses : ∃ program a x s s', Source.readProgram joinedBox = .ok program ∧
    (create program default).performAll [.solve firstValue] = .ok a ∧
    (boxStore 7, x) ∈ a.fieldJoins.toList ∧
    ⟨.forward, variableAt 2 "x", some ⟨"A"⟩⟩ ∈ x.bases ∧ firstValue ∈ x.flows ∧
    .ofIndex ⟨"m"⟩ 8 ∈ program.successors (.ofIndex ⟨"m"⟩ 7) ∧
    a.solver? ⟨.forward, variableAt 2 "x", some ⟨"A"⟩⟩ = some s ∧
    s.Spells s.seed (variableAt 8 "x") [] ∧ a.solver? firstValue = some s' ∧
    ¬ ∃ labels, s'.fields.Path (.single (variableAt 7 "v")) (.single (variableAt 8 "x")) labels ∧
      Field.names labels = [.named "f"] := by
  let base : Query := ⟨.forward, variableAt 2 "x", some ⟨"A"⟩⟩
  have checked : (Source.readProgram joinedBox).toOption.any fun program =>
      ((create program default).performAll [.solve firstValue]).toOption.any fun a =>
        decide (.ofIndex ⟨"m"⟩ 8 ∈ program.successors (.ofIndex ⟨"m"⟩ 7)) &&
          ((a.fieldJoins.get? (boxStore 7)).any fun x =>
            x.bases.contains base && x.flows.contains firstValue) &&
          ((a.solver? base).any fun s =>
            s.fields.contains ⟨.single (variableAt 8 "x"), .epsilon, .alloc s.seed⟩) &&
          ((a.solver? firstValue).any fun s' => decide
            ((∀ t ∈ s'.fields.toList, t.start = .single (variableAt 8 "x") →
              t.label = .named "h" ∨ t.label = .epsilon ∧ t.target = .alloc (variableAt 2 "x")) ∧
            ∀ t ∈ s'.fields.toList, t.start ≠ .alloc (variableAt 2 "x"))) := by
    decide +kernel
  obtain ⟨program, read, h⟩ := exists_ok_of_any checked
  obtain ⟨a, called, h⟩ := exists_ok_of_any h
  rw [Bool.and_eq_true, Bool.and_eq_true, Bool.and_eq_true] at h
  obtain ⟨⟨⟨next, joins⟩, found⟩, lost⟩ := h
  obtain ⟨x, hx, sides⟩ := (Option.any_eq_true _ _).1 joins
  obtain ⟨s, hs, silent⟩ := (Option.any_eq_true _ _).1 found
  obtain ⟨s', hs', only⟩ := (Option.any_eq_true _ _).1 lost
  obtain ⟨hb, hf⟩ := Bool.and_eq_true_iff.1 sides
  obtain ⟨leaves, ends⟩ := of_decide_eq_true only
  refine ⟨program, a, x, s, s', read, called, OrderedMap.get?_eq_some_iff.1 hx,
    OrderedSet.contains_iff.1 hb, OrderedSet.contains_iff.1 hf, of_decide_eq_true next, hs,
    ⟨[.epsilon], .cons (Automaton.contains_iff.1 silent) .nil, rfl⟩, hs', ?_⟩
  rintro ⟨labels, path, names⟩
  cases labels with
  | nil => cases names
  | cons l labels =>
    obtain ⟨state, ht, rest⟩ := Automaton.path_cons_iff.1 path
    obtain rfl | ⟨rfl, rfl⟩ := leaves _ ht rfl
    · -- the other field comes first
      simp [Field.names, Field.isEpsilon] at names
    · -- the seed of the base leads nowhere
      cases labels with
      | nil => cases names
      | cons l labels =>
        obtain ⟨_, ht, -⟩ := Automaton.path_cons_iff.1 rest
        exact ends _ ht rfl

end Analysis

end PointsTo
