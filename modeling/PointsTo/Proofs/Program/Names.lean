import PointsTo.Program.Supergraph
import Mathlib.Data.Finset.Card
import Mathlib.Algebra.Order.BigOperators.Group.List
import Mathlib.Algebra.Order.Ring.Nat

/-!
# The names in play

`Names` is a finite supply of points, variables and fields. A program has such a supply
(`Program.names`), no larger than its extent in any of the three (`Program.names_le`), and walking
the program from its points never leaves it.
-/

namespace PointsTo

namespace Instruction

def vars : Instruction → List Var
  | new dest _ | null dest => [dest]
  | assign dest value => [dest, value]
  | store base _ value => [base, value]
  | load dest base _ => [dest, base]
  | call dest _ args => dest.toList ++ args
  | ret value => value.toList
  | nop => []

def fields : Instruction → List Field
  | store _ field _ | load _ _ field => [field]
  | _ => []

theorem length_vars_le (i : Instruction) : i.vars.length ≤ i.mentions := by
  cases i with
  | call dest _ args => cases dest <;> simp [vars, mentions]
  | ret value => cases value <;> simp [vars, mentions]
  | _ => simp [vars, mentions]

theorem length_fields_le (i : Instruction) : i.fields.length ≤ i.mentions := by
  cases i <;> simp [fields, mentions]

theorem mentions_pos (i : Instruction) : 1 ≤ i.mentions := by
  cases i <;> simp [mentions]

end Instruction

namespace Body

def points (b : Body) : List Point := (List.range b.size).map (.ofIndex b.method)

def vars (b : Body) : List Var := b.parameters ++ b.instructions.toList.flatMap (·.vars)

def fields (b : Body) : List Field := b.instructions.toList.flatMap (·.fields)

theorem length_flatMap_le {α : Type} {g : Instruction → List α}
    (hg : ∀ i, (g i).length ≤ i.mentions) (is : List Instruction) :
    (is.flatMap g).length ≤ (is.map (·.mentions)).sum := by
  rw [List.length_flatMap]
  exact List.sum_le_sum fun i _ => hg i

theorem extent_eq (b : Body) :
    b.extent = b.parameters.length + (b.instructions.toList.map (·.mentions)).sum := rfl

theorem length_points_le (b : Body) : b.points.length ≤ b.extent := by
  have := length_flatMap_le (g := fun i => [i]) (fun i => i.mentions_pos) b.instructions.toList
  simp only [List.flatMap_singleton', Array.length_toList] at this
  simp only [points, extent_eq, List.length_map, List.length_range, size]
  omega

theorem length_vars_le (b : Body) : b.vars.length ≤ b.extent := by
  have := length_flatMap_le (g := fun i => i.vars) (fun i => i.length_vars_le) b.instructions.toList
  simp only [vars, extent_eq, List.length_append]
  omega

theorem length_fields_le (b : Body) : b.fields.length ≤ b.extent := by
  have := length_flatMap_le (g := fun i => i.fields) (fun i => i.length_fields_le) b.instructions.toList
  simp only [fields, extent_eq]
  omega

end Body

/-- A supply of points, variables and fields. -/
structure Names where
  points : Finset Point
  vars : Finset Var
  fields : Finset Field

namespace Names

/-- No more than `n` names of each kind. -/
structure AtMost (N : Names) (n : Nat) : Prop where
  points : N.points.card ≤ n
  vars : N.vars.card ≤ n
  fields : N.fields.card ≤ n

/-- The fact is about a point and a variable of the supply. -/
def Has (N : Names) (f : Fact) : Prop := f.point ∈ N.points ∧ f.var ∈ N.vars

instance : LE Names where
  le N M := N.points ⊆ M.points ∧ N.vars ⊆ M.vars ∧ N.fields ⊆ M.fields

end Names

namespace Program

def names (p : Program) : Names where
  points := (p.bodies.flatMap (·.points)).toFinset
  vars := (p.bodies.flatMap (·.vars)).toFinset
  fields := (p.bodies.flatMap (·.fields)).toFinset

theorem length_flatMap_le {α : Type} {g : Body → List α} (hg : ∀ b, (g b).length ≤ b.extent)
    (p : Program) : (p.bodies.flatMap g).length ≤ p.extent := by
  rw [List.length_flatMap, show p.extent = (p.bodies.map (·.extent)).sum from rfl]
  exact List.sum_le_sum fun b _ => hg b

theorem names_le (p : Program) : p.names.AtMost p.extent where
  points := (List.toFinset_card_le _).trans (p.length_flatMap_le fun b => b.length_points_le)
  vars := (List.toFinset_card_le _).trans (p.length_flatMap_le fun b => b.length_vars_le)
  fields := (List.toFinset_card_le _).trans (p.length_flatMap_le fun b => b.length_fields_le)

/-- Every field that the program mentions has a name. -/
def Named (p : Program) : Prop :=
  ∀ b ∈ p.bodies, ∀ i ∈ b.instructions.toList, ∀ g ∈ i.fields, g.isEpsilon = false

instance (p : Program) : Decidable p.Named :=
  inferInstanceAs (Decidable (∀ b ∈ p.bodies, ∀ i ∈ b.instructions.toList, ∀ g ∈ i.fields, _))

/-! ## Walking -/

variable {p : Program}

theorem body?_eq_some {m : MethodName} {b : Body} (h : p.body? m = some b) :
    b ∈ p.bodies ∧ b.method = m := by
  have hm := OrderedMap.get?_eq_some_iff.1 h
  exact ⟨(List.of_mem_zip hm).2, p.method_of _ hm⟩

theorem mem_points {m : MethodName} {b : Body} {i : Nat} (hb : p.body? m = some b)
    (hi : i < b.size) : .ofIndex m i ∈ p.names.points := by
  obtain ⟨hm, rfl⟩ := body?_eq_some hb
  simp only [names, List.mem_toFinset, List.mem_flatMap]
  exact ⟨b, hm, List.mem_map.2 ⟨i, List.mem_range.2 hi, rfl⟩⟩

theorem locate?_eq_some {point : Point} {b : Body} {i : Nat}
    (h : p.locate? point = some (b, i)) :
    p.body? point.method = some b ∧ i < b.size ∧ point = .ofIndex point.method i := by
  obtain ⟨m, index⟩ := point
  simp only [locate?, Option.bind_eq_bind, Option.bind_eq_some_iff] at h
  obtain ⟨b', hb, i', rfl, h⟩ := h
  split at h
  · next hi =>
    obtain ⟨rfl, rfl⟩ := Prod.mk.inj (Option.some.inj h)
    exact ⟨hb, hi, rfl⟩
  · cases h

/-- A point with an instruction is a point of the program, and so is what the instruction
mentions. -/
theorem instruction?_eq_some {point : Point} {i : Instruction}
    (h : p.instruction? point = some i) : point ∈ p.names.points ∧
      (∀ v ∈ i.vars, v ∈ p.names.vars) ∧ ∀ g ∈ i.fields, g ∈ p.names.fields := by
  simp only [instruction?, Option.bind_eq_bind, Option.bind_eq_some_iff] at h
  obtain ⟨⟨b, j⟩, hl, hi⟩ := h
  obtain ⟨hb, hj, e⟩ := locate?_eq_some hl
  have hi : i ∈ b.instructions.toList := Array.mem_toList_iff.2 (Array.mem_of_getElem? hi)
  refine ⟨e ▸ mem_points hb hj, fun v hv => ?_, fun g hg => ?_⟩
  · simp only [names, List.mem_toFinset, List.mem_flatMap]
    exact ⟨b, (body?_eq_some hb).1, List.mem_append_right _ (List.mem_flatMap.2 ⟨i, hi, hv⟩)⟩
  · simp only [names, List.mem_toFinset, List.mem_flatMap]
    exact ⟨b, (body?_eq_some hb).1, List.mem_flatMap.2 ⟨i, hi, hg⟩⟩

theorem mem_points_of_successors {point q : Point} (h : q ∈ p.successors point) :
    q ∈ p.names.points := by
  unfold successors at h
  split at h
  · next b i hl =>
    obtain ⟨hb, hi, -⟩ := locate?_eq_some hl
    obtain ⟨j, hj, rfl⟩ := List.mem_map.1 h
    rw [(body?_eq_some hb).2]
    exact mem_points hb (b.successor_lt i j hj)
  · simp at h

theorem mem_points_of_predecessors {point q : Point} (h : q ∈ p.predecessors point) :
    q ∈ p.names.points := by
  unfold predecessors at h
  split at h
  · next b i hl =>
    obtain ⟨hb, hi, -⟩ := locate?_eq_some hl
    obtain ⟨j, hj, rfl⟩ := List.mem_map.1 h
    rw [(body?_eq_some hb).2]
    exact mem_points hb (Body.predecessor_lt hj)
  · simp at h

theorem mem_points_of_entries {m : MethodName} {q : Point} (h : q ∈ p.entries m) :
    q ∈ p.names.points := by
  unfold entries at h
  split at h
  · next b hb =>
    split at h
    · simp at h
    · next he =>
      rw [List.mem_singleton.1 h]
      refine mem_points hb (Nat.pos_of_ne_zero fun hz => he ?_)
      simpa [Body.isEmpty, Body.size] using hz
  · simp at h

theorem mem_points_of_exits {m : MethodName} {q : Point} (h : q ∈ p.exits m) :
    q ∈ p.names.points := by
  unfold exits at h
  split at h
  · next b hb =>
    obtain ⟨i, hi, rfl⟩ := List.mem_map.1 h
    exact mem_points hb (List.mem_range.1 (List.mem_filter.1 hi).1)
  · simp at h

theorem mem_vars_of_parameters {m : MethodName} {v : Var} (h : v ∈ p.parameters m) :
    v ∈ p.names.vars := by
  unfold parameters at h
  cases hb : p.body? m with
  | none => simp [hb] at h
  | some b =>
    simp only [names, List.mem_toFinset, List.mem_flatMap]
    exact ⟨b, (body?_eq_some hb).1, List.mem_append_left _ (by simpa [hb] using h)⟩

end Program

namespace Supergraph

variable {g : Supergraph}

theorem mem_points_of_successors {point q : Point} (h : q ∈ g.successors point) :
    q ∈ g.program.names.points := by
  unfold successors at h
  split at h
  · exact Program.mem_points_of_successors h
  · exact Program.mem_points_of_predecessors h

theorem mem_points_of_startPoints {m : MethodName} {q : Point} (h : q ∈ g.startPoints m) :
    q ∈ g.program.names.points := by
  unfold startPoints at h
  split at h
  · exact Program.mem_points_of_entries h
  · exact Program.mem_points_of_exits h

end Supergraph

end PointsTo
