import PointsTo.Proofs.Program.Calls

/-!
# Scopes

A fact is in scope if its point carries an instruction and its variable belongs to the method of the
point (`Program.InScope`). Edges stay in a method, so a variable stays in scope along them
(`InScope.along`), and whatever an instruction mentions is in scope there, provided that methods
mention no variables but their own (`Program.Local`).
-/

namespace PointsTo

namespace Supergraph

variable {g : Supergraph} {point next : Point} {m : MethodName}

theorem method_of_mem_successors (h : next ∈ g.successors point) : next.method = point.method := by
  unfold successors at h
  split at h
  · exact Program.method_of_mem_successors h
  · exact (Program.method_of_mem_successors (Program.mem_predecessors.1 h)).symm

theorem method_of_mem_startPoints (h : point ∈ g.startPoints m) : point.method = m := by
  unfold startPoints at h
  split at h
  · unfold Program.entries at h
    split at h
    · split at h
      · simp at h
      · rw [List.mem_singleton.1 h]
        rfl
    · simp at h
  · exact (Program.mem_exits_iff.1 h).1

end Supergraph

namespace Program

variable (p : Program)

/-- Methods mention no variables but their own. -/
def Local : Prop := ∀ b ∈ p.bodies, ∀ v ∈ b.vars, v.method = b.method

/-- The point of the fact carries an instruction, and the variable is one of its method. -/
def InScope (f : Fact) : Prop := (p.instruction? f.point).isSome ∧ f.var.method = f.point.method

instance : Decidable p.Local := inferInstanceAs (Decidable (∀ b ∈ p.bodies, ∀ v ∈ b.vars, _))

instance : DecidablePred p.InScope := fun _ => inferInstanceAs (Decidable (_ ∧ _))

variable {p} {point next : Point} {m : MethodName} {v : Var} {i : Instruction} {f : Fact}
  {d : Direction}

/-- The points of a program are those that carry an instruction. -/
theorem mem_points_iff : point ∈ p.names.points ↔ (p.instruction? point).isSome := by
  constructor
  · intro h
    simp only [names, List.mem_toFinset, List.mem_flatMap, Body.points, List.mem_map,
      List.mem_range] at h
    obtain ⟨b, hb, k, hk, rfl⟩ := h
    rw [instruction?, locate?_ofIndex (mem_bodies_iff.1 hb) hk]
    show b.instructions[k]?.isSome
    rw [Array.getElem?_eq_getElem hk]
    rfl
  · intro h
    obtain ⟨i, hi⟩ := Option.isSome_iff_exists.1 h
    exact (instruction?_eq_some hi).1

/-- A variable stays in scope along an edge, in either direction. -/
theorem InScope.along (h : p.InScope f) (hn : next ∈ (⟨p, d⟩ : Supergraph).successors f.point) :
    p.InScope ⟨next, f.var⟩ :=
  ⟨mem_points_iff.1 (Supergraph.mem_points_of_successors hn),
    h.2.trans (Supergraph.method_of_mem_successors hn).symm⟩

namespace Local

variable (h : p.Local)
include h

theorem parameter (hv : v ∈ p.parameters m) : v.method = m := by
  unfold parameters at hv
  cases hb : p.body? m with
  | none => simp [hb] at hv
  | some b =>
    obtain ⟨hb', rfl⟩ := body?_eq_some hb
    exact h b hb' v (List.mem_append_left _ (by simpa [hb] using hv))

theorem instruction (hi : p.instruction? point = some i) (hv : v ∈ i.vars) :
    v.method = point.method := by
  obtain ⟨b, k, hl, hi⟩ := locate?_of_instruction? hi
  obtain ⟨hb, hm⟩ := body?_eq_some (locate?_eq_some hl).1
  have hi : i ∈ b.instructions.toList := Array.mem_toList_iff.2 (Array.mem_of_getElem? hi)
  exact (h b hb v (List.mem_append_right _ (List.mem_flatMap.2 ⟨i, hi, hv⟩))).trans hm

/-- What an instruction mentions is in scope there. -/
theorem inScope (hi : p.instruction? point = some i) (hv : v ∈ i.vars) : p.InScope ⟨point, v⟩ :=
  ⟨by rw [hi]; rfl, h.instruction hi hv⟩

end Local

end Program

end PointsTo
