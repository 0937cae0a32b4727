import PointsTo.Proofs.Program.Names

/-!
# Edges of a program

Control goes on after every instruction but a `return`, along edges of one method. Against the flow
the same edges are walked from their other end.
-/

namespace PointsTo

namespace Program

variable {p : Program} {point next : Point} {i : Instruction}

theorem locate?_of_instruction? (h : p.instruction? point = some i) :
    ∃ b k, p.locate? point = some (b, k) ∧ b.instruction? k = some i := by
  simp only [instruction?, Option.bind_eq_bind, Option.bind_eq_some_iff] at h
  obtain ⟨⟨b, k⟩, hl, hi⟩ := h
  exact ⟨b, k, hl, hi⟩

theorem locate?_ofIndex {b : Body} {m : MethodName} {k : Nat} (hb : p.body? m = some b)
    (hk : k < b.size) : p.locate? (.ofIndex m k) = some (b, k) := by
  simp [locate?, Point.ofIndex, hb, hk]

theorem mem_successors_iff : next ∈ p.successors point ↔ ∃ b k j,
    p.locate? point = some (b, k) ∧ j ∈ b.successorsOf k ∧ next = .ofIndex b.method j := by
  unfold successors
  split
  · next b k h =>
    simp only [List.mem_map, h, Option.some.injEq, Prod.mk.injEq]
    constructor
    · rintro ⟨j, hj, rfl⟩
      exact ⟨b, k, j, ⟨rfl, rfl⟩, hj, rfl⟩
    · rintro ⟨_, _, j, ⟨rfl, rfl⟩, hj, rfl⟩
      exact ⟨j, hj, rfl⟩
  · next h => simp [h]

theorem mem_predecessors_iff : next ∈ p.predecessors point ↔ ∃ b k j,
    p.locate? point = some (b, k) ∧ j ∈ b.predecessorsOf k ∧ next = .ofIndex b.method j := by
  unfold predecessors
  split
  · next b k h =>
    simp only [List.mem_map, h, Option.some.injEq, Prod.mk.injEq]
    constructor
    · rintro ⟨j, hj, rfl⟩
      exact ⟨b, k, j, ⟨rfl, rfl⟩, hj, rfl⟩
    · rintro ⟨_, _, j, ⟨rfl, rfl⟩, hj, rfl⟩
      exact ⟨j, hj, rfl⟩
  · next h => simp [h]

/-- The predecessors of a point are the points it is a successor of. -/
theorem mem_predecessors : next ∈ p.predecessors point ↔ point ∈ p.successors next := by
  rw [mem_predecessors_iff, mem_successors_iff]
  constructor
  · rintro ⟨b, k, j, hl, hj, rfl⟩
    obtain ⟨hb, hk, e⟩ := locate?_eq_some hl
    have hm := (body?_eq_some hb).2
    refine ⟨b, j, k, ?_, Body.mem_predecessorsOf.1 hj, by rw [hm]; exact e⟩
    exact locate?_ofIndex (hm.symm ▸ hb) (Body.predecessor_lt hj)
  · rintro ⟨b, k, j, hl, hj, rfl⟩
    obtain ⟨hb, hk, e⟩ := locate?_eq_some hl
    have hm := (body?_eq_some hb).2
    refine ⟨b, j, k, ?_, Body.mem_predecessorsOf.2 hj, by rw [hm]; exact e⟩
    exact locate?_ofIndex (hm.symm ▸ hb) (b.successor_lt k j hj)

theorem method_of_mem_successors (h : next ∈ p.successors point) : next.method = point.method := by
  obtain ⟨b, k, j, hl, -, rfl⟩ := mem_successors_iff.1 h
  exact (body?_eq_some (locate?_eq_some hl).1).2

/-- Control goes on after every instruction but a `return`. -/
theorem successors_ne_nil (h : p.instruction? point = some i) (hr : ¬ i.isReturn) :
    p.successors point ≠ [] := by
  obtain ⟨b, k, hl, hi⟩ := locate?_of_instruction? h
  rw [successors, hl]
  exact fun e => b.goes_on hi hr (List.map_eq_nil_iff.1 e)

/-- A method begins with an instruction that does nothing. -/
theorem instruction?_of_mem_entries {m : MethodName} (h : point ∈ p.entries m) :
    p.instruction? point = some .nop := by
  unfold entries at h
  split at h
  · next b hb =>
    split at h
    · simp at h
    · obtain rfl := List.mem_singleton.1 h
      have hn := b.entry_nop
      have hk : 0 < b.size := (Array.getElem?_eq_some_iff.1 hn).1
      rw [instruction?, locate?_ofIndex hb hk]
      exact hn
  · simp at h

theorem nodup_ofIndex {m : MethodName} {ks : List Nat} (h : ks.Nodup) :
    (ks.map (Point.ofIndex m)).Nodup :=
  h.map fun a b e => by simpa [Point.ofIndex] using e

theorem nodup_successors (p : Program) (point : Point) : (p.successors point).Nodup := by
  unfold successors
  split
  · next b k _ => exact nodup_ofIndex (b.nodup_successors k)
  · exact .nil

theorem nodup_predecessors (p : Program) (point : Point) : (p.predecessors point).Nodup := by
  unfold predecessors
  split
  · next b k _ => exact nodup_ofIndex (b.nodup_predecessorsOf k)
  · exact .nil

end Program

namespace Supergraph

variable {g : Supergraph}

theorem nodup_successors (g : Supergraph) (point : Point) : (g.successors point).Nodup := by
  unfold successors
  split
  · exact g.program.nodup_successors point
  · exact g.program.nodup_predecessors point

theorem length_successors_le (g : Supergraph) (point : Point) :
    (g.successors point).length ≤ g.program.extent := by
  rw [← List.toFinset_card_of_nodup (g.nodup_successors point)]
  refine (Finset.card_le_card fun q hq => ?_).trans g.program.names_le.points
  exact mem_points_of_successors (List.mem_toFinset.1 hq)

/-- No edge leaves a synthetic point. -/
theorem successors_of_synthetic {point : Point} (h : point.index = none) :
    g.successors point = [] := by
  have : g.program.locate? point = none := by simp [Program.locate?, h]
  unfold successors Program.successors Program.predecessors
  simp only [this]
  split <;> rfl

end Supergraph

end PointsTo
