import PointsTo.Automaton

/-!
# Paths of an automaton

A path follows transitions from state to state and reads a label at each.
-/

namespace PointsTo

namespace Automaton

variable {σ ℓ : Type} [Ord σ] [Ord ℓ]

/-- From the state, a path that reads the labels leads to the last state. -/
inductive Path (a : Automaton σ ℓ) (last : σ) : σ → List ℓ → Prop
  | nil : Path a last last []
  | cons {t labels} : t ∈ a → Path a last t.target labels → Path a last t.start (t.label :: labels)

variable {a : Automaton σ ℓ} {last : σ}

theorem Path.eq_of_nil {q : σ} (h : a.Path last q []) : q = last := by
  cases h
  rfl

/-- A path stays when transitions are added. -/
theorem Path.mono {b : Automaton σ ℓ} {q : σ} {labels : List ℓ} (h : a.Path last q labels)
    (sub : ∀ t ∈ a, t ∈ b) : b.Path last q labels := by
  induction h with
  | nil => exact .nil
  | cons ht _ ih => exact .cons (sub _ ht) ih

/-- One path goes on where another one ends. -/
theorem Path.append {q q' : σ} {labels labels' : List ℓ} (h : a.Path q' q labels)
    (h' : a.Path last q' labels') : a.Path last q (labels ++ labels') := by
  induction h with
  | nil => exact h'
  | cons ht _ ih => exact .cons ht ih

/-- A path to another state ends with a transition. -/
theorem Path.exists_last {q : σ} {labels : List ℓ} (h : a.Path last q labels) (ne : q ≠ last) :
    ∃ t ∈ a, t.target = last ∧ ∃ labels, a.Path t.start q labels := by
  induction h with
  | nil => exact absurd rfl ne
  | @cons t _ ht _ ih =>
    by_cases here : t.target = last
    · exact ⟨t, ht, here, [], .nil⟩
    · obtain ⟨u, hu, target, labels, path⟩ := ih here
      exact ⟨u, hu, target, t.label :: labels, .cons ht path⟩

theorem path_cons_iff {q : σ} {l : ℓ} {labels : List ℓ} :
    a.Path last q (l :: labels) ↔ ∃ q', ⟨q, l, q'⟩ ∈ a ∧ a.Path last q' labels := by
  constructor
  · intro h
    cases h with
    | @cons t _ ht hp => exact ⟨t.target, ht, hp⟩
  · exact fun ⟨q', ht, hp⟩ => .cons (t := ⟨q, l, q'⟩) ht hp

end Automaton

end PointsTo
