import PointsTo.Regex.Basic

/-!
# The branches of an expression

An expression is a branch of itself, and a union has the branches of its sides. `hasBranch` only
compares the leaves of the tree of unions at the top, so it finds exactly those branches that are no
unions themselves (`hasBranch_iff`).
-/

namespace PointsTo

namespace Regex

variable {α : Type} [BEq α]

/-- The expression is equal to `branch`, or it is a union and one of its sides has the branch. -/
inductive Branch (branch : Regex α) : Regex α → Prop
  | whole {r} : same r branch → Branch branch r
  | left {r s} : Branch branch r → Branch branch (alt r s)
  | right {r s} : Branch branch s → Branch branch (alt r s)

variable {r branch : Regex α}

def isUnion : Regex α → Bool
  | alt .. => true
  | _ => false

theorem isUnion_eq_of_same (h : same r branch) : r.isUnion = branch.isUnion := by
  cases r <;> cases branch <;> simp_all [same, isUnion]

/-- What is found is a branch. -/
theorem branch_of_hasBranch (h : r.hasBranch branch) : Branch branch r := by
  induction r with
  | alt r s ihr ihs => exact (Bool.or_eq_true_iff.1 h).elim (.left ∘ ihr) (.right ∘ ihs)
  | _ => exact .whole h

/-- Unions are taken apart before anything is compared, so no union is found. -/
theorem isUnion_eq_false_of_hasBranch (h : r.hasBranch branch) : branch.isUnion = false := by
  induction r with
  | alt r s ihr ihs => exact (Bool.or_eq_true_iff.1 h).elim ihr ihs
  | _ => exact (isUnion_eq_of_same h).symm

theorem hasBranch_of_same (leaf : branch.isUnion = false) (h : same r branch) :
    r.hasBranch branch := by
  cases r with
  | alt r s => cases leaf.symm.trans (isUnion_eq_of_same h).symm
  | _ => exact h

theorem Branch.hasBranch (leaf : branch.isUnion = false) (h : Branch branch r) :
    r.hasBranch branch := by
  induction h with
  | whole h => exact hasBranch_of_same leaf h
  | left _ ih => exact Bool.or_eq_true_iff.2 (.inl ih)
  | right _ ih => exact Bool.or_eq_true_iff.2 (.inr ih)

/-- A branch is found if and only if it is no union itself. Nothing is asked of the equality of
letters. -/
theorem hasBranch_iff (r branch : Regex α) :
    r.hasBranch branch ↔ branch.isUnion = false ∧ Branch branch r :=
  ⟨fun h => ⟨isUnion_eq_false_of_hasBranch h, branch_of_hasBranch h⟩, fun h => h.2.hasBranch h.1⟩

/-- A union is not found in itself. -/
theorem union_missed_in_itself :
    ¬ ∀ r branch : Regex Nat, r.hasBranch branch ↔ Branch branch r := by
  intro claim
  have found := (claim (alt (letter 0) (letter 1)) _).2 (.whole (same_refl _))
  revert found
  decide

end Regex

end PointsTo
