/-!
# Sorting into classes of equal elements

`sortedGroups` sorts the positions of a list by the order of the elements there and puts the
positions of equal elements into one group, in ascending order.
-/

namespace PointsTo

variable {α : Type} [Ord α]

/-- Puts each element into the group of the element before it, if they compare equal. -/
def groupEqual : List (α × Nat) → List (α × List Nat)
  | [] => []
  | (a, i) :: rest =>
    match groupEqual rest with
    | (b, is) :: groups =>
      if compare a b = .eq then (b, i :: is) :: groups else (a, [i]) :: (b, is) :: groups
    | [] => [(a, [i])]

def sortedGroups (as : List α) : List (List Nat) :=
  let sorted := as.zipIdx.mergeSort fun x y => (compare x.1 y.1).isLE
  (groupEqual sorted).map (·.2)

end PointsTo
