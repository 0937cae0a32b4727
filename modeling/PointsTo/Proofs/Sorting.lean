import Mathlib.Data.List.Basic
import PointsTo.Sorting

/-!
# Groups of equal elements, in ascending order

`sortedGroups` sorts the elements of a list together with their positions, and cuts the result where
the elements go up. The sort is stable, so what it gives is ascending by elements and, among equal
ones, by positions (`Ahead`, `pairwise_ahead`). In such a list equal elements stand next to each other,
and the groups are the classes of equal elements (`sortedGroups_classes`).
-/

namespace PointsTo

open Std

variable {α : Type} [Ord α]

/-- The element of the first pair is less, or they are equal and its position is less. -/
def Ahead (x y : α × Nat) : Prop :=
  compare x.1 y.1 = .lt ∨ compare x.1 y.1 = .eq ∧ x.2 < y.2

theorem Ahead.isLE {x y : α × Nat} (h : Ahead x y) : (compare x.1 y.1).isLE := by
  obtain h | ⟨h, -⟩ := h <;> rw [h] <;> rfl

/-! ## The sorted list -/

/-- The elements with their positions, sorted by the elements. -/
def sortedPairs (as : List α) : List (α × Nat) :=
  as.zipIdx.mergeSort fun x y => (compare x.1 y.1).isLE

theorem getElem?_of_mem_sortedPairs {as : List α} {x : α × Nat} (h : x ∈ sortedPairs as) :
    as[x.2]? = some x.1 :=
  List.mem_zipIdx_iff_getElem?.1 (List.mem_mergeSort.1 h)

/-- Equal elements stay in the order of their positions. -/
theorem pairwise_ahead [TransOrd α] (as : List α) : (sortedPairs as).Pairwise Ahead := by
  unfold sortedPairs
  set le : α × Nat → α × Nat → Bool := fun x y => (compare x.1 y.1).isLE with hle
  have trans (x y z : α × Nat) (h : le x y) (h' : le y z) : le x z := TransCmp.isLE_trans h h'
  have total (x y : α × Nat) : le x y || le y x := by
    cases h : compare x.1 y.1 with
    | lt | eq => simp [hle, h]
    | gt => simp [hle, OrientedCmp.gt_iff_lt.1 h]
  -- with its position once more, a pair tells where it stood before it was sorted
  set sorted := as.zipIdx.zipIdx.mergeSort (List.zipIdxLE le) with hsorted
  have at_position : ∀ e ∈ sorted, e.1.2 = e.2 := by
    intro e he
    have at_position := List.mem_zipIdx_iff_getElem?.1 (List.mem_mergeSort.1 he)
    rw [List.getElem?_zipIdx, Option.map_eq_some_iff] at at_position
    obtain ⟨a, -, e'⟩ := at_position
    simp [← e']
  have apart : sorted.Pairwise fun e e' => e.2 ≠ e'.2 := by
    have positions : (as.zipIdx.zipIdx.map Prod.snd).Nodup := by
      rw [List.zipIdx_map_snd]
      exact List.nodup_range'
    exact List.pairwise_map.1 (((List.mergeSort_perm _ _).map Prod.snd).nodup_iff.2 positions)
  have ordered : sorted.Pairwise fun e e' => List.zipIdxLE le e e' :=
    List.pairwise_mergeSort (List.zipIdxLE_trans trans) (List.zipIdxLE_total total) _
  rw [← List.mergeSort_zipIdx, List.pairwise_map]
  refine (ordered.and apart).imp_of_mem fun {e e'} he he' ⟨h, other⟩ => ?_
  rw [Ahead, at_position e he, at_position e' he']
  cases c : compare e.1.1 e'.1.1 with
  | lt => exact .inl rfl
  | eq =>
    have back : compare e'.1.1 e.1.1 = .eq := OrientedCmp.eq_comm.1 c
    have le_position : e.2 ≤ e'.2 := by simpa [List.zipIdxLE, hle, c, back] using h
    exact .inr ⟨rfl, Nat.lt_of_le_of_ne le_position other⟩
  | gt => simp [List.zipIdxLE, hle, c] at h

/-! ## The groups -/

/-- Nothing is lost, and nothing changes places. -/
theorem flatten_groupEqual (xs : List (α × Nat)) :
    ((groupEqual xs).map (·.2)).flatten = xs.map (·.2) := by
  induction xs with
  | nil => rfl
  | cons x xs ih =>
    obtain ⟨a, i⟩ := x
    rw [groupEqual, List.map_cons, ← ih]
    cases groupEqual xs with
    | nil => rfl
    | cons g groups =>
      obtain ⟨b, is⟩ := g
      dsimp only
      split <;> rfl

section Groups

variable [TransOrd α] {xs : List (α × Nat)}

/-- The positions of a group are those of pairs whose elements are equal to the one of the group. -/
theorem mem_groupEqual {g : α × List Nat} (hg : g ∈ groupEqual xs) :
    g.2 ≠ [] ∧ ∀ i ∈ g.2, ∃ b, (b, i) ∈ xs ∧ compare g.1 b = .eq := by
  induction xs generalizing g with
  | nil => exact absurd hg List.not_mem_nil
  | cons x xs ih =>
    obtain ⟨a, i⟩ := x
    have earlier {g} (hg : g ∈ groupEqual xs) :
        g.2 ≠ [] ∧ ∀ j ∈ g.2, ∃ b, (b, j) ∈ (a, i) :: xs ∧ compare g.1 b = .eq :=
      (ih hg).imp_right fun h j hj => (h j hj).imp fun _ hb => ⟨List.mem_cons_of_mem _ hb.1, hb.2⟩
    have new : ∀ j ∈ [i], ∃ b, (b, j) ∈ (a, i) :: xs ∧ compare a b = .eq := by
      intro j hj
      obtain rfl := List.mem_singleton.1 hj
      exact ⟨a, List.mem_cons_self, ReflCmp.compare_self⟩
    rw [groupEqual] at hg
    cases hgs : groupEqual xs with
    | nil =>
      rw [hgs] at hg
      obtain rfl := List.mem_singleton.1 hg
      exact ⟨List.cons_ne_nil _ _, new⟩
    | cons first groups =>
      obtain ⟨b, is⟩ := first
      rw [hgs] at hg earlier
      dsimp only at hg
      split at hg
      · next equal =>
        obtain rfl | hg := List.mem_cons.1 hg
        · refine ⟨List.cons_ne_nil _ _, fun j hj => ?_⟩
          obtain rfl | hj := List.mem_cons.1 hj
          · exact ⟨a, List.mem_cons_self, OrientedCmp.eq_comm.1 equal⟩
          · exact (earlier List.mem_cons_self).2 j hj
        · exact earlier (List.mem_cons_of_mem _ hg)
      · obtain rfl | hg := List.mem_cons.1 hg
        · exact ⟨List.cons_ne_nil _ _, new⟩
        · exact earlier hg

/-- In a sorted list, the elements of the groups go up. -/
theorem pairwise_groupEqual (sorted : xs.Pairwise Ahead) :
    (groupEqual xs).Pairwise fun g h => compare g.1 h.1 = .lt := by
  induction xs with
  | nil => exact List.Pairwise.nil
  | cons x xs ih =>
    obtain ⟨a, i⟩ := x
    obtain ⟨ahead, sorted⟩ := List.pairwise_cons.1 sorted
    have ih := ih sorted
    have le_group {g} (hg : g ∈ groupEqual xs) : (compare a g.1).isLE := by
      obtain ⟨ne, equal⟩ := mem_groupEqual hg
      obtain ⟨j, hj⟩ := List.exists_mem_of_ne_nil _ ne
      obtain ⟨b, hb, equal⟩ := equal j hj
      rw [TransCmp.congr_right equal]
      exact (ahead _ hb).isLE
    rw [groupEqual]
    cases hgs : groupEqual xs with
    | nil => exact List.pairwise_singleton _ _
    | cons first groups =>
      obtain ⟨b, is⟩ := first
      rw [hgs] at ih le_group
      obtain ⟨above, ih'⟩ := List.pairwise_cons.1 ih
      dsimp only
      split
      · exact List.pairwise_cons.2 ⟨above, ih'⟩
      · next differ =>
        have below : compare a b = .lt :=
          Ordering.isLE_iff_eq_lt_or_eq_eq.1 (le_group List.mem_cons_self) |>.resolve_right differ
        refine List.pairwise_cons.2 ⟨fun g hg => ?_, ih⟩
        obtain rfl | hg := List.mem_cons.1 hg
        · exact below
        · exact TransCmp.lt_trans below (above g hg)

end Groups

/-! ## The groups of positions -/

section Positions

variable {as : List α}

theorem sortedGroups_eq (as : List α) :
    sortedGroups as = (groupEqual (sortedPairs as)).map (·.2) := rfl

theorem flatten_sortedGroups (as : List α) :
    (sortedGroups as).flatten = (sortedPairs as).map (·.2) :=
  flatten_groupEqual _

variable [TransOrd α]

/-- What stands at the positions of a group is equal to the element of the group. -/
theorem compare_of_mem_group {g : α × List Nat} (hg : g ∈ groupEqual (sortedPairs as)) {i : Nat}
    (hi : i ∈ g.2) {a : α} (ha : a ∈ as[i]?) : compare g.1 a = .eq := by
  obtain ⟨b, hb, equal⟩ := (mem_groupEqual hg).2 i hi
  obtain rfl := Option.some.inj ((getElem?_of_mem_sortedPairs hb).symm.trans ha)
  exact equal

/-- Whatever stands at positions of one group is equal. -/
theorem compare_of_mem_sortedGroups {is : List Nat} (h : is ∈ sortedGroups as) {i j : Nat}
    (hi : i ∈ is) (hj : j ∈ is) {a b : α} (ha : a ∈ as[i]?) (hb : b ∈ as[j]?) :
    compare a b = .eq := by
  obtain ⟨g, hg, rfl⟩ := List.mem_map.1 h
  rw [← TransCmp.congr_left (compare_of_mem_group hg hi ha)]
  exact compare_of_mem_group hg hj hb

/-- Across all groups, the positions stand in the order of the sorted list. -/
theorem pairwise_flatten_sortedGroups (as : List α) :
    (sortedGroups as).flatten.Pairwise fun i j =>
      ∃ a ∈ as[i]?, ∃ b ∈ as[j]?, Ahead (a, i) (b, j) := by
  rw [flatten_sortedGroups, List.pairwise_map]
  exact (pairwise_ahead as).imp_of_mem fun hx hy h =>
    ⟨_, getElem?_of_mem_sortedPairs hx, _, getElem?_of_mem_sortedPairs hy, h⟩

/-- Inside a group, the positions go up. -/
theorem pairwise_of_mem_sortedGroups {is : List Nat} (h : is ∈ sortedGroups as) :
    is.Pairwise (· < ·) := by
  refine ((List.pairwise_flatten.1 (pairwise_flatten_sortedGroups as)).1 is h).imp_of_mem ?_
  intro i j hi hj ⟨a, ha, b, hb, before⟩
  obtain less | ⟨-, less⟩ := before
  · have equal := compare_of_mem_sortedGroups h hi hj ha hb
    cases equal.symm.trans less
  · exact less

/-- Every position is in one group, the positions of a group are those of equal elements, in
ascending order, and the elements go up from group to group. -/
theorem sortedGroups_classes (as : List α) :
    (sortedGroups as).flatten.Perm (List.range as.length) ∧
    (∀ g ∈ sortedGroups as, g ≠ [] ∧ g.Pairwise (· < ·) ∧
      ∀ i ∈ g, ∀ j ∈ g, ∀ a ∈ as[i]?, ∀ b ∈ as[j]?, compare a b = .eq) ∧
    (sortedGroups as).Pairwise fun g h =>
      ∀ i ∈ g, ∀ j ∈ h, ∀ a ∈ as[i]?, ∀ b ∈ as[j]?, compare a b = .lt := by
  refine ⟨?_, fun is his => ⟨?_, pairwise_of_mem_sortedGroups his, ?_⟩, ?_⟩
  · rw [flatten_sortedGroups, List.range_eq_range', ← List.zipIdx_map_snd 0 as]
    exact (List.mergeSort_perm _ _).map _
  · obtain ⟨g, hg, rfl⟩ := List.mem_map.1 his
    exact (mem_groupEqual hg).1
  · exact fun i hi j hj a ha b hb => compare_of_mem_sortedGroups his hi hj ha hb
  · rw [sortedGroups_eq, List.pairwise_map]
    refine (pairwise_groupEqual (pairwise_ahead as)).imp_of_mem ?_
    intro g h hg hh below i hi j hj a ha b hb
    rw [← TransCmp.congr_left (compare_of_mem_group hg hi ha),
      ← TransCmp.congr_right (compare_of_mem_group hh hj hb)]
    exact below

end Positions

end PointsTo
