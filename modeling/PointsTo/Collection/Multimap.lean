import PointsTo.Collection.OrderedSet

/-!
# An ordered set for every key

A `Multimap` keeps for each key the values filed under it, in the order in which they were filed.
A key under which nothing was filed has no values (`Multimap.of_empty`).
-/

namespace PointsTo

structure Multimap (κ α : Type) [Ord κ] [Ord α] where
  table : Std.TreeMap κ (OrderedSet α)

namespace Multimap

variable {κ α : Type} [Ord κ] [Ord α]

def empty : Multimap κ α := ⟨∅⟩

instance : EmptyCollection (Multimap κ α) := ⟨empty⟩

instance : Inhabited (Multimap κ α) := ⟨∅⟩

variable [Std.TransOrd α]

/-- The set of values filed under `k`. -/
def group (m : Multimap κ α) (k : κ) : OrderedSet α := m.table.getD k ∅

/-- The values filed under `k`, in the order of filing. -/
def of (m : Multimap κ α) (k : κ) : List α := (m.group k).toList

@[simp] theorem of_empty [Std.TransOrd κ] (k : κ) : (∅ : Multimap κ α).of k = [] := by
  show ((∅ : Std.TreeMap κ (OrderedSet α)).getD k ∅).toList = []
  simp

variable [Std.LawfulEqOrd α]

def insert (m : Multimap κ α) (k : κ) (a : α) : Multimap κ α :=
  ⟨m.table.insert k ((m.group k).insert a)⟩

/-- Files `a` under `k`, or answers `none` if it is there already. -/
def insertNew? (m : Multimap κ α) (k : κ) (a : α) : Option (Multimap κ α) :=
  ((m.group k).insertNew? a).map fun s => ⟨m.table.insert k s⟩

theorem group_insert [Std.TransOrd κ] [Std.LawfulEqOrd κ] [DecidableEq κ] (m : Multimap κ α)
    (k : κ) (a : α) (k' : κ) :
    (m.insert k a).group k' = if k = k' then (m.group k).insert a else m.group k' := by
  simp only [group, insert, Std.TreeMap.getD_insert, Std.LawfulEqCmp.compare_eq_iff_eq]

theorem mem_of_insert [Std.TransOrd κ] [Std.LawfulEqOrd κ] {m : Multimap κ α} {k : κ} {a : α}
    {k' : κ} {b : α} : b ∈ (m.insert k a).of k' ↔ b ∈ m.of k' ∨ k' = k ∧ b = a := by
  classical
  rw [of, group_insert]
  split
  · next h => subst h; simp [of]
  · next h => simp [of, Ne.symm h]

theorem insertNew?_eq_none_iff {m : Multimap κ α} {k : κ} {a : α} :
    m.insertNew? k a = none ↔ a ∈ m.of k := by
  simp [insertNew?, OrderedSet.insertNew?_eq_none_iff, of]

theorem insertNew?_eq_some_iff {m n : Multimap κ α} {k : κ} {a : α} :
    m.insertNew? k a = some n ↔ a ∉ m.of k ∧ n = m.insert k a := by
  simp only [insertNew?, Option.map_eq_some_iff, OrderedSet.insertNew?_eq_some_iff, insert, of,
    OrderedSet.mem_toList]
  exact ⟨fun ⟨_, ⟨h, e⟩, e'⟩ => ⟨h, by rw [← e', e]⟩, fun ⟨h, e⟩ => ⟨_, ⟨h, rfl⟩, e.symm⟩⟩

theorem of_of_insertNew?_eq_some [Std.TransOrd κ] [Std.LawfulEqOrd κ] [DecidableEq κ]
    {m n : Multimap κ α} {k : κ} {a : α} (h : m.insertNew? k a = some n) (k' : κ) :
    n.of k' = if k = k' then m.of k ++ [a] else m.of k' := by
  obtain ⟨s, hs, rfl⟩ := Option.map_eq_some_iff.1 h
  simp only [of, group, Std.TreeMap.getD_insert, Std.LawfulEqCmp.compare_eq_iff_eq]
  split
  · exact OrderedSet.toList_of_insertNew?_eq_some hs
  · rfl

end Multimap

end PointsTo
