import PointsTo.Collection.OrderedSet

/-!
# Maps that remember the order of insertion

An `OrderedMap` is an ordered set of keys with a value beside each key, so an entry may be found by
its key or by its position. Entries are never removed, so the position of a key is fixed from its
insertion on (`OrderedMap.indexOf?_insert_of_some`).
-/

namespace PointsTo

/-- A map whose entries are listed in the order of their insertion. -/
structure OrderedMap (κ β : Type) [Ord κ] where
  keys : OrderedSet κ
  values : Array β
  size_values : values.size = keys.size

namespace OrderedMap

variable {κ β : Type} [Ord κ]

/-! ## Reading -/

def size (m : OrderedMap κ β) : Nat := m.keys.size

def isEmpty (m : OrderedMap κ β) : Bool := m.keys.isEmpty

def toList (m : OrderedMap κ β) : List (κ × β) := m.keys.toList.zip m.values.toList

def indexOf? (m : OrderedMap κ β) (k : κ) : Option Nat := m.keys.indexOf? k

def key? (m : OrderedMap κ β) (i : Nat) : Option κ := m.keys.get? i

def value? (m : OrderedMap κ β) (i : Nat) : Option β := m.values[i]?

def get? (m : OrderedMap κ β) (k : κ) : Option β := m.indexOf? k >>= m.value?

theorem length_toList (m : OrderedMap κ β) : m.toList.length = m.size := by
  have h := m.size_values
  simp only [OrderedSet.size] at h
  simp [toList, size, OrderedSet.size, OrderedSet.toList, h]

theorem map_fst_toList (m : OrderedMap κ β) : m.toList.map (·.1) = m.keys.toList := by
  have h := m.size_values
  simp only [OrderedSet.size] at h
  rw [toList, List.map_fst_zip]
  simp [OrderedSet.toList, h]

theorem map_snd_toList (m : OrderedMap κ β) : m.toList.map (·.2) = m.values.toList := by
  have h := m.size_values
  simp only [OrderedSet.size] at h
  rw [toList, List.map_snd_zip]
  simp [OrderedSet.toList, h]

theorem getElem?_toList {m : OrderedMap κ β} {i : Nat} {k : κ} {v : β} :
    m.toList[i]? = some (k, v) ↔ m.key? i = some k ∧ m.value? i = some v := by
  simp only [toList, key?, value?, OrderedSet.get?_eq_getElem?_toList, List.getElem?_zip_eq_some,
    Array.getElem?_toList]

theorem indexOf?_eq_some_iff {m : OrderedMap κ β} {k : κ} {i : Nat} :
    m.indexOf? k = some i ↔ ∃ v, m.toList[i]? = some (k, v) := by
  rw [indexOf?, OrderedSet.indexOf?_eq_some_iff, ← map_fst_toList, List.getElem?_map,
    Option.map_eq_some_iff]
  exact ⟨fun ⟨e, he, hk⟩ => ⟨e.2, hk ▸ he⟩, fun ⟨v, hv⟩ => ⟨(k, v), hv, rfl⟩⟩

/-- A key stands at one position. -/
theorem index_inj {m : OrderedMap κ β} {i j : Nat} {k : κ} {v w : β}
    (hi : m.toList[i]? = some (k, v)) (hj : m.toList[j]? = some (k, w)) : i = j := by
  have := indexOf?_eq_some_iff.2 ⟨v, hi⟩
  rw [indexOf?_eq_some_iff.2 ⟨w, hj⟩] at this
  exact (Option.some.inj this).symm

/-- The entries are the keys with the values found under them. -/
theorem get?_eq_some_iff {m : OrderedMap κ β} {k : κ} {v : β} :
    m.get? k = some v ↔ (k, v) ∈ m.toList := by
  simp only [get?, Option.bind_eq_bind, Option.bind_eq_some_iff, indexOf?, value?,
    OrderedSet.indexOf?_eq_some_iff, toList, List.mem_iff_getElem?, List.getElem?_zip_eq_some,
    Array.getElem?_toList]

/-! ## Writing -/

/-- Replaces the value at position `i`, if there is one. -/
def modify (m : OrderedMap κ β) (i : Nat) (f : β → β) : OrderedMap κ β :=
  { m with
    values := m.values.modify i f
    size_values := by rw [Array.size_modify, m.size_values] }

def mapValues (m : OrderedMap κ β) (f : β → β) : OrderedMap κ β :=
  { m with
    values := m.values.map f
    size_values := by rw [Array.size_map, m.size_values] }

theorem getElem?_toList_modify {m : OrderedMap κ β} {i j : Nat} {f : β → β} :
    (m.modify i f).toList[j]? =
      m.toList[j]?.map fun e => (e.1, if i = j then f e.2 else e.2) := by
  refine Option.ext fun ⟨k, v⟩ => ?_
  simp only [toList, modify, List.getElem?_zip_eq_some, Array.getElem?_toList,
    Array.getElem?_modify, Option.map_eq_some_iff]
  constructor
  · rintro ⟨hk, hv⟩
    split at hv
    · next e =>
      obtain ⟨w, hw, rfl⟩ := Option.map_eq_some_iff.1 hv
      exact ⟨(k, w), ⟨hk, hw⟩, by simp [e]⟩
    · next e => exact ⟨(k, v), ⟨hk, hv⟩, by simp [e]⟩
  · rintro ⟨⟨k, w⟩, ⟨hk, hw⟩, e⟩
    obtain ⟨rfl, rfl⟩ := Prod.mk.inj e
    refine ⟨hk, ?_⟩
    split
    · exact Option.map_eq_some_iff.2 ⟨w, hw, rfl⟩
    · exact hw

theorem toList_mapValues {m : OrderedMap κ β} {f : β → β} :
    (m.mapValues f).toList = m.toList.map fun e => (e.1, f e.2) := by
  simp only [toList, mapValues, Array.toList_map, List.zip_map_right]
  rfl

/-- Replacing a value by itself changes nothing. -/
theorem modify_eq_self {m : OrderedMap κ β} {i : Nat} {f : β → β}
    (same : ∀ v, m.value? i = some v → f v = v) : m.modify i f = m := by
  have values : m.values.modify i f = m.values := by
    refine Array.ext_getElem? fun j => ?_
    rw [Array.getElem?_modify]
    split
    · next e =>
      cases hv : m.values[j]? with
      | none => rfl
      | some v => exact congrArg some (same v (e ▸ hv))
    · rfl
  simp only [modify, values]

theorem mapValues_eq_self {m : OrderedMap κ β} {f : β → β}
    (same : ∀ i v, m.value? i = some v → f v = v) : m.mapValues f = m := by
  have values : m.values.map f = m.values := by
    refine Array.ext_getElem? fun i => ?_
    rw [Array.getElem?_map]
    cases hv : m.values[i]? with
    | none => rfl
    | some v => exact congrArg some (same i v hv)
  simp only [mapValues, values]

@[simp] theorem size_modify (m : OrderedMap κ β) (i : Nat) (f : β → β) :
    (m.modify i f).size = m.size := rfl

@[simp] theorem size_mapValues (m : OrderedMap κ β) (f : β → β) :
    (m.mapValues f).size = m.size := rfl

variable [Std.TransOrd κ]

def empty : OrderedMap κ β := ⟨∅, #[], rfl⟩

instance : EmptyCollection (OrderedMap κ β) := ⟨empty⟩

instance : Inhabited (OrderedMap κ β) := ⟨∅⟩

@[simp] theorem toList_empty : (∅ : OrderedMap κ β).toList = [] := rfl

def contains (m : OrderedMap κ β) (k : κ) : Bool := m.keys.contains k

theorem contains_eq_isSome_indexOf? (m : OrderedMap κ β) (k : κ) :
    m.contains k = (m.indexOf? k).isSome :=
  Std.TreeMap.contains_eq_isSome_getElem?

variable [Std.LawfulEqOrd κ]

theorem size_values_push (m : OrderedMap κ β) {k : κ} (v : β) (new : ¬ m.keys.contains k) :
    (m.values.push v).size = (m.keys.insert k).size := by
  have : (m.keys.insert k).toList = m.keys.toList ++ [k] := by
    rw [OrderedSet.toList_insert, if_neg new]
  have := congrArg List.length this
  have hs := m.size_values
  simp only [OrderedSet.toList, OrderedSet.size, Array.length_toList, List.length_append,
    List.length_singleton, Array.size_push] at this hs ⊢
  omega

/-- Adds an entry at the end. A key that is there already keeps its value. -/
def insert (m : OrderedMap κ β) (k : κ) (v : β) : OrderedMap κ β :=
  if h : m.keys.contains k then m
  else ⟨m.keys.insert k, m.values.push v, m.size_values_push v h⟩

theorem toList_insert (m : OrderedMap κ β) (k : κ) (v : β) :
    (m.insert k v).toList = if m.contains k then m.toList else m.toList ++ [(k, v)] := by
  unfold insert contains
  split
  · rfl
  · next h =>
    have hs := m.size_values
    simp only [toList, OrderedSet.toList_insert, h, Bool.false_eq_true, ↓reduceIte,
      Array.toList_push]
    rw [List.zip_append (by simpa [OrderedSet.toList, OrderedSet.size] using hs.symm)]
    simp

/-- The position of a key never changes. -/
theorem indexOf?_insert_of_some {m : OrderedMap κ β} {k : κ} {v : β} {k' : κ} {i : Nat}
    (h : m.indexOf? k' = some i) : (m.insert k v).indexOf? k' = some i := by
  unfold insert
  split
  · exact h
  · next hk =>
    simp only [indexOf?, OrderedSet.indexOf?_eq_some_iff, OrderedSet.toList_insert, hk,
      Bool.false_eq_true, ↓reduceIte] at h ⊢
    grind

end OrderedMap

end PointsTo
