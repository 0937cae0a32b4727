import Std.Data.TreeMap

/-!
# Sets that remember the order of insertion

An `OrderedSet` lists its elements in the order in which they first came in and finds the position
of an element through a search tree. The two parts can not drift apart: that the tree holds exactly
the positions of the array is part of the type, and it follows that no element occurs twice
(`OrderedSet.nodup_toList`). All other statements read a set through `OrderedSet.toList`.
-/

namespace PointsTo

/-- A set whose elements are listed in the order of their first insertion. -/
structure OrderedSet (α : Type) [Ord α] where
  toArray : Array α
  index : Std.TreeMap α Nat
  index_eq_some_iff : ∀ (a : α) (i : Nat), index[a]? = some i ↔ toArray[i]? = some a

namespace OrderedSet

variable {α : Type} [Ord α]

/-! ## Reading -/

def toList (s : OrderedSet α) : List α := s.toArray.toList

def size (s : OrderedSet α) : Nat := s.toArray.size

def isEmpty (s : OrderedSet α) : Bool := s.toArray.isEmpty

def contains (s : OrderedSet α) (a : α) : Bool := s.index.contains a

/-- Where `a` stands in the order of insertion. -/
def indexOf? (s : OrderedSet α) (a : α) : Option Nat := s.index[a]?

def get? (s : OrderedSet α) (i : Nat) : Option α := s.toArray[i]?

instance : Membership α (OrderedSet α) := ⟨fun s a => a ∈ s.toList⟩

/-- The positions of the elements with a property, in ascending order. -/
def positions (s : OrderedSet α) (p : α → Bool) : List Nat :=
  (List.range s.size).filter fun i => (s.get? i).any p

@[simp] theorem mem_toList {s : OrderedSet α} {a : α} : a ∈ s.toList ↔ a ∈ s := Iff.rfl

@[simp] theorem length_toList (s : OrderedSet α) : s.toList.length = s.size := rfl

theorem get?_eq_getElem?_toList (s : OrderedSet α) (i : Nat) : s.get? i = s.toList[i]? := by
  simp [get?, toList]

theorem lt_size_of_mem_positions {s : OrderedSet α} {p : α → Bool} {i : Nat}
    (h : i ∈ s.positions p) : i < s.size :=
  List.mem_range.1 (List.mem_filter.1 h).1

/-- The elements at the positions with a property are the elements with the property. -/
theorem filterMap_get?_positions (s : OrderedSet α) (p : α → Bool) :
    (s.positions p).filterMap s.get? = s.toList.filter p := by
  have key : ∀ n ≤ s.toList.length, ((List.range n).filter fun i => (s.toList[i]?).any p).filterMap
      (fun i => s.toList[i]?) = (s.toList.take n).filter p := by
    intro n
    induction n with
    | zero => simp
    | succ n ih =>
      intro h
      rw [List.range_succ, List.filter_append, List.filterMap_append, ih (by omega),
        List.take_succ_eq_append_getElem h, List.filter_append]
      have hn : s.toList[n]? = some s.toList[n] := List.getElem?_eq_getElem h
      cases hp : p s.toList[n] <;> simp [hn, hp]
  have := key s.toList.length (Nat.le_refl _)
  rw [List.take_length] at this
  rw [← this]
  simp only [positions, toList, size, get?, Array.getElem?_toList, Array.length_toList]
  rfl

theorem indexOf?_eq_some_iff {s : OrderedSet α} {a : α} {i : Nat} :
    s.indexOf? a = some i ↔ s.toList[i]? = some a := by
  simp [indexOf?, toList, s.index_eq_some_iff]

theorem lt_size_of_indexOf? {s : OrderedSet α} {a : α} {i : Nat} (h : s.indexOf? a = some i) :
    i < s.size :=
  (List.getElem?_eq_some_iff.1 (indexOf?_eq_some_iff.1 h)).1

theorem eq_of_indexOf? {s : OrderedSet α} {a b : α} {i : Nat} (ha : s.indexOf? a = some i)
    (hb : s.indexOf? b = some i) : a = b :=
  Option.some.inj ((indexOf?_eq_some_iff.1 ha).symm.trans (indexOf?_eq_some_iff.1 hb))

theorem exists_indexOf? {s : OrderedSet α} {a : α} (h : a ∈ s) : ∃ i, s.indexOf? a = some i :=
  (List.mem_iff_getElem?.1 h).imp fun _ => indexOf?_eq_some_iff.2

/-- No element is listed twice, since each has one position in the tree. -/
theorem nodup_toList (s : OrderedSet α) : s.toList.Nodup := by
  rw [List.nodup_iff_pairwise_ne, List.pairwise_iff_getElem]
  intro i j hi hj hij e
  have h1 := (indexOf?_eq_some_iff (s := s) (i := i)).2 (List.getElem?_eq_getElem hi)
  have h2 := (indexOf?_eq_some_iff (s := s) (i := j)).2 (List.getElem?_eq_getElem hj)
  rw [e, h2, Option.some.injEq] at h1
  omega

variable [Std.TransOrd α]

def empty : OrderedSet α := ⟨#[], ∅, by simp⟩

instance : EmptyCollection (OrderedSet α) := ⟨empty⟩

instance : Inhabited (OrderedSet α) := ⟨∅⟩

@[simp] theorem toList_empty : (∅ : OrderedSet α).toList = [] := rfl

@[simp] theorem not_mem_empty (a : α) : a ∉ (∅ : OrderedSet α) := List.not_mem_nil

theorem contains_iff {s : OrderedSet α} {a : α} : s.contains a = true ↔ a ∈ s.toList := by
  rw [contains, Std.TreeMap.contains_iff_mem, ← Std.TreeMap.isSome_getElem?_iff_mem,
    Option.isSome_iff_exists, toList, Array.mem_toList_iff, Array.mem_iff_getElem?]
  exact exists_congr fun i => s.index_eq_some_iff a i

/-! ## Inserting -/

variable [Std.LawfulEqOrd α]

/-- Adds `a` at the end, unless it is there already. -/
def insert (s : OrderedSet α) (a : α) : OrderedSet α :=
  if h : s.index.contains a then s
  else
    let position := s.toArray.size
    { toArray := s.toArray.push a
      index := s.index.insert a position
      index_eq_some_iff := by
        intro b i
        rw [Std.TreeMap.getElem?_insert, Array.getElem?_push]
        have hi := s.index_eq_some_iff b i
        by_cases hab : a = b
        · subst hab
          have new : s.index[a]? = none :=
            Std.TreeMap.getElem?_eq_none (by simpa [Std.TreeMap.contains_iff_mem] using h)
          simp only [Std.ReflCmp.compare_self, ↓reduceIte, Option.some.injEq]
          grind
        · have hc : compare a b ≠ .eq := fun e => hab (Std.LawfulEqCmp.eq_of_compare e)
          simp only [hc, ↓reduceIte]
          grind }

/-- The set with `a` added, or `none` if `a` is no news. -/
def insertNew? (s : OrderedSet α) (a : α) : Option (OrderedSet α) :=
  if s.contains a then none else some (s.insert a)

def ofList (as : List α) : OrderedSet α := as.foldl insert ∅

theorem insert_of_mem {s : OrderedSet α} {a : α} (h : a ∈ s) : s.insert a = s := by
  have hc : s.index.contains a = true := contains_iff.2 h
  unfold insert
  rw [dif_pos hc]

theorem toList_insert (s : OrderedSet α) (a : α) :
    (s.insert a).toList = if s.contains a then s.toList else s.toList ++ [a] := by
  unfold insert contains
  split <;> simp_all [toList]

theorem mem_toList_insert {s : OrderedSet α} {a b : α} :
    b ∈ (s.insert a).toList ↔ b ∈ s.toList ∨ b = a := by
  rw [toList_insert]
  split
  · next h => exact ⟨.inl, fun h' => h'.elim id fun e => e ▸ contains_iff.1 h⟩
  · simp

@[simp] theorem mem_insert {s : OrderedSet α} {a b : α} : b ∈ s.insert a ↔ b ∈ s ∨ b = a :=
  mem_toList_insert

theorem size_insert (s : OrderedSet α) (a : α) :
    (s.insert a).size = if s.contains a then s.size else s.size + 1 := by
  rw [← length_toList, toList_insert]
  split <;> simp

/-- An element that is news comes at the end, so its position is the size so far. -/
theorem positions_insert {s : OrderedSet α} {a : α} (h : s.contains a = false) (p : α → Bool) :
    (s.insert a).positions p = s.positions p ++ if p a then [s.size] else [] := by
  have hl : (s.insert a).toList = s.toList ++ [a] := by rw [toList_insert, h]; simp
  have old : ∀ i ∈ List.range s.size, (s.insert a).get? i = s.get? i := fun i hi => by
    rw [get?_eq_getElem?_toList, get?_eq_getElem?_toList, hl]
    exact List.getElem?_append_left (List.mem_range.1 hi)
  have new : (s.insert a).get? s.size = some a := by
    rw [get?_eq_getElem?_toList, hl, ← length_toList]
    simp only [Nat.le_refl, List.getElem?_append_right, Nat.sub_self, List.getElem?_cons_zero]
  rw [positions, size_insert, h]
  simp only [Bool.false_eq_true, ↓reduceIte, List.range_succ, List.filter_append, positions]
  rw [List.filter_congr fun i hi => by rw [old i hi]]
  cases hp : p a <;> simp [new, hp]

theorem insertNew?_eq_none_iff {s : OrderedSet α} {a : α} :
    s.insertNew? a = none ↔ a ∈ s.toList := by
  rw [← contains_iff, insertNew?]
  split <;> simp_all

theorem insertNew?_eq_some_iff {s t : OrderedSet α} {a : α} :
    s.insertNew? a = some t ↔ a ∉ s ∧ t = s.insert a := by
  rw [← mem_toList, ← contains_iff, insertNew?]
  split
  · next h => exact ⟨(nomatch ·), fun e => absurd h e.1⟩
  · next h => exact ⟨fun e => ⟨h, (Option.some.inj e).symm⟩, fun e => congrArg some e.2.symm⟩

@[simp] theorem mem_ofList {as : List α} {a : α} : a ∈ ofList as ↔ a ∈ as := by
  have key : ∀ (as : List α) (s : OrderedSet α), a ∈ as.foldl insert s ↔ a ∈ s ∨ a ∈ as := by
    intro as
    induction as with
    | nil => simp
    | cons b as ih =>
      intro s
      rw [List.foldl_cons, ih, mem_insert, List.mem_cons, or_assoc]
  rw [ofList, key, ← mem_toList, toList_empty]
  simp only [List.not_mem_nil, false_or]

theorem toList_of_insertNew?_eq_some {s t : OrderedSet α} {a : α} (h : s.insertNew? a = some t) :
    t.toList = s.toList ++ [a] := by
  unfold insertNew? at h
  split at h
  · simp at h
  · next hc =>
    obtain rfl := Option.some.inj h
    simp [toList_insert, hc]

end OrderedSet

end PointsTo
