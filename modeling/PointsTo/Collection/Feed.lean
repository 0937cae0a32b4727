/-!
# Records that are read once

A `Feed` keeps everything that was ever posted to it, in order, and how much of that was read.
It serves as a queue that does not forget: `Feed.next?` reads one entry and `Feed.takeAll` reads the
rest, while `Feed.posted` still tells the whole history. Each operation is stated through
`Feed.pending`, the entries that wait to be read.
-/

namespace PointsTo

structure Feed (α : Type) where
  /-- Every entry so far, in the order of posting -/
  posted : Array α
  /-- How many of them were read -/
  position : Nat
  position_le : position ≤ posted.size

namespace Feed

variable {α : Type}

def empty : Feed α := ⟨#[], 0, Nat.le_refl 0⟩

instance : EmptyCollection (Feed α) := ⟨empty⟩

instance : Inhabited (Feed α) := ⟨∅⟩

/-- The entries that were posted and not read, in the order of posting. -/
def pending (f : Feed α) : List α := (f.posted.extract f.position).toList

/-- The entries that were read, in the order of posting. -/
def taken (f : Feed α) : List α := f.posted.toList.take f.position

def post (f : Feed α) (a : α) : Feed α where
  posted := f.posted.push a
  position := f.position
  position_le := by
    have := f.position_le
    simp only [Array.size_push]
    omega

def postAll (f : Feed α) (as : List α) : Feed α := as.foldl post f

/-- Reads the entry that has waited longest. -/
def next? (f : Feed α) : Option (α × Feed α) :=
  if h : f.position < f.posted.size then some (f.posted[f.position], ⟨f.posted, f.position + 1, h⟩)
  else none

/-- Reads everything that waits. -/
def takeAll (f : Feed α) : List α × Feed α :=
  (f.pending, ⟨f.posted, f.posted.size, Nat.le_refl _⟩)

theorem pending_eq_drop (f : Feed α) : f.pending = f.posted.toList.drop f.position := by
  rw [pending, Array.toList_extract, List.extract_eq_take_drop]
  exact List.take_of_length_le (by simp)

@[simp] theorem pending_empty : (∅ : Feed α).pending = [] := rfl

@[simp] theorem posted_empty : (∅ : Feed α).posted = #[] := rfl

@[simp] theorem taken_empty : (∅ : Feed α).taken = [] := rfl

/-- What was posted was read or waits. -/
theorem taken_append_pending (f : Feed α) : f.taken ++ f.pending = f.posted.toList := by
  rw [taken, pending_eq_drop, List.take_append_drop]

theorem length_pending (f : Feed α) : f.pending.length = f.posted.size - f.position := by
  simp [pending_eq_drop]

theorem mem_posted_of_mem_pending {f : Feed α} {a : α} (h : a ∈ f.pending) :
    a ∈ f.posted.toList := by
  rw [pending_eq_drop] at h
  exact List.mem_of_mem_drop h

@[simp] theorem posted_post (f : Feed α) (a : α) : (f.post a).posted = f.posted.push a := rfl

@[simp] theorem position_post (f : Feed α) (a : α) : (f.post a).position = f.position := rfl

theorem posted_postAll (f : Feed α) (as : List α) :
    (f.postAll as).posted = f.posted ++ as.toArray := by
  induction as generalizing f with
  | nil => simp [postAll]
  | cons a as ih =>
    have := ih (f.post a)
    simp_all [postAll, post]

@[simp] theorem position_postAll (f : Feed α) (as : List α) :
    (f.postAll as).position = f.position := by
  induction as generalizing f with
  | nil => rfl
  | cons a as ih => exact ih (f.post a)

/-- What is posted waits behind what was there. -/
theorem pending_post (f : Feed α) (a : α) : (f.post a).pending = f.pending ++ [a] := by
  have h := f.position_le
  simp [pending_eq_drop, post, List.drop_append, Nat.sub_eq_zero_of_le h]

theorem pending_postAll (f : Feed α) (as : List α) :
    (f.postAll as).pending = f.pending ++ as := by
  have h := f.position_le
  simp [pending_eq_drop, posted_postAll, List.drop_append, Nat.sub_eq_zero_of_le h]

@[simp] theorem taken_postAll (f : Feed α) (as : List α) : (f.postAll as).taken = f.taken := by
  have h := f.position_le
  simp [taken, posted_postAll, List.take_append, Nat.sub_eq_zero_of_le h]

@[simp] theorem taken_takeAll (f : Feed α) : f.takeAll.2.taken = f.posted.toList :=
  List.take_of_length_le (Nat.le_refl _)

/-- What is posted in two goes is posted in one. -/
theorem exists_postAll_trans {f g h : Feed α} (first : ∃ as, g = f.postAll as)
    (second : ∃ as, h = g.postAll as) : ∃ as, h = f.postAll as := by
  obtain ⟨as, rfl⟩ := first
  obtain ⟨bs, rfl⟩ := second
  exact ⟨as ++ bs, by rw [postAll, postAll, postAll, List.foldl_append]⟩

theorem next?_eq_none_iff {f : Feed α} : f.next? = none ↔ f.pending = [] := by
  simp [next?, pending_eq_drop]

theorem pending_of_next?_eq_some {f g : Feed α} {a : α} (h : f.next? = some (a, g)) :
    f.pending = a :: g.pending := by
  unfold next? at h
  split at h
  · next hlt =>
    obtain ⟨rfl, rfl⟩ := Prod.mk.inj (Option.some.inj h)
    simp [pending_eq_drop, List.drop_eq_getElem_cons (l := f.posted.toList) hlt]
  · simp at h

theorem posted_of_next?_eq_some {f g : Feed α} {a : α} (h : f.next? = some (a, g)) :
    g.posted = f.posted ∧ g.position = f.position + 1 := by
  unfold next? at h
  split at h
  · obtain ⟨-, rfl⟩ := Prod.mk.inj (Option.some.inj h)
    exact ⟨rfl, rfl⟩
  · simp at h

@[simp] theorem pending_takeAll (f : Feed α) : f.takeAll.2.pending = [] := by
  simp [takeAll, pending_eq_drop]

@[simp] theorem posted_takeAll (f : Feed α) : f.takeAll.2.posted = f.posted := rfl

end Feed

end PointsTo
