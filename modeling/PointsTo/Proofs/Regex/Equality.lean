import PointsTo.Proofs.Regex.Language
import PointsTo.Regex.Digest

/-!
# Equality of expressions

Two expressions are the same if they differ only in the order of the sides of unions, anywhere in
them. Sides may be swapped at every depth independently, so the laws go by induction on the one
expression, and `same_alt_iff` and its siblings say what the other one looks like. Equality is an
equivalence (`same_equivalence`), the constructors respect it (`union_congr`, `concat_congr`,
`star_congr`), a list of expressions has one of each class in the list of its distinct ones
(`existsUnique_mem_distinct`), and equal expressions feed the same chunks to a hash function
(`chunks_eq_of_same`).

All this is for letters with an equality of their own, which need not be that of Lean.
-/

namespace PointsTo

namespace Regex

variable {α : Type} [BEq α] {r r' s s' t : Regex α}

/-! ## What is the same as a given node -/

theorem same_letter_iff {a : α} : same (letter a) t ↔ ∃ b, t = letter b ∧ a == b := by
  cases t <;> simp [same]

theorem same_alt_iff : same (alt r s) t ↔
    ∃ r' s', t = alt r' s' ∧ (same r r' ∧ same s s' ∨ same r s' ∧ same s r') := by
  cases t <;> simp [same]

theorem same_seq_iff : same (seq r s) t ↔ ∃ r' s', t = seq r' s' ∧ same r r' ∧ same s s' := by
  cases t <;> simp [same]

theorem same_many_iff : same (many r) t ↔ ∃ r', t = many r' ∧ same r r' := by
  cases t <;> simp [same]

theorem same_epsilon_iff : same epsilon t ↔ t = epsilon := by
  cases t <;> simp [same]

theorem same_empty_iff : same empty t ↔ t = empty := by
  cases t <;> simp [same]

/-! ## An equivalence -/

theorem same_symm [PartialEquivBEq α] (h : same r s) : same s r := by
  induction r generalizing s with
  | letter a =>
    obtain ⟨b, rfl, hab⟩ := same_letter_iff.1 h
    exact same_letter_iff.2 ⟨a, rfl, PartialEquivBEq.symm hab⟩
  | alt r₁ r₂ ih₁ ih₂ =>
    obtain ⟨s₁, s₂, rfl, straight | crossed⟩ := same_alt_iff.1 h
    · exact same_alt_iff.2 ⟨r₁, r₂, rfl, .inl ⟨ih₁ straight.1, ih₂ straight.2⟩⟩
    · exact same_alt_iff.2 ⟨r₁, r₂, rfl, .inr ⟨ih₂ crossed.2, ih₁ crossed.1⟩⟩
  | seq r₁ r₂ ih₁ ih₂ =>
    obtain ⟨s₁, s₂, rfl, h₁, h₂⟩ := same_seq_iff.1 h
    exact same_seq_iff.2 ⟨r₁, r₂, rfl, ih₁ h₁, ih₂ h₂⟩
  | many r ih =>
    obtain ⟨s, rfl, h⟩ := same_many_iff.1 h
    exact same_many_iff.2 ⟨r, rfl, ih h⟩
  | epsilon => exact same_epsilon_iff.1 h ▸ h
  | empty => exact same_empty_iff.1 h ▸ h

theorem same_trans [PartialEquivBEq α] (h : same r s) (h' : same s t) : same r t := by
  induction r generalizing s t with
  | letter a =>
    obtain ⟨b, rfl, hab⟩ := same_letter_iff.1 h
    obtain ⟨c, rfl, hbc⟩ := same_letter_iff.1 h'
    exact same_letter_iff.2 ⟨c, rfl, PartialEquivBEq.trans hab hbc⟩
  | alt r₁ r₂ ih₁ ih₂ =>
    obtain ⟨s₁, s₂, rfl, sides⟩ := same_alt_iff.1 h
    obtain ⟨t₁, t₂, rfl, sides'⟩ := same_alt_iff.1 h'
    -- two crossings undo each other
    refine same_alt_iff.2 ⟨t₁, t₂, rfl, ?_⟩
    rcases sides with ⟨h₁, h₂⟩ | ⟨h₁, h₂⟩ <;> rcases sides' with ⟨h₁', h₂'⟩ | ⟨h₁', h₂'⟩
    · exact .inl ⟨ih₁ h₁ h₁', ih₂ h₂ h₂'⟩
    · exact .inr ⟨ih₁ h₁ h₁', ih₂ h₂ h₂'⟩
    · exact .inr ⟨ih₁ h₁ h₂', ih₂ h₂ h₁'⟩
    · exact .inl ⟨ih₁ h₁ h₂', ih₂ h₂ h₁'⟩
  | seq r₁ r₂ ih₁ ih₂ =>
    obtain ⟨s₁, s₂, rfl, h₁, h₂⟩ := same_seq_iff.1 h
    obtain ⟨t₁, t₂, rfl, h₁', h₂'⟩ := same_seq_iff.1 h'
    exact same_seq_iff.2 ⟨t₁, t₂, rfl, ih₁ h₁ h₁', ih₂ h₂ h₂'⟩
  | many r ih =>
    obtain ⟨s, rfl, h⟩ := same_many_iff.1 h
    obtain ⟨t, rfl, h'⟩ := same_many_iff.1 h'
    exact same_many_iff.2 ⟨t, rfl, ih h h'⟩
  | epsilon => exact same_epsilon_iff.1 h ▸ h'
  | empty => exact same_empty_iff.1 h ▸ h'

theorem same_equivalence [EquivBEq α] : Equivalence fun r s : Regex α => same r s = true :=
  ⟨same_refl, same_symm, same_trans⟩

/-- Equal expressions may stand for each other on both sides of an equality. -/
theorem same_congr [PartialEquivBEq α] (hr : same r r') (hs : same s s') :
    same r s = same r' s' :=
  Bool.eq_iff_iff.2 ⟨fun h => same_trans (same_symm hr) (same_trans h hs),
    fun h => same_trans hr (same_trans h (same_symm hs))⟩

/-! ## The constructors -/

theorem isEmpty_eq_of_same (h : same r s) : r.isEmpty = s.isEmpty := by
  cases r <;> cases s <;> simp_all [same, isEmpty]

theorem isEpsilon_eq_of_same (h : same r s) : r.isEpsilon = s.isEpsilon := by
  cases r <;> cases s <;> simp_all [same, isEpsilon]

theorem union_congr [PartialEquivBEq α] (hr : same r r') (hs : same s s') :
    same (r.union s) (r'.union s') := by
  simp only [union, simplify, ← isEmpty_eq_of_same hr, ← isEmpty_eq_of_same hs, ← same_congr hr hs]
  split
  · exact hs
  · split
    · exact hr
    · exact same_alt_iff.2 ⟨r', s', rfl, .inl ⟨hr, hs⟩⟩

theorem concat_congr (hr : same r r') (hs : same s s') : same (r.concat s) (r'.concat s') := by
  simp only [concat, simplify, ← isEmpty_eq_of_same hr, ← isEmpty_eq_of_same hs,
    ← isEpsilon_eq_of_same hr, ← isEpsilon_eq_of_same hs]
  split
  · rfl
  · split
    · exact hs
    · split
      · exact hr
      · exact same_seq_iff.2 ⟨r', s', rfl, hr, hs⟩

theorem star_congr (h : same r r') : same r.star r'.star := by
  simp only [star, simplify, ← isEmpty_eq_of_same h, ← isEpsilon_eq_of_same h]
  split
  · rfl
  · exact same_many_iff.2 ⟨r', rfl, h⟩

theorem union_of_same (h : same r s) : r.union s = r := by
  by_cases hr : r.isEmpty
  · obtain rfl := isEmpty_iff.1 hr
    rw [union_empty_left, same_empty_iff.1 h]
  · simp [union, simplify, hr, h]

theorem union_eq_alt (hr : r.isEmpty = false) (hs : s.isEmpty = false) (h : same r s = false) :
    r.union s = alt r s := by
  simp [union, simplify, hr, hs, h]

theorem union_comm [EquivBEq α] (r s : Regex α) : same (r.union s) (s.union r) := by
  by_cases h : same r s
  · rw [union_of_same h, union_of_same (same_symm h)]
    exact h
  · by_cases hr : r.isEmpty
    · simp [isEmpty_iff.1 hr]
    · by_cases hs : s.isEmpty
      · simp [isEmpty_iff.1 hs]
      · have h' : ¬ same s r := fun h' => h (same_symm h')
        rw [Bool.not_eq_true] at h h' hr hs
        rw [union_eq_alt hr hs h, union_eq_alt hs hr h']
        exact same_alt_iff.2 ⟨s, r, rfl, .inr ⟨same_refl r, same_refl s⟩⟩

/-! ## Classes of equal expressions -/

section Classes

variable {rs ss : List (Regex α)}

theorem distinct_concat (rs : List (Regex α)) (r : Regex α) : distinct (rs ++ [r]) =
    if (distinct rs).any (same r) then distinct rs else distinct rs ++ [r] := by
  simp [distinct, List.foldl_append]

/-- Nothing is made up, and the order stays. -/
theorem distinct_sublist (rs : List (Regex α)) : (distinct rs).Sublist rs := by
  induction rs using List.reverseRecOn with
  | nil => exact List.Sublist.slnil
  | append_singleton rs r ih =>
    rw [distinct_concat]
    split
    · exact ih.trans (List.sublist_append_left rs [r])
    · exact ih.append_right [r]

theorem pairwise_distinct [PartialEquivBEq α] (rs : List (Regex α)) :
    (distinct rs).Pairwise fun r s => ¬ same r s := by
  induction rs using List.reverseRecOn with
  | nil => exact List.Pairwise.nil
  | append_singleton rs r ih =>
    rw [distinct_concat]
    split
    · exact ih
    · next new =>
      refine List.pairwise_append.2 ⟨ih, List.pairwise_singleton _ _, fun s hs t ht h => new ?_⟩
      obtain rfl := List.mem_singleton.1 ht
      exact List.any_eq_true.2 ⟨s, hs, same_symm h⟩

theorem exists_mem_distinct [EquivBEq α] (h : r ∈ rs) : ∃ s ∈ distinct rs, same r s := by
  induction rs using List.reverseRecOn with
  | nil => exact absurd h List.not_mem_nil
  | append_singleton rs t ih =>
    rw [distinct_concat]
    obtain h | h := List.mem_append.1 h
    · obtain ⟨s, hs, same⟩ := ih h
      refine ⟨s, ?_, same⟩
      split
      · exact hs
      · exact List.mem_append_left _ hs
    · obtain rfl := List.mem_singleton.1 h
      split
      · next known => exact List.any_eq_true.1 known
      · exact ⟨r, List.mem_append_right _ List.mem_cons_self, same_refl r⟩

/-- The classes of equal expressions. -/
def classes (α : Type) [BEq α] [EquivBEq α] : Setoid (Regex α) :=
  ⟨fun r s => same r s, same_equivalence⟩

theorem nodup_classes [EquivBEq α] (rs : List (Regex α)) :
    ((distinct rs).map (Quotient.mk (classes α))).Nodup :=
  List.pairwise_map.2 ((pairwise_distinct rs).imp fun differ equal => differ (Quotient.exact equal))

/-- Of every class that occurs, one expression is left. -/
theorem existsUnique_mem_distinct [EquivBEq α] (h : r ∈ rs) :
    ∃! s, s ∈ distinct rs ∧ same r s := by
  obtain ⟨s, hs, equal⟩ := exists_mem_distinct h
  refine ⟨s, ⟨hs, equal⟩, fun t ⟨ht, equal'⟩ => ?_⟩
  have class_eq : Quotient.mk (classes α) t = Quotient.mk (classes α) s :=
    Quotient.sound (same_trans (same_symm equal') equal)
  exact List.inj_on_of_nodup_map (nodup_classes rs) ht hs class_eq

/-- So there are as many as classes: no more than are left of a list where all these classes occur. -/
theorem length_distinct_le [EquivBEq α] (h : ∀ r ∈ rs, ∃ s ∈ ss, same r s) :
    (distinct rs).length ≤ (distinct ss).length := by
  have among : (distinct rs).map (Quotient.mk (classes α)) ⊆
      (distinct ss).map (Quotient.mk (classes α)) := by
    intro c hc
    obtain ⟨r, hr, rfl⟩ := List.mem_map.1 hc
    obtain ⟨s, hs, equal⟩ := h r ((distinct_sublist rs).subset hr)
    obtain ⟨t, ht, equal'⟩ := exists_mem_distinct hs
    exact List.mem_map.2 ⟨t, ht, Quotient.sound (same_symm (same_trans equal equal'))⟩
  simpa using ((nodup_classes rs).subperm among).length_le

end Classes

/-! ## Hashing -/

theorem chunks_eq_of_same {digest : List Chunk → UInt64} {letterChunks : α → List Chunk}
    (lawful : ∀ a b, a == b → letterChunks a = letterChunks b) (h : same r s) :
    r.chunks digest letterChunks = s.chunks digest letterChunks := by
  induction r generalizing s with
  | letter a =>
    obtain ⟨b, rfl, hab⟩ := same_letter_iff.1 h
    rw [chunks, chunks, lawful a b hab]
  | alt r₁ r₂ ih₁ ih₂ =>
    obtain ⟨s₁, s₂, rfl, ⟨h₁, h₂⟩ | ⟨h₁, h₂⟩⟩ := same_alt_iff.1 h
    · rw [chunks, chunks, ih₁ h₁, ih₂ h₂]
    · rw [chunks, chunks, ih₁ h₁, ih₂ h₂, UInt64.add_comm]
  | seq r₁ r₂ ih₁ ih₂ =>
    obtain ⟨s₁, s₂, rfl, h₁, h₂⟩ := same_seq_iff.1 h
    rw [chunks, chunks, ih₁ h₁, ih₂ h₂]
  | many r ih =>
    obtain ⟨s, rfl, h⟩ := same_many_iff.1 h
    rw [chunks, chunks, ih h]
  | epsilon => rw [same_epsilon_iff.1 h]
  | empty => rw [same_empty_iff.1 h]

/-! ## All laws together -/

/-- Over letters with an equality that is an equivalence, and with chunks that respect it, equality
of expressions, simplified or not, is an equivalence. Equal expressions have the same language as
far as equal letters are the same letter: no reading of the letters that respects their equality
tells the languages apart. A union is the same either way round, and the constructors respect
equality. Equal expressions feed the same chunks to every hash function, whichever one digests the
sides of unions. -/
theorem same_lawful [EquivBEq α] {letterChunks : α → List Chunk}
    (lawful : ∀ a b, a == b → letterChunks a = letterChunks b) :
    (Equivalence fun r s : Regex α => same r s = true) ∧
    (∀ r s : Regex α, same r s → ∀ {β : Type} (reading : α → β),
      (∀ a b, a == b → reading a = reading b) →
        Language.map reading r.language = Language.map reading s.language) ∧
    (∀ r s : Regex α, same (r.union s) (s.union r)) ∧
    (∀ r r' s s' : Regex α, same r r' → same s s' →
      same (r.union s) (r'.union s') ∧ same (r.concat s) (r'.concat s') ∧ same r.star r'.star) ∧
    ∀ (digest : List Chunk → UInt64) (r s : Regex α), same r s →
      r.chunks digest letterChunks = s.chunks digest letterChunks :=
  ⟨same_equivalence,
    fun _ _ h _ reading respects => map_language_eq_of_same reading respects h,
    union_comm,
    fun _ _ _ _ hr hs => ⟨union_congr hr hs, concat_congr hr hs, star_congr hr⟩,
    fun _ _ _ => chunks_eq_of_same lawful⟩

/-- Sides that are swapped at two depths leave no trace in the language or in a hash. -/
theorem swappedTwice_same_chunks :
    let letterChunks (a : String) : List Chunk := [.bytes a.toUTF8.toList, .byte 255]
    let digest (chunks : List Chunk) : UInt64 := .ofNat chunks.length
    let r := alt (letter "f") (alt (letter "g") (many (letter "h")))
    let s := alt (alt (many (letter "h")) (letter "g")) (letter "f")
    (∀ a b : String, a == b → letterChunks a = letterChunks b) ∧ same r s ∧
      Language.map id r.language = Language.map id s.language ∧
      r.chunks digest letterChunks = s.chunks digest letterChunks := by
  intro letterChunks digest r s
  have lawful : ∀ a b : String, a == b → letterChunks a = letterChunks b :=
    fun _ _ h => congrArg letterChunks (eq_of_beq h)
  have swapped : same r s := by decide
  obtain ⟨-, languages, -, -, chunks⟩ := same_lawful lawful
  exact ⟨lawful, swapped, languages r s swapped id fun _ _ => eq_of_beq, chunks digest r s swapped⟩

end Regex

end PointsTo
