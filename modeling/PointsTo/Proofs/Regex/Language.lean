import Mathlib.Computability.Language
import Mathlib.Order.CompletePartialOrder
import PointsTo.Regex.Basic

/-!
# The language of an expression

`Regex.language` reads an expression as a set of words. Expressions that are the same up to the order
of unions have one language (`language_eq_of_same`), also after a reading of the letters that may
identify some of them (`map_language_eq_of_same`), so leaving one of them out of a union loses no
word. Hence a node may be collapsed (`language_simplify`), and the constructors that keep expressions
small build the language they are named for (`language_union`, `language_concat`, `language_star`).
-/

namespace PointsTo

open scoped Computability

namespace Regex

variable {α : Type}

def language : Regex α → Language α
  | letter a => {[a]}
  | alt r s => r.language + s.language
  | seq r s => r.language * s.language
  | many r => r.language∗
  | epsilon => 1
  | empty => 0

@[simp] theorem language_letter (a : α) : (letter a).language = {[a]} := rfl

@[simp] theorem language_epsilon : (epsilon : Regex α).language = 1 := rfl

@[simp] theorem language_empty : (empty : Regex α).language = 0 := rfl

theorem language_of_isEmpty {r : Regex α} (h : r.isEmpty) : r.language = 0 := by
  rw [isEmpty_iff.1 h, language_empty]

theorem language_of_isEpsilon {r : Regex α} (h : r.isEpsilon) : r.language = 1 := by
  rw [isEpsilon_iff.1 h, language_epsilon]

/-- A reading of the letters that does not tell equal letters apart does not tell equal expressions
apart. -/
theorem map_language_eq_of_same [BEq α] {β : Type} (reading : α → β)
    (lawful : ∀ a b, a == b → reading a = reading b) {r s : Regex α} (h : same r s) :
    Language.map reading r.language = Language.map reading s.language := by
  induction r, s using same.induct with
  | case1 a b =>
    simp only [same] at h
    have read (c : α) : Language.map reading {[c]} = {[reading c]} := Set.image_singleton
    rw [language_letter, language_letter, read, read, lawful a b h]
  | case2 r₁ s₁ r₂ s₂ rr ss rs sr =>
    simp only [same, Bool.or_eq_true, Bool.and_eq_true] at h
    simp only [language, map_add]
    rcases h with ⟨hr, hs⟩ | ⟨hr, hs⟩
    · rw [rr hr, ss hs]
    · rw [rs hr, sr hs, add_comm]
  | case3 r₁ s₁ r₂ s₂ rr ss =>
    simp only [same, Bool.and_eq_true] at h
    simp only [language, map_mul]
    rw [rr h.1, ss h.2]
  | case4 r s rs =>
    simp only [same] at h
    simp only [language, Language.map_kstar]
    rw [rs h]
  | case5 => rfl
  | case6 => rfl
  | case7 r s => simp [same] at h

variable [BEq α]

theorem language_eq_of_same [LawfulBEq α] {r s : Regex α} (h : same r s) : r.language = s.language := by
  have read := map_language_eq_of_same id (fun _ _ => eq_of_beq) h
  rwa [Language.map_id, Language.map_id] at read

variable [LawfulBEq α]

/-- A node may be collapsed, whatever its parts are. -/
theorem language_simplify (r : Regex α) : r.simplify.language = r.language := by
  cases r with
  | alt r s =>
    simp only [simplify, language]
    split
    · next h => rw [language_of_isEmpty h, zero_add]
    · split
      · next h =>
        rcases (Bool.or_eq_true _ _).mp h with h | h
        · rw [language_of_isEmpty h, add_zero]
        · rw [← language_eq_of_same h, Language.add_self]
      · rfl
  | seq r s =>
    simp only [simplify, language]
    split
    · next h =>
      rcases (Bool.or_eq_true _ _).mp h with h | h
      · rw [language_of_isEmpty h, zero_mul, language_empty]
      · rw [language_of_isEmpty h, mul_zero, language_empty]
    · split
      · next h => rw [language_of_isEpsilon h, one_mul]
      · split
        · next h => rw [language_of_isEpsilon h, mul_one]
        · rfl
  | many r =>
    simp only [simplify, language]
    split
    · next h =>
      rcases (Bool.or_eq_true _ _).mp h with h | h
      · rw [language_of_isEmpty h, kstar_zero, language_epsilon]
      · rw [language_of_isEpsilon h, kstar_one, language_epsilon]
    · rfl
  | letter | epsilon | empty => rfl

@[simp] theorem language_union (r s : Regex α) :
    (r.union s).language = r.language + s.language :=
  language_simplify (alt r s)

@[simp] theorem language_concat (r s : Regex α) :
    (r.concat s).language = r.language * s.language :=
  language_simplify (seq r s)

@[simp] theorem language_star (r : Regex α) : r.star.language = r.language∗ :=
  language_simplify (many r)

end Regex

end PointsTo
