import PointsTo.Proofs.Source.Words
import PointsTo.Regex.Basic

/-!
# Reading an expression off its text

The text of an expression is either a word, for a letter or a constant, or stands in brackets of its own
kind. The first character tells which (`opening_eq`). A word ends where a character comes that is of no
word, and what follows an expression inside another one begins with such a character. So a text with
what follows it can be taken apart in one way only (`apart_of_legible`), and expressions over fields
with plain names are told apart by their texts (`text_eq_text_iff`).
-/

namespace PointsTo

open Source

namespace Regex

variable {α : Type} {f : α → String} {r s : Regex α} {rest rest' : List Char}

/-! ## Names -/

/-- The letters of an expression, from left to right. -/
def letters : Regex α → List α
  | letter a => [a]
  | alt r s | seq r s => r.letters ++ s.letters
  | many r => r.letters
  | epsilon | empty => []

/-- The text is an identifier, and neither of the constants is written like it. -/
def IsName (text : String) : Prop :=
  isIdent text.toList = true ∧ text ≠ "EPSILON" ∧ text ≠ "EMPTY"

instance : DecidablePred IsName := fun _ => inferInstanceAs (Decidable (_ ∧ _ ∧ _))

/-- The letters of the expression are written as names. -/
def Legible (f : α → String) (r : Regex α) : Prop := ∀ a ∈ r.letters, IsName (f a)

theorem legible_alt_iff : Legible f (alt r s) ↔ Legible f r ∧ Legible f s := List.forall_mem_append

theorem legible_seq_iff : Legible f (seq r s) ↔ Legible f r ∧ Legible f s := List.forall_mem_append

theorem legible_many_iff : Legible f (many r) ↔ Legible f r := Iff.rfl

/-! ## How a text begins -/

/-- The bracket in front of an expression that is not written as a word. -/
def opening : Regex α → Option Char
  | alt .. => some '\x7b'
  | seq .. => some '('
  | many _ => some '['
  | _ => none

theorem toList_alt : ((alt r s).text f).toList ++ rest =
    '\x7b' :: ((r.text f).toList ++ ' ' :: 'U' :: ' ' :: ((s.text f).toList ++ '\x7d' :: rest)) := by
  show ("\x7b" ++ r.text f ++ " U " ++ s.text f ++ "\x7d").toList ++ rest = _
  simp

theorem toList_seq : ((seq r s).text f).toList ++ rest =
    '(' :: ((r.text f).toList ++ ' ' :: '.' :: ' ' :: ((s.text f).toList ++ ')' :: rest)) := by
  show ("(" ++ r.text f ++ " . " ++ s.text f ++ ")").toList ++ rest = _
  simp

theorem toList_many : ((many r).text f).toList ++ rest =
    '[' :: ((r.text f).toList ++ ']' :: '*' :: ' ' :: rest) := by
  show ("[" ++ r.text f ++ "]* ").toList ++ rest = _
  simp

/-- An expression that opens with no bracket is written as a word. -/
theorem isIdent_text (h : Legible f r) (word : r.opening = none) :
    isIdent (r.text f).toList = true := by
  cases r with
  | letter a => exact (h a List.mem_cons_self).1
  | epsilon | empty =>
    rw [text]
    decide
  | alt | seq | many => cases word

/-- The first character of a text is its bracket, or belongs to a word. -/
theorem opening_eq (h : Legible f r) (rest : List Char) :
    r.opening = ((r.text f).toList ++ rest).head?.filter (!isIdentRest ·) := by
  have word (none : r.opening = none) :
      r.opening = ((r.text f).toList ++ rest).head?.filter (!isIdentRest ·) := by
    have ident := isIdent_text h none
    obtain ⟨c, cs, e⟩ := List.exists_cons_of_ne_nil (ne_nil_of_isIdent ident)
    have first : isIdentRest c = true := isIdentRest_of_mem ident c (e ▸ List.mem_cons_self)
    simp [none, e, Option.filter_some, first]
  cases r with
  | letter | epsilon | empty => exact word rfl
  | alt | seq | many =>
    simp only [toList_alt, toList_seq, toList_many]
    rfl

theorem opening_congr (hr : Legible f r) (hs : Legible f s)
    (h : (r.text f).toList ++ rest = (s.text f).toList ++ rest') : r.opening = s.opening := by
  rw [opening_eq hr rest, h, ← opening_eq hs rest']

/-! ## How a word ends -/

/-- What follows a word does not go on with it. -/
def EndsWord (rest : List Char) : Prop := ∀ c ∈ rest.head?, isIdentRest c = false

theorem endsWord_cons {c : Char} (h : isIdentRest c = false) : EndsWord (c :: rest) := by
  rintro _ ⟨⟩
  exact h

theorem firstWord_append_of_ends {w : List Char} (h : isIdent w = true) (ends : EndsWord rest) :
    firstWord (w ++ rest) = w := by
  cases rest with
  | nil => rw [List.append_nil, firstWord_of_isIdent h]
  | cons c cs => rw [firstWord_append (ends c rfl), firstWord_of_isIdent h]

/-! ## Taking a text apart -/

/-- If the texts of the two expressions, each with something behind it that does not go on with a word,
are the same, then so are the expressions and what is behind them. -/
def Apart (f : α → String) (r s : Regex α) : Prop :=
  ∀ rest rest', EndsWord rest → EndsWord rest' →
    (r.text f).toList ++ rest = (s.text f).toList ++ rest' → r = s ∧ rest = rest'

/-- Two expressions with a mark between them and a bracket behind. -/
theorem Apart.sides {r₁ r₂ s₁ s₂ : Regex α} {mark bracket : Char} (first : Apart f r₁ s₁)
    (second : Apart f r₂ s₂) (hb : isIdentRest bracket = false)
    (h : (r₁.text f).toList ++ ' ' :: mark :: ' ' :: ((r₂.text f).toList ++ bracket :: rest) =
      (s₁.text f).toList ++ ' ' :: mark :: ' ' :: ((s₂.text f).toList ++ bracket :: rest')) :
    r₁ = s₁ ∧ r₂ = s₂ ∧ rest = rest' := by
  obtain ⟨same, behind⟩ := first _ _ (endsWord_cons (by decide)) (endsWord_cons (by decide)) h
  simp only [List.cons.injEq, true_and] at behind
  obtain ⟨same', last⟩ := second _ _ (endsWord_cons hb) (endsWord_cons hb) behind
  exact ⟨same, same', (List.cons.inj last).2⟩

section Injective

variable (names : ∀ a b, IsName (f a) → IsName (f b) → f a = f b → a = b)
include names

/-- Words are told apart by what is written. -/
theorem eq_of_words (hr : Legible f r) (hs : Legible f s) (word : r.opening = none)
    (word' : s.opening = none) (h : r.text f = s.text f) : r = s := by
  cases r with
  | letter a =>
    have name : IsName (f a) := hr a List.mem_cons_self
    cases s with
    | letter b => rw [names a b name (hs b List.mem_cons_self) h]
    | epsilon => exact absurd h name.2.1
    | empty => exact absurd h name.2.2
    | alt | seq | many => cases word'
  | epsilon =>
    cases s with
    | letter b => exact absurd h.symm (hs b List.mem_cons_self).2.1
    | epsilon => rfl
    | empty => exact absurd h (by rw [text, text]; decide)
    | alt | seq | many => cases word'
  | empty =>
    cases s with
    | letter b => exact absurd h.symm (hs b List.mem_cons_self).2.2
    | epsilon => exact absurd h (by rw [text, text]; decide)
    | empty => rfl
    | alt | seq | many => cases word'
  | alt | seq | many => cases word

/-- A word ends at the first character that is of no word, so there is one way only to read it. -/
theorem apart_of_word (hr : Legible f r) (hs : Legible f s) (word : r.opening = none) :
    Apart f r s := by
  intro rest rest' ends ends' h
  have word' : s.opening = none := (opening_congr hr hs h).symm.trans word
  have first := congrArg firstWord h
  rw [firstWord_append_of_ends (isIdent_text hr word) ends,
    firstWord_append_of_ends (isIdent_text hs word') ends'] at first
  refine ⟨eq_of_words names hr hs word word' (String.toList_inj.1 first), ?_⟩
  rw [first] at h
  exact List.append_cancel_left h

/-- With letters that are told apart by their names, a text with what follows it is taken apart in
one way only. -/
theorem apart_of_legible (hr : Legible f r) (hs : Legible f s) : Apart f r s := by
  induction r generalizing s with
  | letter a => exact apart_of_word names hr hs rfl
  | epsilon => exact apart_of_word names hr hs rfl
  | empty => exact apart_of_word names hr hs rfl
  | alt r₁ r₂ ih₁ ih₂ =>
    intro rest rest' _ _ h
    have bracket := opening_congr hr hs h
    obtain ⟨s₁, s₂, rfl⟩ : ∃ s₁ s₂, s = alt s₁ s₂ := by cases s <;> simp_all [opening]
    obtain ⟨hr₁, hr₂⟩ := legible_alt_iff.1 hr
    obtain ⟨hs₁, hs₂⟩ := legible_alt_iff.1 hs
    rw [toList_alt, toList_alt, List.cons_inj_right] at h
    obtain ⟨rfl, rfl, rfl⟩ := (ih₁ hr₁ hs₁).sides (ih₂ hr₂ hs₂) (by decide) h
    exact ⟨rfl, rfl⟩
  | seq r₁ r₂ ih₁ ih₂ =>
    intro rest rest' _ _ h
    have bracket := opening_congr hr hs h
    obtain ⟨s₁, s₂, rfl⟩ : ∃ s₁ s₂, s = seq s₁ s₂ := by cases s <;> simp_all [opening]
    obtain ⟨hr₁, hr₂⟩ := legible_seq_iff.1 hr
    obtain ⟨hs₁, hs₂⟩ := legible_seq_iff.1 hs
    rw [toList_seq, toList_seq, List.cons_inj_right] at h
    obtain ⟨rfl, rfl, rfl⟩ := (ih₁ hr₁ hs₁).sides (ih₂ hr₂ hs₂) (by decide) h
    exact ⟨rfl, rfl⟩
  | many r ih =>
    intro rest rest' _ _ h
    have bracket := opening_congr hr hs h
    obtain ⟨s, rfl⟩ : ∃ s', s = many s' := by cases s <;> simp_all [opening]
    rw [legible_many_iff] at hr hs
    rw [toList_many, toList_many, List.cons_inj_right] at h
    obtain ⟨rfl, behind⟩ := ih hr hs _ _ (endsWord_cons (by decide)) (endsWord_cons (by decide)) h
    simp only [List.cons.injEq, true_and] at behind
    exact ⟨rfl, behind⟩

end Injective

end Regex

/-! ## Fields -/

/-- The field has a name, which is an identifier other than the words for the empty word and the empty
language. -/
def Field.IsPlain : Field → Prop
  | .named name => Regex.IsName name
  | .epsilon => False

instance : DecidablePred Field.IsPlain
  | .named name => inferInstanceAs (Decidable (Regex.IsName name))
  | .epsilon => inferInstanceAs (Decidable False)

namespace Regex

theorem legible_of_plain {r : Regex Field} (h : ∀ g ∈ r.letters, g.IsPlain) :
    Legible Field.text r := by
  intro g hg
  have plain := h g hg
  cases g with
  | named name => exact plain
  | epsilon => exact plain.elim

/-- Fields whose texts are identifiers are told apart by them. -/
theorem eq_of_field_text (g g' : Field) (h : IsName g.text) (h' : IsName g'.text)
    (e : g.text = g'.text) : g = g' := by
  have marked : ¬ IsName Field.epsilon.text := by decide
  cases g with
  | epsilon => exact absurd h marked
  | named name =>
    cases g' with
    | epsilon => exact absurd h' marked
    | named name' => exact congrArg Field.named e

/-- Expressions over fields with plain names have one text only if they are one expression. -/
theorem text_eq_text_iff {r s : Regex Field} (hr : ∀ g ∈ r.letters, g.IsPlain)
    (hs : ∀ g ∈ s.letters, g.IsPlain) : r.text Field.text = s.text Field.text ↔ r = s := by
  constructor
  · intro h
    have ends : EndsWord [] := fun _ hc => nomatch hc
    have apart := apart_of_legible eq_of_field_text (legible_of_plain hr) (legible_of_plain hs)
    exact (apart [] [] ends ends (by rw [h])).1
  · intro h
    rw [h]

/-- A field may even have the name of the sign of unions. -/
theorem text_ne_of_nested :
    let U : Regex Field := letter (.named "U")
    let r := alt U (alt (many U) (seq U epsilon))
    let s := alt (alt U (many U)) (seq U epsilon)
    (∀ g ∈ r.letters, g.IsPlain) ∧ (∀ g ∈ s.letters, g.IsPlain) ∧
      r.text Field.text ≠ s.text Field.text := by
  intro U r s
  have hr : ∀ g ∈ r.letters, g.IsPlain := by decide
  have hs : ∀ g ∈ s.letters, g.IsPlain := by decide
  have differ : r ≠ s := by decide
  exact ⟨hr, hs, fun h => differ ((text_eq_text_iff hr hs).1 h)⟩

/-- Nothing tells a field from a constant that it is named like. -/
example : (letter (.named "EMPTY")).text Field.text = (empty : Regex Field).text Field.text := rfl

end Regex

end PointsTo
