import PointsTo.Proofs.Regex.Equality
import PointsTo.Proofs.Regex.PathExpression

/-!
# Reduced expressions

What the constructors build is reduced: at no depth is there a union with an empty side or of equal
sides, a concatenation with the empty word or the empty language, or a star of one of those
(`Built.isReduced`). A reduced expression cannot hide how small its language is. Unless it is the
empty language itself it has a word (`exists_mem_language`), and if it has no word but the empty one
it is the empty word or the empty language itself (`trivial_of_language_le_one`): the two sides of a
union would be equal, and a concatenation or a star would have a part that is not allowed there.

The expressions between the states of a graph are built by the constructors
(`built_pathExpression`).
-/

namespace PointsTo

open scoped Computability

namespace Regex

variable {α : Type}

/-! ## Reduced -/

/-- Neither the empty word nor the empty language. -/
def isTrivial (r : Regex α) : Bool := r.isEmpty || r.isEpsilon

theorem isTrivial_eq_false {r : Regex α} :
    r.isTrivial = false ↔ r.isEmpty = false ∧ r.isEpsilon = false := by
  rw [isTrivial, Bool.or_eq_false_iff]

variable [BEq α]

/-- At no depth is there a union with an empty side or of equal sides, a concatenation with the
empty word or the empty language, or a star of one of those. -/
def isReduced : Regex α → Bool
  | alt r s => r.isReduced && s.isReduced && !r.isEmpty && !s.isEmpty && !same r s
  | seq r s => r.isReduced && s.isReduced && !r.isTrivial && !s.isTrivial
  | many r => r.isReduced && !r.isTrivial
  | _ => true

/-- Made from letters, the empty word and the empty language by the constructors alone. -/
inductive Built : Regex α → Prop
  | letter (a : α) : Built (letter a)
  | epsilon : Built epsilon
  | empty : Built empty
  | union {r s} : Built r → Built s → Built (r.union s)
  | concat {r s} : Built r → Built s → Built (r.concat s)
  | star {r} : Built r → Built r.star
  | simplify {r} : Built r → Built r.simplify

variable {r s : Regex α}

theorem isReduced_alt_iff : (alt r s).isReduced ↔ r.isReduced ∧ s.isReduced ∧
    r.isEmpty = false ∧ s.isEmpty = false ∧ same r s = false := by
  simp [isReduced, and_assoc]

theorem isReduced_seq_iff : (seq r s).isReduced ↔ r.isReduced ∧ s.isReduced ∧
    r.isTrivial = false ∧ s.isTrivial = false := by
  simp [isReduced, and_assoc]

theorem isReduced_many_iff : (many r).isReduced ↔ r.isReduced ∧ r.isTrivial = false := by
  simp [isReduced]

theorem isReduced_union (hr : r.isReduced) (hs : s.isReduced) : (r.union s).isReduced := by
  simp only [union, simplify]
  split
  · exact hs
  · split
    · exact hr
    · simp_all [isReduced_alt_iff]

theorem isReduced_concat (hr : r.isReduced) (hs : s.isReduced) : (r.concat s).isReduced := by
  simp only [concat, simplify]
  split
  · rfl
  · split
    · exact hs
    · split
      · exact hr
      · simp_all [isReduced_seq_iff, isTrivial_eq_false]

theorem isReduced_star (hr : r.isReduced) : r.star.isReduced := by
  simp only [star, simplify]
  split
  · rfl
  · simp_all [isReduced_many_iff, isTrivial_eq_false]

/-- Nothing is left to collapse. -/
theorem simplify_of_isReduced (h : r.isReduced) : r.simplify = r := by
  cases r with
  | alt r s => simp_all [isReduced_alt_iff, simplify]
  | seq r s => simp_all [isReduced_seq_iff, isTrivial_eq_false, simplify]
  | many r => simp_all [isReduced_many_iff, isTrivial_eq_false, simplify]
  | letter | epsilon | empty => rfl

theorem Built.isReduced (h : Built r) : r.isReduced := by
  induction h with
  | letter | epsilon | empty => rfl
  | union _ _ hr hs => exact isReduced_union hr hs
  | concat _ _ hr hs => exact isReduced_concat hr hs
  | star _ hr => exact isReduced_star hr
  | simplify _ hr => rwa [simplify_of_isReduced hr]

/-! ## How small the language is -/

theorem exists_mem_language (h : r.isReduced) (inhabited : r.isEmpty = false) :
    ∃ w, w ∈ r.language := by
  induction r with
  | letter a => exact ⟨[a], rfl⟩
  | alt r s ihr _ =>
    obtain ⟨hr, -, inhabited, -⟩ := isReduced_alt_iff.1 h
    obtain ⟨w, hw⟩ := ihr hr inhabited
    exact ⟨w, .inl hw⟩
  | seq r s ihr ihs =>
    obtain ⟨hr, hs, nr, ns⟩ := isReduced_seq_iff.1 h
    obtain ⟨u, hu⟩ := ihr hr (isTrivial_eq_false.1 nr).1
    obtain ⟨v, hv⟩ := ihs hs (isTrivial_eq_false.1 ns).1
    exact ⟨u ++ v, Language.append_mem_mul hu hv⟩
  | many r => exact ⟨[], Language.nil_mem_kstar _⟩
  | epsilon => exact ⟨[], rfl⟩
  | empty => cases inhabited

/-- A reduced expression with no word but the empty one shows it. -/
theorem trivial_of_language_le_one (h : r.isReduced) (le : r.language ≤ 1) : r.isTrivial := by
  induction r with
  | letter a => cases le (rfl : [a] = [a])
  | alt r s ihr ihs =>
    obtain ⟨hr, hs, nr, ns, distinct⟩ := isReduced_alt_iff.1 h
    have epsilon_of {t : Regex α} (trivial : t.isTrivial) (inhabited : t.isEmpty = false) :
        t = .epsilon := by
      rw [isTrivial, inhabited, Bool.false_or] at trivial
      exact isEpsilon_iff.1 trivial
    have er := epsilon_of (ihr hr fun w hw => le (.inl hw)) nr
    have es := epsilon_of (ihs hs fun w hw => le (.inr hw)) ns
    rw [er, es] at distinct
    cases distinct
  | seq r s ihr _ =>
    obtain ⟨hr, hs, nr, ns⟩ := isReduced_seq_iff.1 h
    -- with a word of the right side behind it, a word of the left side is still empty
    obtain ⟨v, hv⟩ := exists_mem_language hs (isTrivial_eq_false.1 ns).1
    have only : r.language ≤ 1 := fun u hu =>
      (List.append_eq_nil_iff.1 (le (Language.append_mem_mul hu hv))).1
    exact absurd (nr.symm.trans (ihr hr only)) Bool.false_ne_true
  | many r ih =>
    obtain ⟨hr, nr⟩ := isReduced_many_iff.1 h
    exact absurd (nr.symm.trans (ih hr (le_kstar.trans le))) Bool.false_ne_true
  | epsilon => rfl
  | empty => rfl

theorem language_eq_zero_iff (h : r.isReduced) : r.language = 0 ↔ r.isEmpty := by
  refine ⟨fun none => ?_, language_of_isEmpty⟩
  by_contra inhabited
  obtain ⟨w, hw⟩ := exists_mem_language h (Bool.eq_false_iff.2 inhabited)
  rw [none] at hw
  exact Language.notMem_zero w hw

theorem language_eq_one_iff (h : r.isReduced) : r.language = 1 ↔ r.isEpsilon := by
  refine ⟨fun one => ?_, language_of_isEpsilon⟩
  refine (Bool.or_eq_true_iff.1 (trivial_of_language_le_one h one.le)).resolve_left fun none => ?_
  have word : [] ∈ r.language := one ▸ Language.nil_mem_one
  rw [language_of_isEmpty none] at word
  exact Language.notMem_zero _ word

end Regex

/-! ## Path expressions -/

namespace PathTable

open Regex

variable {α : Type} [DecidableEq α] {t : PathTable α} {n : Nat}

theorem Square.built_eliminate (h : t.Square n) (built : ∀ i j, Built (t.get i j)) (k i j : Nat) :
    Built ((t.eliminate k).get i j) := by
  rw [h.get_eliminate]
  split
  · exact .empty
  · exact .union (built i j) (.concat (.concat (built i k) (.star (built k k))) (built k j))

theorem Square.built_eliminateAll (h : t.Square n) (built : ∀ i j, Built (t.get i j))
    (ks : List Nat) (i j : Nat) : Built ((ks.foldl PathTable.eliminate t).get i j) := by
  induction ks generalizing t with
  | nil => exact built i j
  | cons k ks ih => exact ih (h.eliminate k) (h.built_eliminate built k)

end PathTable

section

open Regex

variable {σ α : Type} [Ord σ] [DecidableEq α]

omit [Ord σ] in
theorem Edge.built_expression (e : Edge σ α) : Built e.expression := by
  unfold expression
  split
  · exact .letter _
  · exact .epsilon

theorem built_edgeTable (states : OrderedSet σ) (edges : List (Edge σ α)) (i j : Nat) :
    Built ((edgeTable states edges).get i j) := by
  induction edges using List.reverseRecOn generalizing i j with
  | nil =>
    rw [edgeTable, List.foldl_nil, PathTable.get_blank]
    exact .empty
  | append_singleton edges e ih =>
    rw [edgeTable_append]
    split
    · next i' j' hi hj =>
      rw [(edgeTable_spec states edges).1.get_add (OrderedSet.lt_size_of_indexOf? hi) (OrderedSet.lt_size_of_indexOf? hj)]
      split
      · exact .union (ih i' j') e.built_expression
      · exact ih i j
    · exact ih i j

omit [Ord σ] in
theorem built_twoStateExpression {t : PathTable α} (built : ∀ i j, Built (t.get i j)) (sink : Nat) :
    Built (twoStateExpression t sink) := by
  unfold twoStateExpression
  split
  · exact .star (built 0 0)
  · have turns : Built (t.get sink sink).star := .star (built sink sink)
    have back := Built.concat (.concat (built 0 sink) turns) (built sink 0)
    exact .concat (.concat (.star (.union (built 0 0) back)) (built 0 sink)) turns

variable [Std.TransOrd σ] [Std.LawfulEqOrd σ]

theorem built_pathExpression (edges : List (Edge σ α)) (source target : σ) :
    Built (pathExpression edges source target) :=
  built_twoStateExpression
    ((edgeTable_spec _ edges).1.built_eliminateAll (built_edgeTable _ edges) _) _

/-- The constructors build the union, the concatenation and the Kleene star of the languages of any
expressions, reduced or not, and collapsing a node keeps its language. Whatever is made by the
constructors alone is reduced at every depth, its language is empty only if it is the empty language
itself, and its language is the empty word only if it is the empty word itself. The expressions
between the states of a graph are made like this. -/
theorem constructors_canonical :
    (∀ r s : Regex α, (r.union s).language = r.language + s.language ∧
      (r.concat s).language = r.language * s.language ∧ r.star.language = r.language∗ ∧
      r.simplify.language = r.language) ∧
    (∀ r : Regex α, Built r → r.isReduced ∧ (r.language = 0 ↔ r.isEmpty) ∧
      (r.language = 1 ↔ r.isEpsilon)) ∧
    ∀ (edges : List (Edge σ α)) (source target : σ), Built (pathExpression edges source target) :=
  ⟨fun r s => ⟨language_union r s, language_concat r s, language_star r, language_simplify r⟩,
    fun _ built => ⟨built.isReduced, language_eq_zero_iff built.isReduced,
      language_eq_one_iff built.isReduced⟩,
    built_pathExpression⟩

end

/-- Two edges with one label and a loop without a label are one letter. -/
theorem doubledEdge_canonical :
    let r := pathExpression [⟨0, some 5, 1⟩, ⟨0, some 5, 1⟩, ⟨1, none, 1⟩] 0 1
    r = Regex.letter 5 ∧ r.isReduced ∧ (r.language = 0 ↔ r.isEmpty) ∧
      (r.language = 1 ↔ r.isEpsilon) := by
  intro r
  obtain ⟨-, reduced, built⟩ := @constructors_canonical Nat Nat _ _ _ _
  exact ⟨by decide, reduced r (built _ 0 1)⟩

end PointsTo
