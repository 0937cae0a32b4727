import PointsTo.Proofs.Solver.Rules
import PointsTo.Proofs.Solver.Moves
import Mathlib.Data.Finset.Prod
import Mathlib.Data.Finset.NAry
import Mathlib.Tactic.GCongr

/-!
# A solver knows finitely many facts

The facts that can be built from a supply of names are closed under the saturation rules
(`Names.closed`), so a solver whose program and callers keep to a supply never leaves it. This
bounds the transitions of its automata (`Below.size_le`), and the bound is less than the steps that
`Solver.saturate` allows itself.
-/

namespace PointsTo

namespace Names

variable (N : Names)

/-! ## States and facts over a supply -/

def HasFieldState : FieldState → Prop
  | .single f | .alloc f => N.Has f
  | .generated f g => N.Has f ∧ g ∈ N.fields

def HasCallState : CallState → Prop
  | .single v | .initial v => v ∈ N.vars
  | .generated v point => v ∈ N.vars ∧ point ∈ N.points

def ways : Ways where
  rule f r := r.Stays N f.var
  -- the flow of a fact knows of no tickets
  tell _ a := ∀ ticket seed, a ≠ .witnessed ticket seed

def facts : Facts where
  field t := N.HasFieldState t.start ∧ t.label ∈ N.fields ∧ N.HasFieldState t.target
  call t := N.HasCallState t.start ∧ t.label ∈ N.points ∧ N.HasCallState t.target
  pop _ f := N.Has f
  fieldFlow _ f := N.Has f
  callFlow _ f := N.Has f
  opened _ := True
  productive _ := True

variable {N}

theorem has_target {f : Fact} {r : Rule} (hr : N.ways.rule f r) (hf : f.var ∈ N.vars) :
    N.Has r.target :=
  ⟨hr.point, hr.var.elim (· ▸ hf) id⟩

theorem closed : N.facts.Closed N.ways where
  keep := fun ⟨_, hv, _⟩ hr _ ⟨_, hl, hq⟩ => ⟨has_target hr hv, hl, hq⟩
  push := fun ⟨_, hv, _⟩ hr hg ⟨_, hl, hq⟩ =>
    have ht := has_target hr hv
    have hg := hr.field (.inl hg)
    ⟨⟨ht, hg, ht, hg⟩, ⟨ht, hg⟩, hl, hq⟩
  pop := fun ⟨_, hv, _⟩ hr _ _ => has_target hr hv
  takeOver := fun hf ⟨_, hl, hq⟩ => ⟨hf, hl, hq⟩
  fieldFlow := fun hg ⟨_, hl, hq⟩ => ⟨hg, hl, hq⟩
  stay := fun ⟨hv, _, hc⟩ hr _ =>
    have ht := has_target hr hv
    ⟨ht.2, ht.1, hc⟩
  enter := fun ⟨hv, _, hc⟩ hr he =>
    have ht := has_target hr hv
    ⟨⟨ht.2, ht.1, ht.2, ht.1⟩, ⟨ht.2, ht.1⟩, hr.site (.inl he), hc⟩
  leave := fun ⟨hv, _, _⟩ hr _ ⟨_, _, hc⟩ =>
    have ht := has_target hr hv
    ⟨ht.2, ht.1, hc⟩
  leaveBottom := fun ⟨hv, _, hc⟩ hr _ _ =>
    have ht := has_target hr hv
    ⟨⟨ht.2, ht.1, hc⟩, trivial⟩
  callFlow := fun hg ⟨_, _, hc⟩ => ⟨hg.2, hg.1, hc⟩
  productive := fun _ _ => trivial

/-! ## Counting -/

theorem card_image₂_le {α β γ : Type} [DecidableEq γ] (g : α → β → γ) {s : Finset α} {t : Finset β}
    {m n : Nat} (hs : s.card ≤ m) (ht : t.card ≤ n) : (Finset.image₂ g s t).card ≤ m * n :=
  (Finset.card_image₂_le g s t).trans (Nat.mul_le_mul hs ht)

variable (N)

def factSet : Finset Fact := .image₂ Fact.mk N.points N.vars

def fieldStates : Finset FieldState :=
  N.factSet.image .single ∪ N.factSet.image .alloc ∪ .image₂ .generated N.factSet N.fields

def callStates : Finset CallState :=
  N.vars.image .single ∪ N.vars.image .initial ∪ .image₂ .generated N.vars N.points

def fieldTransitions : Finset FieldTransition :=
  .image₂ (fun start (l, q) => ⟨start, l, q⟩) N.fieldStates (N.fields ×ˢ N.fieldStates)

def callTransitions : Finset CallTransition :=
  .image₂ (fun start (l, q) => ⟨start, l, q⟩) N.callStates (N.points ×ˢ N.callStates)

variable {N}

theorem mem_factSet {f : Fact} (h : N.Has f) : f ∈ N.factSet :=
  Finset.mem_image₂.2 ⟨f.point, h.1, f.var, h.2, rfl⟩

theorem mem_fieldStates {q : FieldState} (h : N.HasFieldState q) : q ∈ N.fieldStates := by
  simp only [fieldStates, Finset.mem_union, Finset.mem_image, Finset.mem_image₂]
  cases q with
  | single f => exact .inl (.inl ⟨f, mem_factSet h, rfl⟩)
  | alloc f => exact .inl (.inr ⟨f, mem_factSet h, rfl⟩)
  | generated f g => exact .inr ⟨f, mem_factSet h.1, g, h.2, rfl⟩

theorem mem_callStates {q : CallState} (h : N.HasCallState q) : q ∈ N.callStates := by
  simp only [callStates, Finset.mem_union, Finset.mem_image, Finset.mem_image₂]
  cases q with
  | single v => exact .inl (.inl ⟨v, h, rfl⟩)
  | initial v => exact .inl (.inr ⟨v, h, rfl⟩)
  | generated v point => exact .inr ⟨v, h.1, point, h.2, rfl⟩

theorem mem_fieldTransitions {t : FieldTransition} (h : N.facts.field t) :
    t ∈ N.fieldTransitions :=
  Finset.mem_image₂.2 ⟨t.start, mem_fieldStates h.1, (t.label, t.target),
    Finset.mem_product.2 ⟨h.2.1, mem_fieldStates h.2.2⟩, rfl⟩

theorem mem_callTransitions {t : CallTransition} (h : N.facts.call t) : t ∈ N.callTransitions :=
  Finset.mem_image₂.2 ⟨t.start, mem_callStates h.1, (t.label, t.target),
    Finset.mem_product.2 ⟨h.2.1, mem_callStates h.2.2⟩, rfl⟩

section Cards

variable {n : Nat} (h : N.AtMost n)
include h

theorem card_factSet_le : N.factSet.card ≤ n * n := card_image₂_le _ h.points h.vars

theorem card_fieldStates_le : N.fieldStates.card ≤ n * n * (n + 2) := by
  have hf := card_factSet_le h
  have h₁ : (N.factSet.image FieldState.single).card ≤ n * n := Finset.card_image_le.trans hf
  have h₂ : (N.factSet.image FieldState.alloc).card ≤ n * n := Finset.card_image_le.trans hf
  have h₃ := card_image₂_le FieldState.generated hf h.fields
  calc N.fieldStates.card
      ≤ n * n + n * n + n * n * n :=
        (Finset.card_union_le _ _).trans
          (Nat.add_le_add ((Finset.card_union_le _ _).trans (Nat.add_le_add h₁ h₂)) h₃)
    _ = n * n * (n + 2) := by rw [Nat.mul_add]; omega

theorem card_callStates_le : N.callStates.card ≤ n * (n + 2) := by
  have h₁ : (N.vars.image CallState.single).card ≤ n := Finset.card_image_le.trans h.vars
  have h₂ : (N.vars.image CallState.initial).card ≤ n := Finset.card_image_le.trans h.vars
  have h₃ := card_image₂_le CallState.generated h.vars h.points
  calc N.callStates.card
      ≤ n + n + n * n :=
        (Finset.card_union_le _ _).trans
          (Nat.add_le_add ((Finset.card_union_le _ _).trans (Nat.add_le_add h₁ h₂)) h₃)
    _ = n * (n + 2) := by rw [Nat.mul_add]; omega

theorem card_fieldTransitions_le :
    N.fieldTransitions.card ≤ n * n * (n + 2) * n * (n * n * (n + 2)) := by
  have hq := card_fieldStates_le h
  rw [Nat.mul_assoc (n * n * (n + 2)) n]
  refine card_image₂_le _ hq ?_
  rw [Finset.card_product]
  exact Nat.mul_le_mul h.fields hq

theorem card_callTransitions_le :
    N.callTransitions.card ≤ n * (n + 2) * n * (n * (n + 2)) := by
  have hq := card_callStates_le h
  rw [Nat.mul_assoc (n * (n + 2)) n]
  refine card_image₂_le _ hq ?_
  rw [Finset.card_product]
  exact Nat.mul_le_mul h.points hq

end Cards

end Names

theorem OrderedSet.size_le_card {α : Type} [Ord α] [DecidableEq α] {s : OrderedSet α} {u : Finset α}
    (h : ∀ a ∈ s, a ∈ u) : s.size ≤ u.card := by
  rw [← s.length_toList, ← List.toFinset_card_of_nodup s.nodup_toList]
  exact Finset.card_le_card fun a ha => h a (List.mem_toFinset.1 ha)

namespace Solver

variable {N : Names} {s : Solver}

/-- The rules of a solver whose program keeps to a supply of names keep to it as well. -/
theorem obeys_of_le (h : s.graph.program.names ≤ N) : s.Obeys N.ways := by
  refine fun f => ⟨fun r hr => ?_, fun a ha => ?_⟩
  · have stays := Propagation.stays_of_mem_rules hr
    exact ⟨h.1 stays.point, stays.var.imp_right (@h.2.1 _), fun hg => h.2.2 (stays.field hg),
      fun hs => h.1 (stays.site hs)⟩
  · obtain ⟨-, ⟨_, _, _, _, _, rfl, -⟩ | ⟨_, -, rfl, -⟩⟩ := Propagation.mem_announcements ha
    · exact nofun
    · exact nofun

/-- The number of transitions that `n` names of each kind allow. -/
def transitionBound (n : Nat) : Nat :=
  n * n * (n + 2) * n * (n * n * (n + 2)) + n * (n + 2) * n * (n * (n + 2))

theorem transitionBound_mono {m n : Nat} (h : m ≤ n) : transitionBound m ≤ transitionBound n := by
  unfold transitionBound
  gcongr

/-- The transitions of a solver are among those that can be built from its names. -/
theorem Below.size_le_card (h : s.Below N.ways N.facts) :
    s.fields.size + s.calls.size ≤ N.fieldTransitions.card + N.callTransitions.card := by
  refine Nat.add_le_add ?_ ?_
  · exact OrderedSet.size_le_card fun t ht => Names.mem_fieldTransitions (h.field t ht)
  · exact OrderedSet.size_le_card fun t ht => Names.mem_callTransitions (h.call t ht)

/-- The automata of a solver have no more transitions than its names allow. -/
theorem Below.size_le (h : s.Below N.ways N.facts) {n : Nat} (hN : N.AtMost n) :
    s.fields.size + s.calls.size ≤ transitionBound n :=
  h.size_le_card.trans <|
    Nat.add_le_add (Names.card_fieldTransitions_le hN) (Names.card_callTransitions_le hN)

end Solver

end PointsTo
