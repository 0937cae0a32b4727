import PointsTo.Automaton
import PointsTo.Solver.State

/-!
# What an automaton lists

Whatever transitions are added to an automaton, more than once or between subscriptions, it lists
each of them once, in the order in which they were first added (`toList_performAll`). The positions
that are filed under the states of a transition are fixed before the transition is inserted. They
are right all the same, so at each state the automaton finds the transitions that it lists there, and
no others (`performAll_indexed`).
-/

namespace PointsTo

namespace Automaton

variable {σ ℓ : Type}

/-- What an automaton is asked to do. -/
inductive Call (σ ℓ : Type) where
  | add (t : Transition σ ℓ)
  | subscribe (subscription : Subscription σ) (listener : Nat)

/-- The transition that the call adds, if it is not there yet. -/
def Call.added? : Call σ ℓ → Option (Transition σ ℓ)
  | add t => some t
  | subscribe .. => none

variable [Ord σ] [Ord ℓ] [Std.TransOrd σ] [Std.TransOrd ℓ] [Std.LawfulEqOrd σ] [Std.LawfulEqOrd ℓ]
  [DecidableEq σ]

/-- The automaton after a call. -/
def perform (a : Automaton σ ℓ) : Call σ ℓ → Automaton σ ℓ
  | .add t => ((a.add? t).map (·.2)).getD a
  | .subscribe subscription listener => (a.subscribe subscription listener).2

def performAll (a : Automaton σ ℓ) (calls : List (Call σ ℓ)) : Automaton σ ℓ :=
  calls.foldl perform a

variable {a : Automaton σ ℓ} {t : Transition σ ℓ}

/-- A transition is no news if it is listed. -/
theorem add?_eq_none_iff : a.add? t = none ↔ t ∈ a.toList := by
  have there : a.contains t = true ↔ t ∈ a.toList := OrderedSet.contains_iff
  rw [← there, add?]
  split
  · next known => simp [known]
  · next new => simp [new]

variable [DecidableEq ℓ]

theorem toList_add (a : Automaton σ ℓ) (t : Transition σ ℓ) :
    (a.perform (.add t)).toList = if t ∈ a.toList then a.toList else a.toList ++ [t] := by
  have there : a.contains t = true ↔ t ∈ a.toList := OrderedSet.contains_iff
  rw [perform, add?]
  split
  · next known =>
    rw [if_pos (there.1 known)]
    rfl
  · next new =>
    rw [if_neg fun known => new (there.2 known)]
    exact toList_push (Bool.eq_false_iff.2 new)

/-- A call keeps the list of what was added up to date. -/
theorem toList_perform {added : List (Transition σ ℓ)} (h : a.toList = added.eraseDups)
    (call : Call σ ℓ) :
    (a.perform call).toList = (added ++ call.added?.toList).eraseDups := by
  cases call with
  | add t =>
    rw [toList_add, h, Call.added?, Option.toList_some, List.eraseDups_append]
    by_cases known : t ∈ added <;> simp [known, List.removeAll, List.eraseDups_cons]
  | subscribe subscription listener =>
    rw [Call.added?, Option.toList_none, List.append_nil]
    exact h

theorem toList_performAll {added : List (Transition σ ℓ)} (h : a.toList = added.eraseDups)
    (calls : List (Call σ ℓ)) :
    (a.performAll calls).toList = (added ++ calls.filterMap Call.added?).eraseDups := by
  induction calls generalizing a added with
  | nil =>
    rw [List.filterMap_nil, List.append_nil]
    exact h
  | cons call calls ih =>
    have rest := ih (toList_perform h call)
    rw [List.append_assoc] at rest
    rw [performAll, List.foldl_cons, ← performAll, rest]
    cases call <;> rfl

/-- After any calls, an automaton lists what was added, each transition once and in the order in
which they first came. Adding another transition is no news exactly if it was added before. The
transitions that leave or enter a state are those listed there, in the same order and each once, and
a transition that does both is among both. -/
theorem performAll_indexed (calls : List (Call σ ℓ)) :
    let a := (∅ : Automaton σ ℓ).performAll calls
    let added := calls.filterMap Call.added?
    a.toList = added.eraseDups ∧ (∀ t, a.add? t = none ↔ t ∈ added) ∧
      ∀ state,
        a.outgoingOf state = a.toList.filter (·.start = state) ∧ (a.outgoingOf state).Nodup ∧
        a.incomingOf state = a.toList.filter (·.target = state) ∧ (a.incomingOf state).Nodup := by
  intro a added
  have empty : (∅ : Automaton σ ℓ).toList = [].eraseDups := rfl
  have listed : a.toList = added.eraseDups := toList_performAll empty calls
  have once : a.toList.Nodup := OrderedSet.nodup_toList _
  refine ⟨listed, fun t => ?_, fun state => ?_⟩
  · rw [add?_eq_none_iff, listed, List.mem_eraseDups]
  · have leaving := a.outgoingOf_eq_filter state
    have entering := a.incomingOf_eq_filter state
    exact ⟨leaving, leaving ▸ once.filter _, entering, entering ▸ once.filter _⟩

/-- The cell of a list -/
def cell : FieldState := .single ⟨.ofIndex ⟨"m"⟩ 1, ⟨"c", ⟨"m"⟩⟩⟩

/-- The cell is its own successor. -/
def looping : Transition FieldState Field := ⟨cell, .named "next", cell⟩

/-- The cell is made at its point. -/
def making : Transition FieldState Field := ⟨cell, .epsilon, .alloc cell.fact⟩

/-- The loop is added twice, and somebody subscribes before, between and after. -/
def loopingTwice : List (Call FieldState Field) :=
  [.subscribe (.leaving cell) 0, .add looping, .subscribe .any 1, .add making, .add looping,
    .subscribe (.leaving cell) 0]

/-- The loop leaves the cell and enters it. -/
theorem loopingTwice_indexed : let a := (∅ : Automaton FieldState Field).performAll loopingTwice
    a.toList = [looping, making] ∧ a.add? looping = none ∧ a.outgoingOf cell = [looping, making] ∧
      a.incomingOf cell = [looping] ∧ a.incomingOf (.alloc cell.fact) = [making] := by
  intro a
  obtain ⟨listed, known, at_⟩ := performAll_indexed loopingTwice
  have listed : a.toList = [looping, making] := listed.trans (by decide)
  obtain ⟨leaving, -, entering, -⟩ := at_ cell
  obtain ⟨-, -, entering', -⟩ := at_ (.alloc cell.fact)
  exact ⟨listed, (known looping).2 (by decide), leaving.trans (by rw [listed]; decide),
    entering.trans (by rw [listed]; decide), entering'.trans (by rw [listed]; decide)⟩

end Automaton

end PointsTo
