import PointsTo.Collection.Key
import PointsTo.Collection.Multimap
import PointsTo.Program.Name
import PointsTo.Regex.PathExpression

/-!
# Automata that grow and tell

An automaton is a set of transitions in the order of their insertion, with the positions of the
transitions that leave and enter each state. It also knows who wants to hear of transitions: a
subscription is for all of them or for those that leave one state. `Automaton.subscribe` answers the
matching transitions so far and `Automaton.add?` answers who is to be told of a new one, so that
together every subscriber sees every matching transition once.

That the positions are right is part of the type, so the transitions at a state can be read off the
list of all transitions (`Automaton.outgoingOf_eq_filter`).
-/

namespace PointsTo

structure Transition (σ ℓ : Type) where
  start : σ
  label : ℓ
  target : σ
deriving DecidableEq

/-- Which transitions a listener wants to hear of. -/
inductive Subscription (σ : Type) where
  | any
  | leaving (state : σ)
deriving DecidableEq

namespace Transition

variable {σ ℓ : Type}

def key (t : Transition σ ℓ) : σ × ℓ × σ := (t.start, t.label, t.target)

theorem key_injective (t u : Transition σ ℓ) (h : t.key = u.key) : t = u := by
  cases t; cases u; simp_all [key]

instance [Ord σ] [Ord ℓ] : Ord (Transition σ ℓ) := ordByKey key

instance [Ord σ] [Ord ℓ] [Std.TransOrd σ] [Std.TransOrd ℓ] : Std.TransOrd (Transition σ ℓ) :=
  transOrd_of_key key

instance [Ord σ] [Ord ℓ] [Std.LawfulEqOrd σ] [Std.LawfulEqOrd ℓ] :
    Std.LawfulEqOrd (Transition σ ℓ) :=
  lawfulEqOrd_of_key key_injective

def text (stateText : σ → String) (labelText : ℓ → String) (t : Transition σ ℓ) : String :=
  stateText t.start ++ " --" ++ labelText t.label ++ "--> " ++ stateText t.target

end Transition

namespace Subscription

variable {σ ℓ : Type} [DecidableEq σ]

/-- Whether the subscription is for this transition. -/
def covers (s : Subscription σ) (t : Transition σ ℓ) : Bool :=
  match s with
  | any => true
  | leaving state => t.start = state

end Subscription

structure Automaton (σ ℓ : Type) [Ord σ] [Ord ℓ] where
  transitions : OrderedSet (Transition σ ℓ)
  outgoing : Multimap σ Nat
  incoming : Multimap σ Nat
  /-- What was subscribed to and by whom, in order -/
  subscriptions : List (Subscription σ × Nat)
  of_outgoing : ∀ state, outgoing.of state = transitions.positions fun t => compare t.start state = .eq
  of_incoming : ∀ state, incoming.of state = transitions.positions fun t => compare t.target state = .eq

namespace Automaton

variable {σ ℓ : Type} [Ord σ] [Ord ℓ] [Std.TransOrd σ] [Std.TransOrd ℓ]

def empty : Automaton σ ℓ where
  transitions := ∅
  outgoing := ∅
  incoming := ∅
  subscriptions := []
  of_outgoing := fun _ => by rw [Multimap.of_empty]; rfl
  of_incoming := fun _ => by rw [Multimap.of_empty]; rfl

instance : EmptyCollection (Automaton σ ℓ) := ⟨empty⟩

instance : Inhabited (Automaton σ ℓ) := ⟨∅⟩

def size (a : Automaton σ ℓ) : Nat := a.transitions.size

def isEmpty (a : Automaton σ ℓ) : Bool := a.transitions.isEmpty

def toList (a : Automaton σ ℓ) : List (Transition σ ℓ) := a.transitions.toList

def contains (a : Automaton σ ℓ) (t : Transition σ ℓ) : Bool := a.transitions.contains t

/-- The transitions that leave a state, in the order of insertion. -/
def outgoingOf (a : Automaton σ ℓ) (state : σ) : List (Transition σ ℓ) :=
  (a.outgoing.of state).filterMap a.transitions.get?

/-- The transitions that enter a state, in the order of insertion. -/
def incomingOf (a : Automaton σ ℓ) (state : σ) : List (Transition σ ℓ) :=
  (a.incoming.of state).filterMap a.transitions.get?

variable [Std.LawfulEqOrd σ]

/-- The states in the order in which the transitions mention them, starts before targets. -/
def states (a : Automaton σ ℓ) : OrderedSet σ :=
  .ofList (a.toList.flatMap fun t => [t.start, t.target])

variable [DecidableEq σ]

/-- Who is to be told of a transition, in the order of subscription. -/
def listenersOf (a : Automaton σ ℓ) (t : Transition σ ℓ) : List Nat :=
  (a.subscriptions.filter fun (s, _) => s.covers t).map (·.2)

/-- Filing the next position under the key of a new transition keeps all positions right. -/
theorem of_insert_position [Std.LawfulEqOrd ℓ] {ts : OrderedSet (Transition σ ℓ)}
    {t : Transition σ ℓ} (new : ts.contains t = false) {m : Multimap σ Nat}
    {key : Transition σ ℓ → σ}
    (h : ∀ state, m.of state = ts.positions (fun u => compare (key u) state = .eq)) (state : σ) :
    (m.insert (key t) ts.size).of state =
      (ts.insert t).positions (fun u => compare (key u) state = .eq) := by
  rw [Multimap.of, Multimap.group_insert, OrderedSet.positions_insert new, ← h state]
  by_cases e : key t = state
  · subst e
    have fresh : (m.group (key t)).contains ts.size = false := by
      rw [Bool.eq_false_iff, Ne, OrderedSet.contains_iff]
      intro hm
      have hp : ts.size ∈ ts.positions (fun u => compare (key u) (key t) = .eq) := h (key t) ▸ hm
      exact absurd (OrderedSet.lt_size_of_mem_positions hp) (Nat.lt_irrefl _)
    simp [OrderedSet.toList_insert, fresh, Multimap.of]
  · simp [e, Multimap.of, Std.LawfulEqCmp.compare_eq_iff_eq]

/-- The automaton with a transition that it does not have yet. -/
def push [Std.LawfulEqOrd ℓ] (a : Automaton σ ℓ) (t : Transition σ ℓ)
    (new : a.contains t = false) : Automaton σ ℓ :=
  let position := a.size
  { transitions := a.transitions.insert t
    outgoing := a.outgoing.insert t.start position
    incoming := a.incoming.insert t.target position
    subscriptions := a.subscriptions
    of_outgoing := of_insert_position new a.of_outgoing
    of_incoming := of_insert_position new a.of_incoming }

/-- Inserts a transition and answers who is to be told, or answers `none` if it is no news. -/
def add? [Std.LawfulEqOrd ℓ] (a : Automaton σ ℓ) (t : Transition σ ℓ) :
    Option (List Nat × Automaton σ ℓ) :=
  if h : a.contains t then none
  else some (a.listenersOf t, a.push t (Bool.eq_false_iff.2 h))

/-- Registers a listener and answers the transitions of which it would have been told. -/
def subscribe (a : Automaton σ ℓ) (subscription : Subscription σ) (listener : Nat) :
    List (Transition σ ℓ) × Automaton σ ℓ :=
  let replay :=
    match subscription with
    | .any => a.toList
    | .leaving state => a.outgoingOf state
  (replay, { a with subscriptions := a.subscriptions ++ [(subscription, listener)] })

/-! ## Membership -/

instance : Membership (Transition σ ℓ) (Automaton σ ℓ) := ⟨fun a t => t ∈ a.transitions⟩

omit [Std.LawfulEqOrd σ] [DecidableEq σ] in
theorem contains_iff {a : Automaton σ ℓ} {t : Transition σ ℓ} :
    a.contains t = true ↔ t ∈ a :=
  OrderedSet.contains_iff

theorem mem_push [Std.LawfulEqOrd ℓ] {a : Automaton σ ℓ} {t : Transition σ ℓ}
    (new : a.contains t = false) {u : Transition σ ℓ} : u ∈ a.push t new ↔ u ∈ a ∨ u = t :=
  OrderedSet.mem_insert

theorem toList_push [Std.LawfulEqOrd ℓ] {a : Automaton σ ℓ} {t : Transition σ ℓ}
    (new : a.contains t = false) : (a.push t new).toList = a.toList ++ [t] := by
  show (a.transitions.insert t).toList = a.transitions.toList ++ [t]
  rw [OrderedSet.toList_insert, if_neg (by simpa [contains] using new)]

@[simp] theorem size_push [Std.LawfulEqOrd ℓ] {a : Automaton σ ℓ} {t : Transition σ ℓ}
    (new : a.contains t = false) : (a.push t new).size = a.size + 1 := by
  show (a.transitions.insert t).size = a.transitions.size + 1
  rw [OrderedSet.size_insert]
  simp [show a.transitions.contains t = false from new]

omit [Std.TransOrd σ] [Std.TransOrd ℓ] in
theorem outgoingOf_eq_filter (a : Automaton σ ℓ) (state : σ) :
    a.outgoingOf state = a.toList.filter (·.start = state) := by
  rw [outgoingOf, a.of_outgoing, OrderedSet.filterMap_get?_positions]
  simp [toList, Std.LawfulEqCmp.compare_eq_iff_eq]

omit [Std.TransOrd σ] [Std.TransOrd ℓ] in
theorem incomingOf_eq_filter (a : Automaton σ ℓ) (state : σ) :
    a.incomingOf state = a.toList.filter (·.target = state) := by
  rw [incomingOf, a.of_incoming, OrderedSet.filterMap_get?_positions]
  simp [toList, Std.LawfulEqCmp.compare_eq_iff_eq]

omit [Std.TransOrd σ] [Std.TransOrd ℓ] in
@[simp] theorem mem_outgoingOf {a : Automaton σ ℓ} {state : σ} {t : Transition σ ℓ} :
    t ∈ a.outgoingOf state ↔ t ∈ a ∧ t.start = state := by
  simp only [outgoingOf_eq_filter, List.mem_filter, decide_eq_true_eq]
  rfl

omit [Std.TransOrd σ] [Std.TransOrd ℓ] in
@[simp] theorem mem_incomingOf {a : Automaton σ ℓ} {state : σ} {t : Transition σ ℓ} :
    t ∈ a.incomingOf state ↔ t ∈ a ∧ t.target = state := by
  simp only [incomingOf_eq_filter, List.mem_filter, decide_eq_true_eq]
  rfl

omit [Std.TransOrd ℓ] [DecidableEq σ] in
@[simp] theorem mem_states {a : Automaton σ ℓ} {state : σ} :
    state ∈ a.states ↔ ∃ t ∈ a, state = t.start ∨ state = t.target := by
  simp only [states, OrderedSet.mem_ofList, List.mem_flatMap, List.mem_cons, List.not_mem_nil,
    or_false]
  rfl

/-- The automaton as a labelled graph: the empty field label is no label. -/
def edges (a : Automaton σ Field) : List (Edge σ Field) :=
  a.toList.map fun t => ⟨t.start, if t.label.isEpsilon then none else some t.label, t.target⟩

end Automaton

end PointsTo
