import PointsTo.Proofs.Solver.Changes

/-!
# Observers of a solver

Tickets and listeners for methods watch a solver. Two solvers are `Alike` if they differ only in who
watches them: their tables are the same, and so is what they tell, in the same order, up to tickets
that have no counterpart. Each operation keeps this, so nothing that a solver finds, and no order in
which it finds it, depends on its observers.

A `Pairing` says which tickets of the one solver are those of the other. Tickets are numbers that are
given out in order, so the ticket of one client may have different numbers where different others
have tickets too.
-/

namespace PointsTo

/-- Which tickets of two sides stand for each other, by the labels they share, and whether what is
said to listeners is compared. -/
structure Pairing where
  left : Nat → Option Nat
  right : Nat → Option Nat
  left_inj : ∀ {i j k}, left i = some k → left j = some k → i = j
  right_inj : ∀ {i j k}, right i = some k → right j = some k → i = j
  heard : Bool

/-- The same pairing, seen from the other side. -/
def Pairing.flip (L : Pairing) : Pairing := ⟨L.right, L.left, L.right_inj, L.left_inj, L.heard⟩

/-- The second side gives a ticket a label that it has not given yet. -/
def Pairing.give (L : Pairing) (ticket label : Nat) (new : ∀ t, L.right t ≠ some label) : Pairing where
  left := L.left
  right t := if t = ticket then some label else L.right t
  left_inj := L.left_inj
  right_inj {i j k} hi hj := by
    split at hi <;> split at hj
    · next e e' => rw [e, e']
    · exact absurd (hj.trans hi.symm) (new j)
    · exact absurd (hi.trans hj.symm) (new i)
    · exact L.right_inj hi hj
  heard := L.heard

section Give

variable {L : Pairing} {ticket label t : Nat} {new : ∀ t, L.right t ≠ some label}

theorem Pairing.right_give_self : (L.give ticket label new).right ticket = some label := if_pos rfl

theorem Pairing.right_give_of_ne (ne : t ≠ ticket) : (L.give ticket label new).right t = L.right t :=
  if_neg ne

end Give

/-- What is left of an announcement if tickets are known by their labels. -/
def Announcement.seen (label : Nat → Option Nat) : Announcement → Option Announcement
  | .witnessed ticket seed => (label ticket).map (.witnessed · seed)
  | a => some a

def Event.seen (label : Nat → Option Nat) : Event → Option Event
  | .announced a => (a.seen label).map .announced
  | event => some event

@[simp] theorem Announcement.seen_witnessed (label : Nat → Option Nat) (ticket : Nat) (seed : Fact) :
    (Announcement.witnessed ticket seed).seen label = (label ticket).map (.witnessed · seed) := rfl

@[simp] theorem Event.seen_announced (label : Nat → Option Nat) (a : Announcement) :
    (Event.announced a).seen label = (a.seen label).map .announced := rfl

@[simp] theorem Event.seen_fieldTransition (label : Nat → Option Nat) (listener : Nat)
    (t : FieldTransition) :
    (Event.fieldTransition listener t).seen label = some (.fieldTransition listener t) := rfl

@[simp] theorem Event.seen_callTransition (label : Nat → Option Nat) (listener : Nat)
    (t : CallTransition) :
    (Event.callTransition listener t).seen label = some (.callTransition listener t) := rfl

/-- Only the answers to tickets depend on the labels. -/
theorem Announcement.seen_congr {label label' : Nat → Option Nat} {a : Announcement}
    (same : ∀ {ticket seed}, a = .witnessed ticket seed → label ticket = label' ticket) :
    a.seen label = a.seen label' := by
  cases a with
  | witnessed ticket seed => rw [seen_witnessed, seen_witnessed, same rfl]
  | _ => rfl

theorem Event.seen_congr {label label' : Nat → Option Nat} {event : Event}
    (same : ∀ {ticket seed}, event = .announced (.witnessed ticket seed) →
      label ticket = label' ticket) : event.seen label = event.seen label' := by
  cases event with
  | announced a =>
    rw [seen_announced, seen_announced, Announcement.seen_congr fun e => same (congrArg _ e)]
  | _ => rfl

theorem Announcement.seen_inj {label : Nat → Option Nat}
    (inj : ∀ {i j k}, label i = some k → label j = some k → i = j) {a b c : Announcement}
    (ha : a.seen label = some c) (hb : b.seen label = some c) : a = b := by
  cases a <;> cases b <;> simp only [seen, Option.map_eq_some_iff, Option.some.injEq] at ha hb
  case witnessed.witnessed =>
    obtain ⟨k, hk, rfl⟩ := ha
    obtain ⟨k', hk', same⟩ := hb
    obtain ⟨rfl, rfl⟩ := Announcement.witnessed.inj same
    rw [inj hk hk']
  all_goals grind

/-- Two loops end alike if they treat what they both see alike, and what they do not both see makes
no difference. -/
theorem foldl_of_filterMap {σ τ α β : Type} {R : σ → τ → Prop} {f : σ → α → σ} {g : τ → β → τ}
    {l : α → Option Nat} {r : β → Option Nat}
    (left : ∀ {s t x}, l x = none → R s t → R (f s x) t)
    (right : ∀ {s t y}, r y = none → R s t → R s (g t y))
    (both : ∀ {s t x y k}, l x = some k → r y = some k → R s t → R (f s x) (g t y))
    {xs : List α} {ys : List β} (same : xs.filterMap l = ys.filterMap r) {s : σ} {t : τ} (h : R s t) :
    R (xs.foldl f s) (ys.foldl g t) := by
  induction xs generalizing s t ys with
  | nil =>
    have unseen := List.filterMap_eq_nil_iff.1 same.symm
    clear same
    induction ys generalizing t with
    | nil => exact h
    | cons y ys ih =>
      rw [List.forall_mem_cons] at unseen
      exact ih (right unseen.1 h) unseen.2
  | cons x xs ih =>
    cases hx : l x with
    | none => exact ih ((List.filterMap_cons_none hx).symm.trans same) (left hx h)
    | some k =>
      rw [List.filterMap_cons_some hx] at same
      induction ys generalizing t with
      | nil => cases same
      | cons y ys ih' =>
        cases hy : r y with
        | none => exact ih' (right hy h) (same.trans (List.filterMap_cons_none hy))
        | some k' =>
          rw [List.filterMap_cons_some hy] at same
          obtain ⟨rfl, rest⟩ := List.cons.inj same
          exact ih rest (both hx hy h)

namespace Solver

/-- What a solver has for its observers. -/
structure Outward where
  outbox : Feed Event
  notices : Feed Notice
  announced : OrderedSet Announcement
  tickets : List (Fact × Nat)
  methodListeners : List Nat

/-- The solver with other observers. -/
def facing (s : Solver) (o : Outward) : Solver :=
  { s with
    outbox := o.outbox
    notices := o.notices
    announced := o.announced
    tickets := o.tickets
    methodListeners := o.methodListeners }

/-- A solver without observers. -/
def core (s : Solver) : Solver := s.facing ⟨∅, ∅, ∅, [], []⟩

/-- The solvers differ only in their observers. -/
structure Alike (L : Pairing) (s s' : Solver) : Prop where
  core : s.core = s'.core
  events : s.outbox.pending.filterMap (·.seen L.left) = s'.outbox.pending.filterMap (·.seen L.right)
  announced : s.announced.toList.filterMap (·.seen L.left) =
    s'.announced.toList.filterMap (·.seen L.right)
  tickets : s.tickets.filterMap (fun t => (L.left t.2).map (t.1, ·)) =
    s'.tickets.filterMap fun t => (L.right t.2).map (t.1, ·)
  listeners : L.heard → s.methodListeners = s'.methodListeners
  notices : L.heard → s.notices.pending = s'.notices.pending

namespace Alike

variable {L : Pairing} {s s' : Solver} {a a' : Announcement} {f : Fact} {t : FieldTransition}

theorem symm (h : Alike L s s') : Alike L.flip s' s where
  core := h.core.symm
  events := h.events.symm
  announced := h.announced.symm
  tickets := h.tickets.symm
  listeners hl := (h.listeners hl).symm
  notices hl := (h.notices hl).symm

section Tables

variable (h : Alike L s s')
include h

theorem propagation : s.propagation = s'.propagation := congrArg (·.propagation) h.core

theorem seed : s.seed = s'.seed := congrArg (·.seed) h.core

theorem fields : s.fields = s'.fields := congrArg (·.fields) h.core

theorem calls : s.calls = s'.calls := congrArg (·.calls) h.core

theorem worklist : s.worklist = s'.worklist := congrArg (·.worklist) h.core

theorem rules : s.rules = s'.rules := congrArg (·.rules) h.core

theorem fieldFlows : s.fieldFlows = s'.fieldFlows := congrArg (·.fieldFlows) h.core

theorem callFlows : s.callFlows = s'.callFlows := congrArg (·.callFlows) h.core

theorem pops : s.pops = s'.pops := congrArg (·.pops) h.core

theorem exits : s.exits = s'.exits := congrArg (·.exits) h.core

theorem blocked : s.blocked = s'.blocked := congrArg (·.blocked) h.core

theorem methods : s.methods = s'.methods := congrArg (·.methods) h.core

theorem productive : s.productive = s'.productive := congrArg (·.productive) h.core

theorem reached : s.reached = s'.reached := congrArg (·.reached) h.core

theorem foreign : s.foreign = s'.foreign := congrArg (·.foreign) h.core

theorem reachesWithEmptyStack : s.reachesWithEmptyStack f = s'.reachesWithEmptyStack f := by
  simp only [Solver.reachesWithEmptyStack, seedState, h.rules, h.fields, h.seed]

end Tables

/-- Loops over the same list keep solvers alike. -/
theorem foldl (h : Alike L s s') {α : Type} {g : Solver → α → Solver} {xs : List α}
    (step : ∀ x ∈ xs, ∀ s s', Alike L s s' → Alike L (g s x) (g s' x)) :
    Alike L (xs.foldl g s) (xs.foldl g s') := by
  induction xs generalizing s s' with
  | nil => exact h
  | cons x xs ih => exact ih (step x List.mem_cons_self s s' h) fun y hy => step y (.tail x hy)

/-! ## Records -/

/-- What is announced without a counterpart makes no difference. -/
theorem announce_unseen (h : Alike L s s') (unseen : a.seen L.left = none) :
    Alike L (s.announce a) s' := by
  obtain ⟨e, -⟩ | ⟨announced, new, e⟩ := s.announce_cases a
  · rw [e]
    exact h
  · rw [e]
    exact { h with
      events := by simp [Feed.pending_post, unseen, h.events]
      announced := by
        simp [OrderedSet.toList_of_insertNew?_eq_some new, unseen, h.announced] }

theorem mem_announced_iff {label : Nat → Option Nat}
    (inj : ∀ {i j k}, label i = some k → label j = some k → i = j) {b : Announcement}
    (seen : a.seen label = some b) :
    a ∈ s.announced.toList ↔ b ∈ s.announced.toList.filterMap (·.seen label) := by
  rw [List.mem_filterMap]
  refine ⟨fun ha => ⟨a, ha, seen⟩, fun ⟨c, hc, seen'⟩ => ?_⟩
  exact Announcement.seen_inj inj seen seen' ▸ hc

theorem announce (h : Alike L s s') (seen : a.seen L.left = a'.seen L.right) :
    Alike L (s.announce a) (s'.announce a') := by
  cases seen₁ : a.seen L.left with
  | none => exact (((h.announce_unseen seen₁).symm).announce_unseen (seen ▸ seen₁)).symm
  | some b =>
    have seen₂ : a'.seen L.right = some b := seen ▸ seen₁
    have same : a ∈ s.announced.toList ↔ a' ∈ s'.announced.toList := by
      rw [mem_announced_iff L.left_inj seen₁, mem_announced_iff L.right_inj seen₂, h.announced]
    unfold Solver.announce
    split <;> split
    · exact h
    · next old _ _ new =>
      exact absurd (same.1 (OrderedSet.insertNew?_eq_none_iff.1 old))
        (OrderedSet.insertNew?_eq_some_iff.1 new).1
    · next new _ old =>
      exact absurd (same.2 (OrderedSet.insertNew?_eq_none_iff.1 old))
        (OrderedSet.insertNew?_eq_some_iff.1 new).1
    · next _ new _ _ new' =>
      exact { h with
        events := by simp [tell, Feed.pending_post, seen₁, seen₂, h.events]
        announced := by
          simp [tell, OrderedSet.toList_of_insertNew?_eq_some new,
            OrderedSet.toList_of_insertNew?_eq_some new', seen₁, seen₂, h.announced] }

theorem say (h : Alike L s s') (notice : Notice) : Alike L (s.say notice) (s'.say notice) :=
  { h with
    notices := fun hl => by simp [Solver.say, Feed.pending_post, h.notices hl] }

theorem remark (h : Alike L s s') (r : Remark) : Alike L (s.remark r) (s'.remark r) :=
  h.say (.remark r)

/-- An event that is no announcement is seen by everyone. -/
theorem tell (h : Alike L s s') {event : Event} (seen : ∀ label, event.seen label = some event) :
    Alike L (s.tell event) (s'.tell event) :=
  { h with
    events := by simp [Solver.tell, Feed.pending_post, seen, h.events] }

/-- The one solver is the other one with other observers. -/
theorem exists_facing (h : Alike L s s') : ∃ o, s' = s.facing o := by
  let o : Outward := ⟨s'.outbox, s'.notices, s'.announced, s'.tickets, s'.methodListeners⟩
  refine ⟨o, ?_⟩
  calc s' = s'.core.facing o := rfl
    _ = s.core.facing o := by rw [h.core]

theorem addField (h : Alike L s s') (t : FieldTransition) :
    Alike L (s.addField t) (s'.addField t) := by
  obtain ⟨o, rfl⟩ := h.exists_facing
  unfold Solver.addField
  by_cases old : s.fields.contains t
  · rw [dif_pos old, dif_pos (show (s.facing o).fields.contains t from old)]
    exact h
  · rw [dif_neg old, dif_neg (show ¬ (s.facing o).fields.contains t from old)]
    exact { h with
      core := rfl
      events := by simp [Feed.pending_postAll, Function.comp_def, h.events, facing] }

theorem addCall (h : Alike L s s') (t : CallTransition) :
    Alike L (s.addCall t) (s'.addCall t) := by
  obtain ⟨o, rfl⟩ := h.exists_facing
  unfold Solver.addCall
  by_cases old : s.calls.contains t
  · rw [dif_pos old, dif_pos (show (s.facing o).calls.contains t from old)]
    exact h
  · rw [dif_neg old, dif_neg (show ¬ (s.facing o).calls.contains t from old)]
    exact { h with
      core := rfl
      events := by simp [Feed.pending_postAll, Function.comp_def, h.events, facing] }

theorem inherit (h : Alike L s s') (fact : Fact) (ts : List FieldTransition) :
    Alike L (s.inherit fact ts) (s'.inherit fact ts) :=
  h.foldl (g := fun s (t : FieldTransition) => s.addField ⟨.single fact, t.label, t.target⟩)
    (fun _ _ _ _ h => h.addField _)

theorem enter (h : Alike L s s') (fact : Fact) (context : CallState) :
    Alike L (s.enter fact context) (s'.enter fact context) :=
  h.addCall _

theorem enterAll (h : Alike L s s') (ways : List (Fact × CallState)) :
    Alike L (s.enterAll ways) (s'.enterAll ways) :=
  h.foldl fun way _ _ _ h => h.enter way.1 way.2

/-! ## Tickets -/

/-- Tickets are announced one after the other: those without a counterpart make no difference. -/
theorem announceAll (h : Alike L s s') {tickets tickets' : List Nat}
    (same : tickets.filterMap L.left = tickets'.filterMap L.right) :
    Alike L (tickets.foldl (fun s ticket => s.announce (.witnessed ticket s.seed)) s)
      (tickets'.foldl (fun s ticket => s.announce (.witnessed ticket s.seed)) s') := by
  refine foldl_of_filterMap (fun unseen h => ?_) (fun unseen h => ?_) (fun seen seen' h => ?_) same h
  · exact h.announce_unseen (by simp [Announcement.seen, unseen])
  · exact (h.symm.announce_unseen (by simp [Announcement.seen, Pairing.flip, unseen])).symm
  · exact h.announce (by simp [Announcement.seen, seen, seen', h.seed])

theorem answerTickets (h : Alike L s s') (fact : Fact) :
    Alike L (s.answerTickets fact) (s'.answerTickets fact) := by
  unfold Solver.answerTickets
  rw [h.reachesWithEmptyStack]
  split
  · refine h.announceAll ?_
    -- the tickets for a fact that are seen are those tickets that are seen and are for the fact
    have labels (label : Nat → Option Nat) (tickets : List (Fact × Nat)) :
        ((tickets.filter fun t => t.1 = fact).map (·.2)).filterMap label =
          ((tickets.filterMap fun t => (label t.2).map (t.1, ·)).filter fun t => t.1 = fact).map
            (·.2) := by
      induction tickets with
      | nil => rfl
      | cons t tickets ih =>
        by_cases hf : t.1 = fact <;> cases hl : label t.2 <;> simp [hf, hl, ih]
    exact (labels L.left s.tickets).trans (h.tickets ▸ (labels L.right s'.tickets).symm)
  · exact h

theorem requestTicket (h : Alike L s s') (fact : Fact) {ticket ticket' k : Nat}
    (seen : L.left ticket = some k) (seen' : L.right ticket' = some k) :
    Alike L (s.requestTicket fact ticket) (s'.requestTicket fact ticket') := by
  have mem {label : Nat → Option Nat} (inj : ∀ {i j k}, label i = some k → label j = some k → i = j)
      {tickets : List (Fact × Nat)} {ticket : Nat} (seen : label ticket = some k) :
      (fact, ticket) ∈ tickets ↔
        (fact, k) ∈ tickets.filterMap fun t => (label t.2).map (t.1, ·) := by
    simp only [List.mem_filterMap, Option.map_eq_some_iff, Prod.mk.injEq]
    constructor
    · exact fun ht => ⟨_, ht, k, seen, rfl, rfl⟩
    · rintro ⟨⟨f, i⟩, ht, j, hj, rfl, rfl⟩
      exact inj seen hj ▸ ht
  have same : s.tickets.contains (fact, ticket) = s'.tickets.contains (fact, ticket') := by
    rw [Bool.eq_iff_iff, List.contains_iff_mem, List.contains_iff_mem, mem L.left_inj seen,
      mem L.right_inj seen', h.tickets]
  unfold Solver.requestTicket
  rw [same]
  split
  · exact h
  · refine answerTickets ?_ fact
    exact { h with tickets := by simp [seen, seen', h.tickets] }

/-- Tickets that were answered before or have no counterpart may be answered again. -/
theorem announceAll_again (h : Alike L s s') {tickets : List Nat}
    (again : ∀ ticket ∈ tickets, .witnessed ticket s.seed ∈ s.announced ∨ L.left ticket = none) :
    Alike L (tickets.foldl (fun s ticket => s.announce (.witnessed ticket s.seed)) s) s' := by
  induction tickets generalizing s with
  | nil => exact h
  | cons ticket tickets ih =>
    rw [List.forall_mem_cons] at again
    rw [List.foldl_cons]
    obtain ⟨e, old⟩ | ⟨announced, new, e⟩ := s.announce_cases (.witnessed ticket s.seed)
    · rw [e]
      exact ih h again.2
    · obtain ⟨absent, rfl⟩ := OrderedSet.insertNew?_eq_some_iff.1 new
      have unseen : L.left ticket = none := again.1.resolve_left absent
      refine ih (h.announce_unseen (by simp [unseen])) fun t ht => ?_
      rw [e]
      exact (again.2 t ht).imp_left fun old => OrderedSet.mem_insert.2 (.inl old)

/-- A solver at rest has answered its tickets, so another one without a counterpart makes no
difference. -/
theorem requestTicket_unseen (h : Alike L s s') (resting : s.Resting) (fact : Fact) {ticket : Nat}
    (unseen : L.left ticket = none) : Alike L (s.requestTicket fact ticket) s' := by
  unfold Solver.requestTicket
  split
  · exact h
  · have asked : Alike L { s with tickets := s.tickets ++ [(fact, ticket)] } s' :=
      { h with tickets := by simp [unseen, h.tickets] }
    unfold Solver.answerTickets
    split
    · next reaches =>
      refine asked.announceAll_again fun t ht => ?_
      obtain ⟨⟨f, t⟩, hm, rfl⟩ := List.mem_map.1 ht
      obtain ⟨hm, e⟩ := List.mem_filter.1 hm
      obtain rfl : f = fact := by simpa using e
      obtain old | new := List.mem_append.1 hm
      · exact .inl (resting.witnessed_iff.2 ⟨rfl, f, old, reaches⟩)
      · obtain ⟨-, rfl⟩ := Prod.mk.inj (List.mem_singleton.1 new)
        exact .inr unseen
    · exact asked

/-! ## Consequences of field transitions -/

theorem witness (h : Alike L s s') (fact : Fact) : Alike L (s.witness fact) (s'.witness fact) := by
  obtain ⟨o, rfl⟩ := h.exists_facing
  unfold Solver.witness
  dsimp only [facing]
  split
  · exact h
  · next reached _ =>
    have first : Alike L { s with reached } { s.facing o with reached } := { h with core := rfl }
    exact (first.remark (.reaches s.seed fact)).tell fun _ => rfl

theorem witnessState (h : Alike L s s') (state : FieldState) :
    Alike L (s.witnessState state) (s'.witnessState state) := by
  cases state with
  | single fact =>
    simp only [Solver.witnessState, h.rules]
    split
    · exact h.witness fact
    · exact h
  | alloc _ => exact h
  | generated _ _ => exact h

theorem markStack (h : Alike L s s') (fuel : Nat) (stack : List FieldState) :
    Alike L (s.markStack fuel stack) (s'.markStack fuel stack) := by
  induction fuel generalizing s s' stack with
  | zero => exact h
  | succ fuel ih =>
    cases stack with
    | nil => exact h
    | cons state stack =>
      rw [Solver.markStack, Solver.markStack, h.productive]
      split
      · exact ih h stack
      · next productive _ =>
        have first : Alike L { s with productive } { s' with productive } :=
          { h with core := congrArg (fun c : Solver => { c with productive }) h.core }
        have marked := first.witnessState state
        dsimp only
        rw [marked.fields]
        exact ih marked _

theorem markProductive (h : Alike L s s') (state : FieldState) :
    Alike L (s.markProductive state) (s'.markProductive state) := by
  unfold Solver.markProductive
  rw [h.fields]
  exact h.markStack _ _

theorem addPop (h : Alike L s s') (state : FieldState) (fact : Fact) :
    Alike L (s.addPop state fact) (s'.addPop state fact) := by
  obtain ⟨o, rfl⟩ := h.exists_facing
  unfold Solver.addPop
  dsimp only [facing]
  split
  · exact h
  · next pops _ =>
    have first : Alike L { s with pops } { s.facing o with pops } := { h with core := rfl }
    exact first.inherit fact (s.fields.outgoingOf state)

theorem applyFieldRule (h : Alike L s s') (t : FieldTransition) (rule : Rule) :
    Alike L (s.applyFieldRule t rule) (s'.applyFieldRule t rule) := by
  unfold Solver.applyFieldRule
  split
  · exact h.addField _
  · exact (h.addField _).addField _
  · split
    · exact h.addPop _ _
    · exact h

theorem applyFieldRules (h : Alike L s s') (rules : List Rule) (t : FieldTransition) :
    Alike L (s.applyFieldRules rules t) (s'.applyFieldRules rules t) :=
  h.foldl fun rule _ _ _ h => h.applyFieldRule t rule

theorem followFieldFlows (h : Alike L s s') (fact : Fact) (t : FieldTransition) :
    Alike L (s.followFieldFlows fact t) (s'.followFieldFlows fact t) := by
  unfold Solver.followFieldFlows
  rw [h.fieldFlows]
  exact h.foldl (g := fun s target => s.inherit target [t]) fun target _ _ _ h => h.inherit target [t]

theorem processFactTransition (h : Alike L s s') (fact : Fact) (t : FieldTransition) :
    Alike L (s.processFactTransition fact t) (s'.processFactTransition fact t) := by
  unfold Solver.processFactTransition
  rw [h.rules]
  have flows := (h.applyFieldRules (s'.rules.getD fact []) t).followFieldFlows fact t
  dsimp only
  rw [seedState, seedState, flows.seed]
  split
  · exact flows.answerTickets fact
  · exact flows

theorem markStart (h : Alike L s s') (t : FieldTransition) :
    Alike L (s.markStart t) (s'.markStart t) := by
  unfold Solver.markStart
  rw [h.productive]
  split
  · exact h.markProductive _
  · exact h

theorem processStart (h : Alike L s s') (t : FieldTransition) :
    Alike L (s.processStart t) (s'.processStart t) := by
  unfold Solver.processStart
  split
  · exact h.processFactTransition _ t
  · exact h

theorem handOver (h : Alike L s s') (t : FieldTransition) :
    Alike L (s.handOver t) (s'.handOver t) := by
  unfold Solver.handOver
  rw [h.pops]
  exact h.foldl (g := fun s fact => s.inherit fact [t]) fun fact _ _ _ h => h.inherit fact [t]

theorem processField (h : Alike L s s') (t : FieldTransition) :
    Alike L (s.processField t) (s'.processField t) :=
  ((h.markStart t).processStart t).handOver t

/-! ## Consequences of call transitions -/

theorem openStack (h : Alike L s s') (fuel : Nat) (stack : List MethodName) :
    Alike L (s.openStack fuel stack) (s'.openStack fuel stack) := by
  induction fuel generalizing s s' stack with
  | zero => exact h
  | succ fuel ih =>
    cases stack with
    | nil => exact h
    | cons method stack =>
      obtain ⟨o, rfl⟩ := h.exists_facing
      unfold Solver.openStack
      dsimp only [facing]
      split
      · exact ih h stack
      · next unbalanced _ =>
        have first : Alike L { s with unbalanced, blocked := s.blocked.erase method }
            { s.facing o with unbalanced, blocked := s.blocked.erase method } :=
          { h with core := rfl }
        exact ih ((first.remark (.leavesUnbalanced s.seed method)).enterAll _) _

theorem openMethod (h : Alike L s s') (method : MethodName) :
    Alike L (s.openMethod method) (s'.openMethod method) := by
  rw [Solver.openMethod, Solver.openMethod, blockedCount, blockedCount, h.blocked]
  exact h.openStack _ _

theorem leaveFrame (h : Alike L s s') (site : Point) (target : Fact) (frame : CallState) :
    Alike L (s.leaveFrame site target frame) (s'.leaveFrame site target frame) := by
  obtain ⟨o, rfl⟩ := h.exists_facing
  unfold Solver.leaveFrame
  dsimp only [facing]
  split
  · exact h
  · next exits _ =>
    have first : Alike L { s with exits } { s.facing o with exits } := { h with core := rfl }
    exact first.enterAll _

theorem leaveBottom (h : Alike L s s') (method : MethodName) (target : Fact) (context : CallState) :
    Alike L (s.leaveBottom method target context) (s'.leaveBottom method target context) := by
  obtain ⟨o, rfl⟩ := h.exists_facing
  unfold Solver.leaveBottom
  by_cases opened : s.unbalanced.contains method
  · rw [if_pos opened, if_pos (show (s.facing o).unbalanced.contains method from opened)]
    exact (h.enter target context).openMethod target.point.method
  · rw [if_neg opened, if_neg (show ¬ (s.facing o).unbalanced.contains method from opened)]
    exact { h with core := rfl }

theorem applyCallRule (h : Alike L s s') (source : Fact) (context : CallState) (rule : Rule) :
    Alike L (s.applyCallRule source context rule) (s'.applyCallRule source context rule) := by
  unfold Solver.applyCallRule
  split
  · exact h.enter _ _
  · exact (h.enter _ _).addCall _
  · split
    · exact h.leaveFrame _ _ _
    · exact h.leaveBottom _ _ _
    · exact h

theorem reachMethod (h : Alike L s s') (method : MethodName) :
    Alike L (s.reachMethod method) (s'.reachMethod method) := by
  obtain ⟨o, rfl⟩ := h.exists_facing
  unfold Solver.reachMethod
  dsimp only [facing]
  split
  · exact h
  · exact { h with
      core := rfl
      notices := fun hl => by
        rw [Feed.pending_postAll, Feed.pending_postAll]
        exact congrArg₂ (fun notices (listeners : List Nat) =>
          notices ++ listeners.map (Notice.method · method)) (h.notices hl) (h.listeners hl) }

theorem findRules (h : Alike L s s') (fact : Fact) :
    Alike L (s.findRules fact) (s'.findRules fact) := by
  obtain ⟨o, rfl⟩ := h.exists_facing
  let flow := s.propagation.flow fact
  have first : Alike L { s with rules := s.rules.insert fact flow.rules }
      { s.facing o with rules := s.rules.insert fact flow.rules } := { h with core := rfl }
  refine (foldl (first.foldl fun a ha _ _ h => ?_) fun r _ _ _ h => h.remark r).reachMethod _
  obtain ⟨-, ⟨_, _, _, _, _, rfl, -⟩ | ⟨_, -, rfl, -⟩⟩ := Propagation.mem_announcements ha
  · exact h.announce rfl
  · exact h.announce rfl

theorem catchUp (h : Alike L s s') (fact : Fact) :
    Alike L (s.catchUp fact) (s'.catchUp fact) := by
  unfold Solver.catchUp
  rw [h.fields]
  refine h.foldl fun t _ _ _ h => ?_
  rw [h.rules]
  exact h.applyFieldRules _ t

theorem reach (h : Alike L s s') (fact : Fact) : Alike L (s.reach fact) (s'.reach fact) := by
  unfold Solver.reach
  have first := (h.findRules fact).catchUp fact
  dsimp only
  rw [first.productive]
  split
  · exact (first.witness fact).answerTickets fact
  · exact first.answerTickets fact

theorem applyCallRules (h : Alike L s s') (rules : List Rule) (fact : Fact) (context : CallState) :
    Alike L (s.applyCallRules rules fact context) (s'.applyCallRules rules fact context) :=
  h.foldl fun rule _ _ _ h => h.applyCallRule fact context rule

theorem followCallFlows (h : Alike L s s') (fact : Fact) (context : CallState) :
    Alike L (s.followCallFlows fact context) (s'.followCallFlows fact context) := by
  unfold Solver.followCallFlows
  rw [h.callFlows]
  exact h.enterAll _

theorem processFact (h : Alike L s s') (fact : Fact) (context : CallState) :
    Alike L (s.processFact fact context) (s'.processFact fact context) := by
  have known : Alike L (if s.rules.contains fact then s else s.reach fact)
      (if s'.rules.contains fact then s' else s'.reach fact) := by
    rw [h.rules]
    split
    · exact h
    · exact h.reach fact
  unfold Solver.processFact
  dsimp only
  rw [known.rules]
  exact (known.applyCallRules _ fact context).followCallFlows fact context

theorem processFrame (h : Alike L s s') (frame : CallState) (site : Point) (context : CallState) :
    Alike L (s.processFrame frame site context) (s'.processFrame frame site context) := by
  unfold Solver.processFrame
  rw [h.exits]
  exact h.enterAll _

theorem processCall (h : Alike L s s') (t : CallTransition) :
    Alike L (s.processCall t) (s'.processCall t) := by
  unfold Solver.processCall
  split
  · exact h.processFact _ _
  · exact h.processFrame _ _ _
  · exact h

/-! ## The worklist -/

theorem process (h : Alike L s s') (work : Work) : Alike L (s.process work) (s'.process work) := by
  cases work with
  | field t => exact h.processField t
  | call t => exact h.processCall t

theorem saturateFor (h : Alike L s s') (fuel : Nat) :
    Alike L (s.saturateFor fuel) (s'.saturateFor fuel) := by
  induction fuel generalizing s s' with
  | zero => exact h
  | succ fuel ih =>
    simp only [Solver.saturateFor, step?, h.worklist]
    cases s'.worklist.next? with
    | none => exact h
    | some next =>
      obtain ⟨work, worklist⟩ := next
      have taken : Alike L { s with worklist } { s' with worklist } :=
        { h with core := congrArg (fun c : Solver => { c with worklist }) h.core }
      exact ih (taken.process work)

theorem saturate (h : Alike L s s') : Alike L s.saturate s'.saturate := by
  have same : s.capacity = s'.capacity := by
    simp only [capacity, graph, h.propagation, h.foreign]
  rw [Solver.saturate, Solver.saturate, same]
  exact h.saturateFor _

/-! ## Operations -/

theorem acceptNames (h : Alike L s s') : Alike L s.acceptNames s'.acceptNames :=
  { h with core := congrArg (fun c : Solver => { c with foreign := c.foreign + 3 }) h.core }

theorem solve (h : Alike L s s') (initial : Fact) :
    Alike L (s.solve initial) (s'.solve initial) := by
  obtain ⟨o, rfl⟩ := h.exists_facing
  have first := h.acceptNames.remark (.starts s.direction s.seed initial)
  have second := first.addField ⟨.single initial, .epsilon, s.seedState⟩
  have third {x x' : Solver} (h : Alike L x x') :
      Alike L (x.enter initial (.initial x.seed.var)) (x'.enter initial (.initial x'.seed.var)) := by
    rw [h.seed]
    exact h.enter initial _
  exact (third second).saturate

theorem addFieldTransition (h : Alike L s s') (t : FieldTransition) :
    Alike L (s.addFieldTransition t) (s'.addFieldTransition t) :=
  (h.acceptNames.addField t).saturate

theorem connectBase (h : Alike L s s') (base : FieldState) (field : Field) (fact : Fact) :
    Alike L (s.connectBase base field fact) (s'.connectBase base field fact) :=
  h.addFieldTransition _

theorem connectAlias (h : Alike L s s') (fact : Fact) (state : FieldState) :
    Alike L (s.connectAlias fact state) (s'.connectAlias fact state) :=
  (h.acceptNames.addPop state fact).saturate

theorem addFieldFlow (h : Alike L s s') (source target : Fact) :
    Alike L (s.addFieldFlow source target) (s'.addFieldFlow source target) := by
  obtain ⟨o, rfl⟩ := h.exists_facing
  unfold Solver.addFieldFlow
  dsimp only [facing]
  split
  · exact h
  · next fieldFlows _ =>
    have first : Alike L { s.acceptNames with fieldFlows } { (s.facing o).acceptNames with fieldFlows } :=
      { h with core := rfl }
    exact (first.inherit target (s.fields.outgoingOf (.single source))).saturate

theorem addCallFlow (h : Alike L s s') (source target : Fact) :
    Alike L (s.addCallFlow source target) (s'.addCallFlow source target) := by
  obtain ⟨o, rfl⟩ := h.exists_facing
  unfold Solver.addCallFlow
  dsimp only [facing]
  split
  · exact h
  · next callFlows _ =>
    have first : Alike L { s.acceptNames with callFlows } { (s.facing o).acceptNames with callFlows } :=
      { h with core := rfl }
    exact (first.enterAll ((s.contextsOf source).map (target, ·))).saturate

theorem addUnbalanced (h : Alike L s s') (method : MethodName) :
    Alike L (s.addUnbalanced method) (s'.addUnbalanced method) :=
  (h.openMethod method).saturate

theorem addAllocatedType (h : Alike L s s') (type : ClassName) :
    Alike L (s.addAllocatedType type).2 (s'.addAllocatedType type).2 := by
  rw [addAllocatedType_eq, addAllocatedType_eq, allocated, allocated, h.propagation]
  exact { h with
    core := congrArg (fun c : Solver => { c with
      propagation := { s'.propagation with
        allocated := s'.propagation.allocated.insert type } }) h.core }

theorem subscribeField (h : Alike L s s') (subscription : Subscription FieldState) (listener : Nat) :
    Alike L (s.subscribeField subscription listener) (s'.subscribeField subscription listener) := by
  obtain ⟨o, rfl⟩ := h.exists_facing
  exact { h with
    core := rfl
    events := by
      simp [Solver.subscribeField, Feed.pending_postAll, Function.comp_def, h.events, facing] }

theorem subscribeCall (h : Alike L s s') (subscription : Subscription CallState) (listener : Nat) :
    Alike L (s.subscribeCall subscription listener) (s'.subscribeCall subscription listener) := by
  obtain ⟨o, rfl⟩ := h.exists_facing
  exact { h with
    core := rfl
    events := by
      simp [Solver.subscribeCall, Feed.pending_postAll, Function.comp_def, h.events, facing] }

/-- A listener for methods makes no difference where nobody listens to what it is told. -/
theorem addMethodListener_unheard (h : Alike L s s') (unheard : ¬ L.heard) (listener : Nat) :
    Alike L (s.addMethodListener listener) s' := by
  unfold Solver.addMethodListener
  split
  · exact h
  · exact { h with
      listeners := fun hl => absurd hl unheard
      notices := fun hl => absurd hl unheard }

theorem addMethodListener (h : Alike L s s') (listener : Nat) :
    Alike L (s.addMethodListener listener) (s'.addMethodListener listener) := by
  by_cases heard : L.heard
  · have same := h.listeners heard
    unfold Solver.addMethodListener
    by_cases old : s.methodListeners.contains listener
    · rw [if_pos old, if_pos (same ▸ old)]
      exact h
    · rw [if_neg old, if_neg (same ▸ old)]
      exact { h with
        listeners := fun _ => congrArg (· ++ [listener]) same
        notices := fun _ => by simp [Feed.pending_postAll, h.notices heard, h.methods] }
  · exact ((h.addMethodListener_unheard heard listener).symm.addMethodListener_unheard heard
      listener).symm

theorem drainNotices (h : Alike L s s') : Alike L s.drainNotices.2 s'.drainNotices.2 :=
  { h with notices := fun _ => by simp [Solver.drainNotices] }

theorem drainEvents (h : Alike L s s') : Alike L s.drainEvents.2 s'.drainEvents.2 :=
  { h with events := by simp [Solver.drainEvents] }

end Alike

end Solver

end PointsTo
