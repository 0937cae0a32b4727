import PointsTo.Proofs.Solver.Reached

/-!
# Every subscription sees every transition once

Whoever subscribes to an automaton is told of the transitions that are there, in the order in which
they were inserted, and from then on of each new one. A new transition is told to the subscriptions
that cover it, in the order in which they were made (`Automaton.Continues`, `Resting.serve_continues`).
So between two insertions, and also if a listener subscribes twice, there is neither a gap nor an
overlap: whatever a solver is asked for, a listener was told of a transition as often as it has
subscribed to it, if the transition is there, and never otherwise (`news_serveAll`).
-/

namespace PointsTo

/-- How often a listener has subscribed to a transition. -/
def Subscription.interest {σ ℓ : Type} [DecidableEq σ] (subscriptions : List (Subscription σ × Nat))
    (listener : Nat) (t : Transition σ ℓ) : Nat :=
  subscriptions.countP fun e => e.2 = listener && e.1.covers t

namespace Automaton

section

variable {σ ℓ : Type} [Ord σ] [Ord ℓ] [DecidableEq σ] [DecidableEq ℓ]
variable {a : Automaton σ ℓ} {t : Transition σ ℓ} {listener : Nat}

/-! ## How often a listener is told -/

omit [DecidableEq ℓ] in
theorem count_listenersOf : (a.listenersOf t).count listener =
    Subscription.interest a.subscriptions listener t := by
  rw [listenersOf, List.count, List.countP_map, List.countP_filter]
  rfl

/-- A transition is told of itself only, and to each listener as often as it has subscribed. -/
theorem count_listenersOf_map (u : Transition σ ℓ) :
    ((a.listenersOf u).map (·, u)).count (listener, t) =
      if u = t then Subscription.interest a.subscriptions listener t else 0 := by
  by_cases same : u = t
  · subst same
    rw [if_pos rfl, ← count_listenersOf]
    exact List.count_map_of_injective _ (·, u) (fun _ _ e => (Prod.mk.inj e).1) listener
  · rw [if_neg same, List.count_eq_zero]
    intro told
    obtain ⟨_, -, e⟩ := List.mem_map.1 told
    exact same (congrArg Prod.snd e)

theorem count_told [Std.TransOrd σ] [Std.TransOrd ℓ] : a.told.count (listener, t) =
    if a.contains t then Subscription.interest a.subscriptions listener t else 0 := by
  -- along a list without duplicates the transition is met once
  have once : ∀ ts : List (Transition σ ℓ), ts.Nodup →
      (ts.flatMap fun u => (a.listenersOf u).map (·, u)).count (listener, t) =
        if t ∈ ts then Subscription.interest a.subscriptions listener t else 0 := by
    intro ts
    induction ts with
    | nil => simp
    | cons u ts ih =>
      intro nodup
      obtain ⟨new, nodup⟩ := List.nodup_cons.1 nodup
      rw [List.flatMap_cons, List.count_append, count_listenersOf_map, ih nodup]
      by_cases same : u = t
      · subst same
        simp [new]
      · simp [same, Ne.symm same]
  rw [told, once a.toList (OrderedSet.nodup_toList _)]
  have there : t ∈ a.toList ↔ a.contains t = true := OrderedSet.contains_iff.symm
  simp only [there]

end

section

variable {σ ℓ : Type} [Ord σ] [Ord ℓ] [DecidableEq σ]
variable {a a' : Automaton σ ℓ} {subscription : Subscription σ} {listener : Nat}
variable {heard heard' : List (Nat × Transition σ ℓ)}

/-! ## In which order listeners are told -/

/-- Subscriptions were made, each of which was told of the transitions so far in their order, and
transitions were inserted, each of which was told to the subscriptions that cover it in their
order. -/
structure Continues (a a' : Automaton σ ℓ) (made : List (Subscription σ × Nat))
    (heard heard' : List (Nat × Transition σ ℓ)) : Prop where
  subscriptions : a'.subscriptions = a.subscriptions ++ made
  told : ∃ inserted, a'.toList = a.toList ++ inserted ∧
    heard' = heard ++ (made.flatMap fun e => (a.toList.filter (e.1.covers ·)).map (e.2, ·)) ++
      inserted.flatMap fun t => (a'.subscriptions.filter (·.1.covers t)).map (·.2, t)

theorem Recounts.continues (h : a.Recounts a' heard heard') : a.Continues a' [] heard heard' where
  subscriptions := h.subscriptions.trans (List.append_nil _).symm
  told := by
    obtain ⟨ts, new, told⟩ := h.grown
    refine ⟨ts, new, ?_⟩
    rw [told, h.subscriptions, List.flatMap_nil, List.append_nil]
    simp only [listenersOf, List.map_map]
    rfl

theorem continues_subscribe [Std.LawfulEqOrd σ]
    (same : heard' = heard ++ (a.subscribe subscription listener).1.map (listener, ·)) :
    a.Continues (a.subscribe subscription listener).2 [(subscription, listener)] heard heard' where
  subscriptions := rfl
  told := by
    refine ⟨[], (List.append_nil _).symm, ?_⟩
    rw [same, subscribe_fst, List.flatMap_singleton, List.flatMap_nil, List.append_nil]

end

/-- The subscriptions that were made, and what the listeners were told, up to the order. -/
structure Accounts {σ ℓ : Type} [Ord σ] [Ord ℓ] [DecidableEq σ] [DecidableEq ℓ]
    (a : Automaton σ ℓ) (made : List (Subscription σ × Nat))
    (heard : List (Nat × Transition σ ℓ)) : Prop where
  subscriptions : a.subscriptions = made
  once : ∀ listener t, heard.count (listener, t) =
    if a.contains t then Subscription.interest made listener t else 0

end Automaton

namespace Request

def fieldSubscriptions : Request → List (Subscription FieldState × Nat)
  | change c => c.fieldSubscriptions
  | drainEvents | drainNotices => []

def callSubscriptions : Request → List (Subscription CallState × Nat)
  | change c => c.callSubscriptions
  | drainEvents | drainNotices => []

end Request

namespace Solver

variable {s s' : Solver}

/-! ## What one request tells -/

theorem Regular.requestTicket_tells (h : s.Regular) (f : Fact) (ticket : Nat) :
    Tells s (s.requestTicket f ticket) := by
  unfold requestTicket
  by_cases known : s.tickets.contains (f, ticket)
  · rw [if_pos known]
    exact .refl s
  · rw [if_neg known]
    obtain ⟨N, -, -, below, -⟩ := h.named
    have more : ({ s with tickets := s.tickets ++ [(f, ticket)] } : Solver).Below
        N.ways N.facts := { below with
      announced := fun a ha => (below.announced a ha).imp_right fun ⟨e, he, answered⟩ =>
        ⟨e, List.mem_append_left _ he, answered⟩ }
    have asked : Tells s { s with tickets := s.tickets ++ [(f, ticket)] } :=
      .of_eq rfl rfl rfl rfl rfl rfl ⟨[], rfl⟩ fun hi => { hi with }
    exact asked.trans (answerTickets_moves more f).tells

/-- Both automata go on as they should. -/
structure Continues (fields : List (Subscription FieldState × Nat))
    (calls : List (Subscription CallState × Nat)) (s s' : Solver) : Prop where
  fields : s.fields.Continues s'.fields fields s.fieldNews s'.fieldNews
  calls : s.calls.Continues s'.calls calls s.callNews s'.callNews

theorem Tells.continues (h : Tells s s') : Continues [] [] s s' :=
  ⟨h.fields.continues, h.calls.continues⟩

/-- Nothing is told where no event is posted and no automaton is touched. -/
theorem continues_of_eq (outbox : s'.outbox.posted = s.outbox.posted)
    (fields : s'.fields = s.fields) (calls : s'.calls = s.calls) : Continues [] [] s s' where
  fields := (Automaton.Recounts.of_eq fields (by rw [fieldNews, events, outbox]; rfl)).continues
  calls := (Automaton.Recounts.of_eq calls (by rw [callNews, events, outbox]; rfl)).continues

theorem continues_subscribeField (s : Solver) (subscription : Subscription FieldState)
    (listener : Nat) :
    Continues [(subscription, listener)] [] s (s.subscribeField subscription listener) where
  fields := Automaton.continues_subscribe <| by
    rw [fieldNews_post rfl, List.filterMap_map]
    exact congrArg _ (congrFun List.filterMap_eq_map _)
  calls := (Automaton.Recounts.of_eq rfl <| by
    rw [callNews_post rfl, List.filterMap_map]
    simp [Function.comp_def, Event.call?]).continues

theorem continues_subscribeCall (s : Solver) (subscription : Subscription CallState)
    (listener : Nat) :
    Continues [] [(subscription, listener)] s (s.subscribeCall subscription listener) where
  fields := (Automaton.Recounts.of_eq rfl <| by
    rw [fieldNews_post rfl, List.filterMap_map]
    simp [Function.comp_def, Event.field?]).continues
  calls := Automaton.continues_subscribe <| by
    rw [callNews_post rfl, List.filterMap_map]
    exact congrArg _ (congrFun List.filterMap_eq_map _)

theorem continues_addMethodListener (s : Solver) (listener : Nat) :
    Continues [] [] s (s.addMethodListener listener) := by
  unfold addMethodListener
  split
  · exact continues_of_eq rfl rfl rfl
  · exact continues_of_eq rfl rfl rfl

theorem Resting.apply_continues (h : s.Resting) (c : Change) :
    Continues c.fieldSubscriptions c.callSubscriptions s (c.apply s) := by
  cases c with
  | perform o => exact (apply_performs h.regular h.idle o).tells.continues
  | requestTicket f ticket => exact (h.regular.requestTicket_tells f ticket).continues
  | subscribeField subscription listener => exact s.continues_subscribeField subscription listener
  | subscribeCall subscription listener => exact s.continues_subscribeCall subscription listener
  | addAllocatedType type =>
    rw [Change.apply, addAllocatedType_eq]
    exact continues_of_eq rfl rfl rfl
  | addMethodListener listener => exact s.continues_addMethodListener listener

/-- Reading events takes nothing back. -/
theorem Resting.serve_continues (h : s.Resting) (request : Request) :
    Continues request.fieldSubscriptions request.callSubscriptions s (s.serve request).2 := by
  cases request with
  | change c => exact h.apply_continues c
  | drainEvents => exact continues_of_eq rfl rfl rfl
  | drainNotices => exact continues_of_eq rfl rfl rfl

/-! ## What all requests tell -/

/-- The subscriptions of a solver are those that were requested, in the order of the requests. -/
theorem Resting.subscriptions_serveAll (h : s.Resting) (requests : List Request) :
    let s' := (s.serveAll requests).2
    s'.fields.subscriptions = s.fields.subscriptions ++ requests.flatMap (·.fieldSubscriptions) ∧
      s'.calls.subscriptions =
        s.calls.subscriptions ++ requests.flatMap (·.callSubscriptions) := by
  induction requests generalizing s with
  | nil => exact ⟨(List.append_nil _).symm, (List.append_nil _).symm⟩
  | cons request requests ih =>
    have first := h.serve_continues request
    obtain ⟨fields, calls⟩ := ih (h.serve request).resting
    rw [first.fields.subscriptions, List.append_assoc] at fields
    rw [first.calls.subscriptions, List.append_assoc] at calls
    exact ⟨fields, calls⟩

/-- Whatever a solver is asked for, and whenever its listeners subscribe, each of them was told of
each transition of either automaton as often as it has subscribed to it, and of nothing else. A
further request tells new subscriptions of the past in the order of insertion, and tells each new
transition in the order of the subscriptions. -/
theorem news_serveAll (direction : Direction) (graph : Supergraph) (seed : Fact)
    (requests : List Request) :
    let served := (create direction graph seed).serveAll requests
    let s := served.2
    served.1 ++ s.outbox.pending = s.events ∧
      s.fields.Accounts (requests.flatMap (·.fieldSubscriptions)) s.fieldNews ∧
      s.calls.Accounts (requests.flatMap (·.callSubscriptions)) s.callNews ∧
      ∀ request, Continues request.fieldSubscriptions request.callSubscriptions s
        (s.serve request).2 := by
  intro served s
  have fresh := create_fresh direction graph seed
  have serves := fresh.resting.serveAll requests
  obtain ⟨fields, calls⟩ := fresh.resting.subscriptions_serveAll requests
  have fields : s.fields.subscriptions = requests.flatMap (·.fieldSubscriptions) := fields
  have calls : s.calls.subscriptions = requests.flatMap (·.callSubscriptions) := calls
  refine ⟨serves.append_pending fresh.taken, ⟨fields, fun listener t => ?_⟩,
    ⟨calls, fun listener t => ?_⟩, serves.resting.serve_continues⟩
  · rw [← fields, ← Automaton.count_told]
    exact serves.resting.told.field.count_eq _
  · rw [← calls, ← Automaton.count_told]
    exact serves.resting.told.call.count_eq _

end Solver

end PointsTo
