import PointsTo.Proofs.Solver.Moves
import Mathlib.Data.List.Perm.Basic

/-!
# What a solver has told

The outbox of a solver keeps every event that was ever posted. It is determined by the tables of the
solver, up to the order in which events of different kinds are mixed (`Told`): each fact that was
reached and each announcement was told once, in the order of discovery, and each transition was told
once to every subscription that covers it, no matter which of the two came first. The moves of a
solver keep this (`Moves.tells`), and so do new subscriptions (`Told.subscribeField`). While nobody
subscribes, the new transitions are told one after the other, each in the order of the subscriptions
(`Automaton.Recounts`).

Methods are told through the notices, to each listener by itself (`Solver.Informs`).
-/

namespace PointsTo

namespace Automaton

variable {σ ℓ : Type} [Ord σ] [Ord ℓ] [DecidableEq σ]

/-- Every transition with everyone who is to be told of it. -/
def told (a : Automaton σ ℓ) : List (Nat × Transition σ ℓ) :=
  a.toList.flatMap fun t => (a.listenersOf t).map (·, t)

variable {a : Automaton σ ℓ} {t : Transition σ ℓ} {subscription : Subscription σ} {listener : Nat}

theorem mem_listenersOf :
    listener ∈ a.listenersOf t ↔ ∃ s, (s, listener) ∈ a.subscriptions ∧ s.covers t := by
  simp only [listenersOf, List.mem_map, List.mem_filter]
  constructor
  · rintro ⟨⟨s, l⟩, h, rfl⟩
    exact ⟨s, h⟩
  · exact fun ⟨s, h⟩ => ⟨(s, listener), h, rfl⟩

theorem mem_told : (listener, t) ∈ a.told ↔
    t ∈ a ∧ ∃ s, (s, listener) ∈ a.subscriptions ∧ s.covers t := by
  rw [← mem_listenersOf]
  simp only [told, List.mem_flatMap, List.mem_map, Prod.mk.injEq]
  constructor
  · rintro ⟨u, hu, l, hl, rfl, rfl⟩
    exact ⟨hu, hl⟩
  · rintro ⟨ht, hl⟩
    exact ⟨t, ht, listener, hl, rfl, rfl⟩

/-- There are at most as many events as pairs of a transition and a subscription. -/
theorem length_told_le (a : Automaton σ ℓ) : a.told.length ≤ a.size * a.subscriptions.length := by
  have bound : ∀ ts : List (Transition σ ℓ),
      (ts.flatMap fun t => (a.listenersOf t).map (·, t)).length ≤
        ts.length * a.subscriptions.length := by
    intro ts
    induction ts with
    | nil => simp
    | cons t ts ih =>
      have one : (a.listenersOf t).length ≤ a.subscriptions.length := by
        rw [listenersOf, List.length_map]
        exact List.length_filter_le _ _
      rw [List.flatMap_cons, List.length_append, List.length_map, List.length_cons, Nat.succ_mul]
      omega
  exact bound a.toList

variable [Std.LawfulEqOrd σ]

theorem told_push [Std.TransOrd σ] [Std.TransOrd ℓ] [Std.LawfulEqOrd ℓ]
    (new : a.contains t = false) :
    (a.push t new).told = a.told ++ (a.listenersOf t).map (·, t) := by
  rw [told, toList_push, List.flatMap_append]
  simp [told, listenersOf, push]

omit [Std.LawfulEqOrd σ] in
/-- Who listens for a transition depends on the subscriptions only. -/
theorem listenersOf_congr {b : Automaton σ ℓ} (h : b.subscriptions = a.subscriptions) :
    b.listenersOf t = a.listenersOf t := by
  rw [listenersOf, listenersOf, h]

/-- The answer to a subscription is what the subscriber has missed. -/
theorem subscribe_fst :
    (a.subscribe subscription listener).1 = a.toList.filter (subscription.covers ·) := by
  cases subscription with
  | any => exact (List.filter_eq_self.2 fun _ _ => rfl).symm
  | leaving state => exact a.outgoingOf_eq_filter state

theorem told_subscribe : (a.subscribe subscription listener).2.told.Perm
    (a.told ++ (a.subscribe subscription listener).1.map (listener, ·)) := by
  have e : ∀ t, ((a.subscribe subscription listener).2.listenersOf t).map (·, t) =
      (a.listenersOf t).map (·, t) ++ if subscription.covers t then [(listener, t)] else [] := by
    intro t
    simp only [subscribe, listenersOf, List.filter_append, List.map_append, List.filter_singleton]
    cases subscription.covers t <;> simp
  have late : ∀ ts : List (Transition σ ℓ),
      ts.flatMap (fun t => if subscription.covers t then [(listener, t)] else []) =
        (ts.filter (subscription.covers ·)).map (listener, ·) := by
    intro ts
    induction ts with
    | nil => rfl
    | cons t ts ih =>
      rw [List.flatMap_cons, ih, List.filter_cons]
      split <;> rfl
  rw [subscribe_fst, ← late, told]
  simp only [e]
  exact (List.flatMap_append_perm a.toList _ _).symm

omit [Std.LawfulEqOrd σ] in
/-- The automaton grew while nobody subscribed, and each new transition was told to those who listen
for it, one transition after the other. -/
structure Recounts (a a' : Automaton σ ℓ) (heard heard' : List (Nat × Transition σ ℓ)) : Prop where
  subscriptions : a'.subscriptions = a.subscriptions
  grown : ∃ ts, a'.toList = a.toList ++ ts ∧
    heard' = heard ++ ts.flatMap fun t => (a.listenersOf t).map (·, t)

namespace Recounts

omit [Std.LawfulEqOrd σ]

variable {a' a₁ a₂ a₃ : Automaton σ ℓ} {heard heard' heard₁ heard₂ heard₃ : List (Nat × Transition σ ℓ)}

theorem of_eq (automaton : a' = a) (same : heard' = heard) : a.Recounts a' heard heard' where
  subscriptions := by rw [automaton]
  grown := ⟨[], by rw [automaton, List.append_nil], by rw [same, List.flatMap_nil, List.append_nil]⟩

theorem trans (h : a₁.Recounts a₂ heard₁ heard₂) (h' : a₂.Recounts a₃ heard₂ heard₃) :
    a₁.Recounts a₃ heard₁ heard₃ where
  subscriptions := h'.subscriptions.trans h.subscriptions
  grown := by
    obtain ⟨ts, new, told⟩ := h.grown
    obtain ⟨ts', new', told'⟩ := h'.grown
    have listeners : ∀ t, a₂.listenersOf t = a₁.listenersOf t :=
      fun t => listenersOf_congr h.subscriptions
    refine ⟨ts ++ ts', by rw [new', new, List.append_assoc], ?_⟩
    simp only [listeners] at told'
    rw [told', told, List.flatMap_append, List.append_assoc]

theorem push [Std.LawfulEqOrd σ] [Std.TransOrd σ] [Std.TransOrd ℓ] [Std.LawfulEqOrd ℓ]
    (new : a.contains t = false) (same : heard' = heard ++ (a.listenersOf t).map (·, t)) :
    a.Recounts (a.push t new) heard heard' where
  subscriptions := rfl
  grown := ⟨[t], toList_push new, by rw [same, List.flatMap_singleton]⟩

end Recounts

end Automaton

namespace Event

def fact? : Event → Option Fact
  | reached fact => some fact
  | _ => none

def announcement? : Event → Option Announcement
  | announced a => some a
  | _ => none

def field? : Event → Option (Nat × FieldTransition)
  | fieldTransition listener t => some (listener, t)
  | _ => none

def call? : Event → Option (Nat × CallTransition)
  | callTransition listener t => some (listener, t)
  | _ => none

end Event

/-- The method that a notice tells the listener of. -/
def Notice.methodFor? (listener : Nat) : Notice → Option MethodName
  | method l m => if l = listener then some m else none
  | remark _ => none

namespace Solver

/-- Everything the solver ever posted to its outbox. -/
def events (s : Solver) : List Event := s.outbox.posted.toList

/-- Everything that is to be told was told, once. -/
structure Told (s : Solver) : Prop where
  reached : s.events.filterMap Event.fact? = s.reached.toList
  announced : s.events.filterMap Event.announcement? = s.announced.toList
  field : (s.events.filterMap Event.field?).Perm s.fields.told
  call : (s.events.filterMap Event.call?).Perm s.calls.told

variable {W : Ways} {F : Facts} {s s' : Solver}

namespace Told

variable (h : s.Told)
include h

theorem reached_iff {f : Fact} : .reached f ∈ s.events ↔ f ∈ s.reached := by
  rw [← OrderedSet.mem_toList, ← h.reached, List.mem_filterMap]
  constructor
  · exact fun he => ⟨_, he, rfl⟩
  · rintro ⟨_ | _ | _ | _, he, e⟩ <;> cases e
    exact he

theorem announced_iff {a : Announcement} : .announced a ∈ s.events ↔ a ∈ s.announced := by
  rw [← OrderedSet.mem_toList, ← h.announced, List.mem_filterMap]
  constructor
  · exact fun he => ⟨_, he, rfl⟩
  · rintro ⟨_ | _ | _ | _, he, e⟩ <;> cases e
    exact he

theorem field_iff {l : Nat} {t : FieldTransition} : .fieldTransition l t ∈ s.events ↔
    t ∈ s.fields ∧ ∃ subscription, (subscription, l) ∈ s.fields.subscriptions ∧
      subscription.covers t := by
  rw [← Automaton.mem_told, ← h.field.mem_iff, List.mem_filterMap]
  constructor
  · exact fun he => ⟨_, he, rfl⟩
  · rintro ⟨_ | _ | _ | _, he, e⟩ <;> cases e
    exact he

theorem call_iff {l : Nat} {t : CallTransition} : .callTransition l t ∈ s.events ↔
    t ∈ s.calls ∧ ∃ subscription, (subscription, l) ∈ s.calls.subscriptions ∧
      subscription.covers t := by
  rw [← Automaton.mem_told, ← h.call.mem_iff, List.mem_filterMap]
  constructor
  · exact fun he => ⟨_, he, rfl⟩
  · rintro ⟨_ | _ | _ | _, he, e⟩ <;> cases e
    exact he

end Told

/-! ## What the recording steps tell -/

/-- New events keep the account if the tables grow by what is told. -/
theorem Told.post (h : s.Told) (es : List Event) (outbox : s'.outbox = s.outbox.postAll es)
    (reached : s'.reached.toList = s.reached.toList ++ es.filterMap Event.fact?)
    (announced : s'.announced.toList = s.announced.toList ++ es.filterMap Event.announcement?)
    (field : s'.fields.told.Perm (s.fields.told ++ es.filterMap Event.field?))
    (call : s'.calls.told.Perm (s.calls.told ++ es.filterMap Event.call?)) : s'.Told := by
  have e : s'.events = s.events ++ es := by simp [events, outbox, Feed.posted_postAll]
  constructor
  · rw [e, List.filterMap_append, h.reached, reached]
  · rw [e, List.filterMap_append, h.announced, announced]
  · rw [e, List.filterMap_append]
    exact (h.field.append_right _).trans field.symm
  · rw [e, List.filterMap_append]
    exact (h.call.append_right _).trans call.symm

theorem Told.addField (h : s.Told) (t : FieldTransition) : (s.addField t).Told := by
  unfold Solver.addField
  split
  · exact h
  · next hn =>
    refine h.post _ rfl ?_ ?_ ?_ ?_
    · simp [List.filterMap_map, Function.comp_def, Event.fact?]
    · simp [List.filterMap_map, Function.comp_def, Event.announcement?]
    · rw [Automaton.told_push]
      simp [List.filterMap_map, Function.comp_def, Event.field?]
    · simp [List.filterMap_map, Function.comp_def, Event.call?]

theorem Told.addCall (h : s.Told) (t : CallTransition) : (s.addCall t).Told := by
  unfold Solver.addCall
  split
  · exact h
  · next hn =>
    refine h.post _ rfl ?_ ?_ ?_ ?_
    · simp [List.filterMap_map, Function.comp_def, Event.fact?]
    · simp [List.filterMap_map, Function.comp_def, Event.announcement?]
    · simp [List.filterMap_map, Function.comp_def, Event.field?]
    · rw [Automaton.told_push]
      simp [List.filterMap_map, Function.comp_def, Event.call?]

theorem Told.witness (h : s.Told) (f : Fact) : (s.witness f).Told := by
  obtain ⟨e, -⟩ | ⟨reached, hr, e⟩ := s.witness_cases f
  · rwa [e]
  · rw [e]
    refine h.post [.reached f] rfl ?_ ?_ ?_ ?_
    · exact OrderedSet.toList_of_insertNew?_eq_some hr
    · simp [Event.announcement?]
    · exact .of_eq (List.append_nil _).symm
    · exact .of_eq (List.append_nil _).symm

theorem Told.announce (h : s.Told) (a : Announcement) : (s.announce a).Told := by
  obtain ⟨e, -⟩ | ⟨announced, hn, e⟩ := s.announce_cases a
  · rwa [e]
  · rw [e]
    refine h.post [.announced a] rfl ?_ ?_ ?_ ?_
    · simp [Event.fact?]
    · exact OrderedSet.toList_of_insertNew?_eq_some hn
    · exact .of_eq (List.append_nil _).symm
    · exact .of_eq (List.append_nil _).symm

theorem Told.subscribeField (h : s.Told) (subscription : Subscription FieldState)
    (listener : Nat) : (s.subscribeField subscription listener).Told := by
  refine h.post _ rfl ?_ ?_ ?_ ?_
  · simp [Solver.subscribeField, List.filterMap_map, Function.comp_def, Event.fact?]
  · simp [Solver.subscribeField, List.filterMap_map, Function.comp_def, Event.announcement?]
  · refine Automaton.told_subscribe.trans (.of_eq (congrArg _ ?_))
    rw [List.filterMap_map]
    exact (congrFun List.filterMap_eq_map _).symm
  · simp [Solver.subscribeField, List.filterMap_map, Function.comp_def, Event.call?]

theorem Told.subscribeCall (h : s.Told) (subscription : Subscription CallState)
    (listener : Nat) : (s.subscribeCall subscription listener).Told := by
  refine h.post _ rfl ?_ ?_ ?_ ?_
  · simp [Solver.subscribeCall, List.filterMap_map, Function.comp_def, Event.fact?]
  · simp [Solver.subscribeCall, List.filterMap_map, Function.comp_def, Event.announcement?]
  · simp [Solver.subscribeCall, List.filterMap_map, Function.comp_def, Event.field?]
  · refine Automaton.told_subscribe.trans (.of_eq (congrArg _ ?_))
    rw [List.filterMap_map]
    exact (congrFun List.filterMap_eq_map _).symm

/-! ## Methods -/

/-- The methods that a listener was told of, in order. -/
def reports (s : Solver) (listener : Nat) : List MethodName :=
  s.notices.posted.toList.filterMap (Notice.methodFor? listener)

/-- Every listener was told of every method, once and in the order of discovery. -/
structure Informs (s : Solver) : Prop where
  nodup : s.methodListeners.Nodup
  reports : ∀ l, s.reports l = if l ∈ s.methodListeners then s.methods.toList else []

/-- The method is told to those who listen, once to each. -/
theorem filterMap_methodFor? {ls : List Nat} (nodup : ls.Nodup) (l : Nat) (m : MethodName) :
    (ls.map (Notice.method · m)).filterMap (Notice.methodFor? l) = if l ∈ ls then [m] else [] := by
  induction ls with
  | nil => rfl
  | cons l' ls ih =>
    obtain ⟨new, nodup⟩ := List.nodup_cons.1 nodup
    rw [List.map_cons, List.filterMap_cons, ih nodup]
    by_cases e : l' = l
    · subst e
      simp [Notice.methodFor?, new]
    · simp [Notice.methodFor?, e, Ne.symm e]

/-- Notices that are about no method make no difference to listeners. -/
theorem Informs.post (h : s.Informs) (listeners : s'.methodListeners = s.methodListeners)
    (methods : s'.methods = s.methods) (reports : ∀ l, s'.reports l = s.reports l) : s'.Informs where
  nodup := listeners.symm ▸ h.nodup
  reports l := by rw [reports, h.reports, listeners, methods]

theorem Informs.remark (h : s.Informs) (r : Remark) : (s.remark r).Informs :=
  h.post rfl rfl fun l => by simp [Solver.reports, Solver.remark, say, Notice.methodFor?]

theorem Informs.witness (h : s.Informs) (f : Fact) : (s.witness f).Informs := by
  obtain ⟨e, -⟩ | ⟨reached, -, e⟩ := s.witness_cases f
  · rwa [e]
  · rw [e]
    exact h.post rfl rfl fun l => by simp [Solver.reports, Notice.methodFor?]

theorem Informs.reachMethod (h : s.Informs) (m : MethodName) : (s.reachMethod m).Informs := by
  unfold Solver.reachMethod
  split
  · exact h
  · next methods new =>
    refine ⟨h.nodup, fun l => ?_⟩
    have told := h.reports l
    simp only [Solver.reports, Feed.posted_postAll, Array.toList_append, List.filterMap_append,
      filterMap_methodFor? h.nodup, OrderedSet.toList_of_insertNew?_eq_some new] at told ⊢
    rw [told]
    split <;> rfl

/-! ## Moves -/

/-- What listeners were told of the field automaton, in order. -/
def fieldNews (s : Solver) : List (Nat × FieldTransition) := s.events.filterMap Event.field?

/-- What listeners were told of the call automaton, in order. -/
def callNews (s : Solver) : List (Nat × CallTransition) := s.events.filterMap Event.call?

theorem fieldNews_post {es : List Event} (outbox : s'.outbox = s.outbox.postAll es) :
    s'.fieldNews = s.fieldNews ++ es.filterMap Event.field? := by
  rw [fieldNews, events, outbox, Feed.posted_postAll, Array.toList_append, List.filterMap_append]
  rfl

theorem callNews_post {es : List Event} (outbox : s'.outbox = s.outbox.postAll es) :
    s'.callNews = s.callNews ++ es.filterMap Event.call? := by
  rw [callNews, events, outbox, Feed.posted_postAll, Array.toList_append, List.filterMap_append]
  rfl

/-- Events and notices are posted, nobody subscribes, and the accounts are kept. -/
structure Tells (s s' : Solver) : Prop where
  outbox : ∃ es, s'.outbox = s.outbox.postAll es
  notices : ∃ ns, s'.notices = s.notices.postAll ns
  fields : s.fields.Recounts s'.fields s.fieldNews s'.fieldNews
  calls : s.calls.Recounts s'.calls s.callNews s'.callNews
  methodListeners : s'.methodListeners = s.methodListeners
  told : s.Told → s'.Told
  informs : s.Informs → s'.Informs

theorem Tells.fieldSubscriptions (h : Tells s s') :
    s'.fields.subscriptions = s.fields.subscriptions := h.fields.subscriptions

theorem Tells.callSubscriptions (h : Tells s s') :
    s'.calls.subscriptions = s.calls.subscriptions := h.calls.subscriptions

theorem Tells.refl (s : Solver) : Tells s s :=
  ⟨⟨[], rfl⟩, ⟨[], rfl⟩, .of_eq rfl rfl, .of_eq rfl rfl, rfl, id, id⟩

/-- A step that posts no event and touches no automaton. -/
theorem Tells.of_eq (outbox : s'.outbox = s.outbox) (fields : s'.fields = s.fields)
    (calls : s'.calls = s.calls) (reached : s'.reached = s.reached)
    (announced : s'.announced = s.announced) (listeners : s'.methodListeners = s.methodListeners)
    (notices : ∃ ns, s'.notices = s.notices.postAll ns) (informs : s.Informs → s'.Informs) :
    Tells s s' where
  outbox := ⟨[], outbox⟩
  notices := notices
  fields := .of_eq fields (by rw [fieldNews, events, outbox]; rfl)
  calls := .of_eq calls (by rw [callNews, events, outbox]; rfl)
  methodListeners := listeners
  told h := h.post [] outbox (by simp [reached]) (by simp [announced]) (by simp [fields])
    (by simp [calls])
  informs := informs

theorem Tells.trans {s₁ s₂ s₃ : Solver} (h : Tells s₁ s₂) (h' : Tells s₂ s₃) : Tells s₁ s₃ where
  outbox := Feed.exists_postAll_trans h.outbox h'.outbox
  notices := Feed.exists_postAll_trans h.notices h'.notices
  fields := h.fields.trans h'.fields
  calls := h.calls.trans h'.calls
  methodListeners := h'.methodListeners.trans h.methodListeners
  told ht := h'.told (h.told ht)
  informs hi := h'.informs (h.informs hi)

/-- A step that posts events which are about no automaton, and touches none. -/
theorem Tells.of_post (es : List Event) (outbox : s'.outbox = s.outbox.postAll es)
    (fields : s'.fields = s.fields) (calls : s'.calls = s.calls)
    (noField : es.filterMap Event.field? = []) (noCall : es.filterMap Event.call? = [])
    (listeners : s'.methodListeners = s.methodListeners)
    (notices : ∃ ns, s'.notices = s.notices.postAll ns) (told : s.Told → s'.Told)
    (informs : s.Informs → s'.Informs) : Tells s s' where
  outbox := ⟨es, outbox⟩
  notices := notices
  fields := .of_eq fields (by rw [fieldNews_post outbox, noField, List.append_nil])
  calls := .of_eq calls (by rw [callNews_post outbox, noCall, List.append_nil])
  methodListeners := listeners
  told := told
  informs := informs

theorem addField_tells (s : Solver) (t : FieldTransition) : Tells s (s.addField t) := by
  have told (h : s.Told) := h.addField t
  unfold addField at told ⊢
  by_cases known : s.fields.contains t
  · rw [dif_pos known]
    exact .refl s
  · rw [dif_neg known] at told ⊢
    refine ⟨⟨_, rfl⟩, ⟨[], rfl⟩, .push (Bool.eq_false_iff.2 known) ?_, .of_eq rfl ?_, rfl, told,
      fun hi => { hi with }⟩
    · rw [fieldNews_post rfl, List.filterMap_map]
      exact congrArg _ (congrFun List.filterMap_eq_map _)
    · rw [callNews_post rfl, List.filterMap_map]
      simp [Function.comp_def, Event.call?]

theorem addCall_tells (s : Solver) (t : CallTransition) : Tells s (s.addCall t) := by
  have told (h : s.Told) := h.addCall t
  unfold addCall at told ⊢
  by_cases known : s.calls.contains t
  · rw [dif_pos known]
    exact .refl s
  · rw [dif_neg known] at told ⊢
    refine ⟨⟨_, rfl⟩, ⟨[], rfl⟩, .of_eq rfl ?_, .push (Bool.eq_false_iff.2 known) ?_, rfl, told,
      fun hi => { hi with }⟩
    · rw [fieldNews_post rfl, List.filterMap_map]
      simp [Function.comp_def, Event.field?]
    · rw [callNews_post rfl, List.filterMap_map]
      exact congrArg _ (congrFun List.filterMap_eq_map _)

theorem announce_tells (s : Solver) (a : Announcement) : Tells s (s.announce a) := by
  have told (h : s.Told) := h.announce a
  obtain ⟨e, -⟩ | ⟨announced, -, e⟩ := s.announce_cases a
  · rw [e]
    exact .refl s
  · rw [e] at told ⊢
    exact .of_post [.announced a] rfl rfl rfl rfl rfl rfl ⟨[], rfl⟩ told
      fun hi => { hi with }

theorem remark_tells (s : Solver) (r : Remark) : Tells s (s.remark r) :=
  .of_eq rfl rfl rfl rfl rfl rfl ⟨[_], rfl⟩ (·.remark r)

theorem reachMethod_tells (s : Solver) (m : MethodName) : Tells s (s.reachMethod m) := by
  have informs (hi : s.Informs) := hi.reachMethod m
  unfold reachMethod at informs ⊢
  cases hn : s.methods.insertNew? m with
  | none => exact .refl s
  | some methods =>
    rw [hn] at informs
    exact .of_eq rfl rfl rfl rfl rfl rfl ⟨_, rfl⟩ informs

theorem witness_tells (s : Solver) (f : Fact) : Tells s (s.witness f) := by
  have told (h : s.Told) := h.witness f
  have informs (h : s.Informs) := h.witness f
  obtain ⟨e, -⟩ | ⟨reached, -, e⟩ := s.witness_cases f
  · rw [e]
    exact .refl s
  · rw [e] at told informs ⊢
    exact .of_post [.reached f] rfl rfl rfl rfl rfl rfl ⟨[_], rfl⟩ told informs

theorem Move.tells (m : Move W F s s') : Tells s s' := by
  cases m with
  | field _ => exact s.addField_tells _
  | call _ => exact s.addCall_tells _
  | pop _ _ | exit _ _ _ | block _ _ | opening _ _ | rules _ _ | mark _ _ _ =>
    exact .of_eq rfl rfl rfl rfl rfl rfl ⟨[], rfl⟩ fun hi => { hi with }
  | remark => exact s.remark_tells _
  | method _ => exact s.reachMethod_tells _
  | witness _ _ => exact s.witness_tells _
  | announce _ _ => exact s.announce_tells _
  | answer _ _ => exact s.announce_tells _

theorem Moves.tells (m : Moves W F s s') : Tells s s' := by
  induction m with
  | refl => exact .refl s
  | tail _ m ih => exact ih.trans m.tells

end Solver

end PointsTo
