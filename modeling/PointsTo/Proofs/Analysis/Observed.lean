import PointsTo.Proofs.Analysis.Pool
import PointsTo.Proofs.Solver.Observers

/-!
# Pools with other observers

Two pools are `Alike` if they have the same solvers in the same order, up to the observers of each.
Which solvers are dirty may differ: a ticket that is asked for makes a solver dirty, and so its events
are looked for when there are none. Each operation of a pool keeps this (`Alike.modify`,
`Alike.getOrCreate`, `Alike.drain`). A ticket without a counterpart may be asked for on one side only
(`Alike.modify_right`). Nothing is said on that side by it, as between two operations all that solvers
said is in the journal (`Quiet`).
-/

namespace PointsTo

/-! ## Solvers -/

namespace Solver

variable {L : Pairing} {s s' : Solver}

theorem Alike.apply (h : Alike L s s') (o : Operation) : Alike L (o.apply s) (o.apply s') := by
  cases o with
  | solve initial => exact h.solve initial
  | addFieldTransition t => exact h.addFieldTransition t
  | connectBase base field fact => exact h.connectBase base field fact
  | connectAlias fact state => exact h.connectAlias fact state
  | addFieldFlow source target => exact h.addFieldFlow source target
  | addCallFlow source target => exact h.addCallFlow source target
  | reachAlias access target => exact h.addCallFlow access target
  | addUnbalanced method => exact h.addUnbalanced method

/-- Two solvers at rest that differ only in their observers. -/
structure Paired (L : Pairing) (s s' : Solver) : Prop extends Alike L s s' where
  resting : s.Resting
  resting' : s'.Resting

namespace Paired

theorem symm (h : Paired L s s') : Paired L.flip s' s := ⟨h.toAlike.symm, h.resting', h.resting⟩

theorem perform (h : Paired L s s') (o : Operation) : Paired L (o.apply s) (o.apply s') :=
  ⟨h.toAlike.apply o, (h.resting.perform o).resting, (h.resting'.perform o).resting⟩

theorem subscribeField (h : Paired L s s') (subscription : Subscription FieldState)
    (listener : Nat) :
    Paired L (s.subscribeField subscription listener) (s'.subscribeField subscription listener) :=
  ⟨h.toAlike.subscribeField _ _, (h.resting.subscribeField _ _).resting,
    (h.resting'.subscribeField _ _).resting⟩

theorem subscribeCall (h : Paired L s s') (subscription : Subscription CallState) (listener : Nat) :
    Paired L (s.subscribeCall subscription listener) (s'.subscribeCall subscription listener) :=
  ⟨h.toAlike.subscribeCall _ _, (h.resting.subscribeCall _ _).resting,
    (h.resting'.subscribeCall _ _).resting⟩

theorem addAllocatedType (h : Paired L s s') (type : ClassName) :
    Paired L (s.addAllocatedType type).2 (s'.addAllocatedType type).2 :=
  ⟨h.toAlike.addAllocatedType type, (h.resting.addAllocatedType type).resting,
    (h.resting'.addAllocatedType type).resting⟩

theorem addMethodListener (h : Paired L s s') (listener : Nat) :
    Paired L (s.addMethodListener listener) (s'.addMethodListener listener) :=
  ⟨h.toAlike.addMethodListener listener, (h.resting.addMethodListener listener).resting,
    (h.resting'.addMethodListener listener).resting⟩

theorem addMethodListener_unheard (h : Paired L s s') (unheard : ¬ L.heard) (listener : Nat) :
    Paired L (s.addMethodListener listener) s' :=
  ⟨h.toAlike.addMethodListener_unheard unheard listener,
    (h.resting.addMethodListener listener).resting, h.resting'⟩

theorem requestTicket (h : Paired L s s') (fact : Fact) {ticket ticket' k : Nat}
    (seen : L.left ticket = some k) (seen' : L.right ticket' = some k) :
    Paired L (s.requestTicket fact ticket) (s'.requestTicket fact ticket') :=
  ⟨h.toAlike.requestTicket fact seen seen', (h.resting.requestTicket fact ticket).resting,
    (h.resting'.requestTicket fact ticket').resting⟩

theorem requestTicket_right (h : Paired L s s') (fact : Fact) {ticket : Nat}
    (unseen : L.right ticket = none) : Paired L s (s'.requestTicket fact ticket) :=
  ⟨(h.toAlike.symm.requestTicket_unseen h.resting' fact unseen).symm, h.resting,
    (h.resting'.requestTicket fact ticket).resting⟩

theorem drainNotices (h : Paired L s s') : Paired L s.drainNotices.2 s'.drainNotices.2 :=
  ⟨h.toAlike.drainNotices, h.resting.drainNotices.resting, h.resting'.drainNotices.resting⟩

theorem drainEvents (h : Paired L s s') : Paired L s.drainEvents.2 s'.drainEvents.2 :=
  ⟨h.toAlike.drainEvents, h.resting.drainEvents.2.1, h.resting'.drainEvents.2.1⟩

/-- Where nothing waits, there is nothing to read. -/
theorem drainEvents_left (h : Paired L s s') (empty : s'.outbox.pending = []) :
    Paired L s.drainEvents.2 s' :=
  { h with
    events := by
      rw [empty]
      exact congrArg (List.filterMap _) (Feed.pending_takeAll s.outbox)
    resting := h.resting.drainEvents.2.1 }

/-- Tickets that nobody asked a solver for may get other labels. -/
theorem relabel {L' : Pairing} (h : Paired L s s') (left : L'.left = L.left)
    (heard : L'.heard = L.heard) (right : ∀ e ∈ s'.tickets, L'.right e.2 = L.right e.2) :
    Paired L' s s' := by
  have answered {ticket : Nat} {seed : Fact} (ha : .witnessed ticket seed ∈ s'.announced) :
      L'.right ticket = L.right ticket :=
    have ⟨_, f, asked, _⟩ := h.resting'.witnessed_iff.1 ha
    right (f, ticket) asked
  have announced (a : Announcement) (ha : a ∈ s'.announced) : a.seen L'.right = a.seen L.right :=
    Announcement.seen_congr fun e => answered (e ▸ ha)
  have events (event : Event) (he : event ∈ s'.outbox.pending) :
      event.seen L'.right = event.seen L.right :=
    Event.seen_congr fun e =>
      answered (h.resting'.told.announced_iff.1 (Feed.mem_posted_of_mem_pending (e ▸ he)))
  exact { h with
    events := by rw [left, h.events, List.filterMap_congr events]
    announced := by rw [left, h.announced, List.filterMap_congr announced]
    tickets := by
      rw [left, h.tickets]
      exact List.filterMap_congr fun e he => by rw [right e he]
    listeners := heard ▸ h.listeners
    notices := heard ▸ h.notices }

end Paired

/-- New solvers are alike whoever listens to them, unless listeners are compared. -/
theorem paired_create (L : Pairing) (direction : Direction) (graph : Supergraph) (seed : Fact)
    (types : List ClassName) {listeners listeners' : List Nat}
    (same : L.heard → listeners = listeners') (resting : ∀ ls : List Nat,
      (ls.foldl addMethodListener ((create direction graph seed).allocate types)).Resting) :
    Paired L (listeners.foldl addMethodListener ((create direction graph seed).allocate types))
      (listeners'.foldl addMethodListener ((create direction graph seed).allocate types)) := by
  have fresh := (create_fresh direction graph seed).allocate types
  have unwatched : Paired L ((create direction graph seed).allocate types)
      ((create direction graph seed).allocate types) := {
    core := rfl
    events := by simp [fresh.outbox]
    announced := by simp [fresh.announced]
    tickets := by simp [fresh.tickets]
    listeners := fun _ => rfl
    notices := fun _ => rfl
    resting := resting []
    resting' := resting [] }
  by_cases heard : L.heard
  · obtain rfl := same heard
    exact ⟨unwatched.toAlike.foldl fun l _ _ _ h => h.addMethodListener l, resting _, resting _⟩
  · have alone (L : Pairing) (unheard : ¬ L.heard) (ls : List Nat) {s s' : Solver}
        (h : Paired L s s') : Paired L (ls.foldl addMethodListener s) s' := by
      induction ls generalizing s with
      | nil => exact h
      | cons l ls ih => exact ih (h.addMethodListener_unheard unheard l)
    exact (alone L.flip heard listeners' (alone L heard listeners unwatched).symm).symm

end Solver

/-! ## Entries -/

/-- Two entries of the same query, with different observers. -/
structure PoolEntry.Alike (L : Pairing) (e e' : PoolEntry) : Prop where
  solver : Solver.Paired L e.solver e'.solver
  started : e.started = e'.started
  tidy : e.Tidy
  tidy' : e'.Tidy

theorem PoolEntry.Alike.symm {L : Pairing} {e e' : PoolEntry} (h : PoolEntry.Alike L e e') :
    PoolEntry.Alike L.flip e' e :=
  ⟨h.solver.symm, h.started.symm, h.tidy', h.tidy⟩

namespace Pool

variable {L : Pairing} {p p' : Pool} {i j : Nat} {q : Query} {e e' : PoolEntry}

theorem has_modifyEntry {g : PoolEntry → PoolEntry} :
    ({ p with entries := p.entries.modify j g } : Pool).Has i q e' ↔
      ∃ e, p.Has i q e ∧ e' = if j = i then g e else e := by
  simp only [Has, OrderedMap.getElem?_toList_modify, Option.map_eq_some_iff, Prod.mk.injEq,
    Prod.exists]
  constructor
  · rintro ⟨_, e, h, rfl, rfl⟩
    exact ⟨e, h, rfl⟩
  · rintro ⟨e, h, rfl⟩
    exact ⟨q, e, h, rfl, rfl⟩

theorem has_mapEntries {g : PoolEntry → PoolEntry} :
    ({ p with entries := p.entries.mapValues g } : Pool).Has i q e' ↔
      ∃ e, p.Has i q e ∧ e' = g e := by
  simp only [Has, OrderedMap.toList_mapValues, List.getElem?_map, Option.map_eq_some_iff,
    Prod.mk.injEq, Prod.exists]
  constructor
  · rintro ⟨_, e, h, rfl, rfl⟩
    exact ⟨e, h, rfl⟩
  · rintro ⟨e, h, rfl⟩
    exact ⟨q, e, h, rfl, rfl⟩

/-! ## The queries of a pool -/

theorem allocated_changeAll (p : Pool) (f : Solver → Solver) :
    (p.changeAll f).allocated = p.allocated :=
  changeAll_induction (P := fun p' => p'.allocated = p.allocated) rfl fun _ => id

theorem keys_changeAll (p : Pool) (f : Solver → Solver) :
    (p.changeAll f).entries.keys = p.entries.keys :=
  changeAll_induction (P := fun p' => p'.entries.keys = p.entries.keys) rfl fun _ => id

theorem keys_addAllocatedType (p : Pool) (type : ClassName) :
    (p.addAllocatedType type).2.entries.keys = p.entries.keys := by
  unfold addAllocatedType
  split
  · rfl
  · exact keys_changeAll _ _

theorem keys_insert (m : OrderedMap Query PoolEntry) (q : Query) (e : PoolEntry) :
    (m.insert q e).keys = m.keys.insert q := by
  unfold OrderedMap.insert
  split
  · next known => exact (OrderedSet.insert_of_mem (OrderedSet.contains_iff.1 known)).symm
  · rfl

theorem keys_getOrCreate (p : Pool) (q : Query) :
    (p.getOrCreate q).2.entries.keys = p.entries.keys.insert q := by
  refine getOrCreate_induction (P := fun p' => p'.entries.keys = p.entries.keys.insert q)
    (fun he => ?_) (fun _ => keys_insert _ _ _) fun type => (keys_addAllocatedType _ type).trans
  have old := OrderedSet.indexOf?_eq_some_iff.1 (indexOf?_eq_some_iff.2 ⟨_, he⟩)
  exact (OrderedSet.insert_of_mem (List.mem_of_getElem? old)).symm

/-- A query is at the position under which its solver was asked for. -/
theorem indexOf?_getOrCreate (p : Pool) (q : Query) :
    (p.getOrCreate q).2.indexOf? q = some (p.getOrCreate q).1 := by
  cases known : p.indexOf? q with
  | some i =>
    obtain ⟨e, he⟩ := indexOf?_eq_some_iff.1 known
    rw [getOrCreate_of_has he, known]
  | none =>
    have new : ¬ p.entries.keys.contains q := by
      have absent := OrderedMap.contains_eq_isSome_indexOf? p.entries q
      rw [show p.entries.indexOf? q = none from known] at absent
      exact Bool.eq_false_iff.1 absent
    have behind : (p.getOrCreate q).1 = p.size := by
      rw [getOrCreate, known]
      dsimp only
      split <;> rfl
    rw [Pool.indexOf?, OrderedMap.indexOf?, OrderedSet.indexOf?_eq_some_iff, keys_getOrCreate,
      OrderedSet.toList_insert, if_neg new, behind]
    exact List.getElem?_concat_length

theorem keys_start {isNew : Bool} (h : p.start i = .ok (isNew, p')) :
    p'.entries.keys = p.entries.keys := by
  unfold start at h
  split at h
  · cases h
  · obtain ⟨-, rfl⟩ := Prod.mk.inj (Except.ok.inj h)
    rfl

/-! ## Quiet pools -/

/-- All that the solvers said is in the journal. -/
def Quiet (p : Pool) : Prop := ∀ i q e, p.Has i q e → e.solver.notices.pending = []

theorem Quiet.noticesOf (quiet : p.Quiet) (i : Nat) : p.noticesOf i = [] := by
  unfold Pool.noticesOf
  split
  · next value =>
    obtain ⟨q, he⟩ := value?_eq_some_iff.1 value
    exact quiet i q _ he
  · rfl

theorem Quiet.modify (quiet : p.Quiet) (i : Nat) (f : Solver → Solver) : (p.modify i f).Quiet := by
  intro j q e' he'
  obtain ⟨e, he, rfl⟩ := has_modify.1 he'
  split
  · exact Feed.pending_takeAll _
  · exact quiet _ _ _ he

theorem quiet_changeAll (p : Pool) (f : Solver → Solver) : (p.changeAll f).Quiet := by
  intro j q e' he'
  obtain ⟨e, -, rfl⟩ := has_changeAll.1 he'
  exact Feed.pending_takeAll _

theorem Quiet.addAllocatedType (quiet : p.Quiet) (type : ClassName) :
    (p.addAllocatedType type).2.Quiet := by
  unfold Pool.addAllocatedType
  split
  · exact quiet
  · exact quiet_changeAll _ _

theorem Quiet.addMethodListener (quiet : p.Quiet) (listener : Nat) :
    (p.addMethodListener listener).2.Quiet := by
  unfold Pool.addMethodListener
  split
  · exact quiet
  · intro i q e he
    exact quiet_changeAll p _ i q e he

/-- A solver that has done nothing has said nothing, whoever listens. -/
theorem notices_newSolver (p : Pool) (q : Query) : (p.newSolver q).notices = ∅ := by
  have silent (ls : List Nat) (s : Solver) (fresh : s.methods = ∅) (quiet : s.notices = ∅) :
      (ls.foldl Solver.addMethodListener s).notices = ∅ := by
    induction ls generalizing s with
    | nil => exact quiet
    | cons l ls ih =>
      rw [List.foldl_cons, Solver.addMethodListener]
      split
      · exact ih s fresh quiet
      · exact ih _ fresh (by rw [fresh, quiet]; rfl)
  have fresh := (Solver.create_fresh q.direction ⟨p.program, q.direction⟩ q.fact).allocate
    p.allocated.toList
  refine silent _ _ fresh.methods ?_
  show ((Solver.create q.direction ⟨p.program, q.direction⟩ q.fact).allocate _).notices = ∅
  rw [Solver.allocate_eq]
  rfl

theorem Quiet.getOrCreate (quiet : p.Quiet) (q : Query) : (p.getOrCreate q).2.Quiet := by
  refine getOrCreate_induction (fun _ => quiet) (fun new i q' e he => ?_)
    fun type created => created.addAllocatedType type
  obtain he | ⟨-, -, rfl⟩ := (has_created new).1 he
  · exact quiet _ _ _ he
  · exact congrArg Feed.pending (notices_newSolver p q)

theorem Quiet.start (quiet : p.Quiet) {isNew : Bool} (h : p.start i = .ok (isNew, p')) :
    p'.Quiet := by
  unfold Pool.start at h
  split at h
  · cases h
  · obtain ⟨-, rfl⟩ := Prod.mk.inj (Except.ok.inj h)
    intro j q e' he'
    obtain ⟨e, he, rfl⟩ := has_modifyEntry.1 he'
    have silent := quiet j q e he
    split <;> exact silent

theorem Quiet.drain (quiet : p.Quiet) : p.drain.2.Quiet := by
  intro i q e' he'
  obtain ⟨e, h, rfl⟩ := has_drain.1 he'
  have silent := quiet i q e h
  split <;> exact silent

/-! ## Collected events -/

/-- An event with the position of its solver, as it is seen from outside. -/
def seen (label : Nat → Option Nat) (x : Nat × Event) : Option (Nat × Event) :=
  (x.2.seen label).map (x.1, ·)

/-- What is seen of the collected events is what is seen of the events of each solver in turn. -/
theorem filterMap_drain (tidy : ∀ {i q e}, p.Has i q e → e.Tidy) (label : Nat → Option Nat) :
    p.drain.1.filterMap (seen label) =
      (p.entries.values.toList.map fun e => e.solver.outbox.pending.filterMap (·.seen label)).zipIdx.flatMap
        fun (events, i) => events.map (i, ·) := by
  rw [List.zipIdx_map, List.flatMap_map]
  show (p.entries.values.toList.zipIdx.flatMap _).filterMap _ = _
  rw [List.filterMap_flatMap]
  refine List.flatMap_congr fun ⟨e, i⟩ hm => ?_
  have value : p.entries.value? i = some e := by
    rw [OrderedMap.value?, ← Array.getElem?_toList]
    exact List.mem_zipIdx_iff_getElem?.1 hm
  obtain ⟨q, he⟩ := value?_eq_some_iff.1 value
  have waiting : (if e.dirty then e.solver.outbox.pending.map (i, ·) else []) =
      e.solver.outbox.pending.map (i, ·) := by
    split
    · rfl
    · next clean => rw [(tidy he).resolve_left clean, List.map_nil]
  show (if e.dirty then _ else _ : List (Nat × Event)).filterMap _ = _
  rw [waiting, List.filterMap_map]
  show _ = (e.solver.outbox.pending.filterMap (·.seen label)).map (i, ·)
  rw [List.map_filterMap]
  rfl

/-! ## Pools -/

/-- The pools have the same solvers, and these differ only in their observers. -/
structure Alike (L : Pairing) (p p' : Pool) : Prop where
  program : p.program = p'.program
  allocated : p.allocated = p'.allocated
  keys : p.entries.keys = p'.entries.keys
  entry : ∀ {i q e e'}, p.Has i q e → p'.Has i q e' → PoolEntry.Alike L e e'
  listeners : L.heard → p.methodListeners = p'.methodListeners
  journal : L.heard → p.journal = p'.journal

namespace Alike

variable {f f' : Solver → Solver}

section Questions

variable (h : Alike L p p')
include h

theorem size : p.size = p'.size := congrArg OrderedSet.size h.keys

theorem indexOf? (q : Query) : p.indexOf? q = p'.indexOf? q :=
  congrArg (OrderedSet.indexOf? · q) h.keys

theorem queryAt (i : Nat) : p.queryAt i = p'.queryAt i := by
  have key : p.entries.key? i = p'.entries.key? i := congrArg (OrderedSet.get? · i) h.keys
  unfold Pool.queryAt
  rw [key, h.size]

theorem symm : Alike L.flip p' p where
  program := h.program.symm
  allocated := h.allocated.symm
  keys := h.keys.symm
  entry he' he := (h.entry he he').symm
  listeners heard := (h.listeners heard).symm
  journal heard := (h.journal heard).symm

/-- A solver of the one pool has its like in the other one. -/
theorem exists_has (he : p.Has i q e) : ∃ e', p'.Has i q e' ∧ PoolEntry.Alike L e e' := by
  obtain ⟨e', he'⟩ := indexOf?_eq_some_iff.1 (h.indexOf? q ▸ indexOf?_eq_some_iff.2 ⟨e, he⟩)
  exact ⟨e', he', h.entry he he'⟩

/-- What is the same for entries that are alike is the same for the pools, in the same order. -/
theorem map_toList {β : Type} {g g' : Query × PoolEntry → β}
    (same : ∀ {q e e'}, PoolEntry.Alike L e e' → g (q, e) = g' (q, e')) :
    p.entries.toList.map g = p'.entries.toList.map g' := by
  refine List.ext_getElem? fun i => ?_
  rw [List.getElem?_map, List.getElem?_map]
  cases he : p.entries.toList[i]? with
  | some x =>
    obtain ⟨e', he', alike⟩ := h.exists_has (show p.Has i x.1 x.2 from he)
    rw [show p'.entries.toList[i]? = some (x.1, e') from he']
    exact congrArg some (same alike)
  | none =>
    have behind : p'.entries.toList[i]? = none := by
      rw [List.getElem?_eq_none_iff, OrderedMap.length_toList] at he ⊢
      exact le_of_eq_of_le h.size.symm he
    rw [behind]
    rfl

theorem noticesOf (heard : L.heard) (i : Nat) : p.noticesOf i = p'.noticesOf i := by
  unfold Pool.noticesOf
  by_cases hi : i < p.size
  · obtain ⟨q, e, he⟩ := lt_size_iff.1 hi
    obtain ⟨e', he', alike⟩ := h.exists_has he
    rw [value?_eq_some_iff.2 ⟨q, he⟩, value?_eq_some_iff.2 ⟨q, he'⟩]
    exact alike.solver.notices heard
  · rw [value?_eq_none hi, value?_eq_none (h.size ▸ hi)]

end Questions

/-- Tickets that nobody asked a solver for may get other labels. -/
theorem relabel {L' : Pairing} (h : Alike L p p') (left : L'.left = L.left)
    (heard : L'.heard = L.heard) (right : ∀ {i q e}, p'.Has i q e → ∀ t ∈ e.solver.tickets,
      L'.right t.2 = L.right t.2) : Alike L' p p' :=
  { h with
    entry := fun he he' =>
      have alike := h.entry he he'
      { alike with solver := alike.solver.relabel left heard (right he') }
    listeners := heard ▸ h.listeners
    journal := heard ▸ h.journal }

/-! ## Operations -/

theorem record (h : Alike L p p') (entry : Entry) : Alike L (p.record entry) (p'.record entry) :=
  { h with journal := fun heard => congrArg (·.post entry) (h.journal heard) }

theorem collectNotices (h : Alike L p p') (i : Nat) :
    Alike L (p.collectNotices i) (p'.collectNotices i) :=
  { h with
    entry := fun he he' => by
      obtain ⟨e, h₁, rfl⟩ := has_collectNotices.1 he
      obtain ⟨e', h₂, rfl⟩ := has_collectNotices.1 he'
      have alike := h.entry h₁ h₂
      split
      · exact { alike with solver := alike.solver.drainNotices }
      · exact alike
    journal := fun heard => by
      show p.journal.postAll _ = p'.journal.postAll _
      rw [h.journal heard, h.noticesOf heard] }

theorem modify (h : Alike L p p')
    (hf : ∀ {s s'}, Solver.Paired L s s' → Solver.Paired L (f s) (f' s')) (i : Nat) :
    Alike L (p.modify i f) (p'.modify i f') := by
  let change (p : Pool) (f : Solver → Solver) : Pool :=
    { p with entries := p.entries.modify i fun e => { e with solver := f e.solver, dirty := true } }
  have changed : Alike L (change p f) (change p' f') := { h with
    entry := fun he he' => by
      obtain ⟨e, h₁, rfl⟩ := has_modifyEntry.1 he
      obtain ⟨e', h₂, rfl⟩ := has_modifyEntry.1 he'
      have alike := h.entry h₁ h₂
      split
      · exact ⟨hf alike.solver, alike.started, .inl rfl, .inl rfl⟩
      · exact alike }
  exact changed.collectNotices i

/-- One side changes in a way that makes no difference and says nothing. -/
theorem modify_right (h : Alike L p p') (quiet : p'.Quiet)
    (hf : ∀ {s s'}, Solver.Paired L s s' → Solver.Paired L s (f s'))
    (silent : ∀ s, (f s).notices = s.notices) (i : Nat) : Alike L p (p'.modify i f) :=
  { h with
    entry := fun he he' => by
      obtain ⟨e', h', rfl⟩ := has_modify.1 he'
      have alike := h.entry he h'
      split
      · have changed := hf alike.solver
        have said : (f e'.solver).notices.pending = [] := by rw [silent, quiet _ _ _ h']
        exact {
          solver := { changed with
            resting' := changed.resting'.drainNotices.resting
            notices := fun heard => (changed.notices heard).trans (said.trans (Feed.pending_takeAll _).symm) }
          started := alike.started
          tidy := alike.tidy
          tidy' := .inl rfl }
      · exact alike
    journal := fun heard => by
      let p₁ : Pool := { p' with
        entries := p'.entries.modify i fun e => { e with solver := f e.solver, dirty := true } }
      have still : p₁.Quiet := by
        intro j q e he
        obtain ⟨e', h', rfl⟩ := has_modifyEntry.1 he
        split
        · exact (congrArg Feed.pending (silent e'.solver)).trans (quiet j q e' h')
        · exact quiet j q e' h'
      show p.journal = p'.journal.postAll ((p₁.noticesOf i).map (.solver i))
      rw [still.noticesOf]
      exact h.journal heard }

theorem changeAll (h : Alike L p p')
    (hf : ∀ {s s'}, Solver.Paired L s s' → Solver.Paired L (f s) (f' s'))
    (quiet : ∀ s, (f s).outbox = s.outbox) (quiet' : ∀ s, (f' s).outbox = s.outbox) :
    Alike L (p.changeAll f) (p'.changeAll f') := by
  have collect (is : List Nat) {p p' : Pool} (h : Alike L p p') :
      Alike L (is.foldl Pool.collectNotices p) (is.foldl Pool.collectNotices p') := by
    induction is generalizing p p' with
    | nil => exact h
    | cons i is ih => exact ih (h.collectNotices i)
  unfold Pool.changeAll
  rw [h.size]
  refine collect _ { h with entry := fun he he' => ?_ }
  obtain ⟨e, h₁, rfl⟩ := has_mapEntries.1 he
  obtain ⟨e', h₂, rfl⟩ := has_mapEntries.1 he'
  have alike := h.entry h₁ h₂
  have tidy {g : Solver → Solver} (quiet : ∀ s, (g s).outbox = s.outbox) {e : PoolEntry}
      (tidy : e.Tidy) : PoolEntry.Tidy { e with solver := g e.solver } :=
    tidy.imp_right fun pending => (congrArg Feed.pending (quiet e.solver)).trans pending
  exact ⟨hf alike.solver, alike.started, tidy quiet alike.tidy, tidy quiet' alike.tidy'⟩

theorem addAllocatedType (h : Alike L p p') (type : ClassName) :
    Alike L (p.addAllocatedType type).2 (p'.addAllocatedType type).2 := by
  have silent (s : Solver) : (s.addAllocatedType type).2.outbox = s.outbox := by
    rw [Solver.addAllocatedType_eq]
  unfold Pool.addAllocatedType
  rw [h.allocated]
  split
  · exact h
  · next allocated _ =>
    have first : Alike L { p with allocated } { p' with allocated } := { h with allocated := rfl }
    exact first.changeAll (fun h => h.addAllocatedType type) silent silent

theorem outbox_addMethodListener (s : Solver) (listener : Nat) :
    (s.addMethodListener listener).outbox = s.outbox := by
  unfold Solver.addMethodListener
  split <;> rfl

theorem addMethodListener (h : Alike L p p') (heard : L.heard) (listener : Nat) :
    Alike L (p.addMethodListener listener).2 (p'.addMethodListener listener).2 := by
  have silent (s : Solver) := outbox_addMethodListener s listener
  have same := h.listeners heard
  have first := h.changeAll (fun h => h.addMethodListener listener) silent silent
  unfold Pool.addMethodListener
  rw [same]
  split
  · exact h
  · exact { first with listeners := fun _ => congrArg (· ++ [listener]) (first.listeners heard) }

theorem newSolver (h : Alike L p p') (q : Query) :
    Solver.Paired L (p.newSolver q) (p'.newSolver q) := by
  have resting (ls : List Nat) : (ls.foldl Solver.addMethodListener
      ((Solver.create q.direction ⟨p.program, q.direction⟩ q.fact).allocate
        p.allocated.toList)).Resting := by
    have fresh := (newborn_newSolver { p with methodListeners := ls } q).fresh
    exact ⟨fresh.regular, fresh.idle, fresh.told⟩
  have paired := Solver.paired_create L q.direction ⟨p.program, q.direction⟩ q.fact
    p.allocated.toList h.listeners resting
  unfold Pool.newSolver
  rw [← h.program, ← h.allocated]
  exact paired

theorem getOrCreate (h : Alike L p p') (q : Query) :
    (p.getOrCreate q).1 = (p'.getOrCreate q).1 ∧
      Alike L (p.getOrCreate q).2 (p'.getOrCreate q).2 := by
  unfold Pool.getOrCreate
  cases known : p.indexOf? q with
  | some index =>
    rw [← h.indexOf? q, known]
    exact ⟨rfl, h⟩
  | none =>
    have known' : p'.indexOf? q = none := h.indexOf? q ▸ known
    rw [known']
    have first : Alike L { p with entries := p.entries.insert q ⟨p.newSolver q, false, true⟩ }
        { p' with entries := p'.entries.insert q ⟨p'.newSolver q, false, true⟩ } := { h with
      keys := by
        show (p.entries.insert q _).keys = (p'.entries.insert q _).keys
        rw [keys_insert, keys_insert, h.keys]
      entry := fun he he' => by
        obtain he | ⟨hi, rfl, rfl⟩ := (has_insert known).1 he <;>
          obtain he' | ⟨hi', hq', rfl⟩ := (has_insert known').1 he'
        · exact h.entry he he'
        · exact absurd (lt_size_iff.2 ⟨_, _, he⟩) (by rw [hi', h.size]; exact Nat.lt_irrefl _)
        · exact absurd (lt_size_iff.2 ⟨_, _, he'⟩) (by rw [hi, h.size]; exact Nat.lt_irrefl _)
        · exact ⟨h.newSolver _, rfl, .inl rfl, .inl rfl⟩ }
    have second := first.record (.created q)
    dsimp only
    split
    · exact ⟨h.size, second.addAllocatedType _⟩
    · exact ⟨h.size, second⟩

theorem start (h : Alike L p p') (hi : i < p.size) : ∃ isNew p₁ p₁',
    p.start i = .ok (isNew, p₁) ∧ p'.start i = .ok (isNew, p₁') ∧ Alike L p₁ p₁' := by
  obtain ⟨q, e, he⟩ := lt_size_iff.1 hi
  obtain ⟨e', he', alike⟩ := h.exists_has he
  let begin (p : Pool) : Pool :=
    { p with entries := p.entries.modify i fun entry => { entry with started := true } }
  refine ⟨!e.started, begin p, begin p', ?_, ?_, { h with entry := fun h₁ h₂ => ?_ }⟩
  · rw [Pool.start, value?_eq_some_iff.2 ⟨q, he⟩]
  · rw [Pool.start, value?_eq_some_iff.2 ⟨q, he'⟩, alike.started]
  · obtain ⟨e, he, rfl⟩ := has_modifyEntry.1 h₁
    obtain ⟨e', he', rfl⟩ := has_modifyEntry.1 h₂
    have alike := h.entry he he'
    split
    · exact { alike with started := rfl }
    · exact alike

/-- A listener for methods makes no difference where listeners are not compared. -/
theorem addMethodListener_right (h : Alike L p p') (unheard : ¬ L.heard) (listener : Nat) :
    Alike L p (p'.addMethodListener listener).2 := by
  unfold Pool.addMethodListener
  split
  · exact h
  · exact {
      program := h.program.trans (program_changeAll p' _).symm
      allocated := h.allocated.trans (allocated_changeAll p' _).symm
      keys := h.keys.trans (keys_changeAll p' _).symm
      entry := fun he he' => by
        obtain ⟨e', h', rfl⟩ := has_changeAll.1 he'
        have alike := h.entry he h'
        have more := (alike.solver.symm.addMethodListener_unheard unheard listener).symm
        exact {
          solver := { more with
            resting' := more.resting'.drainNotices.resting
            notices := fun heard => absurd heard unheard }
          started := alike.started
          tidy := alike.tidy
          tidy' := alike.tidy'.imp_right fun pending =>
            (congrArg Feed.pending (outbox_addMethodListener e'.solver listener)).trans pending }
      listeners := fun heard => absurd heard unheard
      journal := fun heard => absurd heard unheard }

/-- The same events are seen in both pools, in the same order. -/
theorem seen_drain (h : Alike L p p') :
    p.drain.1.filterMap (seen L.left) = p'.drain.1.filterMap (seen L.right) := by
  have tidy {i q e} (he : p.Has i q e) : e.Tidy :=
    have ⟨_, _, alike⟩ := h.exists_has he
    alike.tidy
  have tidy' {i q e'} (he' : p'.Has i q e') : e'.Tidy :=
    have ⟨_, _, alike⟩ := h.symm.exists_has he'
    alike.tidy
  rw [filterMap_drain tidy, filterMap_drain tidy', ← OrderedMap.map_snd_toList,
    ← OrderedMap.map_snd_toList, List.map_map, List.map_map, h.map_toList]
  exact fun alike => alike.solver.events

theorem drain (h : Alike L p p') : Alike L p.drain.2 p'.drain.2 :=
  { h with
    entry := fun he he' => by
      obtain ⟨e, h₁, rfl⟩ := has_drain.1 he
      obtain ⟨e', h₂, rfl⟩ := has_drain.1 he'
      have alike := h.entry h₁ h₂
      have none (s : Solver) : s.drainEvents.2.outbox.pending = [] := Feed.pending_takeAll _
      split <;> split
      · exact ⟨alike.solver.drainEvents, alike.started, .inr (none _), .inr (none _)⟩
      · next clean =>
        have empty := alike.tidy'.resolve_left clean
        exact ⟨alike.solver.drainEvents_left empty, alike.started, .inr (none _), .inr empty⟩
      · next clean _ =>
        have empty := alike.tidy.resolve_left clean
        exact ⟨(alike.solver.symm.drainEvents_left empty).symm, alike.started, .inr empty,
          .inr (none _)⟩
      · exact alike }

end Alike

end Pool

end PointsTo
