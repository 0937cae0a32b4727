import PointsTo.Proofs.Analysis.Clients
import PointsTo.Proofs.Analysis.PoolCalls

/-!
# Each event is handed out once

A pool looks only at the outboxes of dirty solvers when its events are collected. That is enough: a
solver that is not dirty has nothing in its outbox (`Orderly.tidy`), so a drain takes all that was
posted and not taken (`drain_fst`), and what is not taken in between is what was posted since the last
drain (`performAll_delivers`). The outbox of a solver remembers everything that was ever posted to it,
so that the events of one drain can be told from those of another even where they are equal.
-/

namespace PointsTo

namespace Pool

variable {program : Program} {p p' : Pool} {i : Nat} {q : Query} {e : PoolEntry}
  {before after : List PoolCall}

/-- Everything that the solver at a position ever posted. -/
def eventsOf (p : Pool) (i : Nat) : List Event :=
  match p.entries.value? i with
  | some entry => entry.solver.events
  | none => []

/-- What the solver at a position has posted since the pool was as it was once. -/
def eventsSince (p' p : Pool) (i : Nat) : List Event := (p'.eventsOf i).drop (p.eventsOf i).length

theorem Has.eventsOf (he : p.Has i q e) : p.eventsOf i = e.solver.events := by
  rw [Pool.eventsOf, value?_eq_some_iff.2 ⟨q, he⟩]

theorem eventsOf_of_size_le (hi : p.size ≤ i) : p.eventsOf i = [] := by
  rw [eventsOf, value?_eq_none (Nat.not_lt.2 hi)]

/-- A drain posts nothing. -/
theorem eventsOf_drain (p : Pool) (i : Nat) : p.drain.2.eventsOf i = p.eventsOf i := by
  by_cases hi : i < p.size
  · obtain ⟨q, e, he⟩ := lt_size_iff.1 hi
    rw [(has_drain.2 ⟨e, he, rfl⟩).eventsOf, he.eventsOf]
    split <;> rfl
  · have size : p.drain.2.size = p.size := OrderedMap.size_mapValues _ _
    rw [eventsOf_of_size_le (Nat.not_lt.1 hi), eventsOf_of_size_le (size ▸ Nat.not_lt.1 hi)]

/-! ## What a drain hands out -/

/-- Entries with their positions, position by position. -/
theorem flatMap_zipIdx {α β : Type} {as : List α} {f : α × Nat → List β} {g : Nat → List β}
    (same : ∀ i a, as[i]? = some a → f (a, i) = g i) :
    as.zipIdx.flatMap f = (List.range as.length).flatMap g := by
  rw [List.flatMap_def, List.flatMap_def]
  congr 1
  refine List.ext_getElem (by simp) fun i hi _ => ?_
  simp only [List.length_map, List.length_zipIdx] at hi
  simpa using same i as[i] (List.getElem?_eq_getElem hi)

/-- A drain hands out what waits, solver by solver. -/
theorem drain_fst {waiting : Nat → List Event} (tidy : ∀ {i q e}, p.Has i q e → e.Tidy)
    (waits : ∀ {i q e}, p.Has i q e → e.solver.outbox.pending = waiting i) :
    p.drain.1 = (List.range p.size).flatMap fun i => (waiting i).map (i, ·) := by
  have length : p.entries.values.toList.length = p.size := by
    rw [Array.length_toList, p.entries.size_values]
    rfl
  rw [← length]
  refine flatMap_zipIdx fun i e value => ?_
  obtain ⟨q, he⟩ := value?_eq_some_iff.1 (Array.getElem?_toList.symm.trans value)
  show (if e.dirty then e.solver.outbox.pending.map (i, ·) else []) = _
  rw [← waits he]
  split
  · rfl
  · next clean => rw [(tidy he).resolve_left clean, List.map_nil]

/-- A drain hands out what the solvers have posted since nothing waited, the solvers in the order of
their positions and the events of each in the order of posting. Draining posts nothing itself. -/
structure Delivers (p p' : Pool) : Prop where
  posted : ∀ i, p'.eventsOf i = p.eventsOf i ++ p'.eventsSince p i
  drained : p'.drain.1 = (List.range p'.size).flatMap fun i => (p'.eventsSince p i).map (i, ·)
  kept : ∀ i, p'.drain.2.eventsOf i = p'.eventsOf i
  clean : ∀ {i q e}, p'.Has i q e → e.dirty = false → e.solver.outbox.pending = []

/-- Solvers of which nobody takes events have taken as much as before. -/
theorem Orderly.taken_performAll (h : p.Orderly)
    (idle : ∀ {i q e}, p.Has i q e → e.solver.outbox.pending = [])
    (called : p.performAll after = .ok p') (kept : ∀ call ∈ after, ¬ call.takesEvents) :
    ∀ {i q e}, p'.Has i q e → e.solver.outbox.taken = p.eventsOf i := by
  refine ((h.history (P := fun calls p' => (∀ call ∈ calls, ¬ call.takesEvents) →
    p.size ≤ p'.size ∧ ∀ {i q e}, p'.Has i q e → e.solver.outbox.taken = p.eventsOf i)
    ?_ ?_ called).2 kept).2
  · refine fun _ => ⟨Nat.le_refl _, fun {i q e} he => ?_⟩
    rw [he.eventsOf, Solver.events, ← Feed.taken_append_pending, idle he, List.append_nil]
  intro calls p₁ call p₂ _ follows _ old kept
  obtain ⟨size, taken⟩ := old fun call hc => kept call (List.mem_append_left _ hc)
  refine ⟨size.trans follows.size_le, fun {i q e'} he' => ?_⟩
  obtain ⟨e, he, follows⟩ | ⟨rfl, -, -, -, fresh⟩ := follows.has_cases he'
  · rw [follows.taken (kept call (List.mem_append_right _ List.mem_cons_self)), taken he]
  · rw [fresh.outbox, eventsOf_of_size_le size]
    exact Feed.taken_empty

/-- After a drain, and at first, nothing waits. -/
theorem pending_of_drained (called : (create program).performAll before = .ok p)
    (drained : before = [] ∨ ∃ calls, before = calls ++ [.drain]) (he : p.Has i q e) :
    e.solver.outbox.pending = [] := by
  obtain rfl | ⟨calls, rfl⟩ := drained
  · obtain rfl := Except.ok.inj called
    exact absurd he not_has_create
  · obtain ⟨p₁, first, last⟩ := performAll_append called
    obtain rfl := Except.ok.inj (performAll_singleton.symm.trans last)
    obtain ⟨e₁, he₁, rfl⟩ := has_drain.1 he
    split
    · exact Feed.pending_takeAll _
    · next clean => exact ((orderly_of_performAll first).tidy he₁).resolve_left clean

/-- Whatever the owner of a pool calls after it was created or drained, the next drain hands out every
event that was posted since then, and nothing else, unless the owner takes events of a solver by
itself. -/
theorem performAll_delivers (called : (create program).performAll before = .ok p)
    (drained : before = [] ∨ ∃ calls, before = calls ++ [.drain])
    (rest : p.performAll after = .ok p') (kept : ∀ call ∈ after, ¬ call.takesEvents) :
    p.Delivers p' := by
  have orderly := orderly_of_performAll called
  have orderly' : p'.Orderly := (orderly.history (P := fun _ _ => True) trivial
    (fun _ _ _ => id) rest).1
  have taken {i q e} (he : p'.Has i q e) : e.solver.outbox.taken = p.eventsOf i :=
    orderly.taken_performAll (pending_of_drained called drained) rest kept he
  have waits {i q e} (he : p'.Has i q e) : e.solver.outbox.pending = p'.eventsSince p i := by
    rw [eventsSince, he.eventsOf, Solver.events, ← Feed.taken_append_pending, ← taken he,
      List.drop_left]
  refine ⟨fun i => ?_, drain_fst orderly'.tidy waits, p'.eventsOf_drain, fun he clean => ?_⟩
  · by_cases hi : i < p'.size
    · obtain ⟨q, e, he⟩ := lt_size_iff.1 hi
      rw [← waits he, ← taken he, he.eventsOf, Solver.events, Feed.taken_append_pending]
    · have behind : p.size ≤ i := Nat.not_lt.1 fun hi' => by
        obtain ⟨q, e, he⟩ := lt_size_iff.1 hi'
        obtain ⟨e', he'⟩ := orderly.has_performAll rest he
        exact hi (lt_size_iff.2 ⟨q, e', he'⟩)
      rw [eventsSince, eventsOf_of_size_le behind, eventsOf_of_size_le (Nat.not_lt.1 hi)]
      rfl
  · exact (orderly'.tidy he).resolve_left (Bool.eq_false_iff.1 clean)

/-- A solver works and its events are collected. -/
def unboxedFirst : List PoolCall :=
  [.getOrCreate Analysis.unboxed, .change 0 [.perform (.solve Analysis.unboxed.fact)], .drain]

/-- The box at the end of the method. -/
def box : Query := .backward ⟨.ofIndex ⟨"m"⟩ 6, ⟨"y", ⟨"m"⟩⟩⟩

/-- Another solver works, and somebody subscribes to the transitions of the first one. -/
def boxNext : List PoolCall :=
  [.getOrCreate box, .change 1 [.perform (.solve box.fact)], .change 0 [.subscribeField .any 0]]

/-- The old solver posts events between two drains as well as the new one. -/
theorem sharedBox_delivers : ∃ program p p', Source.readProgram Analysis.sharedBox = .ok program ∧
    (create program).performAll unboxedFirst = .ok p ∧ p.performAll boxNext = .ok p' ∧
    p.Delivers p' ∧ p'.eventsSince p 0 ≠ [] ∧ p'.eventsSince p 1 ≠ [] := by
  have checked : (Source.readProgram Analysis.sharedBox).toOption.any fun program =>
      ((create program).performAll unboxedFirst).toOption.any fun p =>
      (p.performAll boxNext).toOption.any fun p' =>
        !(p'.eventsSince p 0).isEmpty && !(p'.eventsSince p 1).isEmpty := by
    decide +kernel
  obtain ⟨program, read, h⟩ := exists_ok_of_any checked
  obtain ⟨p, first, h⟩ := exists_ok_of_any h
  obtain ⟨p', next, posted⟩ := exists_ok_of_any h
  simp only [Bool.and_eq_true, Bool.not_eq_true', List.isEmpty_eq_false_iff] at posted
  refine ⟨program, p, p', read, first, next, performAll_delivers first ?_ next ?_, posted⟩
  · exact .inr ⟨unboxedFirst.dropLast, rfl⟩
  · simp [boxNext, PoolCall.takesEvents]

end Pool

end PointsTo
