import PointsTo.Analysis.Pool
import PointsTo.Proofs.Solver.Changes
import PointsTo.Proofs.Solver.Least

/-!
# The entries of a pool

`Pool.Has` reads the entry at a position. Each operation of the pool is stated through it: what an
entry is afterwards, in terms of what it was (`has_modify`, `has_start`, `has_drain`), and that a new
query gets a solver at rest behind all others (`getOrCreate_new`). No operation of the pool tells a
client of an allocation (`told`).
-/

namespace PointsTo

/-- The entry is for a client. -/
def Entry.isFound : Entry → Bool
  | .found .. => true
  | _ => false

namespace Pool

variable {p p' : Pool} {i j : Nat} {q q' : Query} {e e' : PoolEntry}

/-- The solver at a position and what the pool knows about it. -/
def Has (p : Pool) (i : Nat) (q : Query) (e : PoolEntry) : Prop :=
  p.entries.toList[i]? = some (q, e)

theorem Has.unique (h : p.Has i q e) (h' : p.Has i q' e') : q = q' ∧ e = e' :=
  Prod.mk.inj (Option.some.inj (h.symm.trans h'))

theorem Has.index_eq (h : p.Has i q e) (h' : p.Has j q e') : i = j :=
  OrderedMap.index_inj h h'

theorem indexOf?_eq_some_iff : p.indexOf? q = some i ↔ ∃ e, p.Has i q e :=
  OrderedMap.indexOf?_eq_some_iff

theorem lt_size_iff : i < p.size ↔ ∃ q e, p.Has i q e := by
  rw [size, ← OrderedMap.length_toList]
  constructor
  · exact fun h => ⟨_, _, List.getElem?_eq_getElem h⟩
  · exact fun ⟨_, _, h⟩ => (List.getElem?_eq_some_iff.1 h).1

theorem Has.queryAt (h : p.Has i q e) : p.queryAt i = .ok q := by
  rw [Pool.queryAt, (OrderedMap.getElem?_toList.1 h).1]

theorem Has.solverAt (h : p.Has i q e) : p.solverAt i = .ok e.solver := by
  rw [Pool.solverAt, (OrderedMap.getElem?_toList.1 h).2]

theorem value?_eq_none (h : ¬ i < p.size) : p.entries.value? i = none :=
  Array.getElem?_eq_none (by rw [p.entries.size_values]; exact Nat.le_of_not_lt h)

theorem value?_eq_some_iff : p.entries.value? i = some e ↔ ∃ q, p.Has i q e := by
  refine ⟨fun value => ?_, fun ⟨q, he⟩ => (OrderedMap.getElem?_toList.1 he).2⟩
  have hi : i < p.size := by
    refine Decidable.by_contra fun hi => ?_
    rw [value?_eq_none hi] at value
    cases value
  obtain ⟨q, e', he⟩ := lt_size_iff.1 hi
  obtain rfl := Option.some.inj (value.symm.trans (OrderedMap.getElem?_toList.1 he).2)
  exact ⟨q, he⟩

theorem mem_toList_iff {s : Solver} :
    (q, s) ∈ p.toList ↔ ∃ i e, p.Has i q e ∧ e.solver = s := by
  simp only [Pool.toList, List.mem_map, Prod.mk.injEq]
  constructor
  · rintro ⟨⟨q', e⟩, h, rfl, rfl⟩
    obtain ⟨i, h⟩ := List.mem_iff_getElem?.1 h
    exact ⟨i, e, h, rfl⟩
  · rintro ⟨i, e, h, rfl⟩
    exact ⟨(q, e), List.mem_iff_getElem?.2 ⟨i, h⟩, rfl, rfl⟩

theorem find?_eq_some_iff {s : Solver} :
    p.find? q = some s ↔ ∃ i e, p.Has i q e ∧ e.solver = s := by
  simp only [find?, Option.map_eq_some_iff, OrderedMap.get?_eq_some_iff, List.mem_iff_getElem?]
  constructor
  · rintro ⟨e, ⟨i, h⟩, rfl⟩
    exact ⟨i, e, h, rfl⟩
  · rintro ⟨i, e, h, rfl⟩
    exact ⟨e, ⟨i, h⟩, rfl⟩

/-! ## Operations step by step -/

/-- What holds when all solvers have changed still holds when all that they said is in the journal, if
it holds along the way. -/
theorem changeAll_induction {P : Pool → Prop} {f : Solver → Solver}
    (changed : P { p with entries := p.entries.mapValues fun e => { e with solver := f e.solver } })
    (collects : ∀ {p'} i, P p' → P (p'.collectNotices i)) : P (p.changeAll f) := by
  have collect (is : List Nat) {p' : Pool} (h : P p') : P (is.foldl collectNotices p') := by
    induction is generalizing p' with
    | nil => exact h
    | cons i is ih => exact ih (collects i h)
  exact collect _ changed

/-- The pool with a solver for one more query, before the class of the query is made known. -/
def created (p : Pool) (q : Query) : Pool :=
  ({ p with entries := p.entries.insert q ⟨p.newSolver q, false, true⟩ } : Pool).record (.created q)

theorem getOrCreate_of_has (h : p.Has i q e) : p.getOrCreate q = (i, p) := by
  rw [getOrCreate, indexOf?_eq_some_iff.2 ⟨e, h⟩]

theorem getOrCreate_of_new (new : p.indexOf? q = none) : (p.getOrCreate q).2 =
    match q.type with
    | some type => ((p.created q).addAllocatedType type).2
    | none => p.created q := by
  rw [getOrCreate, new]
  dsimp only
  cases q.type <;> rfl

/-- Asking for a solver changes nothing, or creates a solver and then makes its class known. -/
theorem getOrCreate_induction {P : Pool → Prop} (old : ∀ {i e}, p.Has i q e → P p)
    (new : p.indexOf? q = none → P (p.created q))
    (learns : ∀ type, P (p.created q) → P ((p.created q).addAllocatedType type).2) :
    P (p.getOrCreate q).2 := by
  cases known : p.indexOf? q with
  | some i =>
    obtain ⟨e, he⟩ := indexOf?_eq_some_iff.1 known
    rw [getOrCreate_of_has he]
    exact old he
  | none =>
    rw [getOrCreate_of_new known]
    split
    · exact learns _ (new known)
    · exact new known

/-! ## The journal -/

/-- What clients were told, in order. -/
def told (p : Pool) : List Entry := p.journal.posted.toList.filter (·.isFound)

theorem told_record (p : Pool) (entry : Entry) :
    (p.record entry).told = p.told ++ [entry].filter (·.isFound) := by
  simp [told, record]

theorem told_record_quiet (p : Pool) {entry : Entry} (quiet : entry.isFound = false) :
    (p.record entry).told = p.told := by
  rw [told_record, List.filter_singleton, quiet]
  exact List.append_nil _

theorem told_collectNotices (p : Pool) (i : Nat) : (p.collectNotices i).told = p.told := by
  have none : ∀ notices : List Notice,
      (notices.map (Entry.solver i)).filter (·.isFound) = [] := by
    simp [List.filter_eq_nil_iff, Entry.isFound]
  simp [told, collectNotices, Feed.posted_postAll, none]

theorem told_modify (p : Pool) (i : Nat) (f : Solver → Solver) : (p.modify i f).told = p.told :=
  told_collectNotices _ i

theorem told_changeAll (p : Pool) (f : Solver → Solver) : (p.changeAll f).told = p.told :=
  changeAll_induction (P := fun p' => p'.told = p.told) rfl fun i => (told_collectNotices _ i).trans

theorem told_addAllocatedType (p : Pool) (type : ClassName) :
    (p.addAllocatedType type).2.told = p.told := by
  unfold addAllocatedType
  split
  · rfl
  · exact told_changeAll _ _

theorem told_getOrCreate (p : Pool) (q : Query) : (p.getOrCreate q).2.told = p.told :=
  getOrCreate_induction (P := fun p' => p'.told = p.told) (fun _ => rfl)
    (fun _ => told_record_quiet _ rfl) fun type => (told_addAllocatedType _ type).trans

theorem told_start {isNew : Bool} (h : p.start i = .ok (isNew, p')) : p'.told = p.told := by
  unfold start at h
  split at h
  · cases h
  · obtain ⟨-, rfl⟩ := Prod.mk.inj (Except.ok.inj h)
    rfl

/-! ## Changing solvers -/

theorem has_collectNotices : (p.collectNotices j).Has i q e' ↔
    ∃ e, p.Has i q e ∧ e' = if j = i then { e with solver := e.solver.drainNotices.2 } else e := by
  simp only [Has, collectNotices, OrderedMap.getElem?_toList_modify, Option.map_eq_some_iff,
    Prod.mk.injEq, Prod.exists]
  constructor
  · rintro ⟨_, e, h, rfl, rfl⟩
    exact ⟨e, h, rfl⟩
  · rintro ⟨e, h, rfl⟩
    exact ⟨q, e, h, rfl, rfl⟩

theorem has_modify {f : Solver → Solver} : (p.modify j f).Has i q e' ↔
    ∃ e, p.Has i q e ∧
      e' = if j = i then ⟨(f e.solver).drainNotices.2, e.started, true⟩ else e := by
  rw [modify, has_collectNotices]
  simp only [Has, OrderedMap.getElem?_toList_modify, Option.map_eq_some_iff, Prod.mk.injEq,
    Prod.exists]
  constructor
  · rintro ⟨_, ⟨_, e, h, rfl, rfl⟩, rfl⟩
    exact ⟨e, h, by split <;> rfl⟩
  · rintro ⟨e, h, rfl⟩
    exact ⟨_, ⟨q, e, h, rfl, rfl⟩, by split <;> rfl⟩

theorem drainNotices_drainNotices (s : Solver) :
    s.drainNotices.2.drainNotices.2 = s.drainNotices.2 := rfl

theorem has_foldl_collectNotices {is : List Nat} : (is.foldl collectNotices p).Has i q e' ↔
    ∃ e, p.Has i q e ∧ e' = if i ∈ is then { e with solver := e.solver.drainNotices.2 } else e := by
  induction is generalizing p with
  | nil => simp
  | cons j is ih =>
    rw [List.foldl_cons, ih]
    simp only [has_collectNotices, List.mem_cons]
    constructor
    · rintro ⟨_, ⟨e, h, rfl⟩, rfl⟩
      refine ⟨e, h, ?_⟩
      by_cases hj : j = i <;> by_cases hi : i ∈ is <;>
        simp [hj, hi, eq_comm (a := i), drainNotices_drainNotices]
    · rintro ⟨e, h, rfl⟩
      refine ⟨_, ⟨e, h, rfl⟩, ?_⟩
      by_cases hj : j = i <;> by_cases hi : i ∈ is <;>
        simp [hj, hi, eq_comm (a := i), drainNotices_drainNotices]

theorem has_changeAll {f : Solver → Solver} : (p.changeAll f).Has i q e' ↔
    ∃ e, p.Has i q e ∧ e' = { e with solver := (f e.solver).drainNotices.2 } := by
  rw [changeAll, has_foldl_collectNotices]
  simp only [Has, OrderedMap.toList_mapValues, List.getElem?_map, Option.map_eq_some_iff,
    Prod.mk.injEq, Prod.exists, List.mem_range]
  constructor
  · rintro ⟨_, ⟨_, e, h, rfl, rfl⟩, rfl⟩
    exact ⟨e, h, if_pos (lt_size_iff.2 ⟨_, _, h⟩)⟩
  · rintro ⟨e, h, rfl⟩
    exact ⟨_, ⟨q, e, h, rfl, rfl⟩, (if_pos (lt_size_iff.2 ⟨_, _, h⟩)).symm⟩

end Pool

namespace PoolEntry

/-- No events of a solver are forgotten. -/
def Tidy (e : PoolEntry) : Prop := e.dirty ∨ e.solver.outbox.pending = []

/-- An entry after the solver was changed in some way. -/
structure Revised (cs : List Change) (e e' : PoolEntry) : Prop where
  alters : Solver.Alters cs e.solver e'.solver
  started : e'.started = e.started
  tidy : e.Tidy → e'.Tidy

end PoolEntry

namespace Pool

open PoolEntry

variable {p p' : Pool} {i j : Nat} {q q' : Query} {e e' : PoolEntry}

/-- Only the solver at the position changes, and its events wait. -/
theorem modify_spec {f : Solver → Solver} {cs : List Change} (h : p.Has i q e)
    (hf : Solver.Alters cs e.solver (f e.solver)) :
    (∃ e', (p.modify i f).Has i q e' ∧ Revised cs e e') ∧
      ∀ j ≠ i, ∀ q₁ e₁, (p.modify i f).Has j q₁ e₁ ↔ p.Has j q₁ e₁ := by
  have alters := hf.trans hf.resting.drainNotices
  rw [List.append_nil] at alters
  refine ⟨⟨_, has_modify.2 ⟨e, h, (if_pos rfl).symm⟩, alters, rfl, fun _ => .inl rfl⟩, ?_⟩
  intro j hj q₁ e₁
  rw [has_modify]
  simp [Ne.symm hj]

/-! ## New solvers -/

theorem program_changeAll (p : Pool) (f : Solver → Solver) : (p.changeAll f).program = p.program :=
  changeAll_induction (P := fun p' => p'.program = p.program) rfl fun _ => id

theorem program_addAllocatedType (p : Pool) (type : ClassName) :
    (p.addAllocatedType type).2.program = p.program := by
  unfold addAllocatedType
  split
  · rfl
  · exact program_changeAll _ _

/-- Making a class known to all solvers changes them all in the same way, if at all. -/
theorem has_addAllocatedType (p : Pool) (type : ClassName) : ∃ g : PoolEntry → PoolEntry,
    (∀ i q e', (p.addAllocatedType type).2.Has i q e' ↔ ∃ e, p.Has i q e ∧ e' = g e) ∧
      (∀ e, (g e).dirty = e.dirty) ∧
      ∀ e, e.solver.Resting → Revised [] e (g e) ∧ (e.solver.Fresh → (g e).solver.Fresh) := by
  unfold addAllocatedType
  split
  · refine ⟨id, fun i q e' => ?_, fun _ => rfl, fun e h => ⟨⟨h.alters_refl, rfl, id⟩, id⟩⟩
    simp
  · next allocated _ =>
    refine ⟨fun e => { e with solver := (e.solver.addAllocatedType type).2.drainNotices.2 },
      fun i q e' => has_changeAll, fun _ => rfl,
      fun e h => ⟨⟨?_, rfl, fun ht => ht.imp id fun hp => ?_⟩, fun hf => ?_⟩⟩
    · have learnt := (h.addAllocatedType type).forget rfl rfl rfl (by simp [Change.Grants])
      exact learnt.trans learnt.resting.drainNotices
    · show (e.solver.addAllocatedType type).2.drainNotices.2.outbox.pending = []
      rw [Solver.addAllocatedType_eq]
      exact hp
    · show (e.solver.addAllocatedType type).2.drainNotices.2.Fresh
      rw [Solver.addAllocatedType_eq]
      exact { hf with }

/-- A solver of a pool before its query is started. -/
structure Newborn (program : Program) (q : Query) (s : Solver) : Prop where
  fresh : s.Fresh
  seed : s.seed = q.fact
  direction : s.direction = q.direction
  graph : s.graph = ⟨program, q.direction⟩

theorem newborn_newSolver (p : Pool) (q : Query) : Newborn p.program q (p.newSolver q) := by
  have listen : ∀ (ls : List Nat) (s : Solver), Newborn p.program q s →
      Newborn p.program q (ls.foldl Solver.addMethodListener s) := by
    intro ls
    induction ls with
    | nil => exact fun s h => h
    | cons l ls ih =>
      refine fun s h => ih _ ?_
      unfold Solver.addMethodListener
      split
      · exact h
      · exact ⟨{ h.fresh with }, h.seed, h.direction, h.graph⟩
  have fresh := Solver.create_fresh q.direction ⟨p.program, q.direction⟩ q.fact
  exact listen _ _ ⟨fresh.allocate _, Solver.seed_allocate _ _, Solver.direction_allocate _ _,
    Solver.graph_allocate _ _⟩

theorem has_insert {e₀ : PoolEntry} (hq : p.indexOf? q = none) :
    ({ p with entries := p.entries.insert q e₀ } : Pool).Has i q' e' ↔
      p.Has i q' e' ∨ i = p.size ∧ q' = q ∧ e' = e₀ := by
  have new : ¬ p.entries.contains q := by
    rw [OrderedMap.contains_eq_isSome_indexOf?, show p.entries.indexOf? q = none from hq]
    simp
  simp only [Has, OrderedMap.toList_insert, if_neg new, List.getElem?_append,
    OrderedMap.length_toList, size]
  split
  · next hi =>
    have : i ≠ p.entries.size := by omega
    simp [this]
  · next hi =>
    rw [List.getElem?_eq_none (l := p.entries.toList) (by rw [OrderedMap.length_toList]; omega)]
    by_cases e : i = p.entries.size
    · simp [e, eq_comm]
    · have : i - p.entries.size ≠ 0 := by omega
      simp [e, this]

theorem has_created (new : p.indexOf? q = none) : (p.created q).Has i q' e' ↔
    p.Has i q' e' ∨ i = p.size ∧ q' = q ∧ e' = ⟨p.newSolver q, false, true⟩ :=
  has_insert new

/-- A new query gets a solver behind all others, which change at most in the classes they know. -/
theorem getOrCreate_new (hq : ∀ i e, ¬ p.Has i q e)
    (resting : ∀ {i q e}, p.Has i q e → e.solver.Resting) :
    (p.getOrCreate q).1 = p.size ∧ (p.getOrCreate q).2.program = p.program ∧
      (∃ e, (p.getOrCreate q).2.Has p.size q e ∧ e.started = false ∧ e.dirty ∧
        Newborn p.program q e.solver) ∧
      (∀ {i q' e}, p.Has i q' e →
        ∃ e', (p.getOrCreate q).2.Has i q' e' ∧ Revised [] e e') ∧
      ∀ {i q' e'}, (p.getOrCreate q).2.Has i q' e' → i = p.size ∨
        ∃ e, p.Has i q' e ∧ Revised [] e e' := by
  have none : p.indexOf? q = none := by
    cases h : p.indexOf? q with
    | none => rfl
    | some i =>
      obtain ⟨e, he⟩ := indexOf?_eq_some_iff.1 h
      exact absurd he (hq i e)
  have born := newborn_newSolver p q
  have resting₀ : (p.newSolver q).Resting := ⟨born.fresh.regular, born.fresh.idle, born.fresh.told⟩
  rw [getOrCreate, none]
  dsimp only
  set p₁ : Pool := ({ p with entries := p.entries.insert q ⟨p.newSolver q, false, true⟩ } : Pool).record
    (.created q) with hp₁
  have has₁ {i q' e'} : p₁.Has i q' e' ↔
      p.Has i q' e' ∨ i = p.size ∧ q' = q ∧ e' = ⟨p.newSolver q, false, true⟩ := has_insert none
  cases q.type with
  | none =>
    refine ⟨rfl, rfl, ⟨_, has₁.2 (.inr ⟨rfl, rfl, rfl⟩), rfl, rfl, born⟩, fun {i q' e} h => ?_,
      fun {i q' e'} h => ?_⟩
    · exact ⟨e, has₁.2 (.inl h), (resting h).alters_refl, rfl, id⟩
    · obtain h | ⟨rfl, -, -⟩ := has₁.1 h
      · exact .inr ⟨e', h, (resting h).alters_refl, rfl, id⟩
      · exact .inl rfl
  | some type =>
    obtain ⟨g, has₂, dirty, revised⟩ := has_addAllocatedType p₁ type
    obtain ⟨new, fresh⟩ := revised ⟨p.newSolver q, false, true⟩ resting₀
    refine ⟨rfl, ?_, ⟨_, (has₂ _ _ _).2 ⟨_, has₁.2 (.inr ⟨rfl, rfl, rfl⟩), rfl⟩, new.started, ?_,
      fresh born.fresh, new.alters.seed.trans born.seed, new.alters.direction.trans born.direction,
      new.alters.graph.trans born.graph⟩, fun {i q' e} h => ?_, fun {i q' e'} h => ?_⟩
    · exact program_addAllocatedType p₁ type
    · rw [dirty]
    · exact ⟨_, (has₂ _ _ _).2 ⟨e, has₁.2 (.inl h), rfl⟩, (revised e (resting h)).1⟩
    · obtain ⟨e, h₁, rfl⟩ := (has₂ _ _ _).1 h
      obtain h₁ | ⟨rfl, -, -⟩ := has₁.1 h₁
      · exact .inr ⟨e, h₁, (revised e (resting h₁)).1⟩
      · exact .inl rfl

/-! ## Starting -/

theorem start_spec (h : p.Has i q e) : ∃ p', p.start i = .ok (!e.started, p') ∧
    p'.program = p.program ∧ ∀ {j q e'}, p'.Has j q e' ↔
      ∃ e, p.Has j q e ∧ e' = if i = j then { e with started := true } else e := by
  refine ⟨{ p with entries := p.entries.modify i fun e => { e with started := true } }, ?_, rfl,
    fun {j q e'} => ?_⟩
  · rw [start, (OrderedMap.getElem?_toList.1 h).2]
  · simp only [Has, OrderedMap.getElem?_toList_modify, Option.map_eq_some_iff, Prod.mk.injEq,
      Prod.exists]
    constructor
    · rintro ⟨_, e, h, rfl, rfl⟩
      exact ⟨e, h, rfl⟩
    · rintro ⟨e, h, rfl⟩
      exact ⟨q, e, h, rfl, rfl⟩

/-! ## Collecting events -/

theorem has_drain : p.drain.2.Has i q e' ↔ ∃ e, p.Has i q e ∧
    e' = if e.dirty then { e with solver := e.solver.drainEvents.2, dirty := false } else e := by
  simp only [Has, drain, OrderedMap.toList_mapValues, List.getElem?_map, Option.map_eq_some_iff,
    Prod.mk.injEq, Prod.exists]
  constructor
  · rintro ⟨_, e, h, rfl, rfl⟩
    exact ⟨e, h, rfl⟩
  · rintro ⟨e, h, rfl⟩
    exact ⟨q, e, h, rfl, rfl⟩

/-- No solver was changed since its events were collected. -/
def Clean (p : Pool) : Prop := ∀ i q e, p.Has i q e → e.dirty = false

theorem clean_drain (p : Pool) : p.drain.2.Clean := by
  intro i q e he
  obtain ⟨e, -, rfl⟩ := has_drain.1 he
  split
  · rfl
  · next clean => exact Bool.eq_false_iff.2 clean

/-- Nothing is collected from solvers that were not changed. -/
theorem Clean.drain (h : p.Clean) : p.drain = ([], p) := by
  have clean {i e} (value : p.entries.value? i = some e) : ¬ e.dirty := by
    obtain ⟨q, he⟩ := value?_eq_some_iff.1 value
    exact Bool.eq_false_iff.1 (h i q e he)
  refine Prod.ext ?_ ?_
  · refine List.flatMap_eq_nil_iff.2 fun ⟨e, i⟩ he => ?_
    have value := Array.getElem?_toList.symm.trans (List.mem_zipIdx_iff_getElem?.1 he)
    exact if_neg (clean value)
  · exact congrArg (fun entries => { p with entries })
      (OrderedMap.mapValues_eq_self fun i e value => if_neg (clean value))

/-- What was collected from each solver, in the order of positions. -/
def read (p : Pool) : List (List Event) := p.entries.toList.map fun (_, e) => e.solver.outbox.taken

/-- Everything that was collected, with the positions of the solvers. -/
def delivered (p : Pool) : List (Nat × Event) :=
  p.read.zipIdx.flatMap fun (events, i) => events.map (i, ·)

theorem getElem?_read {events : List Event} : p.read[i]? = some events ↔
    ∃ q e, p.Has i q e ∧ e.solver.outbox.taken = events := by
  simp only [read, List.getElem?_map, Option.map_eq_some_iff, Prod.exists]
  rfl

theorem mem_delivered {event : Event} : (i, event) ∈ p.delivered ↔
    ∃ q e, p.Has i q e ∧ event ∈ e.solver.outbox.taken := by
  simp only [delivered, List.mem_flatMap, List.mem_map, Prod.mk.injEq, Prod.exists,
    List.mem_zipIdx_iff_getElem?, getElem?_read]
  constructor
  · rintro ⟨_, _, ⟨q, e, h, rfl⟩, _, hm, rfl, rfl⟩
    exact ⟨q, e, h, hm⟩
  · rintro ⟨q, e, h, hm⟩
    exact ⟨_, i, ⟨q, e, h, rfl⟩, event, hm, rfl, rfl⟩

/-- Nothing is collected by steps that only post events. -/
theorem read_congr
    (old : ∀ {i q e}, p.Has i q e →
      ∃ e', p'.Has i q e' ∧ e'.solver.outbox.taken = e.solver.outbox.taken)
    (new : ∀ {i q e'}, p'.Has i q e' → ∃ e, p.Has i q e) : p'.read = p.read := by
  refine List.ext_getElem? fun i => Option.ext fun events => ?_
  rw [getElem?_read, getElem?_read]
  constructor
  · rintro ⟨q, e', h, rfl⟩
    obtain ⟨e, he⟩ := new h
    obtain ⟨e₁, h₁, same⟩ := old he
    obtain ⟨-, rfl⟩ := h.unique h₁
    exact ⟨q, e, he, same.symm⟩
  · rintro ⟨q, e, h, rfl⟩
    obtain ⟨e', h', same⟩ := old h
    exact ⟨q, e', h', same⟩

/-- A new solver has posted nothing yet. -/
theorem delivered_getOrCreate (q : Query)
    (resting : ∀ {i q e}, p.Has i q e → e.solver.Resting) :
    (p.getOrCreate q).2.delivered = p.delivered := by
  by_cases hq : ∃ i e, p.Has i q e
  · obtain ⟨i, e, h⟩ := hq
    rw [getOrCreate_of_has h]
  obtain ⟨-, -, ⟨e₀, h₀, -, -, born⟩, old, new⟩ := getOrCreate_new (fun i e h => hq ⟨i, e, h⟩) resting
  have e : (p.getOrCreate q).2.read = p.read ++ [[]] := by
    have size : p.read.length = p.size := by rw [read, List.length_map, OrderedMap.length_toList, Pool.size]
    refine List.ext_getElem? fun i => Option.ext fun events => ?_
    rw [getElem?_read, List.getElem?_append, size]
    split
    · next hi =>
      rw [getElem?_read]
      constructor
      · rintro ⟨q', e', h', rfl⟩
        obtain rfl | ⟨e, h, r⟩ := new h'
        · omega
        · exact ⟨q', e, h, r.alters.taken.symm⟩
      · rintro ⟨q', e, h, rfl⟩
        obtain ⟨e', h', r⟩ := old h
        exact ⟨q', e', h', r.alters.taken⟩
    · next hi =>
      constructor
      · rintro ⟨q', e', h', rfl⟩
        obtain rfl | ⟨e, h, -⟩ := new h'
        · obtain ⟨-, rfl⟩ := h'.unique h₀
          simp [born.fresh.outbox]
        · exact absurd (lt_size_iff.2 ⟨_, _, h⟩) hi
      · intro h
        obtain rfl : i = p.size := by
          have := (List.getElem?_eq_some_iff.1 h).1
          simp only [List.length_singleton] at this
          omega
        refine ⟨q, e₀, h₀, ?_⟩
        simpa [born.fresh.outbox, eq_comm] using h
  rw [delivered, e, List.zipIdx_append, List.flatMap_append]
  simp [delivered]

/-- Collecting hands out what waits, and all of it. -/
theorem delivered_drain (p : Pool) : p.drain.2.delivered.Perm (p.delivered ++ p.drain.1) := by
  have old : p.read = p.entries.values.toList.map (·.solver.outbox.taken) := by
    rw [← OrderedMap.map_snd_toList, List.map_map]
    rfl
  have new : p.drain.2.read = p.entries.values.toList.map fun e =>
      e.solver.outbox.taken ++ if e.dirty then e.solver.outbox.pending else [] := by
    rw [read, ← OrderedMap.map_snd_toList, List.map_map]
    simp only [drain, OrderedMap.toList_mapValues, List.map_map]
    refine List.map_congr_left fun ⟨q, e⟩ hm => ?_
    obtain ⟨i, h⟩ := List.mem_iff_getElem?.1 hm
    simp only [Function.comp_apply]
    split
    · exact (Feed.taken_takeAll _).trans (Feed.taken_append_pending _).symm
    · exact (List.append_nil _).symm
  rw [delivered, delivered, old, new, List.zipIdx_map, List.zipIdx_map, List.flatMap_map,
    List.flatMap_map]
  refine .trans (.of_eq ?_) (List.flatMap_append_perm _ _ _).symm
  refine List.flatMap_congr fun ⟨e, i⟩ _ => ?_
  simp only [Prod.map_fst, Prod.map_snd, List.map_append, id]
  split <;> rfl

end Pool

end PointsTo
