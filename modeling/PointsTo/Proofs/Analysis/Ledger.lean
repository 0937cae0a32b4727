import PointsTo.Proofs.Analysis.Clients
import PointsTo.Proofs.Analysis.PoolCalls

/-!
# What a pool remembers of its calls

The answers of a pool depend on the calls so far and on nothing else (`performAll_answers`): which
solvers are started (`started_iff`), which classes are known (`mem_allocated_iff`) and who listens for
methods (`mem_methodListeners_iff`) can be read off the list of calls, and a query stays where it was
found first. Changes of single solvers make no difference to any of this.
-/

namespace PointsTo

namespace Pool

variable {program : Program} {p p₁ : Pool} {i l : Nat} {q : Query} {e : PoolEntry}
  {type : ClassName} {calls before after : List PoolCall}

/-! ## The tables and the calls -/

/-- The solvers that are started are those for which a call said so. -/
theorem started_iff (called : (create program).performAll calls = .ok p) :
    (∀ {i}, .start i ∈ calls → i < p.size) ∧
      ∀ {i q e}, p.Has i q e → (e.started ↔ .start i ∈ calls) := by
  refine ((orderly_create program).history (P := fun calls p =>
    (∀ {i}, .start i ∈ calls → i < p.size) ∧
      ∀ {i q e}, p.Has i q e → (e.started ↔ .start i ∈ calls)) ?_ ?_ called).2
  · exact ⟨nofun, fun he => absurd he not_has_create⟩
  intro calls p₁ call p₂ _ follows called ⟨inside, started⟩
  refine ⟨fun {i} hm => ?_, fun {i q e'} he' => ?_⟩
  · obtain hm | hm := List.mem_append.1 hm
    · exact (inside hm).trans_le follows.size_le
    · obtain rfl := List.mem_singleton.1 hm
      obtain ⟨isNew, answered⟩ := start_of_perform called
      exact (lt_size_of_start answered).trans_le follows.size_le
  · rw [List.mem_append, List.mem_singleton, eq_comm (b := call)]
    obtain ⟨e, he, follows⟩ | ⟨rfl, rfl, unstarted, -⟩ := follows.has_cases he'
    · rw [follows.started, started he]
    · -- a position that nobody has seen was not started either
      have unseen : .start p₁.size ∉ calls := fun hm => Nat.lt_irrefl _ (inside hm)
      simp [unstarted, unseen]

/-- The classes that are known are those that a call made known. -/
theorem mem_allocated_iff (called : (create program).performAll calls = .ok p) :
    type ∈ p.allocated ↔ ∃ call ∈ calls, call.type? = some type := by
  refine ((orderly_create program).history (P := fun calls p =>
    type ∈ p.allocated ↔ ∃ call ∈ calls, call.type? = some type) ?_ ?_ called).2
  · simp [create]
  · intro calls p₁ call p₂ orderly _ called known
    rw [mem_allocated_perform orderly.carries called, known]
    simp [or_and_right, exists_or]

/-- The listeners are those that a call registered. -/
theorem mem_methodListeners_iff (called : (create program).performAll calls = .ok p) :
    l ∈ p.methodListeners ↔ .addMethodListener l ∈ calls := by
  refine ((orderly_create program).history (P := fun calls p =>
    l ∈ p.methodListeners ↔ .addMethodListener l ∈ calls) ?_ ?_ called).2
  · simp [create]
  · intro calls p₁ call p₂ _ _ called known
    rw [mem_methodListeners_perform called, known, List.mem_append, List.mem_singleton,
      eq_comm (b := call)]

/-- A query stays where it was found first. -/
theorem Orderly.has_of_getOrCreate (h : p₁.Orderly)
    (called : p₁.performAll (.getOrCreate q :: after) = .ok p) :
    ∃ e, p.Has (p₁.getOrCreate q).1 q e := by
  rw [← List.singleton_append] at called
  obtain ⟨p₂, first, rest⟩ := performAll_append called
  rw [performAll_singleton] at first
  have orderly := h.perform first
  obtain rfl := Except.ok.inj first
  obtain ⟨e, he⟩ := indexOf?_eq_some_iff.1 (p₁.indexOf?_getOrCreate q)
  exact orderly.has_performAll rest he

/-! ## The answers -/

/-- What a pool answers after some calls. -/
structure Answers (program : Program) (calls : List PoolCall) (p : Pool) : Prop where
  /-- No two solvers belong to the same query. -/
  distinct : (p.toList.map (·.1)).Nodup
  /-- A query that was asked for is found at the position where it was found then. -/
  position : ∀ {before q after p₁}, calls = before ++ .getOrCreate q :: after →
    (create program).performAll before = .ok p₁ →
    (p.getOrCreate q).1 = (p₁.getOrCreate q).1 ∧ p.queryAt (p₁.getOrCreate q).1 = .ok q
  /-- It is news that a solver is started, unless it was started before. -/
  start : ∀ i < p.size, ∃ isNew p', p.start i = .ok (isNew, p') ∧ (isNew ↔ .start i ∉ calls)
  /-- A class is news, unless it was made known before, or is that of a query asked for before. -/
  news : ∀ type, (p.addAllocatedType type).1 ↔
    .addAllocatedType type ∉ calls ∧ ∀ q, .getOrCreate q ∈ calls → q.type ≠ some type
  /-- Every solver knows all classes that are known. -/
  shared : ∀ q s, (q, s) ∈ p.toList → ∀ type ∈ p.allocated, type ∈ s.allocated
  /-- The classes of the queries are known. -/
  carried : ∀ q s, (q, s) ∈ p.toList → ∀ type, q.type = some type → type ∈ p.allocated

theorem addAllocatedType_fst : (p.addAllocatedType type).1 ↔ type ∉ p.allocated := by
  unfold addAllocatedType
  split
  · next known => simpa using OrderedSet.insertNew?_eq_none_iff.1 known
  · next allocated new => simpa using (OrderedSet.insertNew?_eq_some_iff.1 new).1

/-- The calls that make a class known add it, or ask for a query of that class. -/
theorem exists_type?_iff : (∃ call ∈ calls, call.type? = some type) ↔
    .addAllocatedType type ∈ calls ∨ ∃ q, .getOrCreate q ∈ calls ∧ q.type = some type := by
  constructor
  · rintro ⟨call, hc, typed⟩
    cases call with
    | getOrCreate q => exact .inr ⟨q, hc, typed⟩
    | addAllocatedType type' =>
      obtain rfl := Option.some.inj typed
      exact .inl hc
    | _ => cases typed
  · rintro (hc | ⟨q, hc, typed⟩)
    · exact ⟨_, hc, rfl⟩
    · exact ⟨_, hc, typed⟩

/-- Whatever the owner of a pool has called so far, in whatever order: no two solvers belong to the same
query, and each is found again where it was found first; starting a solver is news the first time and
making a class known is news the first time, queries of the class included; and every solver, old
or new, knows every class that is known, and these are the classes of the queries and more. -/
theorem performAll_answers (called : (create program).performAll calls = .ok p) :
    p.Answers program calls := by
  have orderly := orderly_of_performAll called
  refine ⟨?_, fun {before q after p₁} split first => ?_, fun i hi => ?_, fun type => ?_,
    fun q s hs type known => ?_, fun q s hs type typed => ?_⟩
  · have keys : p.toList.map (·.1) = p.entries.keys.toList := by
      rw [← OrderedMap.map_fst_toList, Pool.toList, List.map_map]
      rfl
    exact keys ▸ OrderedSet.nodup_toList _
  · obtain ⟨p₂, first', rest⟩ := performAll_append (split ▸ called)
    obtain rfl := Except.ok.inj (first.symm.trans first')
    obtain ⟨e, he⟩ := (orderly_of_performAll first).has_of_getOrCreate rest
    exact ⟨by rw [getOrCreate_of_has he], he.queryAt⟩
  · obtain ⟨q, e, he⟩ := lt_size_iff.1 hi
    obtain ⟨p', answered, -⟩ := start_spec he
    refine ⟨_, p', answered, ?_⟩
    rw [← (started_iff called).2 he]
    simp
  · rw [addAllocatedType_fst, mem_allocated_iff called, exists_type?_iff]
    simp
  · obtain ⟨i, e, he, rfl⟩ := mem_toList_iff.1 hs
    exact orderly.allocated he type known
  · obtain ⟨i, e, he, rfl⟩ := mem_toList_iff.1 hs
    exact orderly.carries he type typed

/-- The value that is put into the box. -/
def boxed : Query := ⟨.forward, ⟨.ofIndex ⟨"m"⟩ 1, ⟨"x", ⟨"m"⟩⟩⟩, some ⟨"A"⟩⟩

/-- One solver is created and works before the other one. -/
def boxedLast : List PoolCall :=
  [.getOrCreate Analysis.unboxed, .start 0, .change 0 [.perform (.solve Analysis.unboxed.fact)],
    .getOrCreate boxed]

/-- A solver that was there first knows the class of a query that was asked for later. -/
theorem sharedBox_answers : ∃ program p s, Source.readProgram Analysis.sharedBox = .ok program ∧
    (create program).performAll boxedLast = .ok p ∧ p.Answers program boxedLast ∧
      (Analysis.unboxed, s) ∈ p.toList ∧ ⟨"A"⟩ ∈ s.allocated := by
  have checked : (Source.readProgram Analysis.sharedBox).toOption.any fun program =>
      ((create program).performAll boxedLast).toOption.any fun p =>
        (p.find? Analysis.unboxed).isSome && (p.find? boxed).isSome := by
    decide +kernel
  obtain ⟨program, read, h⟩ := exists_ok_of_any checked
  obtain ⟨p, called, found⟩ := exists_ok_of_any h
  obtain ⟨first, last⟩ := Bool.and_eq_true_iff.1 found
  obtain ⟨s, hs⟩ := Option.isSome_iff_exists.1 first
  obtain ⟨s', hs'⟩ := Option.isSome_iff_exists.1 last
  have answers := performAll_answers called
  have hs := mem_toList_iff.2 (find?_eq_some_iff.1 hs)
  have hs' := mem_toList_iff.2 (find?_eq_some_iff.1 hs')
  exact ⟨program, p, s, read, called, answers, hs,
    answers.shared _ s hs _ (answers.carried _ s' hs' _ rfl)⟩

end Pool

end PointsTo
