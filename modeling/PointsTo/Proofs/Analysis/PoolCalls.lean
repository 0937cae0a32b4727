import PointsTo.Proofs.Analysis.Observed

/-!
# Calls of a pool

Whoever owns a pool asks for solvers, marks them as started, makes classes and listeners known,
changes single solvers and collects events, in any order (`PoolCall`). What one call makes of the
entries is said once (`perform_follows`): an old entry stays at its position and its solver only
grows, and the only entry that may be new is behind all others. Between two calls every solver is
at rest and knows what all solvers know, and no event or notice is forgotten (`Orderly`).
-/

namespace PointsTo

/-- What the owner of a pool asks of it. -/
inductive PoolCall where
  | getOrCreate (query : Query)
  | start (index : Nat)
  | addAllocatedType (type : ClassName)
  | addMethodListener (listener : Nat)
  /-- Changes the solver at a position in each of these ways, one after the other. -/
  | change (index : Nat) (changes : List Change)
  /-- Takes the events of the solver at a position out of its outbox. -/
  | drainSolver (index : Nat)
  | drain

namespace PoolCall

/-- The call hands out events. -/
def takesEvents : PoolCall → Bool
  | drainSolver _ | drain => true
  | _ => false

/-- The class that the call makes known to all solvers. -/
def type? : PoolCall → Option ClassName
  | getOrCreate query => query.type
  | addAllocatedType type => some type
  | _ => none

/-- The position that the call is about. -/
def index? : PoolCall → Option Nat
  | start index | change index _ | drainSolver index => some index
  | _ => none

end PoolCall

namespace PoolEntry

/-- What a call makes of the entry at a position. -/
structure Follows (call : PoolCall) (i : Nat) (e e' : PoolEntry) : Prop where
  later : Solver.Later e.solver e'.solver
  resting : e'.solver.Resting
  tidy : e.Tidy → e'.Tidy
  started : e'.started ↔ e.started ∨ call = .start i
  events : ∃ es, e'.solver.events = e.solver.events ++ es
  taken : ¬ call.takesEvents → e'.solver.outbox.taken = e.solver.outbox.taken

variable {cs : List Change} {e e' : PoolEntry} {call : PoolCall} {i : Nat}

/-- Changes of a solver that do not start it. -/
theorem Revised.follows (h : Revised cs e e') (other : call ≠ .start i) : Follows call i e e' where
  later := h.alters.toLater
  resting := h.alters.resting
  tidy := h.tidy
  started := by simp [h.started, other]
  events := by
    obtain ⟨es, posted⟩ := h.alters.outbox
    exact ⟨es, by simp [Solver.events, posted, Feed.posted_postAll]⟩
  taken := fun _ => h.alters.taken

theorem revised_refl (resting : e.solver.Resting) : Revised [] e e :=
  ⟨resting.alters_refl, rfl, id⟩

end PoolEntry

namespace Solver

variable {s : Solver} {l : Nat}

theorem mem_methodListeners_addMethodListener {l' : Nat} :
    l' ∈ (s.addMethodListener l).methodListeners ↔ l' ∈ s.methodListeners ∨ l' = l := by
  unfold addMethodListener
  split
  · next known => exact ⟨.inl, fun h => h.elim id fun e => e ▸ List.contains_iff_mem.1 known⟩
  · simp

theorem allocated_addMethodListener (s : Solver) (l : Nat) :
    (s.addMethodListener l).allocated = s.allocated := by
  unfold addMethodListener
  split <;> rfl

theorem mem_allocated_addAllocatedType {type t : ClassName} :
    t ∈ (s.addAllocatedType type).2.allocated ↔ t ∈ s.allocated ∨ t = type := by
  rw [addAllocatedType_eq]
  exact OrderedSet.mem_insert

theorem mem_allocated_allocate {types : List ClassName} {type : ClassName} :
    type ∈ (s.allocate types).allocated ↔ type ∈ s.allocated ∨ type ∈ types := by
  induction types generalizing s with
  | nil => simp [allocate]
  | cons t types ih =>
    rw [allocate, List.foldl_cons]
    refine ih.trans ?_
    rw [mem_allocated_addAllocatedType, List.mem_cons, or_assoc]

theorem mem_methodListeners_foldl {ls : List Nat} :
    l ∈ (ls.foldl addMethodListener s).methodListeners ↔ l ∈ s.methodListeners ∨ l ∈ ls := by
  induction ls generalizing s with
  | nil => simp
  | cons l' ls ih =>
    rw [List.foldl_cons, ih, mem_methodListeners_addMethodListener, List.mem_cons, or_assoc]

theorem allocated_foldl_addMethodListener (ls : List Nat) (s : Solver) :
    (ls.foldl addMethodListener s).allocated = s.allocated := by
  induction ls generalizing s with
  | nil => rfl
  | cons l ls ih => exact (ih _).trans (s.allocated_addMethodListener l)

theorem Informs.foldl (h : s.Informs) (ls : List Nat) :
    (ls.foldl Solver.addMethodListener s).Informs := by
  induction ls generalizing s with
  | nil => exact h
  | cons l ls ih => exact ih (h.addMethodListener l)

end Solver

namespace Pool

/-- The pool after a call, unless the call has a position that belongs to no solver. -/
def perform (p : Pool) : PoolCall → Except Fault Pool
  | .getOrCreate query => .ok (p.getOrCreate query).2
  | .start index => (p.start index).map (·.2)
  | .addAllocatedType type => .ok (p.addAllocatedType type).2
  | .addMethodListener listener => .ok (p.addMethodListener listener).2
  | .change index changes => p.changeSolver index fun s => changes.foldl Change.apply s
  | .drainSolver index => p.changeSolver index fun s => s.drainEvents.2
  | .drain => .ok p.drain.2

/-- The pool after some calls, one after the other. -/
def performAll (p : Pool) (calls : List PoolCall) : Except Fault Pool := calls.foldlM perform p

variable {p p' p₀ : Pool} {i j : Nat} {q : Query} {e e' : PoolEntry} {call : PoolCall}
  {calls before after : List PoolCall} {type : ClassName} {l : Nat}

theorem performAll_append (called : p.performAll (before ++ after) = .ok p') :
    ∃ p₁, p.performAll before = .ok p₁ ∧ p₁.performAll after = .ok p' := by
  rw [performAll, List.foldlM_append] at called
  cases first : p.performAll before with
  | error fault =>
    rw [show List.foldlM perform p before = .error fault from first] at called
    cases called
  | ok p₁ =>
    rw [show List.foldlM perform p before = .ok p₁ from first] at called
    exact ⟨p₁, rfl, called⟩

theorem performAll_singleton : p.performAll [call] = p.perform call := by
  rw [performAll, List.foldlM_cons]
  cases p.perform call <;> rfl

/-- What one call keeps holds after all of them. -/
theorem performAll_induction {P : List PoolCall → Pool → Prop} (nil : P [] p₀)
    (step : ∀ {calls p call p'}, P calls p → p.perform call = .ok p' → P (calls ++ [call]) p')
    (called : p₀.performAll calls = .ok p) : P calls p := by
  induction calls using List.reverseRecOn generalizing p with
  | nil =>
    obtain rfl := Except.ok.inj called
    exact nil
  | append_singleton calls call ih =>
    obtain ⟨p₁, first, last⟩ := performAll_append called
    exact step (ih first) (performAll_singleton ▸ last)

theorem start_of_perform (h : p.perform (.start i) = .ok p') :
    ∃ isNew, p.start i = .ok (isNew, p') := by
  rw [perform] at h
  cases started : p.start i with
  | error fault =>
    rw [started] at h
    cases h
  | ok result =>
    rw [started] at h
    obtain rfl := Except.ok.inj h
    exact ⟨result.1, rfl⟩

theorem lt_size_of_start {isNew : Bool} (h : p.start i = .ok (isNew, p')) : i < p.size := by
  refine Decidable.by_contra fun hi => ?_
  rw [start, value?_eq_none hi] at h
  cases h

/-- A change that succeeds is one of a solver that is there. -/
theorem changeSolver_eq_ok {f : Solver → Solver} (h : p.changeSolver i f = .ok p') :
    p' = p.modify i f := by
  unfold changeSolver at h
  split at h
  · exact (Except.ok.inj h).symm
  · cases h

/-- What a call that succeeds makes of the pool, call by call. -/
theorem perform_cases {P : PoolCall → Pool → Prop} (h : p.perform call = .ok p')
    (getOrCreate : ∀ q, P (.getOrCreate q) (p.getOrCreate q).2)
    (start : ∀ {i isNew p'}, p.start i = .ok (isNew, p') → P (.start i) p')
    (addAllocatedType : ∀ type, P (.addAllocatedType type) (p.addAllocatedType type).2)
    (addMethodListener : ∀ l, P (.addMethodListener l) (p.addMethodListener l).2)
    (change : ∀ i cs, P (.change i cs) (p.modify i fun s => cs.foldl Change.apply s))
    (drainSolver : ∀ i, P (.drainSolver i) (p.modify i fun s => s.drainEvents.2))
    (drain : P .drain p.drain.2) : P call p' := by
  cases call with
  | getOrCreate query => exact Except.ok.inj h ▸ getOrCreate query
  | start index =>
    obtain ⟨isNew, started⟩ := start_of_perform h
    exact start started
  | addAllocatedType type => exact Except.ok.inj h ▸ addAllocatedType type
  | addMethodListener listener => exact Except.ok.inj h ▸ addMethodListener listener
  | change index changes => exact changeSolver_eq_ok h ▸ change index changes
  | drainSolver index => exact changeSolver_eq_ok h ▸ drainSolver index
  | drain => exact Except.ok.inj h ▸ drain

/-- A call fails only if it is about a position that belongs to no solver. -/
theorem exists_perform_iff :
    (∃ p', p.perform call = .ok p') ↔ ∀ i, call.index? = some i → i < p.size := by
  have change {i : Nat} {f : Solver → Solver} :
      (∃ p', p.changeSolver i f = .ok p') ↔ i < p.size := by
    unfold changeSolver
    split <;> simp_all
  cases call with
  | getOrCreate | addAllocatedType | addMethodListener | drain => simp [perform, PoolCall.index?]
  | change | drainSolver => simp [perform, PoolCall.index?, change]
  | start index =>
    simp only [PoolCall.index?, Option.some.injEq, forall_eq']
    constructor
    · rintro ⟨p', called⟩
      obtain ⟨isNew, started⟩ := start_of_perform called
      exact lt_size_of_start started
    · intro hi
      obtain ⟨q, e, he⟩ := lt_size_iff.1 hi
      obtain ⟨p', started, -⟩ := start_spec he
      exact ⟨p', by rw [perform, started]; rfl⟩

/-! ## What a call makes of the entries -/

/-- What a call makes of a pool: the entries stay in their places, and there may be a new one behind
them. -/
structure Follows (call : PoolCall) (p p' : Pool) : Prop where
  old : ∀ {i q e}, p.Has i q e → ∃ e', p'.Has i q e' ∧ PoolEntry.Follows call i e e'
  new : ∀ {i q e'}, p'.Has i q e' → (∃ e, p.Has i q e) ∨
    i = p.size ∧ call = .getOrCreate q ∧ e'.started = false ∧ e'.Tidy ∧ e'.solver.Fresh

theorem Follows.refl (resting : ∀ {i q e}, p.Has i q e → e.solver.Resting)
    (other : ∀ i, call ≠ .start i) : Follows call p p where
  old he := ⟨_, he, (PoolEntry.revised_refl (resting he)).follows (other _)⟩
  new he := .inl ⟨_, he⟩

/-- Every entry is made into another one in the same place. -/
theorem Follows.of_has {g : Nat → PoolEntry → PoolEntry}
    (has : ∀ i q e', p'.Has i q e' ↔ ∃ e, p.Has i q e ∧ e' = g i e)
    (follows : ∀ {i q e}, p.Has i q e → PoolEntry.Follows call i e (g i e)) : Follows call p p' where
  old he := ⟨_, (has _ _ _).2 ⟨_, he, rfl⟩, follows he⟩
  new he := by
    obtain ⟨e, he, -⟩ := (has _ _ _).1 he
    exact .inl ⟨e, he⟩

section Entries

variable (resting : ∀ {i q e}, p.Has i q e → e.solver.Resting)
include resting

theorem getOrCreate_follows (q : Query) : Follows (.getOrCreate q) p (p.getOrCreate q).2 := by
  by_cases known : ∃ i e, p.Has i q e
  · obtain ⟨i, e, he⟩ := known
    rw [getOrCreate_of_has he]
    exact .refl resting nofun
  obtain ⟨-, -, ⟨e₀, he₀, unstarted, dirty, born⟩, old, new⟩ :=
    getOrCreate_new (fun i e he => known ⟨i, e, he⟩) resting
  refine ⟨fun he => ?_, fun {i q' e'} he' => ?_⟩
  · obtain ⟨e', he', revised⟩ := old he
    exact ⟨e', he', revised.follows nofun⟩
  · obtain rfl | ⟨e, he, -⟩ := new he'
    · obtain ⟨rfl, rfl⟩ := he'.unique he₀
      exact .inr ⟨rfl, rfl, unstarted, .inl dirty, born.fresh⟩
    · exact .inl ⟨e, he⟩

theorem start_follows {isNew : Bool} (h : p.start j = .ok (isNew, p')) :
    Follows (.start j) p p' := by
  obtain ⟨q, e, he⟩ := lt_size_iff.1 (lt_size_of_start h)
  obtain ⟨p₁, h₁, -, has⟩ := start_spec he
  obtain ⟨-, rfl⟩ := Prod.mk.inj (Except.ok.inj (h.symm.trans h₁))
  refine .of_has (g := fun i e => if j = i then { e with started := true } else e)
    (fun _ _ _ => has) fun {i q e} he => ?_
  have still : e.solver.Resting := resting he
  split
  · next here =>
    exact {
      later := .refl _
      resting := still
      tidy := id
      started := by simp [here]
      events := ⟨[], (List.append_nil _).symm⟩
      taken := fun _ => rfl }
  · next elsewhere =>
    exact (PoolEntry.revised_refl still).follows fun e => elsewhere (PoolCall.start.inj e)

theorem addAllocatedType_follows (type : ClassName) :
    Follows (.addAllocatedType type) p (p.addAllocatedType type).2 := by
  obtain ⟨g, has, -, revised⟩ := p.has_addAllocatedType type
  exact .of_has has fun he => (revised _ (resting he)).1.follows nofun

theorem addMethodListener_follows (l : Nat) :
    Follows (.addMethodListener l) p (p.addMethodListener l).2 := by
  unfold addMethodListener
  split
  · exact .refl resting nofun
  · let heard (s : Solver) : Solver := (s.addMethodListener l).drainNotices.2
    refine .of_has (g := fun _ e => { e with solver := heard e.solver })
      (fun _ _ _ => has_changeAll) fun {i q e} he => ?_
    have learnt := (resting he).addMethodListener l
    have revised : PoolEntry.Revised [.addMethodListener l] e
        { e with solver := (e.solver.addMethodListener l).drainNotices.2 } :=
      ⟨by simpa using learnt.trans learnt.resting.drainNotices, rfl, Or.imp_right fun pending =>
        (congrArg Feed.pending (Alike.outbox_addMethodListener e.solver l)).trans pending⟩
    exact revised.follows nofun

theorem change_follows (cs : List Change) :
    Follows (.change j cs) p (p.modify j fun s => cs.foldl Change.apply s) := by
  refine .of_has (fun _ _ _ => has_modify) fun {i q e} he => ?_
  split
  · obtain ⟨alters, -⟩ := (resting he).foldl_apply cs
    have revised : PoolEntry.Revised cs e
        ⟨(cs.foldl Change.apply e.solver).drainNotices.2, e.started, true⟩ :=
      ⟨by simpa using alters.trans alters.resting.drainNotices, rfl, fun _ => .inl rfl⟩
    exact revised.follows nofun
  · exact (PoolEntry.revised_refl (resting he)).follows nofun

theorem drainSolver_follows :
    Follows (.drainSolver j) p (p.modify j fun s => s.drainEvents.2) := by
  refine .of_has (fun _ _ _ => has_modify) fun {i q e} he => ?_
  obtain ⟨later, drained, -⟩ := (resting he).drainEvents
  split
  · have quiet := drained.drainNotices
    exact {
      later := later.trans quiet.toLater
      resting := quiet.resting
      tidy := fun _ => .inl rfl
      started := by simp
      events := ⟨[], (List.append_nil _).symm⟩
      taken := fun kept => absurd rfl kept }
  · exact (PoolEntry.revised_refl (resting he)).follows nofun

theorem drain_follows : Follows .drain p p.drain.2 := by
  refine .of_has (fun _ _ _ => has_drain) fun {i q e} he => ?_
  obtain ⟨later, drained, -⟩ := (resting he).drainEvents
  split
  · exact {
      later
      resting := drained
      tidy := fun _ => .inr (Feed.pending_takeAll _)
      started := by simp
      events := ⟨[], (List.append_nil _).symm⟩
      taken := fun kept => absurd rfl kept }
  · exact (PoolEntry.revised_refl (resting he)).follows nofun

/-- What any call makes of the entries. -/
theorem perform_follows (h : p.perform call = .ok p') : Follows call p p' :=
  perform_cases (P := fun call p' => Follows call p p') h (getOrCreate_follows resting)
    (start_follows resting) (addAllocatedType_follows resting) (addMethodListener_follows resting)
    (fun _ => change_follows resting) (fun _ => drainSolver_follows resting) (drain_follows resting)

end Entries

/-- An entry was there before the call, or it is the new one. -/
theorem Follows.has_cases (h : Follows call p p') (he' : p'.Has i q e') :
    (∃ e, p.Has i q e ∧ PoolEntry.Follows call i e e') ∨
      i = p.size ∧ call = .getOrCreate q ∧ e'.started = false ∧ e'.Tidy ∧ e'.solver.Fresh := by
  refine (h.new he').imp_left fun ⟨e, he⟩ => ?_
  obtain ⟨e₁, he₁, follows⟩ := h.old he
  obtain ⟨-, rfl⟩ := he'.unique he₁
  exact ⟨e, he, follows⟩

theorem Follows.size_le (h : Follows call p p') : p.size ≤ p'.size := by
  refine Nat.le_of_not_lt fun less => ?_
  obtain ⟨q, e, he⟩ := lt_size_iff.1 less
  obtain ⟨e', he', -⟩ := h.old he
  exact Nat.lt_irrefl _ (lt_size_iff.2 ⟨_, _, he'⟩)

/-! ## What all solvers share -/

theorem methodListeners_changeAll (p : Pool) (f : Solver → Solver) :
    (p.changeAll f).methodListeners = p.methodListeners :=
  changeAll_induction (P := fun p' => p'.methodListeners = p.methodListeners) rfl fun _ => id

theorem methodListeners_addAllocatedType (p : Pool) (type : ClassName) :
    (p.addAllocatedType type).2.methodListeners = p.methodListeners := by
  unfold addAllocatedType
  split
  · rfl
  · exact methodListeners_changeAll _ _

theorem mem_allocated_addAllocatedType {t : ClassName} :
    t ∈ (p.addAllocatedType type).2.allocated ↔ t ∈ p.allocated ∨ t = type := by
  unfold addAllocatedType
  split
  · next known =>
    exact ⟨.inl, fun h => h.elim id fun e => e ▸ OrderedSet.insertNew?_eq_none_iff.1 known⟩
  · next allocated new =>
    obtain ⟨-, rfl⟩ := OrderedSet.insertNew?_eq_some_iff.1 new
    rw [allocated_changeAll]
    exact OrderedSet.mem_insert

theorem mem_methodListeners_addMethodListener {l' : Nat} :
    l' ∈ (p.addMethodListener l).2.methodListeners ↔ l' ∈ p.methodListeners ∨ l' = l := by
  unfold addMethodListener
  split
  · next known => exact ⟨.inl, fun h => h.elim id fun e => e ▸ List.contains_iff_mem.1 known⟩
  · simp [methodListeners_changeAll]

/-- Every solver knows what all solvers of the pool know, and its listeners are informed. -/
structure Shares (p : Pool) : Prop where
  allocated : ∀ {i q e}, p.Has i q e → ∀ type ∈ p.allocated, type ∈ e.solver.allocated
  methodListener : ∀ {i q e}, p.Has i q e → ∀ l ∈ p.methodListeners, l ∈ e.solver.methodListeners
  informs : ∀ {i q e}, p.Has i q e → e.solver.Informs

namespace Shares

variable (h : p.Shares)
include h

/-- Solvers that grow forget nothing. -/
theorem later (allocated : p'.allocated = p.allocated)
    (listeners : p'.methodListeners = p.methodListeners)
    (old : ∀ {i q e'}, p'.Has i q e' → ∃ e, p.Has i q e ∧ Solver.Later e.solver e'.solver) :
    p'.Shares where
  allocated he' type ht := by
    obtain ⟨e, he, later⟩ := old he'
    exact later.allocated type (h.allocated he type (allocated ▸ ht))
  methodListener he' l hl := by
    obtain ⟨e, he, later⟩ := old he'
    exact later.methodListener l (h.methodListener he l (listeners ▸ hl))
  informs he' := by
    obtain ⟨e, he, later⟩ := old he'
    exact later.informs (h.informs he)

theorem addAllocatedType (type : ClassName) : (p.addAllocatedType type).2.Shares := by
  unfold Pool.addAllocatedType
  split
  · exact h
  · next allocated new =>
    obtain ⟨-, rfl⟩ := OrderedSet.insertNew?_eq_some_iff.1 new
    refine ⟨fun he' t ht => ?_, fun he' l hl => ?_, fun he' => ?_⟩
    all_goals
      obtain ⟨e, he, rfl⟩ := has_changeAll.1 he'
      have he : p.Has _ _ e := he
    · rw [allocated_changeAll] at ht
      refine Solver.mem_allocated_addAllocatedType.2
        ((OrderedSet.mem_insert.1 ht).imp_left fun old => ?_)
      exact h.allocated he t old
    · rw [methodListeners_changeAll] at hl
      show l ∈ (e.solver.addAllocatedType type).2.methodListeners
      rw [Solver.addAllocatedType_eq]
      exact h.methodListener he l hl
    · show (e.solver.addAllocatedType type).2.drainNotices.2.Informs
      rw [Solver.addAllocatedType_eq]
      exact { h.informs he with }

theorem addMethodListener (l : Nat) : (p.addMethodListener l).2.Shares := by
  unfold Pool.addMethodListener
  split
  · exact h
  · refine ⟨fun he' t ht => ?_, fun he' l' hl => ?_, fun he' => ?_⟩
    all_goals
      obtain ⟨e, he, rfl⟩ := has_changeAll.1 he'
    · show t ∈ (e.solver.addMethodListener l).allocated
      rw [Solver.allocated_addMethodListener]
      exact h.allocated he t (allocated_changeAll p _ ▸ ht)
    · refine Solver.mem_methodListeners_addMethodListener.2 ?_
      have hl : l' ∈ p.methodListeners ∨ l' = l := by
        simpa [methodListeners_changeAll] using hl
      exact hl.imp_left (h.methodListener he l')
    · exact { (h.informs he).addMethodListener l with }

/-- A new solver is told what the others know. -/
theorem created (new : p.indexOf? q = none) : (p.created q).Shares := by
  have silent : (Solver.create q.direction ⟨p.program, q.direction⟩ q.fact).Informs :=
    ⟨List.nodup_nil, fun _ => rfl⟩
  have informs : ((Solver.create q.direction ⟨p.program, q.direction⟩ q.fact).allocate
      p.allocated.toList).Informs := by
    rw [Solver.allocate_eq]
    exact { silent with }
  refine ⟨fun he t ht => ?_, fun he l hl => ?_, fun he => ?_⟩
  all_goals obtain he | ⟨-, -, rfl⟩ := (has_created new).1 he
  · exact h.allocated he t ht
  · show t ∈ (p.newSolver q).allocated
    rw [newSolver, Solver.allocated_foldl_addMethodListener]
    exact Solver.mem_allocated_allocate.2 (.inr ht)
  · exact h.methodListener he l hl
  · exact Solver.mem_methodListeners_foldl.2 (.inr hl)
  · exact h.informs he
  · exact informs.foldl p.methodListeners

theorem getOrCreate (q : Query) : (p.getOrCreate q).2.Shares :=
  getOrCreate_induction (fun _ => h) h.created fun type created => created.addAllocatedType type

end Shares

/-- The classes of the queries are known. -/
def Carries (p : Pool) : Prop :=
  ∀ {i q e}, p.Has i q e → ∀ type, q.type = some type → type ∈ p.allocated

theorem mem_allocated_getOrCreate (carries : p.Carries) {t : ClassName} :
    t ∈ (p.getOrCreate q).2.allocated ↔ t ∈ p.allocated ∨ q.type = some t := by
  cases known : p.indexOf? q with
  | some i =>
    obtain ⟨e, he⟩ := indexOf?_eq_some_iff.1 known
    rw [getOrCreate_of_has he]
    exact ⟨.inl, fun h => h.elim id (carries he t)⟩
  | none =>
    rw [getOrCreate_of_new known]
    split
    · next type typed =>
      rw [mem_allocated_addAllocatedType, typed, Option.some.injEq, eq_comm (a := t)]
      rfl
    · next untyped =>
      rw [untyped]
      simp [created, record]

theorem methodListeners_getOrCreate (p : Pool) (q : Query) :
    (p.getOrCreate q).2.methodListeners = p.methodListeners :=
  getOrCreate_induction (P := fun p' => p'.methodListeners = p.methodListeners) (fun _ => rfl)
    (fun _ => rfl) fun type => (methodListeners_addAllocatedType _ type).trans

theorem allocated_addMethodListener (p : Pool) (l : Nat) :
    (p.addMethodListener l).2.allocated = p.allocated := by
  unfold addMethodListener
  split
  · rfl
  · exact allocated_changeAll _ _

/-- The other calls leave alone what all solvers share. -/
theorem perform_shared (h : p.perform call = .ok p') (noQuery : ∀ q, call ≠ .getOrCreate q)
    (noType : ∀ type, call ≠ .addAllocatedType type)
    (noListener : ∀ l, call ≠ .addMethodListener l) :
    p'.allocated = p.allocated ∧ p'.methodListeners = p.methodListeners := by
  cases call with
  | getOrCreate query => exact absurd rfl (noQuery query)
  | addAllocatedType type => exact absurd rfl (noType type)
  | addMethodListener listener => exact absurd rfl (noListener listener)
  | start index =>
    rw [perform, start] at h
    split at h
    · cases h
    · obtain rfl := Except.ok.inj h
      exact ⟨rfl, rfl⟩
  | change index changes =>
    obtain rfl := changeSolver_eq_ok h
    exact ⟨rfl, rfl⟩
  | drainSolver index =>
    obtain rfl := changeSolver_eq_ok h
    exact ⟨rfl, rfl⟩
  | drain =>
    obtain rfl := Except.ok.inj h
    exact ⟨rfl, rfl⟩

/-- The classes that are known after a call. -/
theorem mem_allocated_perform (carries : p.Carries) (h : p.perform call = .ok p') {t : ClassName} :
    t ∈ p'.allocated ↔ t ∈ p.allocated ∨ call.type? = some t := by
  cases call with
  | getOrCreate query =>
    obtain rfl := Except.ok.inj h
    exact mem_allocated_getOrCreate carries
  | addAllocatedType type =>
    obtain rfl := Except.ok.inj h
    rw [mem_allocated_addAllocatedType, PoolCall.type?, Option.some.injEq, eq_comm (a := t)]
  | addMethodListener listener =>
    obtain rfl := Except.ok.inj h
    rw [allocated_addMethodListener]
    simp [PoolCall.type?]
  | start | change | drainSolver | drain =>
    rw [(perform_shared h nofun nofun nofun).1]
    simp [PoolCall.type?]

/-- The listeners that are registered after a call. -/
theorem mem_methodListeners_perform (h : p.perform call = .ok p') :
    l ∈ p'.methodListeners ↔ l ∈ p.methodListeners ∨ call = .addMethodListener l := by
  cases call with
  | getOrCreate query =>
    obtain rfl := Except.ok.inj h
    simp [methodListeners_getOrCreate]
  | addAllocatedType type =>
    obtain rfl := Except.ok.inj h
    simp [methodListeners_addAllocatedType]
  | addMethodListener listener =>
    obtain rfl := Except.ok.inj h
    rw [mem_methodListeners_addMethodListener, PoolCall.addMethodListener.injEq, eq_comm (a := l)]
  | start | change | drainSolver | drain =>
    rw [(perform_shared h nofun nofun nofun).2]
    simp

/-! ## Between two calls -/

/-- What holds of a pool between two calls. -/
structure Orderly (p : Pool) : Prop extends Shares p where
  resting : ∀ {i q e}, p.Has i q e → e.solver.Resting
  tidy : ∀ {i q e}, p.Has i q e → e.Tidy
  carries : p.Carries
  quiet : p.Quiet

theorem not_has_create {program : Program} : ¬ (create program).Has i q e := by
  simp [Has, create]

theorem orderly_create (program : Program) : (create program).Orderly where
  allocated he := absurd he not_has_create
  methodListener he := absurd he not_has_create
  informs he := absurd he not_has_create
  resting he := absurd he not_has_create
  tidy he := absurd he not_has_create
  carries he := absurd he not_has_create
  quiet _ _ _ he := absurd he not_has_create

namespace Orderly

variable (h : p.Orderly)
include h

theorem shares_perform (called : p.perform call = .ok p') : p'.Shares := by
  have follows := perform_follows h.resting called
  cases call with
  | getOrCreate query =>
    obtain rfl := Except.ok.inj called
    exact h.toShares.getOrCreate query
  | addAllocatedType type =>
    obtain rfl := Except.ok.inj called
    exact h.toShares.addAllocatedType type
  | addMethodListener listener =>
    obtain rfl := Except.ok.inj called
    exact h.toShares.addMethodListener listener
  | start | change | drainSolver | drain =>
    obtain ⟨allocated, listeners⟩ := perform_shared called nofun nofun nofun
    refine h.toShares.later allocated listeners fun he' => ?_
    obtain ⟨e, he, follows⟩ | ⟨-, new, -⟩ := follows.has_cases he'
    · exact ⟨e, he, follows.later⟩
    · cases new

theorem quiet_perform (called : p.perform call = .ok p') : p'.Quiet :=
  perform_cases (P := fun _ p' => p'.Quiet) called h.quiet.getOrCreate h.quiet.start
    h.quiet.addAllocatedType h.quiet.addMethodListener (fun i _ => h.quiet.modify i _)
    (fun i => h.quiet.modify i _) h.quiet.drain

theorem perform (called : p.perform call = .ok p') : p'.Orderly := by
  have follows := perform_follows h.resting called
  refine { h.shares_perform called with
    quiet := h.quiet_perform called
    resting := fun he' => ?_
    tidy := fun he' => ?_
    carries := fun {i q e'} he' type typed => ?_ }
  · obtain ⟨e, he, follows⟩ | ⟨-, -, -, -, fresh⟩ := follows.has_cases he'
    · exact follows.resting
    · exact ⟨fresh.regular, fresh.idle, fresh.told⟩
  · obtain ⟨e, he, follows⟩ | ⟨-, -, -, tidy, -⟩ := follows.has_cases he'
    · exact follows.tidy (h.tidy he)
    · exact tidy
  · rw [mem_allocated_perform h.carries called]
    obtain ⟨e, he, -⟩ | ⟨-, rfl, -⟩ := follows.has_cases he'
    · exact .inl (h.carries he type typed)
    · exact .inr typed

/-- What one call after another keeps holds of the calls so far and the pool after them. -/
theorem history {P : List PoolCall → Pool → Prop} (nil : P [] p)
    (step : ∀ {calls p₁ call p₂}, p₁.Orderly → Follows call p₁ p₂ → p₁.perform call = .ok p₂ →
      P calls p₁ → P (calls ++ [call]) p₂)
    (called : p.performAll calls = .ok p') : p'.Orderly ∧ P calls p' :=
  performAll_induction (P := fun calls p' => p'.Orderly ∧ P calls p') ⟨h, nil⟩
    (fun ⟨orderly, so⟩ called =>
      ⟨orderly.perform called, step orderly (perform_follows orderly.resting called) called so⟩)
    called

/-- Entries stay in their places. -/
theorem has_performAll (called : p.performAll calls = .ok p') (he : p.Has i q e) :
    ∃ e', p'.Has i q e' := by
  refine (h.history (P := fun _ p' => ∃ e', p'.Has i q e') ⟨e, he⟩ ?_ called).2
  intro _ _ _ _ _ follows _ ⟨e, he⟩
  obtain ⟨e', he', -⟩ := follows.old he
  exact ⟨e', he'⟩

end Orderly

/-- Whatever was called, the pool is orderly. -/
theorem orderly_of_performAll {program : Program}
    (called : (create program).performAll calls = .ok p) : p.Orderly :=
  ((orderly_create program).history (P := fun _ _ => True) trivial (fun _ _ _ => id) called).1

end Pool

end PointsTo
