import PointsTo.Proofs.Analysis.Reachable

/-!
# Solving again

When calls have returned, all events of the solvers were collected (`Pool.Clean`) and handled, and
every solver was started, whoever posed its query. So there is nothing to start for a query that has a
solver (`startQuery_of_started`) and nothing to handle (`run_of_clean`): solving it once more leaves
the analysis as it is (`solve_again`).
-/

namespace PointsTo

namespace Pool

variable {p : Pool} {i : Nat} {q : Query} {e : PoolEntry}

theorem Clean.addAllocatedType (h : p.Clean) (type : ClassName) :
    (p.addAllocatedType type).2.Clean := by
  obtain ⟨g, has, dirty, -⟩ := has_addAllocatedType p type
  intro i q e' he'
  obtain ⟨e, he, rfl⟩ := (has i q e').1 he'
  exact (dirty e).trans (h i q e he)

theorem Clean.addMethodListener (h : p.Clean) (listener : Nat) :
    (p.addMethodListener listener).2.Clean := by
  unfold Pool.addMethodListener
  split
  · exact h
  · intro i q e' he'
    obtain ⟨e, he, rfl⟩ := has_changeAll.1 he'
    exact h i q e he

/-- A solver is started once. -/
theorem Has.start_of_started (he : p.Has i q e) (started : e.started) :
    p.start i = .ok (false, p) := by
  have value := (OrderedMap.getElem?_toList.1 he).2
  have entries : p.entries.modify i (fun e => { e with started := true }) = p.entries := by
    refine OrderedMap.modify_eq_self fun e' value' => ?_
    obtain rfl : e = e' := Option.some.inj (value.symm.trans value')
    rw [← started]
  rw [Pool.start, value]
  simp only [entries, started, Bool.not_true]

end Pool

namespace Analysis

variable {p : Program} {config : Config} {S : Supply p} {n i : Nat} {q : Query} {e : PoolEntry}
  {a b : Analysis} {call : ClientCall} {calls : List ClientCall} {strayed : Prop}

/-! ## All events are collected -/

/-- A call leaves no solver with events that were not collected. -/
theorem Ready.clean_perform (h : Ready p strayed a) (clean : a.pool.Clean)
    (returned : a.perform call = .ok b) : b.pool.Clean := by
  obtain ⟨S, n, working, -⟩ := h.working
  rw [perform_eq_begin] at returned
  obtain ⟨c, begun, rest⟩ := bind_eq_ok.1 returned
  obtain ⟨c', result, ⟨S', n', working'⟩, -⟩ := working.yields_begin h.idle call
  obtain rfl : c' = c := Except.ok.inj (result.symm.trans begun)
  split at rest
  · exact (working'.run.of_eq_ok rest).2.2.2
  next quiet =>
  obtain rfl := Except.ok.inj rest
  cases call with
  | solve q | addBackwardQuery q client => exact absurd rfl quiet
  | addAllocatedType type =>
    obtain rfl := Except.ok.inj begun
    exact clean.addAllocatedType type
  | addMethodListener listener =>
    obtain rfl := Except.ok.inj begun
    exact clean.addMethodListener listener

theorem clean_of_performAll (called : (create p config).performAll calls = .ok a) :
    a.pool.Clean := by
  induction calls using List.reverseRecOn generalizing a with
  | nil =>
    obtain rfl := Except.ok.inj called
    intro i q e he
    simp [Pool.Has, create, Pool.create] at he
  | append_singleton calls call ih =>
    obtain ⟨b, c, before, returned, rest⟩ := performAll_append_cons called
    obtain rfl : c = a := Except.ok.inj rest
    exact (ready_of_performAll before).clean_perform (ih before) returned

/-! ## Nothing is left to do -/

/-- A query that was started is not started again, in whatever direction. -/
theorem startQuery_of_started (he : a.pool.Has i q e) (started : e.started) (d : Direction) :
    a.startQuery d q = .ok (i, a) := by
  simp only [startQuery, getOrCreate, Pool.getOrCreate_of_has he, he.start_of_started started, ask]
  rfl

/-- There is nothing to handle where nothing waits and nothing is to be collected. -/
theorem run_of_clean (clean : a.pool.Clean) (empty : a.queue.pending = []) : a.run = .ok a := by
  have collected := collect_of_clean clean
  obtain ⟨fuel, capacity⟩ : ∃ fuel, a.capacity = fuel + 1 :=
    Nat.exists_eq_add_one.2 (Nat.pow_pos (by omega))
  rw [run, capacity, runFor_of_idle (collected.symm ▸ step?_eq_none_iff.2 empty), collected]

/-- When calls have returned, nothing waits and no solver has work left, and every solver was started.
Solving a query that has a solver, be it a query that the analysis posed itself, only accounts for
the names of the query once more: no solver and no table changes, and nobody is told of anything. -/
theorem solve_again (called : (create p config).performAll calls = .ok a) :
    a.Quiescent ∧ (∀ {i q e}, a.pool.Has i q e → e.started) ∧
      ∀ q, a.Knows q → a.solve q = .ok { a with foreign := a.foreign + 3 } := by
  have ready := ready_of_performAll called
  obtain ⟨S, n, working, -⟩ := ready.working
  have started {i q e} (he : a.pool.Has i q e) : e.started := (working.within.host he).started
  have clean := clean_of_performAll called
  refine ⟨ready.quiescent, started, fun q ⟨i, e, he⟩ => ?_⟩
  have begun : a.acceptNames.startQuery q.direction q = .ok (i, a.acceptNames) :=
    startQuery_of_started (a := a.acceptNames) he (started he) q.direction
  have ran : a.acceptNames.run = .ok a.acceptNames :=
    run_of_clean (a := a.acceptNames) clean ready.idle.queue
  simp only [solve, begun, bind, Except.bind, ran]
  rfl

/-- The box that is read from. -/
def readBox : Query := .backward ⟨.ofIndex ⟨"m"⟩ 5, ⟨"x", ⟨"m"⟩⟩⟩

/-- The analysis has asked for the box by itself, so a client that asks for it learns nothing new. -/
theorem sharedBox_solve_again : ∃ program a, Source.readProgram sharedBox = .ok program ∧
    (create program default).performAll [.solve unboxed] = .ok a ∧ readBox ≠ unboxed ∧
      a.solve readBox = .ok { a with foreign := a.foreign + 3 } := by
  have checked : (Source.readProgram sharedBox).toOption.any fun program =>
      ((create program default).performAll [.solve unboxed]).toOption.any fun a =>
        (a.pool.indexOf? readBox).isSome := by
    decide +kernel
  obtain ⟨program, read, h⟩ := exists_ok_of_any checked
  obtain ⟨a, called, found⟩ := exists_ok_of_any h
  obtain ⟨i, hi⟩ := Option.isSome_iff_exists.1 found
  have known : a.Knows readBox := ⟨i, Pool.indexOf?_eq_some_iff.1 hi⟩
  exact ⟨program, a, read, called, by decide, (solve_again called).2.2 readBox known⟩

end Analysis

end PointsTo
