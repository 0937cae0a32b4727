import PointsTo.Proofs.Solver.Outcome
import PointsTo.Proofs.Solver.Changes

/-!
# Which facts a solver reaches, and when it says so

A fact is reached once it is in some context and a field path leads from it to the seed. Both
conditions are kept up to date step by step: a fact gets its rules with its first context, and the
marks of productive states run backward along the transitions that are there. At rest neither lags
behind (`Resting.known_iff`, `Resting.productive_iff`), so the facts reached are those that meet both
conditions, no matter which was met first (`Resting.reached_iff`), and whoever takes the events out of
the solver gets each of these facts once (`reached_serveAll`).
-/

namespace PointsTo

/-- What the owner of a solver may ask for: to change it, or to have what it told. -/
inductive Request where
  | change (c : Change)
  | drainEvents
  | drainNotices

namespace Request

def Grants (seed : Fact) (F : Facts) : Request → Prop
  | change c => c.Grants seed F
  | drainEvents | drainNotices => True

end Request

namespace Solver

variable {s s' s₁ s₂ s₃ : Solver} {f : Fact}

/-! ## What is reached -/

/-- At rest, the facts whose rules are known are those in a context. -/
theorem Resting.known_iff (h : s.Resting) : s.rules.contains f ↔ s.facts.live f := by
  constructor
  · obtain ⟨N, -, -, below, -⟩ := h.regular.named
    exact below.entered
  · intro live
    obtain ⟨rs, hr⟩ := h.regular.exists_rules h.idle live
    rw [Std.TreeMap.contains_eq_isSome_getElem?, hr]
    rfl

/-- At rest, the seed is reached from the states that lead to it. -/
theorem Resting.productive_iff (h : s.Resting) (seed : s.seedState ∈ s.productive)
    {q : FieldState} : q ∈ s.productive ↔ ∃ labels, s.fields.Path s.seedState q labels := by
  constructor
  · obtain ⟨N, -, -, below, -⟩ := h.regular.named
    exact below.rooted q
  · rintro ⟨labels, path⟩
    induction path with
    | nil => exact seed
    | cons ht _ ih => exact (h.fieldDone ht).productive ih

/-- At rest, the facts reached are those in a context from which a path leads to the seed. -/
theorem Resting.reached_iff (h : s.Resting) (seed : s.seedState ∈ s.productive) :
    f ∈ s.reached ↔
      s.facts.live f ∧ ∃ labels, s.fields.Path s.seedState (.single f) labels := by
  rw [← h.known_iff, ← h.productive_iff seed]
  constructor
  · obtain ⟨N, -, -, below, -⟩ := h.regular.named
    exact below.witnessed f
  · exact fun ⟨known, productive⟩ => h.regular.settled.reached known productive

/-! ## Requests -/

/-- The events that a request hands out, and the solver afterwards. -/
def serve (s : Solver) : Request → List Event × Solver
  | .change c => ([], c.apply s)
  | .drainEvents => s.drainEvents
  | .drainNotices => ([], s.drainNotices.2)

/-- All events that some requests hand out, one after the other, and the solver afterwards. -/
def serveAll (s : Solver) : List Request → List Event × Solver
  | [] => ([], s)
  | request :: requests =>
    let (events, s) := s.serve request
    let (rest, s) := s.serveAll requests
    (events ++ rest, s)

/-- What serving requests does: the solver grows, and what it hands out is what was read. -/
structure Serves (s : Solver) (events : List Event) (s' : Solver) : Prop extends Later s s' where
  resting : s'.Resting
  taken : s'.outbox.taken = s.outbox.taken ++ events

theorem Serves.trans {es es' : List Event} (h : Serves s₁ es s₂) (h' : Serves s₂ es' s₃) :
    Serves s₁ (es ++ es') s₃ where
  toLater := h.toLater.trans h'.toLater
  resting := h'.resting
  taken := by rw [h'.taken, h.taken, List.append_assoc]

theorem Alters.serves {cs : List Change} (h : Alters cs s s') : Serves s [] s' where
  toLater := h.toLater
  resting := h.resting
  taken := h.taken.trans (List.append_nil _).symm

theorem Resting.serve (h : s.Resting) (request : Request) :
    Serves s (s.serve request).1 (s.serve request).2 := by
  cases request with
  | change c => exact (h.apply c).serves
  | drainNotices => exact h.drainNotices.serves
  | drainEvents =>
    obtain ⟨later, resting, -⟩ := h.drainEvents
    refine ⟨later, resting, ?_⟩
    show s.outbox.takeAll.2.taken = s.outbox.taken ++ s.outbox.pending
    rw [Feed.taken_takeAll, Feed.taken_append_pending]

theorem Resting.serveAll (h : s.Resting) (requests : List Request) :
    Serves s (s.serveAll requests).1 (s.serveAll requests).2 := by
  induction requests generalizing s with
  | nil => exact h.alters_refl.serves
  | cons request requests ih =>
    have first := h.serve request
    exact first.trans (ih first.resting)

/-- A closed set of facts that has what is granted has what the solver comes to know, if its ways
cover whatever is computed for classes that are known in the end. -/
theorem Resting.below_serve (h : s.Resting) {W : Ways} {F : Facts} {request : Request}
    (covers : W.CoversUpTo (s.serve request).2.allocated s.direction s.graph) (closed : F.Closed W)
    (granted : request.Grants s.seed F) (below : s.Below W F) : (s.serve request).2.Below W F := by
  cases request with
  | change c =>
    refine (h.apply c).below covers closed (fun c' hc => ?_) below
    rwa [List.mem_singleton.1 hc]
  | drainNotices => exact h.drainNotices.below covers closed (by simp) below
  | drainEvents => exact h.drainEvents.2.2 below

theorem Resting.below_serveAll (h : s.Resting) {W : Ways} {F : Facts} {requests : List Request}
    (covers : W.CoversUpTo (s.serveAll requests).2.allocated s.direction s.graph)
    (closed : F.Closed W) (granted : ∀ request ∈ requests, request.Grants s.seed F)
    (below : s.Below W F) : (s.serveAll requests).2.Below W F := by
  induction requests generalizing s with
  | nil => exact below
  | cons request requests ih =>
    have first := h.serve request
    have rest := first.resting.serveAll requests
    have covers' : W.CoversUpTo ((s.serve request).2.serveAll requests).2.allocated
        (s.serve request).2.direction (s.serve request).2.graph := by
      rw [first.direction, first.graph]
      exact covers
    have granted' : ∀ request' ∈ requests, request'.Grants (s.serve request).2.seed F := by
      rw [first.seed]
      exact fun request' hr => granted request' (List.mem_cons_of_mem request hr)
    have below' : (s.serve request).2.Below W F :=
      h.below_serve (covers.mono rest.allocated) closed (granted request List.mem_cons_self) below
    exact ih first.resting covers' granted' below'

/-- What was handed out so far and what waits is everything that was told. -/
theorem Serves.append_pending {events : List Event} (h : Serves s events s')
    (fresh : s.outbox.taken = []) : events ++ s'.outbox.pending = s'.events := by
  have read : s'.outbox.taken = events := by rw [h.taken, fresh, List.nil_append]
  rw [← read, Feed.taken_append_pending]
  rfl

/-- The facts of the events handed out so far and of those that wait are the facts reached. -/
theorem Serves.filterMap_fact? {events : List Event} (h : Serves s events s')
    (fresh : s.outbox.taken = []) :
    (events ++ s'.outbox.pending).filterMap Event.fact? = s'.reached.toList := by
  rw [h.append_pending fresh, h.resting.told.reached]

theorem Fresh.resting (h : s.Fresh) : s.Resting := ⟨h.regular, h.idle, h.told⟩

/-- Nothing was read from a fresh solver. -/
theorem Fresh.taken (h : s.Fresh) : s.outbox.taken = [] := by
  rw [h.outbox]
  exact Feed.taken_empty

/-- Whatever a solver is asked for, and also if transitions are handed to it from outside, the facts
reached are those that are in some context and from which a field path leads to the seed. Over the
life of the solver the events tell of each of these facts once, in the order in which they were
reached. -/
theorem reached_serveAll (direction : Direction) (graph : Supergraph) (seed : Fact)
    (requests : List Request) :
    let served := (create direction graph seed).serveAll requests
    let s := served.2
    (∀ f, f ∈ s.reached ↔ (∃ c, ⟨.single f.var, f.point, c⟩ ∈ s.calls) ∧
      ∃ labels, s.fields.Path (.alloc seed) (.single f) labels) ∧
    (served.1 ++ s.outbox.pending).filterMap Event.fact? = s.reached.toList ∧
    s.reached.toList.Nodup := by
  intro served s
  have fresh := create_fresh direction graph seed
  have serves := Resting.serveAll ⟨fresh.regular, fresh.idle, fresh.told⟩ requests
  have seedState : s.seedState = .alloc seed := congrArg FieldState.alloc serves.seed
  have productive : s.seedState ∈ s.productive := by
    rw [seedState]
    exact serves.facts.productive _ (OrderedSet.mem_ofList.2 List.mem_cons_self)
  refine ⟨fun f => ?_, serves.filterMap_fact? ?_, OrderedSet.nodup_toList _⟩
  · rw [← seedState]
    exact serves.resting.reached_iff productive
  · rw [fresh.outbox]
    exact Feed.taken_empty

end Solver

end PointsTo
