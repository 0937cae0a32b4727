import PointsTo.Proofs.Analysis.Clients

/-!
# Reachable states

A call begins, and then events are collected and handled one at a time. `Reachable` follows an
analysis through the states in between, so it says more than what holds when calls have returned
(`reachable_of_performAll`). Every closed realm in which clients may start their queries in either
direction holds all reachable states (`Reachable.within`): an invariant of the reachable states is
shown by giving such a realm.
-/

namespace PointsTo

/-- The query that the call starts, if any. -/
def ClientCall.query? : ClientCall → Option Query
  | .solve query | .addBackwardQuery query _ => some query
  | .addAllocatedType _ | .addMethodListener _ => none

namespace Analysis

/-- What a call does before any event is handled. -/
def begin (a : Analysis) : ClientCall → Except Halt Analysis
  | .solve query => (·.2) <$> a.acceptNames.startQuery query.direction query
  | .addBackwardQuery query client => a.acceptNames.startBackward query (some (some client))
  | .addAllocatedType type => .ok (a.addAllocatedType type).2
  | .addMethodListener listener => .ok (a.addMethodListener listener).2

/-- After some calls, the last of which may be under way, the analysis may be in this state. -/
inductive Reachable (p : Program) (config : Config) : List ClientCall → Analysis → Prop
  | create : Reachable p config [] (create p config)
  | call {calls a b call} : Reachable p config calls a → a.Idle → a.begin call = .ok b →
      Reachable p config (calls ++ [call]) b
  | collect {calls a} : Reachable p config calls a → Reachable p config calls a.collect
  | handle {calls a b} : Reachable p config calls a → a.step? = some (.ok b) →
      Reachable p config calls b

variable {p : Program} {config : Config} {S : Supply p} {n : Nat} {w : Realm} {a b : Analysis}
  {call : ClientCall} {calls : List ClientCall}

/-! ## Calls go through reachable states -/

/-- A call begins, and if it starts a query, events are handled until none are left. -/
theorem perform_eq_begin (a : Analysis) (call : ClientCall) : a.perform call =
    a.begin call >>= fun b => if call.query?.isSome then b.run else .ok b := by
  cases call with
  | solve q =>
    rw [perform, Analysis.solve, Analysis.begin, map_eq_pure_bind, bind_assoc]
    simp only [ClientCall.query?, Option.isSome_some, if_true, pure_bind]
  | addBackwardQuery q client =>
    rw [perform, Analysis.addBackwardQuery, Analysis.begin]
    simp only [ClientCall.query?, Option.isSome_some, if_true]
  | addAllocatedType type => rfl
  | addMethodListener listener => rfl

theorem Reachable.runFor {fuel : Nat} (h : Reachable p config calls a)
    (ran : a.runFor fuel = .ok b) : Reachable p config calls b := by
  induction fuel generalizing a with
  | zero => exact Except.ok.inj ran ▸ h
  | succ fuel ih =>
    cases step : a.collect.step? with
    | none =>
      rw [runFor_of_idle step] at ran
      exact Except.ok.inj ran ▸ h.collect
    | some x =>
      rw [runFor_of_step step] at ran
      obtain ⟨c, rfl, rest⟩ := bind_eq_ok.1 ran
      exact ih (h.collect.handle step) rest

theorem Reachable.perform (h : Reachable p config calls a) (idle : a.Idle)
    (returned : a.perform call = .ok b) : Reachable p config (calls ++ [call]) b := by
  rw [perform_eq_begin] at returned
  obtain ⟨c, begun, rest⟩ := bind_eq_ok.1 returned
  have started := h.call idle begun
  split at rest
  · exact started.runFor rest
  · exact Except.ok.inj rest ▸ started

/-- What calls return is reachable. -/
theorem reachable_of_performAll (called : (create p config).performAll calls = .ok a) :
    Reachable p config calls a := by
  induction calls using List.reverseRecOn generalizing a with
  | nil => exact Except.ok.inj called ▸ .create
  | append_singleton calls call ih =>
    obtain ⟨b, c, before, returned, rest⟩ := performAll_append_cons called
    obtain rfl : c = a := Except.ok.inj rest
    exact (ih before).perform (ready_of_performAll before).idle returned

/-! ## Reachable states stay inside closed realms -/

/-- A call begins inside every realm in which its query may start. -/
theorem Working.yields_begin (h : Working S n a) (idle : a.Idle) (call : ClientCall) :
    Yields (a.begin call) fun b => (∃ (S' : Supply p) (n' : Nat), Working S' n' b) ∧
      ∀ {w : Realm}, b.Obeys w → (∀ q ∈ call.query?, w.reversed q) → a.Within w → b.Within w := by
  cases call with
  | solve q =>
    obtain ⟨r, result, working, begins⟩ := h.yields_startQuery q.direction q
    refine ⟨r.2, ?_, ⟨_, _, working⟩, fun _ asked => begins.inside (.inr (asked q rfl))⟩
    rw [Analysis.begin, result]
    rfl
  | addBackwardQuery q client =>
    obtain ⟨b, result, working, begins, -⟩ := h.yields_startBackward q client
    exact ⟨b, result, ⟨_, _, working⟩, fun _ asked => begins.inside (.inr (asked q rfl))⟩
  | addAllocatedType type =>
    obtain ⟨working, -, leads⟩ := h.addAllocatedType idle type
    exact .ok ⟨⟨_, _, working⟩, fun obeys _ => leads.inside obeys⟩
  | addMethodListener listener =>
    obtain ⟨working, -, leads⟩ := h.addMethodListener idle listener
    exact .ok ⟨⟨_, _, working⟩, fun obeys _ => leads.inside obeys⟩

theorem Reachable.working (h : Reachable p config calls a) :
    ∃ (S : Supply p) (n : Nat), Working S n a := by
  induction h with
  | create => exact ⟨_, _, working_create p config⟩
  | call _ idle begun ih =>
    obtain ⟨S, n, working⟩ := ih
    obtain ⟨c, result, working', -⟩ := working.yields_begin idle _
    exact Except.ok.inj (result.symm.trans begun) ▸ working'
  | collect _ ih =>
    obtain ⟨S, n, working⟩ := ih
    exact ⟨S, n, working.collect⟩
  | handle _ next ih =>
    obtain ⟨S, n, working⟩ := ih
    exact ⟨S, n, ((working.step next).of_eq_ok rfl).1⟩

/-- Closed realms that let in all aliases hold all states that are reachable by queries which may start
there. -/
theorem Reachable.within (h : Reachable p config calls a) (closed : w.Closed p config)
    (all : ∀ access base flow p v, w.imports access base flow p v)
    (asked : ∀ call ∈ calls, ∀ q ∈ call.query?, w.reversed q) : a.Within w := by
  induction h with
  | create => exact within_create closed
  | @call calls a b call reachable idle begun ih =>
    obtain ⟨S, n, working⟩ := reachable.working
    obtain ⟨c, result, -, inside⟩ := working.yields_begin idle call
    obtain rfl := Except.ok.inj (result.symm.trans begun)
    refine inside (obeys_of_open all) (asked call (List.mem_append_right _ List.mem_cons_self))
      (ih fun c hc => ?_)
    exact asked c (List.mem_append_left _ hc)
  | collect _ ih => exact (ih asked).collect
  | handle reachable next ih =>
    obtain ⟨S, n, working⟩ := reachable.working
    exact ((working.step next).of_eq_ok rfl).2.1.inside (obeys_of_open all) (ih asked)

end Analysis

end PointsTo
