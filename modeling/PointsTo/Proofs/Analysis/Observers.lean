import PointsTo.Proofs.Analysis.Lockstep
import PointsTo.Proofs.Analysis.Witnesses

/-!
# Observers of an analysis

Whoever observes an analysis does not influence it: recording witnesses, listeners of backward
queries, listeners for methods and debugging leave the queries, the automata, the joins and the
statistics as they are, down to their order (`observers_do_not_influence`). What the clients of one
analysis tell it, apart from who wants to hear of it, is its list of demands (`ClientCall.demand?`). Any
two analyses with the same demands are compared with one that nobody observes (`Alike.serve`).

Tickets put more events into the queue and make solvers dirty. A run of the observed analysis is
therefore compared turn by turn with a run of the other one that stands still whenever the event is an
answer nobody else sees (`Alike.turn`).
-/

namespace PointsTo

/-- What a client demands of an analysis, whoever is told of the results. -/
inductive Demand where
  | start (direction : Direction) (query : Query)
  | allocate (type : ClassName)
deriving DecidableEq

/-- What a call demands. Listeners for methods demand nothing. -/
def ClientCall.demand? : ClientCall → Option Demand
  | .solve query => some (.start query.direction query)
  | .addBackwardQuery query _ => some (.start .backward query)
  | .addAllocatedType type => some (.allocate type)
  | .addMethodListener _ => none

/-! ## What is seen -/

@[simp] theorem Announcement.seen_some (a : Announcement) : a.seen some = some a := by
  cases a <;> rfl

@[simp] theorem Event.seen_some (event : Event) : event.seen some = some event := by
  cases event <;> simp [Event.seen]

/-- Only answers to tickets may go unseen. -/
theorem Event.seen_eq_none {label : Nat → Option Nat} {event : Event} (h : event.seen label = none) :
    ∃ ticket seed, event = .announced (.witnessed ticket seed) ∧ label ticket = none := by
  cases event with
  | announced a =>
    cases a with
    | witnessed ticket seed => exact ⟨ticket, seed, rfl, by simpa [Event.seen] using h⟩
    | _ => cases h
  | _ => cases h

theorem Pool.filterMap_seen_some (events : List (Nat × Event)) :
    events.filterMap (seen some) = events := by
  have seen_some (x : Nat × Event) : seen some x = some x := by simp [seen]
  rw [funext seen_some, List.filterMap_some]

namespace Analysis

variable {L : Pairing} {p : Program} {S S' : Supply p} {n n' : Nat} {a b : Analysis}

/-! ## Runs -/

theorem runFor_collect (a : Analysis) (fuel : Nat) :
    a.collect.runFor (fuel + 1) = a.runFor (fuel + 1) := by
  rw [runFor, runFor, collect_of_clean a.pool.clean_drain]

namespace Alike

theorem collect (h : Alike L a b) : Alike L a.collect b.collect := by
  refine { h with pool := h.pool.drain, quiet := h.quiet.drain, queue := ?_ }
  show (a.queue.postAll a.pool.drain.1).pending = (b.queue.postAll b.pool.drain.1).pending.filterMap _
  rw [Feed.pending_postAll, Feed.pending_postAll, List.filterMap_append, ← h.queue,
    ← h.pool.seen_drain, h.labels,
    Pool.filterMap_seen_some]

/-- A turn of the second side is a turn of both, unless its event is an answer that nobody else sees.
Then the first side stands still. -/
theorem turn (h : Alike L a b) (hb : Working S n b) :
    (a.step? = none ∧ b.step? = none) ∨
    (∃ c, b.step? = some (.ok c) ∧ Alike L a c) ∨
    ∃ x y, a.step? = some x ∧ b.step? = some y ∧ Together (Alike L) x y := by
  cases next' : b.queue.next? with
  | none =>
    have empty := Feed.next?_eq_none_iff.1 next'
    refine .inl ⟨step?_eq_none_iff.2 ?_, step?_eq_none_iff.2 empty⟩
    rw [h.queue, empty]
    rfl
  | some x =>
    obtain ⟨⟨i, event'⟩, queue'⟩ := x
    have waits := Feed.pending_of_next?_eq_some next'
    have step' : b.step? = some (Analysis.handle { b with queue := queue' } i event') := by
      rw [step?, next']
    cases seen : event'.seen L.right with
    | none =>
      obtain ⟨ticket, seed, rfl, unlabelled⟩ := Event.seen_eq_none seen
      have read : Alike L a { b with queue := queue' } := { h with
        queue := by
          rw [h.queue, waits, List.filterMap_cons_none (by simp [Pool.seen, seen])] }
      obtain ⟨-, q, client, held, -⟩ := hb.witnesses_of_posted
        (Feed.mem_posted_of_mem_pending (waits ▸ List.mem_cons_self))
      obtain ⟨c, result, alike⟩ := read.onWitness_right held unlabelled seed
      exact .inr (.inl ⟨c, step'.trans (congrArg some result), alike⟩)
    | some event =>
      have visible : Pool.seen L.right (i, event') = some (i, event) := by simp [Pool.seen, seen]
      have waits' : a.queue.pending =
          (i, event) :: queue'.pending.filterMap (Pool.seen L.right) := by
        rw [h.queue, waits, List.filterMap_cons_some visible]
      cases next : a.queue.next? with
      | none =>
        rw [Feed.next?_eq_none_iff.1 next] at waits'
        cases waits'
      | some x =>
        obtain ⟨x, queue⟩ := x
        obtain ⟨rfl, rest⟩ := List.cons.inj ((Feed.pending_of_next?_eq_some next).symm.trans waits')
        have step : a.step? = some (Analysis.handle { a with queue } i event) := by
          rw [step?, next]
        have read : Alike L { a with queue } { b with queue := queue' } := { h with queue := rest }
        exact .inr (.inr ⟨_, _, step, step',
          read.handle (fun hx => (hb.complete.allocation hx).1) i seen⟩)

/-- Runs that last long enough end alike. -/
theorem runFor {fuel fuel' : Nat} (h : Alike L a b) (ha : Working S n a) (hb : Working S' n' b)
    (enough : n ^ 40 ≤ a.queue.taken.length + fuel)
    (enough' : n' ^ 40 ≤ b.queue.taken.length + fuel') :
    Together (Alike L) (a.runFor fuel) (b.runFor fuel') := by
  induction fuel' generalizing a b fuel with
  | zero => exact absurd hb.length_taken_lt (by omega)
  | succ fuel' ih =>
    obtain ⟨fuel, rfl⟩ : ∃ k, fuel = k + 1 := by
      refine Nat.exists_eq_succ_of_ne_zero ?_
      rintro rfl
      exact absurd ha.length_taken_lt (by omega)
    have taken (a : Analysis) : a.collect.queue.taken.length = a.queue.taken.length :=
      congrArg List.length (Feed.taken_postAll _ _)
    have := taken a
    have := taken b
    obtain ⟨none, none'⟩ | ⟨c, step', alike⟩ | ⟨x, y, step, step', together⟩ :=
      h.collect.turn hb.collect
    · rw [runFor_of_idle none, runFor_of_idle none']
      exact .ok h.collect
    · -- the first side keeps its fuel
      obtain ⟨working, -, length⟩ := (hb.collect.step step').of_eq_ok rfl
      rw [runFor_of_step step', ← runFor_collect]
      exact ih alike ha.collect working (by omega) (by omega)
    · rw [runFor_of_step step, runFor_of_step step']
      cases together with
      | ok alike =>
        obtain ⟨working, -, length⟩ := (ha.collect.step step).of_eq_ok rfl
        obtain ⟨working', -, length'⟩ := (hb.collect.step step').of_eq_ok rfl
        exact ih alike working working' (by omega) (by omega)
      | error => exact .error

theorem run (h : Alike L a b) (ha : Working S n a) (hb : Working S' n' b) :
    Together (Alike L) a.run b.run :=
  h.runFor ha hb ((Nat.pow_le_pow_left ha.ready 40).trans (Nat.le_add_left _ _))
    ((Nat.pow_le_pow_left hb.ready 40).trans (Nat.le_add_left _ _))

/-! ## Clients with tickets -/

/-- The clients of both sides take a ticket, which is the same one from then on. -/
theorem pushTicket (h : Alike L a b) (hb : Working S n b) (x : Ticket) :
    ∃ L' : Pairing, L'.heard = L.heard ∧ L'.right b.tickets.size = some a.tickets.size ∧
      Alike L' { a with tickets := a.tickets.push x } { b with tickets := b.tickets.push x } := by
  have new (t : Nat) : L.right t ≠ some a.tickets.size := by
    intro seen
    obtain ⟨y, hy, -⟩ := h.issued seen
    exact Nat.lt_irrefl _ (Array.getElem?_eq_some_iff.1 hy).1
  let L' := L.give b.tickets.size a.tickets.size new
  have right_new : L'.right b.tickets.size = some a.tickets.size := Pairing.right_give_self
  have right_old {t : Nat} {y : Ticket} (held : b.tickets[t]? = some y) : L'.right t = L.right t :=
    Pairing.right_give_of_ne (Nat.ne_of_lt (Array.getElem?_eq_some_iff.1 held).1)
  refine ⟨L', rfl, right_new, { h with
    pool := h.pool.relabel rfl rfl fun he t ht => ?_
    queue := ?_
    issued := fun {t k} seen => ?_
    ticketsOf := fun q => ?_
    unheard := fun heard {t y} hy seen => ?_ }⟩
  · -- whoever was asked for a ticket was asked for an old one
    obtain ⟨holder, client, held, -⟩ := hb.within.ticket he t ht
    exact right_old held
  · refine h.queue.trans (List.filterMap_congr fun ⟨i, event⟩ he => ?_)
    refine congrArg (Option.map (i, ·)) (Event.seen_congr ?_)
    rintro ticket seed rfl
    obtain ⟨-, q, client, held, -⟩ := hb.witnesses_of_posted (Feed.mem_posted_of_mem_pending he)
    exact (right_old held).symm
  · by_cases last : t = b.tickets.size
    · subst last
      obtain rfl := Option.some.inj (right_new.symm.trans seen)
      exact ⟨x, Array.getElem?_push_size, Array.getElem?_push_size⟩
    · obtain ⟨y, hy, hy'⟩ := h.issued ((Pairing.right_give_of_ne last).symm.trans seen)
      exact ⟨y, getElem?_push_of_some hy, getElem?_push_of_some hy'⟩
  · have old : (b.ticketsOf q).filterMap L'.right = (b.ticketsOf q).filterMap L.right :=
      List.filterMap_congr fun t ht => by
        obtain ⟨y, held⟩ := mem_ticketsOf.1 ht
        exact right_old held
    rw [ticketsOf_push, ticketsOf_push, List.filterMap_append, old, h.ticketsOf]
    split
    · rw [List.filterMap_cons_some right_new, List.filterMap_nil]
    · rfl
  · obtain hy | ⟨rfl, rfl⟩ := getElem?_push_cases hy
    · exact h.unheard heard hy ((right_old hy).symm.trans seen)
    · exact absurd (right_new.symm.trans seen) nofun

theorem acceptNames (h : Alike L a b) : Alike L a.acceptNames b.acceptNames :=
  { h with foreign := congrArg (· + 3) h.foreign }

/-- A backward query is started on both sides, and the client takes a ticket on both sides. -/
theorem startBackward (h : Alike L a b) (ha : Working S n a) (hb : Working S' n' b) (q : Query)
    (client : Nat) : ∃ L' : Pairing, L'.heard = L.heard ∧ Together (Alike L')
      (a.acceptNames.startBackward q (some (some client)))
      (b.acceptNames.startBackward q (some (some client))) := by
  obtain ⟨⟨i, a₁⟩, result, -⟩ := ha.yields_startQuery .backward q
  obtain ⟨⟨j, b₁⟩, result', begun, -⟩ := hb.yields_startQuery .backward q
  have started := h.acceptNames.startQuery .backward q
  rw [result, result'] at started
  cases started with
  | ok started =>
    obtain ⟨L', heard, seen, taken⟩ := started.2.pushTicket begun ⟨q, some client⟩
    refine ⟨L', heard, ?_⟩
    have left : L'.left a₁.tickets.size = some a₁.tickets.size := congrFun taken.labels _
    have same : a₁.allocations.of q = b₁.allocations.of q :=
      congrArg (Multimap.of · q) started.2.allocations
    rw [Analysis.startBackward, Analysis.startBackward, result, result']
    show Together (Alike L') ((a₁.allocations.of q).foldlM _ _) ((b₁.allocations.of q).foldlM _ _)
    rw [same]
    refine Together.foldlM taken fun x _ a b h => ?_
    obtain ⟨k, a₂, b₂, e, e', created⟩ := h.getOrCreate x
    show Together (Alike L')
      (requestTicket q.fact a₁.tickets.size (a.getOrCreate x).2 (a.getOrCreate x).1)
      (requestTicket q.fact b₁.tickets.size (b.getOrCreate x).2 (b.getOrCreate x).1)
    rw [e, e']
    exact created.changeSolver (fun h => h.requestTicket q.fact left seen) k

end Alike

/-! ## Demands -/

/-- Meets a demand, with nobody to be told. -/
def serve (a : Analysis) : Demand → Except Halt Analysis
  | .start direction query => do
    let (_, a) ← a.acceptNames.startQuery direction query
    a.run
  | .allocate type => .ok (a.addAllocatedType type).2

def serveAll (a : Analysis) (demands : List Demand) : Except Halt Analysis := demands.foldlM serve a

theorem serve_start {d : Direction} {q : Query} {r : Nat × Analysis}
    (started : a.acceptNames.startQuery d q = .ok r) : a.serve (.start d q) = r.2.run := by
  simp only [serve, started, bind, Except.bind]

theorem addBackwardQuery_eq {q : Query} {client : Nat}
    (started : a.acceptNames.startBackward q (some (some client)) = .ok b) :
    a.addBackwardQuery q client = b.run := by
  simp only [addBackwardQuery, started, bind, Except.bind]

/-- An analysis is ready again when a demand was met. -/
theorem Ready.serve (h : Ready p True a) (demand : Demand) :
    Ends True (a.serve demand) (Ready p True) := by
  obtain ⟨S, n, working, -⟩ := h.working
  cases demand with
  | start d q =>
    obtain ⟨r, result, begun, -⟩ := working.yields_startQuery d q
    rw [serve_start result]
    exact (begun.run.mono fun _ => trivial).imp fun b ⟨working', _, idle, _⟩ =>
      ⟨⟨_, _, working', fun _ => trivial⟩, idle⟩
  | allocate type =>
    obtain ⟨working', idle, -⟩ := working.addAllocatedType h.idle type
    exact .ok ⟨⟨S, n, working', fun _ => trivial⟩, idle⟩

namespace Alike

/-- Both sides meet a demand. -/
theorem serve (h : Alike L a b) (ha : Ready p True a) (hb : Ready p True b) (demand : Demand) :
    Together (Alike L) (a.serve demand) (b.serve demand) := by
  obtain ⟨S, n, working, -⟩ := ha.working
  obtain ⟨S', n', working', -⟩ := hb.working
  cases demand with
  | start d q =>
    obtain ⟨r, result, begun, -⟩ := working.yields_startQuery d q
    obtain ⟨r', result', begun', -⟩ := working'.yields_startQuery d q
    have started := h.acceptNames.startQuery d q
    rw [result, result'] at started
    cases started with
    | ok started =>
      rw [serve_start result, serve_start result']
      exact started.2.run begun begun'
  | allocate type =>
    exact .ok { h.acceptNames with
      pool := h.pool.addAllocatedType type
      quiet := h.quiet.addAllocatedType type }

/-- The second side meets the demand of a client who takes a ticket. -/
theorem addBackwardQuery_right (h : Alike L a b) (unheard : ¬ L.heard) (ha : Ready p True a)
    (hb : Ready p True b) (q : Query) (client : Nat) :
    Together (Alike L) (a.serve (.start .backward q)) (b.addBackwardQuery q client) := by
  obtain ⟨S, n, working, -⟩ := ha.working
  obtain ⟨S', n', working', -⟩ := hb.working
  obtain ⟨r, result, begun, -⟩ := working.yields_startQuery .backward q
  obtain ⟨b₁, result', begun', -⟩ := working'.yields_startBackward q client
  have started : Together (Alike L) (a.acceptNames.startBackward q none)
      (b.acceptNames.startBackward q (some (some client))) :=
    h.acceptNames.startBackward_right q (fun x hx => (working'.complete.allocation hx).1)
      fun heard => absurd heard unheard
  rw [Analysis.startBackward, result, result'] at started
  cases started with
  | ok started =>
    rw [serve_start result, addBackwardQuery_eq result']
    exact started.run begun begun'

theorem addMethodListener_right (h : Alike L a b) (unheard : ¬ L.heard) (listener : Nat) :
    Alike L a (b.addMethodListener listener).2 :=
  { h with
    pool := h.pool.addMethodListener_right unheard listener
    quiet := h.quiet.addMethodListener listener }

/-- Both sides perform the same call of a client. -/
theorem perform (h : Alike L a b) (heard : L.heard) (ha : Ready p True a) (hb : Ready p True b)
    (call : ClientCall) : Together (fun a b => ∃ L' : Pairing, L'.heard ∧ Alike L' a b)
      (a.perform call) (b.perform call) := by
  cases call with
  | solve q =>
    exact (h.serve ha hb (.start q.direction q)).imp fun _ _ alike => ⟨L, heard, alike⟩
  | addBackwardQuery q client =>
    obtain ⟨S, n, working, -⟩ := ha.working
    obtain ⟨S', n', working', -⟩ := hb.working
    obtain ⟨a₁, result, begun, -⟩ := working.yields_startBackward q client
    obtain ⟨b₁, result', begun', -⟩ := working'.yields_startBackward q client
    obtain ⟨L', heard', started⟩ := h.startBackward working working' q client
    rw [result, result'] at started
    show Together _ (a.addBackwardQuery q client) (b.addBackwardQuery q client)
    rw [addBackwardQuery_eq result, addBackwardQuery_eq result']
    cases started with
    | ok started =>
      exact (started.run begun begun').imp fun _ _ alike => ⟨L', heard' ▸ heard, alike⟩
  | addAllocatedType type =>
    exact (h.serve ha hb (.allocate type)).imp fun _ _ alike => ⟨L, heard, alike⟩
  | addMethodListener listener =>
    exact .ok ⟨L, heard, { h with
      pool := h.pool.addMethodListener heard listener
      quiet := h.quiet.addMethodListener listener }⟩

end Alike

/-! ## Sequences of calls -/

/-- A new analysis without observers, beside one that may have some. -/
theorem alike_create (p : Program) (rule : ReadBaseRule) (policy : WitnessPolicy)
    (debug debug' heard : Bool) :
    Alike ⟨some, fun _ => none, fun h h' => Option.some.inj (h.trans h'.symm), nofun, heard⟩
      (create p ⟨.ignore, rule, debug⟩) (create p ⟨policy, rule, debug'⟩) where
  ignores := rfl
  readBaseRule := rfl
  pool := {
    program := rfl
    allocated := rfl
    keys := rfl
    entry := fun he => by simp [Pool.Has, create, Pool.create] at he
    listeners := fun _ => rfl
    journal := fun _ => rfl }
  quiet := fun _ _ _ he => by simp [Pool.Has, create, Pool.create] at he
  queue := rfl
  fieldListeners := rfl
  callListeners := rfl
  visitors := rfl
  fieldJoins := rfl
  callJoins := rfl
  allocations := rfl
  watched := rfl
  importedAliases := rfl
  activations := rfl
  foreign := rfl
  labels := rfl
  issued := nofun
  ticketsOf := fun _ => rfl
  unheard := fun _ {t x} ht => by simp [create] at ht
  witnesses := fun _ => id

/-- Calls are performed as if their demands were met with nobody to be told. -/
theorem Alike.performAll_right (h : Alike L a b) (unheard : ¬ L.heard) (ha : Ready p True a)
    (hb : Ready p True b) (calls : List ClientCall) :
    Together (Alike L) (a.serveAll (calls.filterMap ClientCall.demand?)) (b.performAll calls) := by
  induction calls generalizing a b with
  | nil => exact .ok h
  | cons call calls ih =>
    rw [Analysis.performAll, List.foldlM_cons]
    have ready {b₁ : Analysis} (result : b.perform call = .ok b₁) : Ready p True b₁ :=
      ((hb.perform call).of_eq_ok result).1.mono fun _ => trivial
    have demanded {d : Demand} (hd : call.demand? = some d)
        (step : Together (Alike L) (a.serve d) (b.perform call)) :
        Together (Alike L) (a.serveAll ((call :: calls).filterMap ClientCall.demand?))
          (b.perform call >>= fun b => calls.foldlM Analysis.perform b) := by
      rw [List.filterMap_cons_some hd, serveAll, List.foldlM_cons]
      refine ((step.and_left fun _ => (ha.serve d).of_eq_ok).and_right fun _ => ready).bind ?_
      rintro a b ⟨⟨ha, h⟩, hb⟩
      exact ih h ha hb
    cases call with
    | solve q => exact demanded rfl (h.serve ha hb (.start q.direction q))
    | addBackwardQuery q client =>
      exact demanded rfl (h.addBackwardQuery_right unheard ha hb q client)
    | addAllocatedType type => exact demanded rfl (h.serve ha hb (.allocate type))
    | addMethodListener listener =>
      exact ih (h.addMethodListener_right unheard listener) ha (ready rfl)

/-- The same calls are performed on both sides. -/
theorem Alike.performAll (h : Alike L a b) (heard : L.heard) (ha : Ready p True a)
    (hb : Ready p True b) (calls : List ClientCall) :
    Together (fun a b => ∃ L' : Pairing, L'.heard ∧ Alike L' a b) (a.performAll calls)
      (b.performAll calls) := by
  induction calls generalizing L a b with
  | nil => exact .ok ⟨L, heard, h⟩
  | cons call calls ih =>
    rw [Analysis.performAll, Analysis.performAll, List.foldlM_cons, List.foldlM_cons]
    have ready {a b : Analysis} (h : Ready p True a) (result : a.perform call = .ok b) :
        Ready p True b :=
      ((h.perform call).of_eq_ok result).1.mono fun _ => trivial
    refine (((h.perform heard ha hb call).and_left fun _ => ready ha).and_right fun _ =>
      ready hb).bind ?_
    rintro a b ⟨⟨ha, L', heard, h⟩, hb⟩
    exact ih h heard ha hb

/-! ## What is found -/

/-- What an analysis has found, in the order in which it was found. -/
structure Findings where
  /-- The queries, with the transitions of both automata and the facts that are reached -/
  solvers : List (Query × List FieldTransition × List CallTransition × List Fact)
  fieldJoins : OrderedMap FieldAccess FieldJoin
  callJoins : OrderedMap (Point × Point) CallJoin
  stats : Stats

def findings (a : Analysis) : Findings where
  solvers := a.pool.toList.map fun (query, solver) =>
    (query, solver.fields.toList, solver.calls.toList, solver.reached.toList)
  fieldJoins := a.fieldJoins
  callJoins := a.callJoins
  stats := a.stats

/-- Observers do not change what is found. -/
theorem Alike.findings (h : Alike L a b) : a.findings = b.findings := by
  have listed {β : Type} (g : Query × Solver → β)
      (same : ∀ {q s s'}, Solver.Alike L s s' → g (q, s) = g (q, s')) :
      a.pool.toList.map g = b.pool.toList.map g := by
    rw [Pool.toList, Pool.toList, List.map_map, List.map_map]
    exact h.pool.map_toList fun alike => same alike.solver.toAlike
  have solvers := listed (fun (query, solver) =>
    (query, solver.fields.toList, solver.calls.toList, solver.reached.toList)) fun alike => by
      dsimp only
      rw [alike.fields, alike.calls, alike.reached]
  have queries := listed (·.1) fun _ => rfl
  have forward (c : Analysis) : (c.pool.toList.filter fun (query, _) => query.isForward).length =
      ((c.pool.toList.map (·.1)).filter (·.isForward)).length := by
    rw [List.filter_map, List.length_map]
    rfl
  have stats : a.stats = b.stats := by
    simp only [Analysis.stats, forward, queries, h.pool.size, h.fieldJoins, h.callJoins,
      h.importedAliases, h.activations]
  rw [Analysis.findings, Analysis.findings, solvers, h.fieldJoins, h.callJoins, stats]

/-- Whether witnesses are recorded, whether a client waits for the allocations of a backward query or
just has it solved, who listens for methods and whether there is debugging: what is found is the same,
in the same order. And if only the recording of witnesses is another one, then what is said to anyone
is the same, and the witnesses of clients are recorded either way. All these runs return, unless a
client starts a forward query against the flow of control, and then they stop for the same reason. -/
theorem observers_do_not_influence (p : Program) (rule : ReadBaseRule) :
    (∀ (policy policy' : WitnessPolicy) (debug debug' : Bool) (calls calls' : List ClientCall),
      calls.filterMap ClientCall.demand? = calls'.filterMap ClientCall.demand? →
      Together (fun a b => a.findings = b.findings)
        ((create p ⟨policy, rule, debug⟩).performAll calls)
        ((create p ⟨policy', rule, debug'⟩).performAll calls')) ∧
    (∀ (debug : Bool) (calls : List ClientCall),
      Together (fun a b => a.pool.journal = b.pool.journal ∧ ∀ x ∈ a.witnesses, x ∈ b.witnesses)
        ((create p ⟨.ignore, rule, debug⟩).performAll calls)
        ((create p ⟨.record, rule, debug⟩).performAll calls)) ∧
    ∀ (config : Config) (calls : List ClientCall), (∀ call ∈ calls, ¬ call.Reverses) →
      ∃ a, (create p config).performAll calls = .ok a := by
  have ready (config : Config) : Ready p True (create p config) := (ready_create p config).mono nofun
  refine ⟨?_, ?_, ?_⟩
  · intro policy policy' debug debug' calls calls' same
    have alone (policy : WitnessPolicy) (debug : Bool) (calls : List ClientCall) :=
      (alike_create p rule policy false debug false).performAll_right nofun (ready _) (ready _) calls
    refine (alone policy debug calls).trans_right (same ▸ alone policy' debug' calls') ?_
    exact fun _ _ _ h h' => h.findings.symm.trans h'.findings
  · intro debug calls
    have both := (alike_create p rule .record debug debug true).performAll rfl (ready _) (ready _) calls
    exact both.imp fun a b ⟨L, heard, h⟩ => ⟨h.pool.journal heard, h.witnesses⟩
  · intro config calls proper
    have straight : ¬ (False ∨ ∃ call ∈ calls, call.Reverses) := by
      rintro (absurd | ⟨call, hc, reverses⟩)
      · exact absurd
      · exact proper call hc reverses
    obtain ⟨a, result, -⟩ := ((ready_create p config).performAll calls).yields straight
    exact ⟨a, result⟩

/-- A client is told of the value that is read from the box. Without the client and the listener, the
same is found. -/
theorem sharedBox_unobserved : ∃ program a b, Source.readProgram sharedBox = .ok program ∧
    (create program ⟨.ignore, .seedTransition, false⟩).performAll [.solve unboxed] = .ok a ∧
    (create program ⟨.record, .seedTransition, true⟩).performAll
      [.addMethodListener 0, .addBackwardQuery unboxed 7] = .ok b ∧
    b.told ≠ [] ∧ a.findings = b.findings := by
  have checked : (Source.readProgram sharedBox).toOption.any fun program =>
      ((create program ⟨.record, .seedTransition, true⟩).performAll
        [.addMethodListener 0, .addBackwardQuery unboxed 7]).toOption.any
          fun b => !b.told.isEmpty := by
    decide +kernel
  obtain ⟨program, read, h⟩ := exists_ok_of_any checked
  obtain ⟨b, observed, told⟩ := exists_ok_of_any h
  rw [Bool.not_eq_true', List.isEmpty_eq_false_iff] at told
  obtain ⟨same, -, returns⟩ := observers_do_not_influence program .seedTransition
  obtain ⟨a, alone⟩ := returns ⟨.ignore, .seedTransition, false⟩ [.solve unboxed] (by decide)
  have together := same .ignore .record false true
    [.solve unboxed] [.addMethodListener 0, .addBackwardQuery unboxed 7] rfl
  rw [alone, observed] at together
  cases together with
  | ok same => exact ⟨program, a, b, read, alone, observed, told, same⟩

end Analysis

end PointsTo
