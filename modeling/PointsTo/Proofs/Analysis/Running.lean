import PointsTo.Analysis.Run
import PointsTo.Proofs.Analysis.Census

/-!
# Handling events until none are left

While an analysis works, what was collected from its solvers is in the queue, what was read from the
queue was handled, and clients were told of it (`Working`). Each turn reads one event, and there are
fewer events than turns (`Inhabits.length_delivered_lt`), so the run ends with every event of every
solver handled, or it stops at a field access from which the flow does not go on (`Working.run`). It
does not stop as long as clients start queries in their direction only (`Running.solve`).
-/

namespace PointsTo

namespace Feed

variable {α : Type} {f g : Feed α} {x : α}

theorem taken_of_next?_eq_some (h : f.next? = some (x, g)) : g.taken = f.taken ++ [x] := by
  have posted := g.taken_append_pending.trans (by rw [(posted_of_next?_eq_some h).1])
  rw [← f.taken_append_pending, pending_of_next?_eq_some h] at posted
  have read : g.taken ++ g.pending = f.taken ++ [x] ++ g.pending := by simpa using posted
  exact List.append_cancel_right read

end Feed

namespace Analysis

variable {p : Program} {S : Supply p} {w : Realm} {n : Nat} {a b c : Analysis} {i : Nat} {q : Query}
  {e : PoolEntry}

/-- A fresh analysis knows nothing. -/
theorem within_create {config : Config} (closed : w.Closed p config) :
    (create p config).Within w where
  closed := closed
  host := fun he => by simp [Pool.Has, create, Pool.create] at he
  listener := fun he => by simp [Pool.Has, create, Pool.create] at he
  nodup := fun he => by simp [Pool.Has, create, Pool.create] at he
  ticket := fun he => by simp [Pool.Has, create, Pool.create] at he
  watcher := fun he => by simp [Pool.Has, create, Pool.create] at he
  watched := fun i hi => by simp [create] at hi
  visitor := fun hv => by simp [create] at hv
  fieldJoin := fun hj => by simp [FieldJoinAt, create] at hj
  callJoin := fun hj => by simp [CallJoinAt, create] at hj

/-! ## Collecting and reading -/

theorem grows_collect (h : a.Within w) : Grows a a.collect where
  __ := Grows.refl a
  program := rfl
  entry he := by
    refine ⟨_, Pool.has_drain.2 ⟨_, he, rfl⟩, ?_⟩
    split
    · exact (h.host he).resting.drainEvents.1
    · exact .refl _

theorem grows_queue (a : Analysis) (queue : Feed (Nat × Event)) : Grows a { a with queue } :=
  { Grows.refl a with }

/-- Collecting events changes nothing that a world is about. -/
theorem Within.collect (h : a.Within w) : a.collect.Within w := by
  have g := grows_collect h
  have drained {i q e'} (he' : a.collect.pool.Has i q e') : ∃ e, a.pool.Has i q e ∧
      e'.solver.fields.subscriptions = e.solver.fields.subscriptions ∧
      e'.solver.calls.subscriptions = e.solver.calls.subscriptions ∧
      e'.solver.tickets = e.solver.tickets ∧ (Hosts w a.program q e → Hosts w a.program q e') := by
    obtain ⟨e, he, rfl⟩ := Pool.has_drain.1 he'
    refine ⟨e, he, ?_⟩
    split
    · refine ⟨rfl, rfl, rfl, fun host => ?_⟩
      obtain ⟨later, resting, below⟩ := host.resting.drainEvents
      exact { host with
        seed := later.seed.trans host.seed
        direction := later.direction.trans host.direction
        graph := later.graph.trans host.graph
        tidy := .inr (Feed.pending_takeAll _)
        resting
        below := below host.below
        opened := later.facts.opened _ host.opened
        productive := later.facts.productive _ host.productive
        begun := fun hq next hn => (host.begun hq next hn).mono later.facts }
    · exact ⟨rfl, rfl, rfl, id⟩
  exact {
    closed := h.closed
    host := fun he' => by
      obtain ⟨e, he, -, -, -, host⟩ := drained he'
      exact host (h.host he)
    listener := fun he' s hs => by
      obtain ⟨e, he, same, -⟩ := drained he'
      obtain ⟨x, hx, hr⟩ := h.listener he s (same ▸ hs)
      exact ⟨x, hx, g.justified hr⟩
    nodup := fun he' => by
      obtain ⟨e, he, same, -⟩ := drained he'
      exact same ▸ h.nodup he
    ticket := fun he' t ht => by
      obtain ⟨e, he, -, -, same, -⟩ := drained he'
      exact h.ticket he t (same ▸ ht)
    watcher := fun he' => by
      obtain ⟨e, he, -, same, -⟩ := drained he'
      exact same ▸ h.watcher he
    watched := fun i hi => by
      obtain ⟨q, e, l, he, hs⟩ := h.watched i hi
      obtain ⟨e', he', later⟩ := g.entry he
      exact ⟨q, e', l, he', later.callSubscription _ hs⟩
    visitor := fun hv => g.guided (h.visitor hv)
    fieldJoin := fun hj => g.joinsField (h.fieldJoin hj)
    callJoin := fun hj => g.joinsCall (h.callJoin hj) }

theorem Complete.grows (h : a.Complete) (g : Grows a b) (fieldJoins : b.fieldJoins = a.fieldJoins)
    (callJoins : b.callJoins = a.callJoins) (allocations : b.allocations = a.allocations)
    (tickets : b.tickets = a.tickets) (visitors : b.visitors = a.visitors) : b.Complete :=
  h.extend (g.extend fieldJoins callJoins allocations tickets fun hv _ hs =>
    .inl ⟨_, visitors ▸ hv, hs⟩)

/-- The later state has grown out of the earlier one, inside every world in which that one was and
which has let in what was imported. -/
structure Leads (a b : Analysis) : Prop extends Grows a b where
  inside : ∀ {w : Realm}, b.Obeys w → a.Within w → b.Within w

theorem Leads.trans (h : Leads a b) (h' : Leads b c) : Leads a c where
  toGrows := h.toGrows.trans h'.toGrows
  inside obeys hw := h'.inside obeys (h.inside (h'.toGrows.obeys obeys) hw)

theorem Leads.refl (a : Analysis) : Leads a a := ⟨.refl a, fun _ => id⟩

theorem Within.leads_collect (h : a.Within w) : Leads a a.collect where
  toGrows := grows_collect h
  inside _ := Within.collect

/-! ## Turns -/

/-- What holds before and after each turn. -/
structure Working (S : Supply p) (n : Nat) (a : Analysis) : Prop extends Inhabits S n a where
  /-- The turns of a run are enough. -/
  ready : n ≤ a.program.extent + a.foreign + 8
  /-- What was collected is in the queue. -/
  queued : a.queue.posted.toList.Perm a.pool.delivered
  handled : ∀ {i event}, (i, event) ∈ a.queue.taken → ∃ q, a.Index i q ∧ a.Handled q event
  /-- Clients were told of what was handled, and of nothing else. -/
  told : a.told = a.tellings.map (·.2)
  paid : a.balance ≤ n + (a.queue.taken.map fun e => e.2.cost).sum

theorem Working.handled_of_taken (h : Working S n a) (e : Nat × Event) (he : e ∈ a.queue.taken) :
    ∃ q, a.Handled q e.2 :=
  have ⟨q, _, done⟩ := h.handled he
  ⟨q, done⟩

/-- Nothing waits to be handled. -/
structure Idle (a : Analysis) : Prop where
  queue : a.queue.pending = []
  outbox : ∀ {i q e}, a.pool.Has i q e → e.solver.outbox.pending = []

/-- What was handled stays handled. -/
theorem Working.handled_grows (h : Working S n a) (g : Grows a b)
    (queue : b.queue.taken = a.queue.taken) {event : Event} (he : (i, event) ∈ b.queue.taken) :
    ∃ q, b.Index i q ∧ b.Handled q event := by
  obtain ⟨q, hi, done⟩ := h.handled (queue ▸ he)
  exact ⟨q, g.index hi, g.handled done⟩

/-- Nobody is told of anything unless an event is handled. -/
theorem Working.told_grows (h : Working S n a) (g : Grows a b)
    (queue : b.queue.taken = a.queue.taken) (told : b.told = a.told) :
    b.told = b.tellings.map (·.2) := by
  rw [told, h.told, tellings, tellings, queue, g.filterMap_tells? h.handled_of_taken]

theorem Working.collect (h : Working S n a) : Working S n a.collect := by
  have g := grows_collect h.within
  exact {
    program := h.program
    within := h.within.collect
    complete := h.complete.grows g rfl rfl rfl rfl rfl
    few := h.few
    ready := h.ready
    queued := by
      refine .trans (.of_eq ?_) ((h.queued.append_right _).trans (Pool.delivered_drain a.pool).symm)
      rw [Analysis.collect, Feed.posted_postAll, Array.toList_append]
    handled := h.handled_grows g (Feed.taken_postAll _ _)
    told := h.told_grows g (Feed.taken_postAll _ _) rfl
    paid := by
      rw [balance_congr (b := a.collect) (a := a) rfl rfl rfl rfl rfl]
      simpa only [Analysis.collect, Feed.taken_postAll] using h.paid }

/-- Everything that the solvers posted was collected. -/
theorem Working.outbox_collect (h : Working S n a) (he : a.collect.pool.Has i q e) :
    e.solver.outbox.pending = [] := by
  obtain ⟨e₀, he₀, rfl⟩ := Pool.has_drain.1 he
  split
  · exact Feed.pending_takeAll _
  · next clean => exact (h.within.host he₀).tidy.resolve_left clean

/-- An analysis that advances without reading goes on running, if it can pay for it. -/
theorem Working.advances (h : Working S n a) {k : Int} (g : Advances S.realm k a b)
    (paid : a.balance + k ≤ n + (a.queue.taken.map fun e => e.2.cost).sum) : Working S n b where
  program := g.program.trans h.program
  within := g.within
  complete := h.complete.extend g.toExtends
  few := h.few
  ready := h.ready.trans (by have := g.foreign; rw [g.program]; omega)
  queued := by
    rw [g.delivered, g.queue]
    exact h.queued
  handled := h.handled_grows g.toGrows (congrArg Feed.taken g.queue)
  told := h.told_grows g.toGrows (congrArg Feed.taken g.queue) g.told
  paid := by
    have := g.balance
    rw [g.queue]
    omega

/-- What was collected are events of solvers. -/
theorem Working.has_of_posted (h : Working S n a) {event : Event}
    (posted : (i, event) ∈ a.queue.posted.toList) :
    ∃ q e, a.pool.Has i q e ∧ event ∈ e.solver.events := by
  obtain ⟨q, e, he, taken⟩ := Pool.mem_delivered.1 (h.queued.mem_iff.1 posted)
  exact ⟨q, e, he, List.mem_of_mem_take taken⟩

/-- An event that waits is handled. -/
theorem Working.step (h : Working S n a) {x : Except Halt Analysis} (hx : a.step? = some x) :
    Ends S.realm.Lax x fun b => Working S n b ∧ Leads a b ∧
      b.queue.taken.length = a.queue.taken.length + 1 := by
  unfold step? at hx
  split at hx
  case h_2 => cases hx
  next i event queue next =>
  obtain rfl := Option.some.inj hx
  set a₀ : Analysis := { a with queue }
  have g₀ : Grows a a₀ := grows_queue a queue
  have posted : (i, event) ∈ a.queue.posted.toList :=
    Feed.mem_posted_of_mem_pending (Feed.pending_of_next?_eq_some next ▸ List.mem_cons_self)
  obtain ⟨q, e, he, event_mem⟩ := h.has_of_posted posted
  have within {w} (hw : a.Within w) : a₀.Within w := hw.keep g₀ Iff.rfl rfl .inl .inl .inl
  have complete : a₀.Complete := h.complete.grows g₀ rfl rfl rfl rfl rfl
  have open' : Admits S.realm a₀ q event := admits_of_open fun _ _ _ _ _ => trivial
  obtain ⟨b, result, handles, done⟩ | stops :=
    (within h.within).ends_handle complete he event_mem open'
  swap
  · exact .inr stops
  have inside {w : Realm} (obeys : b.Obeys w) (hw : a.Within w) : b.Within w :=
    have admits := (within h.within).admits_of_handle he event_mem open' result obeys
    (((within hw).ends_handle complete he event_mem admits).of_eq_ok result).1.within
  have read : b.queue.taken = a.queue.taken ++ [(i, event)] :=
    handles.queue ▸ Feed.taken_of_next?_eq_some next
  have g := g₀.trans handles.toGrows
  refine .inl ⟨b, result, {
    program := g.program.trans h.program
    within := handles.within
    complete := complete.extend handles.toExtends
    few := h.few
    ready := h.ready.trans (by have := g.foreign; rw [g.program]; omega)
    queued := ?_
    handled := fun {j x} hx => ?_
    told := ?_
    paid := ?_ }, { g with inside }, by simp [read]⟩
  · rw [handles.delivered, handles.queue, show a₀.queue.posted = a.queue.posted from
      (Feed.posted_of_next?_eq_some next).1]
    exact h.queued
  · rw [read, List.mem_append, List.mem_singleton, Prod.mk.injEq] at hx
    obtain hx | ⟨rfl, rfl⟩ := hx
    · obtain ⟨q', hi, hd⟩ := h.handled hx
      exact ⟨q', g.index hi, g.handled hd⟩
    · exact ⟨q, handles.index ⟨e, he⟩, done⟩
  · rw [handles.told, show a₀.told = a.told from rfl, h.told, tellings, tellings, read,
      List.filterMap_append, g.filterMap_tells? h.handled_of_taken, List.map_append]
    cases e : b.tells? event <;> simp [e]
  · have first : a₀.balance = a.balance := balance_congr rfl rfl rfl rfl rfl
    have := handles.balance
    have := h.paid
    rw [read, List.map_append, List.sum_append, List.map_singleton, List.sum_singleton]
    dsimp only
    omega

/-- What was read was collected, and that is less than an analysis is ready for. -/
theorem Working.length_taken_lt (h : Working S n a) : a.queue.taken.length < n ^ 40 := by
  have sublist : a.queue.taken.Sublist a.queue.posted.toList := List.take_sublist _ _
  have costs : (a.queue.taken.map fun e => e.2.cost).sum ≤
      (a.pool.delivered.map fun e => e.2.cost).sum := by
    rw [← (h.queued.map _).sum_eq]
    exact (sublist.map _).sum_le_sum (by simp)
  have paid := h.paid
  refine Nat.lt_of_le_of_lt ?_ (h.toInhabits.length_delivered_lt (by omega))
  rw [← h.queued.length_eq]
  exact sublist.length_le

/-- Nothing is collected from solvers that were not changed. -/
theorem collect_of_clean (clean : a.pool.Clean) : a.collect = a := by
  rw [Analysis.collect, clean.drain]
  rfl

theorem step?_eq_none_iff : a.step? = none ↔ a.queue.pending = [] := by
  rw [← Feed.next?_eq_none_iff]
  cases next : a.queue.next? <;> simp [step?, next]

theorem runFor_of_idle {fuel : Nat} (none : a.collect.step? = none) :
    a.runFor (fuel + 1) = .ok a.collect := by
  rw [Analysis.runFor]
  rw [none]

theorem runFor_of_step {fuel : Nat} {x : Except Halt Analysis} (step : a.collect.step? = some x) :
    a.runFor (fuel + 1) = x >>= (·.runFor fuel) := by
  rw [Analysis.runFor]
  rw [step]
  cases x <;> rfl

/-- With enough turns every event is collected and handled. -/
theorem Working.runFor (fuel : Nat) (h : Working S n a)
    (enough : n ^ 40 ≤ a.queue.taken.length + fuel) :
    Ends S.realm.Lax (a.runFor fuel) fun b =>
      Working S n b ∧ Leads a b ∧ b.Idle ∧ b.pool.Clean := by
  induction fuel generalizing a with
  | zero => exact absurd h.length_taken_lt (by omega)
  | succ fuel ih =>
    have collected := h.collect
    have g := h.within.leads_collect
    cases step : a.collect.step? with
    | none =>
      rw [runFor_of_idle step]
      have idle : a.collect.Idle := ⟨step?_eq_none_iff.1 step, h.outbox_collect⟩
      exact .ok ⟨collected, g, idle, a.pool.clean_drain⟩
    | some x =>
      rw [runFor_of_step step]
      obtain ⟨b, rfl, running, g', length⟩ | ⟨lax, point, flow, b, rfl⟩ := collected.step step
      swap
      · exact .inr ⟨lax, point, flow, b, rfl⟩
      have same : a.collect.queue.taken = a.queue.taken := Feed.taken_postAll _ _
      exact (ih running (by rw [length, same]; omega)).imp fun c ⟨working, g'', rest⟩ =>
        ⟨working, (g.trans g').trans g'', rest⟩

/-- A run ends when nothing waits to be handled or collected. -/
theorem Working.run (h : Working S n a) :
    Ends S.realm.Lax a.run fun b => Working S n b ∧ Leads a b ∧ b.Idle ∧ b.pool.Clean :=
  h.runFor a.capacity ((Nat.pow_le_pow_left h.ready 40).trans (Nat.le_add_left _ _))

/-- Once nothing waits, every event of every solver was read. -/
theorem Working.mem_taken (h : Working S n a) (idle : a.Idle) (he : a.pool.Has i q e)
    {event : Event} (hev : event ∈ e.solver.events) : (i, event) ∈ a.queue.taken := by
  have posted : (i, event) ∈ a.queue.posted.toList := by
    refine h.queued.mem_iff.2 (Pool.mem_delivered.2 ⟨q, e, he, ?_⟩)
    rwa [Solver.events, ← Feed.taken_append_pending, idle.outbox he, List.append_nil] at hev
  rwa [← Feed.taken_append_pending, idle.queue, List.append_nil] at posted

/-- Once nothing waits, every event of every solver was handled. -/
theorem Working.all_handled (h : Working S n a) (idle : a.Idle) (he : a.pool.Has i q e)
    {event : Event} (hev : event ∈ e.solver.events) : a.Handled q event := by
  obtain ⟨q', hi, done⟩ := h.handled (h.mem_taken idle he hev)
  exact (Index.unique ⟨e, he⟩ hi) ▸ done

/-! ## Queries of clients -/

theorem grows_acceptNames (a : Analysis) : Grows a a.acceptNames :=
  { Grows.refl a with foreign := Nat.le_add_right _ _ }

theorem Within.acceptNames (h : a.Within w) : a.acceptNames.Within w :=
  h.keep (grows_acceptNames a) Iff.rfl rfl .inl .inl .inl

theorem leads_acceptNames (a : Analysis) : Leads a a.acceptNames :=
  ⟨grows_acceptNames a, fun _ => Within.acceptNames⟩

/-- A client may bring in the names of a query. -/
theorem Working.accept (h : Working S n a) (d : Direction) (q : Query) :
    Working (S.add d q) (n + 3) a.acceptNames := by
  have g := grows_acceptNames a
  have within := h.within.mono (S.realm_sub_add d q) rfl (h.program ▸ (S.add d q).closed a.config)
  exact {
    program := h.program
    within := within.acceptNames
    complete := h.complete.grows g rfl rfl rfl rfl rfl
    few := h.few.add d q
    ready := by
      have := h.ready
      show n + 3 ≤ a.program.extent + (a.foreign + 3) + 8
      omega
    queued := h.queued
    handled := h.handled_grows g rfl
    told := h.told_grows g rfl rfl
    paid := by
      have := h.paid
      rw [balance_congr (b := a.acceptNames) (a := a) rfl rfl rfl rfl rfl]
      show a.balance ≤ (n + 3 : Nat) + ((a.queue.taken.map fun e => e.2.cost).sum : Nat)
      omega }

/-- A client brings in a query, and what it starts may cost a few tickets. -/
theorem Working.begin (h : Working S n a) {d : Direction} {q : Query} {k : Int}
    (g : Advances (S.add d q).realm k a.acceptNames b) (few : k ≤ 3) :
    Working (S.add d q) (n + 3) b := by
  refine (h.accept d q).advances g ?_
  have := h.paid
  rw [balance_congr (b := a.acceptNames) (a := a) rfl rfl rfl rfl rfl]
  show a.balance + k ≤ (n + 3 : Nat) + ((a.queue.taken.map fun e => e.2.cost).sum : Nat)
  omega

/-- What solving queries does: every event is handled, nothing waits, and nothing comes in that the
queries do not call for. -/
structure Solved (qs : List Query) (a b : Analysis) : Prop extends Grows a b where
  idle : b.Idle
  knows : ∀ q ∈ qs, b.Knows q
  inside : ∀ {w : Realm}, b.Obeys w → (∀ q ∈ qs, w.started q) → a.Within w → b.Within w

/-- What beginning a query does: the analysis grows, inside every world in which the query starts. -/
structure Begins (d : Direction) (q : Query) (a b : Analysis) : Prop extends Grows a b where
  knows : b.Knows q
  inside : ∀ {w : Realm}, w.Starts d q → a.Within w → b.Within w

theorem Working.yields_startQuery (h : Working S n a) (d : Direction) (q : Query) :
    Yields (a.acceptNames.startQuery d q) fun r =>
      Working (S.add d q) (n + 3) r.2 ∧ Begins d q a r.2 := by
  obtain ⟨⟨i, b⟩, result, started, hi, -⟩ :=
    (h.accept d q).within.yields_startQuery Supply.starts_add
  refine ⟨(i, b), result, h.begin started (by omega), ?_, ⟨i, hi⟩, fun starts within => ?_⟩
  · exact (grows_acceptNames a).trans started.toGrows
  · obtain ⟨r, same, started', -⟩ := within.acceptNames.yields_startQuery starts
    obtain rfl := Except.ok.inj (result.symm.trans same)
    exact started'.within

theorem Working.solve (h : Working S n a) (q : Query) :
    Ends (S.add q.direction q).realm.Lax (a.solve q) fun b =>
      Working (S.add q.direction q) (n + 3) b ∧ Solved [q] a b := by
  obtain ⟨⟨i, b⟩, result, working, begins⟩ := h.yields_startQuery q.direction q
  have solved : a.solve q = b.run := by
    simp only [Analysis.solve, result, bind, Except.bind]
  rw [solved]
  refine working.run.imp fun c ⟨running, leads, idle, _⟩ => ⟨running, ?_, idle, ?_, ?_⟩
  · exact begins.toGrows.trans leads.toGrows
  · exact List.forall_mem_singleton.2 (leads.knows begins.knows)
  · exact fun obeys hw within =>
      leads.inside obeys (begins.inside (.inl ⟨hw q List.mem_cons_self, rfl⟩) within)

variable (p) in
theorem working_create (config : Config) :
    Working (.ofProgram p) (p.extent + 8) (create p config) where
  program := rfl
  within := within_create (Supply.closed config)
  complete := {
    pair := fun ⟨_, _, hj, _⟩ => by simp [FieldJoinAt, create] at hj
    alias' := fun ⟨_, _, hj, _⟩ => by simp [FieldJoinAt, create] at hj
    activation := fun ⟨_, _, hj, _⟩ => by simp [CallJoinAt, create] at hj
    allocation := fun hx => by simp [create] at hx
    ticket := fun hx => by simp [create] at hx
    visited := fun hv => by simp [create] at hv }
  few := {
    names := {
      points := p.names_le.points.trans (Nat.le_add_right _ _)
      vars := p.names_le.vars.trans (Nat.le_add_right _ _)
      fields := (Finset.card_insert_le _ _).trans (by have := p.names_le.fields; omega) }
    clients := Nat.zero_le _
    extent := Nat.le_add_right _ _
    large := Nat.le_add_left _ _ }
  ready := by
    show p.extent + 8 ≤ p.extent + 1 + 8
    omega
  queued := by simp [create, Pool.create, Pool.delivered, Pool.read]
  handled := fun he => by simp [create] at he
  told := by simp [Analysis.told, Pool.told, tellings, create, Pool.create]
  paid := by
    simp only [balance, credit, create]
    simp
    omega

theorem idle_create (p : Program) (config : Config) : (create p config).Idle where
  queue := by simp [create]
  outbox := fun he => by simp [Pool.Has, create, Pool.create] at he

/-! ## Queries in their direction -/

/-- An analysis at work whose clients have started queries in their direction only. -/
structure Running (S : Supply p) (n : Nat) (a : Analysis) : Prop extends Working S n a where
  proper : S.reversed = ∅

/-- Solving a query never stops. -/
theorem Running.solve (h : Running S n a) (q : Query) :
    Yields (a.solve q) fun b => Running (S.add q.direction q) (n + 3) b ∧ Solved [q] a b := by
  have proper : (S.add q.direction q).reversed = ∅ := (if_pos rfl).trans h.proper
  refine ((h.toWorking.solve q).yields (Supply.not_lax proper)).imp fun b ⟨working, solved⟩ => ?_
  exact ⟨⟨working, proper⟩, solved⟩

variable (p) in
theorem running_create (config : Config) :
    Running (.ofProgram p) (p.extent + 8) (create p config) :=
  ⟨working_create p config, rfl⟩

end Analysis

end PointsTo
