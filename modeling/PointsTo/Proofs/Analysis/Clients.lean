import PointsTo.Proofs.Analysis.Running
import PointsTo.Proofs.Source.Reader

/-!
# The calls of clients

Between two calls an analysis is `Ready`: nothing waits, and everything it knows is made of the names
of the program and of its clients. A call ends with the analysis ready again (`Ready.perform`), so any
sequence of calls ends (`perform_ends`). There is one way to stop on the way. A client may start a
forward query against the flow of control (`ClientCall.Reverses`), which may take it to a field
access that nothing follows, and there is no point to import aliases to. Otherwise every call returns
(`performAll_returns`): no position is looked up that is outside its table, and where a base meets a
flow there is somewhere to go on.
-/

namespace PointsTo

/-- What a client may call. -/
inductive ClientCall where
  | solve (query : Query)
  | addBackwardQuery (query : Query) (client : Nat)
  | addAllocatedType (type : ClassName)
  | addMethodListener (listener : Nat)
deriving DecidableEq

/-- The call starts a forward query against the flow of control. -/
def ClientCall.Reverses : ClientCall → Prop
  | .addBackwardQuery query _ => query.direction = .forward
  | _ => False

instance : DecidablePred ClientCall.Reverses := fun call => by
  cases call <;> unfold ClientCall.Reverses <;> infer_instance

namespace Analysis

/-- The analysis after a call, if the call returns. -/
def perform (a : Analysis) : ClientCall → Except Halt Analysis
  | .solve query => a.solve query
  | .addBackwardQuery query client => a.addBackwardQuery query client
  | .addAllocatedType type => .ok (a.addAllocatedType type).2
  | .addMethodListener listener => .ok (a.addMethodListener listener).2

/-- The analysis after some calls, one after the other, if they all return. -/
def performAll (a : Analysis) (calls : List ClientCall) : Except Halt Analysis :=
  calls.foldlM perform a

variable {p : Program} {S : Supply p} {n i : Nat} {q : Query} {a b : Analysis}
  {call : ClientCall} {calls : List ClientCall} {strayed : Prop}

/-- If a sequence of calls returns, so does each of them. -/
theorem performAll_append_cons {before after : List ClientCall}
    (called : a.performAll (before ++ call :: after) = .ok b) : ∃ a₁ a₂,
      a.performAll before = .ok a₁ ∧ a₁.perform call = .ok a₂ ∧ a₂.performAll after = .ok b := by
  rw [performAll, List.foldlM_append] at called
  obtain ⟨a₁, first, rest⟩ := bind_eq_ok.1 called
  rw [List.foldlM_cons] at rest
  obtain ⟨a₂, second, third⟩ := bind_eq_ok.1 rest
  exact ⟨a₁, a₂, first, second, third⟩

/-! ## Changing all solvers -/

theorem Working.acceptNames (h : Working S n a) : Working S n a.acceptNames where
  program := h.program
  within := h.within.acceptNames
  complete := h.complete.grows (grows_acceptNames a) rfl rfl rfl rfl rfl
  few := h.few
  ready := h.ready.trans (by
    show a.program.extent + a.foreign + 8 ≤ a.program.extent + (a.foreign + 3) + 8
    omega)
  queued := h.queued
  handled := h.handled_grows (grows_acceptNames a) rfl
  told := h.told_grows (grows_acceptNames a) rfl rfl
  paid := by
    rw [balance_congr (b := a.acceptNames) (a := a) rfl rfl rfl rfl rfl]
    exact h.paid

/-- All solvers change in a way that tells nobody of anything. -/
theorem Working.changeAll (h : Working S n a) (idle : a.Idle) {pool : Pool} {f : Solver → Solver}
    (program : pool.program = a.program)
    (has : ∀ {i q e'}, pool.Has i q e' ↔
      ∃ e, a.pool.Has i q e ∧ e' = { e with solver := (f e.solver).drainNotices.2 })
    (alters : ∀ {s : Solver}, s.Resting → Solver.Alters [] s (f s))
    (quiet : ∀ s, (f s).outbox = s.outbox) (told : pool.told = a.pool.told) :
    Working S n { a with pool } ∧ Idle { a with pool } ∧ Leads a { a with pool } := by
  have revised {e : PoolEntry} (resting : e.solver.Resting) :
      e.Revised [] { e with solver := (f e.solver).drainNotices.2 } := by
    have first := alters resting
    refine ⟨first.trans first.resting.drainNotices, rfl, fun tidy => tidy.imp_right fun pending => ?_⟩
    show (f e.solver).outbox.pending = []
    rw [quiet]
    exact pending
  have evolves : a.pool.Evolves (fun _ => []) pool := {
    program
    old := fun he => ⟨_, has.2 ⟨_, he, rfl⟩, revised (h.within.host he).resting⟩
    new := fun he' => by
      obtain ⟨e, he, rfl⟩ := has.1 he'
      exact ⟨e, he, revised (h.within.host he).resting⟩
    told }
  have proceeds {w : Realm} (hw : a.Within w) : Proceeds w 0 a { a with pool } :=
    hw.evolves evolves a.watched (fun _ => id) (by simp) (by simp)
      (fun he => by simpa using hw.nodup he) (by simp) (fun _ => .inl rfl) fun _ => .inl
  have grows := (proceeds h.within).toGrows
  have advances := (proceeds h.within).advances id
    (grows.extend rfl rfl rfl rfl fun hv _ hs => .inl ⟨_, hv, hs⟩)
  refine ⟨h.advances advances ?_, ⟨idle.queue, fun he' => ?_⟩, grows, fun _ hw => (proceeds hw).within⟩
  · have := h.paid
    omega
  · obtain ⟨e, he, rfl⟩ := has.1 he'
    show (f e.solver).outbox.pending = []
    rw [quiet]
    exact idle.outbox he

/-- A class becomes known to all solvers. -/
theorem Working.addAllocatedType (h : Working S n a) (idle : a.Idle) (type : ClassName) :
    Working S n (a.addAllocatedType type).2 ∧ (a.addAllocatedType type).2.Idle ∧
      Leads a (a.addAllocatedType type).2 := by
  have accept {b : Analysis} (hb : Working S n b ∧ b.Idle ∧ Leads a b) :
      Working S n b.acceptNames ∧ b.acceptNames.Idle ∧ Leads a b.acceptNames :=
    ⟨hb.1.acceptNames, { hb.2.1 with }, hb.2.2.trans (leads_acceptNames b)⟩
  have same : (a.addAllocatedType type).2 =
      ({ a with pool := (a.pool.addAllocatedType type).2 } : Analysis).acceptNames := rfl
  rw [same]
  refine accept ?_
  unfold Pool.addAllocatedType
  split
  · exact ⟨h, idle, .refl a⟩
  · next allocated _ =>
    exact h.changeAll idle (Pool.program_changeAll _ _) Pool.has_changeAll
      (fun hs => (hs.addAllocatedType type).forget rfl rfl rfl (by simp [Change.Grants]))
      (fun s => by rw [Solver.addAllocatedType_eq]) (Pool.told_changeAll _ _)

/-- A listener hears of the methods of all solvers. -/
theorem Working.addMethodListener (h : Working S n a) (idle : a.Idle) (listener : Nat) :
    Working S n (a.addMethodListener listener).2 ∧ (a.addMethodListener listener).2.Idle ∧
      Leads a (a.addMethodListener listener).2 := by
  have same : (a.addMethodListener listener).2 =
      { a with pool := (a.pool.addMethodListener listener).2 } := rfl
  rw [same]
  unfold Pool.addMethodListener
  split
  · exact ⟨h, idle, .refl a⟩
  · set f : Solver → Solver := fun s => s.addMethodListener listener
    have has {i q e'} : (a.pool.changeAll f).Has i q e' ↔ _ := Pool.has_changeAll
    refine h.changeAll idle (Pool.program_changeAll a.pool f) has (fun hs => ?_) (fun s => ?_)
      (Pool.told_changeAll a.pool f)
    · exact (hs.addMethodListener listener).forget rfl rfl rfl (by simp [Change.Grants])
    · show (s.addMethodListener listener).outbox = s.outbox
      unfold Solver.addMethodListener
      split <;> rfl

/-! ## Queries with a client -/

/-- What adding a query for a client does: the client takes a ticket, everything that follows is
handled, and nothing comes in that the query does not call for. -/
structure Added (q : Query) (client : Nat) (a b : Analysis) : Prop extends Grows a b where
  idle : b.Idle
  knows : b.Knows q
  taken : b.tickets[a.tickets.size]? = some ⟨q, some client⟩
  inside : ∀ {w : Realm}, b.Obeys w → w.Starts .backward q → a.Within w → b.Within w

theorem Working.yields_startBackward (h : Working S n a) (q : Query) (client : Nat) :
    Yields (a.acceptNames.startBackward q (some (some client))) fun b =>
      Working (S.add .backward q) (n + 3) b ∧ Begins .backward q a b ∧
        b.tickets[a.tickets.size]? = some ⟨q, some client⟩ := by
  have accepted := h.accept .backward q
  obtain ⟨b, result, started, known, taken⟩ := accepted.within.yields_startBackward
    accepted.complete Supply.starts_add (some (some client))
  refine ⟨b, result, h.begin started (by omega), ⟨?_, known, fun starts within => ?_⟩, taken rfl⟩
  · exact (grows_acceptNames a).trans started.toGrows
  · obtain ⟨b', same, started', -⟩ := within.acceptNames.yields_startBackward accepted.complete
      starts (some (some client))
    obtain rfl := Except.ok.inj (result.symm.trans same)
    exact started'.within

theorem Working.addBackwardQuery (h : Working S n a) (q : Query) (client : Nat) :
    Ends (S.add .backward q).realm.Lax (a.addBackwardQuery q client) fun b =>
      Working (S.add .backward q) (n + 3) b ∧ Added q client a b := by
  obtain ⟨b, result, working, begins, taken⟩ := h.yields_startBackward q client
  have run : a.addBackwardQuery q client = b.run := by
    simp only [Analysis.addBackwardQuery, result, bind, Except.bind]
  rw [run]
  refine working.run.imp fun c ⟨working', leads, idle, _⟩ =>
    ⟨working', ?_, idle, leads.knows begins.knows, leads.ticket taken, ?_⟩
  · exact begins.toGrows.trans leads.toGrows
  · exact fun obeys starts within => leads.inside obeys (begins.inside starts within)

/-! ## Between calls -/

/-- Nothing waits, and queries were started against their direction only if `strayed`. -/
structure Ready (p : Program) (strayed : Prop) (a : Analysis) : Prop where
  working : ∃ (S : Supply p) (n : Nat), Working S n a ∧ (S.reversed.Nonempty → strayed)
  idle : a.Idle

theorem ready_create (p : Program) (config : Config) : Ready p False (create p config) where
  working := ⟨.ofProgram p, _, working_create p config, Finset.not_nonempty_empty⟩
  idle := idle_create p config

theorem Ready.mono {strayed' : Prop} (h : Ready p strayed a) (le : strayed → strayed') :
    Ready p strayed' a :=
  have ⟨S, n, working, proper⟩ := h.working
  ⟨⟨S, n, working, fun hr => le (proper hr)⟩, h.idle⟩

/-- A call ends with the analysis ready again. -/
theorem Ready.perform (h : Ready p strayed a) (call : ClientCall) :
    Ends (strayed ∨ call.Reverses) (a.perform call) fun b =>
      Ready p (strayed ∨ call.Reverses) b ∧ Grows a b := by
  obtain ⟨S, n, working, proper⟩ := h.working
  cases call with
  | solve q =>
    have same : (S.add q.direction q).reversed = S.reversed := if_pos rfl
    have may : (S.add q.direction q).reversed.Nonempty → strayed := fun hr => proper (same ▸ hr)
    refine ((working.solve q).mono fun lax => .inl (may lax)).imp fun b ⟨working', solved⟩ => ?_
    exact ⟨⟨⟨_, _, working', fun hr => .inl (may hr)⟩, solved.idle⟩, solved.toGrows⟩
  | addBackwardQuery q client =>
    have may : (S.add .backward q).reversed.Nonempty → strayed ∨ q.direction = .forward := by
      cases hd : q.direction with
      | forward => exact fun _ => .inr rfl
      | backward =>
        have same : (S.add .backward q).reversed = S.reversed := if_pos hd.symm
        exact fun hr => .inl (proper (same ▸ hr))
    refine ((working.addBackwardQuery q client).mono may).imp fun b ⟨working', added⟩ => ?_
    exact ⟨⟨⟨_, _, working', may⟩, added.idle⟩, added.toGrows⟩
  | addAllocatedType type =>
    obtain ⟨working', idle, leads⟩ := working.addAllocatedType h.idle type
    exact .ok ⟨⟨⟨S, n, working', fun hr => .inl (proper hr)⟩, idle⟩, leads.toGrows⟩
  | addMethodListener listener =>
    obtain ⟨working', idle, leads⟩ := working.addMethodListener h.idle listener
    exact .ok ⟨⟨⟨S, n, working', fun hr => .inl (proper hr)⟩, idle⟩, leads.toGrows⟩

/-- Any sequence of calls ends with the analysis ready again. -/
theorem Ready.performAll (h : Ready p strayed a) (calls : List ClientCall) :
    Ends (strayed ∨ ∃ call ∈ calls, call.Reverses) (a.performAll calls) fun b =>
      Ready p (strayed ∨ ∃ call ∈ calls, call.Reverses) b ∧ Grows a b := by
  induction calls generalizing strayed a with
  | nil => exact .ok ⟨h.mono .inl, .refl a⟩
  | cons call calls ih =>
    have widen : (strayed ∨ call.Reverses) ∨ (∃ c ∈ calls, c.Reverses) →
        strayed ∨ ∃ c ∈ call :: calls, c.Reverses := by
      rintro ((hs | hc) | ⟨c, hc, hr⟩)
      · exact .inl hs
      · exact .inr ⟨call, List.mem_cons_self, hc⟩
      · exact .inr ⟨c, List.mem_cons_of_mem call hc, hr⟩
    rw [Analysis.performAll, List.foldlM_cons]
    refine ((h.perform call).mono fun may => widen (.inl may)).bind fun b ⟨ready, first⟩ => ?_
    refine ((ih ready).mono widen).imp fun c ⟨ready', rest⟩ => ?_
    exact ⟨ready'.mono widen, first.trans rest⟩

/-- Whatever clients have called, the analysis is ready for more. -/
theorem ready_of_performAll {config : Config} (h : (create p config).performAll calls = .ok a) :
    Ready p (∃ call ∈ calls, call.Reverses) a :=
  (((ready_create p config).performAll calls).of_eq_ok h).1.mono fun may => may.resolve_left id

/-! ## Calls end -/

/-- No event waits to be handled or collected, and no solver has work left. -/
structure Quiescent (a : Analysis) : Prop where
  queue : a.queue.pending = []
  outbox : ∀ {q s}, (q, s) ∈ a.pool.toList → s.outbox.pending = []
  worklist : ∀ {q s}, (q, s) ∈ a.pool.toList → s.worklist.pending = []

theorem Ready.quiescent (h : Ready p strayed a) : a.Quiescent where
  queue := h.idle.queue
  outbox hs := by
    obtain ⟨i, e, he, rfl⟩ := Pool.mem_toList_iff.1 hs
    exact h.idle.outbox he
  worklist hs := by
    obtain ⟨S, n, working, -⟩ := h.working
    obtain ⟨i, e, he, rfl⟩ := Pool.mem_toList_iff.1 hs
    exact (working.within.host he).resting.idle

/-- Whatever clients have called before, a call ends with nothing left to do. If some client has
started a forward query against the flow of control, the call may stop instead, at a field access
that nothing follows. -/
theorem perform_ends (p : Program) (config : Config)
    (reached : (create p config).performAll calls = .ok a) (call : ClientCall) :
    Ends (∃ c ∈ call :: calls, c.Reverses) (a.perform call) Quiescent := by
  have ready := ready_of_performAll reached
  refine ((ready.perform call).mono ?_).imp fun b ⟨ready', _⟩ => ready'.quiescent
  rintro (⟨c, hc, hr⟩ | hr)
  · exact ⟨c, List.mem_cons_of_mem call hc, hr⟩
  · exact ⟨call, List.mem_cons_self, hr⟩

/-- A method that reads a field of another name of the object it has written. -/
def sharedBox : String :=
  "method m() \x7b\n  x = new A\n  y = x\n  v = null\n  y.f = v\n  r = x.f\n  q: nop\n\x7d"

/-- What is read from the box. -/
def unboxed : Query := .backward ⟨.ofIndex ⟨"m"⟩ 6, ⟨"r", ⟨"m"⟩⟩⟩

theorem sharedBox_ends : ∃ program a, Source.readProgram sharedBox = .ok program ∧
    (create program default).performAll [.solve unboxed] = .ok a ∧
    Yields (a.perform (.addBackwardQuery unboxed 0)) Quiescent := by
  have checked : (Source.readProgram sharedBox).toOption.any fun _ => true := by decide +kernel
  obtain ⟨program, read, -⟩ := exists_ok_of_any checked
  obtain ⟨a, called, -⟩ :=
    ((ready_create program default).performAll [.solve unboxed]).yields (by decide)
  refine ⟨program, a, read, called, (perform_ends program default called _).yields ?_⟩
  decide

/-- A method whose last instructions are never reached. -/
def deadLoad : String := "method m() \x7b\n  return\n  x = y.f\n  q: nop\n\x7d"

/-- Nothing comes before the field access against the flow of control, and a client had a forward
query started there. -/
theorem deadLoad_stops : ∃ program a, Source.readProgram deadLoad = .ok program ∧
    (create program default).performAll
      [.addBackwardQuery ⟨.forward, ⟨.ofIndex ⟨"m"⟩ 3, ⟨"y", ⟨"m"⟩⟩⟩, none⟩ 0] = .ok a ∧
    ∀ b, a.perform (.solve (.backward ⟨.ofIndex ⟨"m"⟩ 3, ⟨"x", ⟨"m"⟩⟩⟩)) ≠ .ok b := by
  have checked : (Source.readProgram deadLoad).toOption.any fun program =>
      ((create program default).performAll
        [.addBackwardQuery ⟨.forward, ⟨.ofIndex ⟨"m"⟩ 3, ⟨"y", ⟨"m"⟩⟩⟩, none⟩ 0]).toOption.any fun a =>
      (a.perform (.solve (.backward ⟨.ofIndex ⟨"m"⟩ 3, ⟨"x", ⟨"m"⟩⟩⟩))).toOption.isNone := by
    decide +kernel
  obtain ⟨program, read, h⟩ := exists_ok_of_any checked
  obtain ⟨a, called, h⟩ := exists_ok_of_any h
  refine ⟨program, a, read, called, fun b returned => ?_⟩
  rw [returned] at h
  cases h

/-! ## Calls return -/

/-- A base and a flow are known at the access for which aliases are imported. -/
def Meets (a : Analysis) (access : FieldAccess) (base flow : Query) : Prop :=
  ∃ x, (access, x) ∈ a.fieldJoins.toList ∧ base ∈ x.bases ∧ flow ∈ x.flows ∧ x.executes flow

/-- A flow that is met by a base goes on from the access. -/
theorem Ready.goes_on (h : Ready p False a) {access : FieldAccess} {base flow : Query}
    (meets : a.Meets access base flow) :
    ∃ s, a.solver? flow = some s ∧ s.successors access.point ≠ [] := by
  obtain ⟨S, n, working, proper⟩ := h.working
  have within := working.within
  obtain ⟨x, hx, hb, hf, -⟩ := meets
  obtain ⟨j, hj⟩ := List.mem_iff_getElem?.1 hx
  have joins := within.fieldJoin (j := j) hj
  obtain ⟨based, -⟩ := joins.base base hb
  obtain ⟨flows, carries⟩ := joins.flow flow hf
  obtain ⟨i, e, he⟩ := carries.reaches.knows
  refine ⟨e.solver, Pool.find?_eq_some_iff.2 ⟨i, e, he, rfl⟩, ?_⟩
  have straight : ¬ S.realm.Lax := Supply.not_lax (Finset.not_nonempty_iff_eq_empty.1 proper)
  rw [Solver.successors, (within.host he).graph, carries.direction]
  exact (within.closed.goes_on based flows carries.direction).resolve_left straight

/-- If clients start queries in their direction only, whatever they start them at, every call returns.
Wherever a base has met a flow, the flow goes on, also in code that control never comes to. -/
theorem performAll_returns (p : Program) (config : Config)
    (proper : ∀ call ∈ calls, ¬ call.Reverses) :
    ∃ a, (create p config).performAll calls = .ok a ∧
      ∀ {access base flow}, a.Meets access base flow →
        ∃ s, a.solver? flow = some s ∧ s.successors access.point ≠ [] := by
  have straight : ¬ (False ∨ ∃ call ∈ calls, call.Reverses) := by
    rintro (absurd | ⟨call, hc, hr⟩)
    · exact absurd
    · exact proper call hc hr
  obtain ⟨a, returned, ready, -⟩ := ((ready_create p config).performAll calls).yields straight
  exact ⟨a, returned, fun meets => (ready.mono straight).goes_on meets⟩

/-- The store into the box meets the object and the value. -/
theorem sharedBox_returns : ∃ program a access base flow, Source.readProgram sharedBox = .ok program ∧
    (create program default).performAll [.solve unboxed] = .ok a ∧
    a.Meets access base flow ∧ ∃ s, a.solver? flow = some s ∧ s.successors access.point ≠ [] := by
  let fact (index : Nat) (name : String) : Fact := ⟨.ofIndex ⟨"m"⟩ index, ⟨name, ⟨"m"⟩⟩⟩
  let access : FieldAccess :=
    ⟨.write, .ofIndex ⟨"m"⟩ 4, ⟨"y", ⟨"m"⟩⟩, .named "f", ⟨"v", ⟨"m"⟩⟩⟩
  let base : Query := ⟨.forward, fact 1 "x", some ⟨"A"⟩⟩
  let flow : Query := ⟨.forward, fact 3 "v", none⟩
  have checked : (Source.readProgram sharedBox).toOption.any fun program =>
      ((create program default).performAll
        [.solve unboxed]).toOption.any fun a =>
      (a.fieldJoins.get? access).any fun x =>
        x.bases.contains base && x.flows.contains flow && x.executes flow := by
    decide +kernel
  obtain ⟨program, read, h⟩ := exists_ok_of_any checked
  obtain ⟨a, called, h⟩ := exists_ok_of_any h
  obtain ⟨x, hx, sides⟩ := (Option.any_eq_true _ _).1 h
  rw [Bool.and_eq_true, Bool.and_eq_true] at sides
  obtain ⟨⟨hb, hf⟩, executes⟩ := sides
  have meets : a.Meets access base flow := ⟨x, OrderedMap.get?_eq_some_iff.1 hx,
    OrderedSet.contains_iff.1 hb, OrderedSet.contains_iff.1 hf, executes⟩
  have proper : ∀ call ∈ [ClientCall.solve unboxed], ¬ call.Reverses := by decide
  obtain ⟨a', returned, goes_on⟩ := performAll_returns program default proper
  obtain rfl := Except.ok.inj (called.symm.trans returned)
  exact ⟨program, a, access, base, flow, read, called, meets, goes_on meets⟩

end Analysis

end PointsTo
