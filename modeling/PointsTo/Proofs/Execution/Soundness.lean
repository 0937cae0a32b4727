import PointsTo.Proofs.Analysis.Running
import PointsTo.Proofs.Execution.Tracking
import PointsTo.Proofs.Source.Reader

/-!
# Every value that a variable holds is explained

If a run brings a value to a variable and never reads it from a field, a backward query for the
variable finds where the value was made (`Solves.explained_of_run`), and the forward query for that
point follows the value back to the variable (`Solves.followed_of_run`). Both are inductions along the
run that treat each kind of step by itself: the first one says of every variable that is looked for
that its value is found, the second one of every variable that holds the value that it was reached.
That the forward query is asked at all is due to the analysis handling every event
(`Analysis.Running.all_handled`).
-/

namespace PointsTo

/-- What the solver of a seed knows once it is at rest, in a program with static calls. -/
structure Solves (program : Program) (d : Direction) (seed : Fact) (p : Propagation) (F : Facts) :
    Prop where
  direction : p.direction = d
  graph : p.graph = ⟨program, d⟩
  static : program.Static
  closed : F.Closed p.ways
  opened : F.opened seed.point.method
  productive : F.productive (.alloc seed)
  begun : ∀ next ∈ (⟨program, d⟩ : Supergraph).successors seed.point,
    (Operation.solve ⟨next, seed.var⟩).Grants seed F

namespace Solves

variable {p : Propagation} {program : Program} {F : Facts} {seed : Fact} {s t : State}
  {f g caller : Frame} {callers : List Frame} {point next entry site : Point} {sites : List Point}
  {v w : Var} {x : Value} {l : Locals} {i : Instruction} {m : MethodName} {dest value : Option Var}
  {callee : Callee} {args : List Var} {k : Nat}

/-! ## Along the run -/

variable (F seed x) in
/-- Wherever the value is, the facts follow it. -/
def Followed (frames : List Frame) : Prop :=
  ∀ f callers v, f :: callers <:+ frames → f.locals v = some x →
    F.Tracks seed ⟨f.point, v⟩ (callers.map Frame.point)

theorem Followed.cons
    (top : ∀ v, f.locals v = some x → F.Tracks seed ⟨f.point, v⟩ (callers.map Frame.point))
    (h : Followed F seed x callers) : Followed F seed x (f :: callers) := by
  intro g below v hg hv
  obtain e | hg := List.suffix_cons_iff.1 hg
  · obtain ⟨rfl, rfl⟩ := List.cons.inj e
    exact top v hv
  · exact h g below v hg hv

theorem Followed.tail (h : Followed F seed x (f :: callers)) : Followed F seed x callers :=
  fun g below v hg => h g below v (hg.trans (List.suffix_cons _ _))

theorem Followed.top (h : Followed F seed x (f :: callers)) (hv : f.locals v = some x) :
    F.Tracks seed ⟨f.point, v⟩ (callers.map Frame.point) :=
  h f callers v (List.suffix_refl _) hv

section Forward

variable (solves : Solves program .forward seed p F)
include solves

/-- After an instruction within a frame, the value is where a rule leads it, or it is made. -/
theorem followed_move (h : Followed F seed x (f :: callers)) (made : program.Allocates seed)
    (origin : x.origin = seed.point) (hi : program.instruction? f.point = some i)
    (stays : ¬ i.isReturn) (passes : i.Passes f.point x f.locals l)
    (hn : next ∈ program.successors f.point) : Followed F seed x (⟨next, l⟩ :: callers) := by
  have same := Program.method_of_mem_successors hn
  refine .cons (fun v hv => ?_) h.tail
  obtain ⟨here, writes⟩ | ⟨w, hw, carried⟩ := passes v hv
  · have origin : seed.point = f.point := origin.symm.trans here
    have hd : v = seed.var := by
      unfold Program.Allocates at made
      rw [origin, hi] at made
      obtain ⟨_, rfl⟩ | rfl := writes <;> simpa using made
    obtain ⟨field, enters⟩ := solves.begun next (origin ▸ hn)
    subst hd
    refine ⟨field, _, enters, Facts.unwinds_initial.2 ?_⟩
    rw [same, ← origin]
    exact solves.opened
  · exact (h.top hw).stay solves.closed
      (Propagation.forward_stay solves.direction solves.graph hi stays (carried p).1 hn) rfl rfl same

/-- What the arguments hold, the parameters hold. -/
theorem followed_call (h : Followed F seed x (f :: callers))
    (hi : program.instruction? f.point = some (.call dest callee args))
    (hm : m ∈ program.callees f.point) (he : entry ∈ program.entries m) :
    Followed F seed x (⟨entry, f.locals.bind (program.parameters m) args⟩ :: f :: callers) := by
  refine .cons (fun w hv => ?_) h
  simp only [Locals.bind, Option.bind_eq_bind, Option.bind_eq_some_iff] at hv
  obtain ⟨k, hk, v, ha, hv⟩ := hv
  have hp : (program.parameters m)[k]? = some w := by
    obtain ⟨hlt, hw, -⟩ := List.findIdx?_eq_some_iff_getElem.1 hk
    rw [List.getElem?_eq_getElem hlt, of_decide_eq_true hw]
  exact (h.top hv).enter solves.closed
    (Propagation.forward_enter solves.direction solves.graph solves.static hi hm he ha hp) rfl rfl rfl

/-- What the callee returns, the destination holds, and the other variables hold what they held at
the call. -/
theorem followed_ret (h : Followed F seed x (f :: caller :: callers))
    (linked : f.point.method ∈ program.callees caller.point)
    (hi : program.instruction? f.point = some (.ret value))
    (hs : program.instruction? caller.point = some (.call dest callee args))
    (hn : next ∈ program.successors caller.point) :
    Followed F seed x (⟨next, caller.locals.receive dest (value.bind f.locals)⟩ :: callers) := by
  have same := Program.method_of_mem_successors hn
  have returned {v w} (hd : dest = some v) (hr : value = some w)
      (hw : f.locals w = some x) : F.Tracks seed ⟨next, v⟩ (callers.map Frame.point) := by
    subst hd hr
    exact (h.top hw).leave solves.closed
      (Propagation.forward_leave solves.direction solves.graph hi linked hs hn) rfl rfl same
  have kept {v} (hd : dest ≠ some v) (hv : caller.locals v = some x) :
      F.Tracks seed ⟨next, v⟩ (callers.map Frame.point) := by
    refine (h.tail.top hv).stay solves.closed (Propagation.forward_stay
      solves.direction solves.graph hs (by simp [Instruction.isReturn]) ?_ hn) rfl rfl same
    simp [Propagation.forwardTransfer, Propagation.forwardCall, hd]
  refine .cons (fun v hv => ?_) h.tail.tail
  cases dest with
  | none => exact kept (by simp) hv
  | some d =>
    simp only [Locals.receive, Locals.set] at hv
    split at hv
    · next e =>
      obtain ⟨w, hr, hw⟩ := Option.bind_eq_some_iff.1 hv
      exact returned (by rw [e]) hr hw
    · next e => exact kept (by simpa [eq_comm] using e) hv

/-- Along every run the facts follow the value from where it was made, if it is never read from a field. -/
theorem followed_of_run (made : program.Allocates seed) (origin : x.origin = seed.point)
    (run : program.RunsUnread x s) : Followed F seed x s.frames := by
  induction run with
  | initial => exact .cons (fun _ hv => by cases hv) fun _ _ _ hf => by cases List.suffix_nil.1 hf
  | tail run unread step ih =>
    have linked := run.linked
    cases step with
    | act hi ha hn =>
      have passes := Instruction.passes_act ha (by simpa [State.read?, hi] using unread)
      exact solves.followed_move ih made origin hi (Instruction.not_isReturn_of_act ha) passes hn
    | call hi hm he => exact solves.followed_call ih hi hm he
    | ret hi hs hn => exact solves.followed_ret ih linked.1 hi hs hn

end Forward

/-! ## Against the run -/

variable (program F seed) in
/-- What the variable holds on arrival at the point is looked for: in the points from which control
may have come, and at the entry of a method in its callers. -/
def Sought (f : Fact) (sites : List Point) : Prop :=
  (∀ previous ∈ program.predecessors f.point, F.Tracks seed ⟨previous, f.var⟩ sites) ∧
    ∀ m, f.point ∈ program.entries m → F.Tracks seed f sites

variable (program F) in
/-- The facts have reached the variable that was written where the value was made. -/
def Found (x : Value) : Prop :=
  ∃ v, program.Allocates ⟨x.origin, v⟩ ∧ F.reached ⟨x.origin, v⟩

variable (program F seed x) in
/-- If a variable that is looked for holds the value, the value is found. -/
def Explained (frames : List Frame) : Prop :=
  ∀ f callers v, f :: callers <:+ frames → f.locals v = some x →
    Sought program F seed ⟨f.point, v⟩ (callers.map Frame.point) → Found program F x

theorem Explained.cons (top : ∀ v, f.locals v = some x →
    Sought program F seed ⟨f.point, v⟩ (callers.map Frame.point) → Found program F x)
    (h : Explained program F seed x callers) : Explained program F seed x (f :: callers) := by
  intro g below v hg hv
  obtain e | hg := List.suffix_cons_iff.1 hg
  · obtain ⟨rfl, rfl⟩ := List.cons.inj e
    exact top v hv
  · exact h g below v hg hv

theorem Explained.tail (h : Explained program F seed x (f :: callers)) :
    Explained program F seed x callers :=
  fun g below v hg => h g below v (hg.trans (List.suffix_cons _ _))

theorem Explained.top (h : Explained program F seed x (f :: callers)) (hv : f.locals v = some x) :
    Sought program F seed ⟨f.point, v⟩ (callers.map Frame.point) → Found program F x :=
  h f callers v (List.suffix_refl _) hv

section Backward

variable (solves : Solves program .backward seed p F)
  (entries : ∀ {point next}, next ∈ program.successors point → ∀ m, next ∉ program.entries m)
include solves entries

/-- What is looked for behind an instruction is looked for before it, where the instruction took it
from. -/
theorem sought_of_carried (h : F.Tracks seed ⟨point, v⟩ sites)
    (hi : program.instruction? point = some i)
    (hc : (w, .keep) ∈ (p.backwardTransfer point v i).carried) :
    Sought program F seed ⟨point, w⟩ sites := by
  refine ⟨fun previous hp => ?_, fun m he => ?_⟩
  · have hn := Program.mem_predecessors.1 hp
    exact h.stay solves.closed (Propagation.backward_stay solves.direction solves.graph hi
      (entries hn _) hc hp) rfl rfl (Program.method_of_mem_successors hn).symm
  · obtain rfl := Option.some.inj (hi.symm.trans (Program.instruction?_of_mem_entries he))
    obtain rfl : w = v := by
      simpa [Propagation.backwardTransfer, Transfer.carry] using hc
    exact h

omit entries in
/-- Inside a method, the seed of the query is looked for. -/
theorem sought_seed (inside : ∀ m, seed.point ∉ program.entries m) :
    Sought program F seed seed sites := by
  refine ⟨fun previous hp => ?_, fun m he => absurd he (inside m)⟩
  obtain ⟨field, enters⟩ := solves.begun previous hp
  refine ⟨field, _, enters, Facts.unwinds_initial.2 ?_⟩
  rw [← Program.method_of_mem_successors (Program.mem_predecessors.1 hp)]
  exact solves.opened

omit entries in
/-- For a parameter the argument is looked for. -/
theorem sought_argument (h : Sought program F seed ⟨entry, w⟩ (site :: sites))
    (hi : program.instruction? site = some (.call dest callee args))
    (hm : m ∈ program.callees site) (he : entry ∈ program.entries m)
    (hk : (program.parameters m).findIdx? (· = w) = some k) (ha : args[k]? = some v) :
    Sought program F seed ⟨site, v⟩ sites := by
  refine ⟨fun previous hp => ?_, fun m' he' => ?_⟩
  · exact (h.2 m he).leave solves.closed
      (Propagation.backward_leave solves.direction solves.graph he hm hi hk ha hp) rfl rfl
      (Program.method_of_mem_successors (Program.mem_predecessors.1 hp)).symm
  · have nop := Program.instruction?_of_mem_entries he'
    exact absurd (hi.symm.trans nop) (by simp)

/-- For the destination of a call what the callee returns is looked for. -/
theorem sought_returned (h : F.Tracks seed ⟨site, v⟩ sites)
    (hs : program.instruction? site = some (.call (some v) callee args))
    (linked : point.method ∈ program.callees site)
    (hi : program.instruction? point = some (.ret (some w))) :
    Sought program F seed ⟨point, w⟩ (site :: sites) := by
  have inside : F.Tracks seed ⟨point, w⟩ (site :: sites) :=
    h.enter solves.closed (Propagation.backward_enter solves.direction solves.graph solves.static
      hs linked hi) rfl rfl rfl
  exact solves.sought_of_carried entries inside hi
    (by simp [Propagation.backwardTransfer, Transfer.carry])

omit entries in
/-- At the point at which the value was made, the query has found it. -/
theorem found_of_made (h : F.Tracks seed ⟨f.point, v⟩ sites) (origin : x.origin = f.point)
    (hi : program.instruction? f.point = some i) (here : (∃ type, i = .new v type) ∨ i = .null v) :
    Found program F x := by
  refine ⟨v, ?_, origin ▸ ⟨h.live, solves.closed.productive h.1 solves.productive⟩⟩
  rw [Program.Allocates, origin, hi]
  obtain ⟨type, rfl⟩ | rfl := here
  · exact .inl ⟨type, rfl⟩
  · exact .inr rfl

/-- A variable that is looked for after an instruction was written there, or another one is looked
for before it. -/
theorem explained_move (h : Explained program F seed x (f :: callers))
    (hi : program.instruction? f.point = some i) (passes : i.Passes f.point x f.locals l)
    (hn : next ∈ program.successors f.point) :
    Explained program F seed x (⟨next, l⟩ :: callers) := by
  refine .cons (fun v hv sought => ?_) h.tail
  have tracked := sought.1 _ (Program.mem_predecessors.2 hn)
  obtain ⟨origin, writes⟩ | ⟨w, hw, carried⟩ := passes v hv
  · exact solves.found_of_made tracked origin hi writes
  · exact h.top hw (solves.sought_of_carried entries tracked hi (carried p).2)

omit entries in
theorem explained_call (h : Explained program F seed x (f :: callers))
    (hi : program.instruction? f.point = some (.call dest callee args))
    (hm : m ∈ program.callees f.point) (he : entry ∈ program.entries m) :
    Explained program F seed x (⟨entry, f.locals.bind (program.parameters m) args⟩ :: f :: callers) := by
  refine .cons (fun w hv sought => ?_) h
  simp only [Locals.bind, Option.bind_eq_bind, Option.bind_eq_some_iff] at hv
  obtain ⟨k, hk, v, ha, hv⟩ := hv
  exact h.top hv (solves.sought_argument sought hi hm he hk ha)

/-- For the destination of a call what the callee returns is looked for, and any other variable
before the call. -/
theorem explained_ret (h : Explained program F seed x (f :: caller :: callers))
    (linked : f.point.method ∈ program.callees caller.point)
    (hi : program.instruction? f.point = some (.ret value))
    (hs : program.instruction? caller.point = some (.call dest callee args))
    (hn : next ∈ program.successors caller.point) : Explained program F seed x
      (⟨next, caller.locals.receive dest (value.bind f.locals)⟩ :: callers) := by
  refine .cons (fun v hv sought => ?_) h.tail.tail
  have tracked := sought.1 _ (Program.mem_predecessors.2 hn)
  have kept (hd : dest ≠ some v) (hv : caller.locals v = some x) : Found program F x :=
    h.tail.top hv (solves.sought_of_carried entries tracked hs
      (by simp [Propagation.backwardTransfer, Propagation.backwardCall, hd]))
  have returned {w} (hd : dest = some v) (hr : value = some w) (hw : f.locals w = some x) :
      Found program F x := by
    subst hd hr
    exact h.top hw (solves.sought_returned entries tracked hs linked hi)
  cases dest with
  | none => exact kept (by simp) hv
  | some d =>
    simp only [Locals.receive, Locals.set] at hv
    split at hv
    · next e =>
      obtain ⟨w, hr, hw⟩ := Option.bind_eq_some_iff.1 hv
      exact returned (by rw [e]) hr hw
    · next e => exact kept (by simpa [eq_comm] using e) hv

/-- Along every run, where the value was made is found from every variable that is looked for, if the
value is never read from a field. -/
theorem explained_of_run (run : program.RunsUnread x s) : Explained program F seed x s.frames := by
  induction run with
  | initial => exact .cons (fun _ hv => by cases hv) fun _ _ _ hf => by cases List.suffix_nil.1 hf
  | tail run unread step ih =>
    have linked := run.linked
    cases step with
    | act hi ha hn =>
      have passes := Instruction.passes_act ha (by simpa [State.read?, hi] using unread)
      exact solves.explained_move entries ih hi passes hn
    | call hi hm he => exact solves.explained_call ih hi hm he
    | ret hi hs hn => exact solves.explained_ret entries ih linked.1 hi hs hn

end Backward

end Solves

/-! ## The analysis -/

theorem Program.Allocates.unique {p : Program} {point : Point} {v w : Var}
    (h : p.Allocates ⟨point, v⟩) (h' : p.Allocates ⟨point, w⟩) : v = w := by
  unfold Allocates at h h'
  obtain ⟨_, e⟩ | e := h <;> simp_all

theorem Hosts.solves {w : Realm} {p : Program} {q : Query} {e : PoolEntry} (h : Hosts w p q e)
    (proper : ¬ w.reversed q) (static : p.Static) :
    Solves p q.direction q.fact e.solver.propagation e.solver.facts where
  direction := h.direction
  graph := h.graph
  static := static
  closed := h.resting.closed (by rw [h.graph]; exact static)
  opened := h.opened
  productive := h.productive
  begun := h.begun proper

namespace Analysis

variable {source : String} {program : Program} {S : Supply program} {n : Nat} {a : Analysis}
  {s : State} {v y : Var} {x : Value}

/-- Once an analysis has solved the query for a variable, it knows where the value was made that the
variable holds after some run, if the run never read the value from a field. -/
theorem Running.mem_allocationSites (running : Running S n a) (idle : a.Idle)
    (asked : a.Knows (.backward ⟨s.top.point, v⟩))
    (parsed : Source.readProgram source = .ok program) (static : program.Static)
    (run : program.RunsUnread x s) (inside : ∀ m, s.top.point ∉ program.entries m)
    (held : s.top.locals v = some x) (made : program.Allocates ⟨x.origin, y⟩) :
    .allocation program ⟨x.origin, y⟩ ∈ a.allocationSites (.backward ⟨s.top.point, v⟩) := by
  obtain ⟨i, e, he⟩ := asked
  have host {j q e} (he : a.pool.Has j q e) : Hosts S.realm program q e :=
    running.program ▸ running.within.host he
  have proper := Supply.not_reversed running.proper
  have reached : e.solver.facts.reached ⟨x.origin, y⟩ := by
    have solves := (host he).solves (proper _) static
    obtain ⟨y', made', reached⟩ := (solves.explained_of_run (Source.readProgram_entry parsed) run).top
      held (solves.sought_seed inside)
    obtain rfl := made.unique made'
    exact reached
  have followed : a.Knows (.allocation program ⟨x.origin, y⟩) := by
    have event := (host he).resting.told.reached_iff.2 ((host he).resting.mem_reached reached)
    have handled := (running.all_handled idle he event).allocation rfl (running.program ▸ made)
    exact running.program ▸ handled.2.1
  obtain ⟨j, e', he'⟩ := followed
  have solves := (host he').solves (proper _) static
  have tracked := (solves.followed_of_run made rfl run).top held
  refine mem_allocationSites_iff.2 ⟨rfl, j, e', he', ?_⟩
  exact (host he').resting.reachesWithEmptyStack tracked.live (by rw [(host he').seed]; exact tracked.1)

/-! ## Programs without field accesses -/

/-- A value that a variable holds at some point of a run is among the allocation sites that a fresh
analysis finds for the variable. Whatever the configuration, there is an answer. -/
theorem mem_allocationSites_of_run (config : Config)
    (parsed : Source.readProgram source = .ok program) (fieldless : program.Fieldless)
    (static : program.Static) (run : program.Runs s)
    (inside : ∀ m, s.top.point ∉ program.entries m) (held : s.top.locals v = some x)
    (made : program.Allocates ⟨x.origin, y⟩) :
    Yields ((create program config).solve (.backward ⟨s.top.point, v⟩)) fun a =>
      .allocation program ⟨x.origin, y⟩ ∈ a.allocationSites (.backward ⟨s.top.point, v⟩) :=
  ((running_create program config).solve _).imp fun _ ⟨running, solved⟩ =>
    running.mem_allocationSites solved.idle (solved.knows _ List.mem_cons_self) parsed static
      (run.unread fieldless x) inside held made

/-- A method that hands on what another one makes. -/
def handingOn : String :=
  "method m() \x7b\n  x = call make()\n  y = x\n\x7d\n" ++
    "method make() \x7b\n  z = new T\n  return z\n\x7d"

/-- The run into the other method and back. -/
theorem handingOn_run : ∃ program, Source.readProgram handingOn = .ok program ∧
    program.Fieldless ∧ program.Static ∧
    program.Allocates ⟨.ofIndex ⟨"make"⟩ 1, ⟨"z", ⟨"make"⟩⟩⟩ ∧
    (∀ m, .ofIndex ⟨"m"⟩ 2 ∉ program.entries m) ∧ ∃ s, program.Runs s ∧
      s.top.point = .ofIndex ⟨"m"⟩ 2 ∧
      s.top.locals ⟨"x", ⟨"m"⟩⟩ = some (.object (.ofIndex ⟨"make"⟩ 1) 0) := by
  have checked : (Source.readProgram handingOn).toOption.any fun program =>
      decide (program.Fieldless ∧ program.Static ∧
        program.instruction? (.ofIndex ⟨"make"⟩ 1) = some (.new ⟨"z", ⟨"make"⟩⟩ ⟨"T"⟩) ∧
        .ofIndex ⟨"m"⟩ 2 ∉ program.entries ⟨"m"⟩ ∧ .ofIndex ⟨"m"⟩ 0 ∈ program.entries ⟨"m"⟩ ∧
        ((State.initial (.ofIndex ⟨"m"⟩ 0)).follow? (fun _ => True) program
          [.ofIndex ⟨"m"⟩ 1, .ofIndex ⟨"make"⟩ 0, .ofIndex ⟨"make"⟩ 1, .ofIndex ⟨"make"⟩ 2,
            .ofIndex ⟨"m"⟩ 2]).any fun s =>
          decide (s.top.point = .ofIndex ⟨"m"⟩ 2 ∧
            s.top.locals ⟨"x", ⟨"m"⟩⟩ = some (.object (.ofIndex ⟨"make"⟩ 1) 0))) := by
    decide +kernel
  obtain ⟨program, read, h⟩ := exists_ok_of_any checked
  obtain ⟨fieldless, static, made, inside, entry, path⟩ := of_decide_eq_true h
  obtain ⟨s, run, h⟩ := Program.exists_runsWhile entry path
  obtain ⟨there, held⟩ := of_decide_eq_true h
  exact ⟨program, read, fieldless, static, .inl ⟨_, made⟩, Program.not_mem_entries inside, s, run,
    there, held⟩

/-- What the other method made is found for the variable that it was returned to. -/
theorem handedOn_mem_allocationSites : ∃ program, Source.readProgram handingOn = .ok program ∧
    Yields ((create program default).solve (.backward ⟨.ofIndex ⟨"m"⟩ 2, ⟨"x", ⟨"m"⟩⟩⟩)) fun a =>
      .allocation program ⟨.ofIndex ⟨"make"⟩ 1, ⟨"z", ⟨"make"⟩⟩⟩ ∈
        a.allocationSites (.backward ⟨.ofIndex ⟨"m"⟩ 2, ⟨"x", ⟨"m"⟩⟩⟩) := by
  obtain ⟨program, read, fieldless, static, made, inside, s, run, there, held⟩ := handingOn_run
  have sites := mem_allocationSites_of_run (x := .object _ 0) default read fieldless static run
    (by rwa [there]) held made
  rw [there] at sites
  exact ⟨program, read, sites⟩

end Analysis

end PointsTo
