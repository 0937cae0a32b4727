import PointsTo.Proofs.Execution.Run
import PointsTo.Proofs.Solver.StaticCalls

/-!
# Following a value through a run

A solver follows a value in a variable of some frame if it has reached the variable, at the point of
the frame, in a context that unwinds through the call sites of the frames below (`Tracks`). Rules
that keep the value let it be followed on: within the frame, into a callee and back to a caller
(`Tracks.stay`, `Tracks.enter`, `Tracks.leave`). The last sections list the rules that the
instructions give, in both directions.
-/

namespace PointsTo

namespace Facts

variable {W : Ways} {F : Facts} {seed : Fact} {f : Fact} {r : Rule} {site : Point}
  {sites : List Point}

variable (F) in
/-- The context, taken in the method, unwinds through the call sites. The empty stack is left through
methods that may be left like that. -/
def Unwinds : List Point → MethodName → CallState → Prop
  | _, m, .initial _ => F.opened m
  | site :: sites, _, .generated v point =>
    ∃ c, F.call ⟨.generated v point, site, c⟩ ∧ Unwinds sites site.method c
  | [], _, .generated _ _ => True
  | _, _, .single _ => False

@[simp] theorem unwinds_initial {m : MethodName} {v : Var} :
    F.Unwinds sites m (.initial v) ↔ F.opened m := by
  cases sites <;> rfl

variable (F seed) in
/-- The fact holds the seed itself and is reached in a context that fits the call sites below. -/
def Tracks (f : Fact) (sites : List Point) : Prop :=
  F.field ⟨.single f, .epsilon, .alloc seed⟩ ∧
    ∃ c, F.enters f c ∧ F.Unwinds sites f.point.method c

theorem Tracks.live (h : F.Tracks seed f sites) : F.live f :=
  have ⟨_, c, hc, _⟩ := h
  ⟨c, hc⟩

/-- What fits some call sites is also followed if nobody knows what lies below. -/
theorem Tracks.forget (h : F.Tracks seed f sites) : F.Tracks seed f [] := by
  obtain ⟨ht, c, enters, unwinds⟩ := h
  refine ⟨ht, c, enters, ?_⟩
  cases c with
  | initial v => exact unwinds_initial.2 (unwinds_initial.1 unwinds)
  | generated v point => trivial
  | single v => cases sites <;> exact unwinds.elim

section Rules

variable (closed : F.Closed W) (hr : W.rule f r) (keeps : r.field = .keep)
include closed hr keeps

/-- Along an edge the context stays. -/
theorem Tracks.stay (h : F.Tracks seed f sites) (hc : r.call = .stay)
    (same : r.target.point.method = f.point.method) : F.Tracks seed r.target sites := by
  obtain ⟨ht, c, enters, unwinds⟩ := h
  exact ⟨closed.keep ⟨c, enters⟩ hr keeps ht, c, closed.stay enters hr hc, same ▸ unwinds⟩

/-- Into a callee, the call site comes to lie below. -/
theorem Tracks.enter (h : F.Tracks seed f sites) (hc : r.call = .enter site)
    (same : site = f.point) : F.Tracks seed r.target (site :: sites) := by
  obtain ⟨ht, c, enters, unwinds⟩ := h
  obtain ⟨inside, below⟩ := closed.enter enters hr hc
  exact ⟨closed.keep ⟨c, enters⟩ hr keeps ht, _, inside, c, below, same ▸ unwinds⟩

/-- Out of a callee, back to the call site. -/
theorem Tracks.leave (h : F.Tracks seed f (site :: sites)) (hc : r.call = .leave site)
    (same : r.target.point.method = site.method) : F.Tracks seed r.target sites := by
  obtain ⟨ht, c, enters, unwinds⟩ := h
  refine ⟨closed.keep ⟨c, enters⟩ hr keeps ht, ?_⟩
  cases c with
  | single v => exact unwinds.elim
  | initial v =>
    obtain ⟨outside, opened⟩ := closed.leaveBottom enters hr hc unwinds
    exact ⟨_, outside, unwinds_initial.2 opened⟩
  | generated v point =>
    obtain ⟨c, below, unwinds⟩ := unwinds
    exact ⟨c, closed.leave enters hr hc below, same ▸ unwinds⟩

end Rules

end Facts

/-! ## Instructions -/

namespace Instruction

variable {i : Instruction} {point : Point} {x : Value} {l l' : Locals} {h h' : Heap} {v dest : Var}

/-- After the instruction, a variable holds the value only if the instruction made it for the
variable, or if some variable held it before and the rules of both directions say which one. -/
def Passes (i : Instruction) (point : Point) (x : Value) (l l' : Locals) : Prop :=
  ∀ v, l' v = some x → (x.origin = point ∧ ((∃ type, i = .new v type) ∨ i = .null v)) ∨
    ∃ w, l w = some x ∧ ∀ p : Propagation, (v, .keep) ∈ (p.forwardTransfer point w i).carried ∧
      (w, .keep) ∈ (p.backwardTransfer point v i).carried

/-- An instruction that writes one variable passes what the others hold. -/
theorem passes_set {y : Option Value} (written : y = some x →
      (x.origin = point ∧ ((∃ type, i = .new dest type) ∨ i = .null dest)) ∨
        ∃ w, l w = some x ∧ ∀ p : Propagation,
          (dest, .keep) ∈ (p.forwardTransfer point w i).carried ∧
            (w, .keep) ∈ (p.backwardTransfer point dest i).carried)
    (kept : ∀ v ≠ dest, ∀ p : Propagation, (v, .keep) ∈ (p.forwardTransfer point v i).carried ∧
      (v, .keep) ∈ (p.backwardTransfer point v i).carried) : i.Passes point x l (l.set dest y) := by
  intro v hv
  unfold Locals.set at hv
  split at hv
  · next e => exact e ▸ written hv
  · next e => exact .inr ⟨v, hv, kept v e⟩

/-- An instruction passes every value that it does not read from a field. -/
theorem passes_act (ha : i.act? point l h = some (l', h')) (unread : i.read? l h ≠ some x) :
    i.Passes point x l l' := by
  cases i with
  | new dest type =>
    obtain ⟨rfl, -⟩ := Prod.mk.inj (Option.some.inj ha)
    refine passes_set (fun hy => .inl ⟨Option.some.inj hy ▸ rfl, .inl ⟨type, rfl⟩⟩) fun v e p => ?_
    simp [Propagation.forwardTransfer, Propagation.backwardTransfer, Transfer.carry, e]
  | null dest =>
    obtain ⟨rfl, -⟩ := Prod.mk.inj (Option.some.inj ha)
    refine passes_set (fun hy => .inl ⟨Option.some.inj hy ▸ rfl, .inr rfl⟩) fun v e p => ?_
    simp [Propagation.forwardTransfer, Propagation.backwardTransfer, Transfer.carry, e]
  | assign dest value =>
    obtain ⟨rfl, -⟩ := Prod.mk.inj (Option.some.inj ha)
    refine passes_set (fun hy => .inr ⟨value, hy, fun p => ?_⟩) fun v e p => ?_
    all_goals simp [Propagation.forwardTransfer, Propagation.backwardTransfer, Transfer.carry, *]
  | load dest base field =>
    obtain ⟨object, ho, ha⟩ := Option.bind_eq_some_iff.1 ha
    obtain ⟨y, hy, ha⟩ := Option.bind_eq_some_iff.1 ha
    obtain ⟨rfl, -⟩ := Prod.mk.inj (Option.some.inj ha)
    refine passes_set (fun e => absurd ?_ unread) fun v e p => ?_
    · simpa [read?, ho, hy] using e
    · simp [Propagation.forwardTransfer, Propagation.backwardTransfer, Transfer.carry, e]
  | store base field value =>
    obtain ⟨object, -, ha⟩ := Option.map_eq_some_iff.1 ha
    obtain ⟨rfl, -⟩ := Prod.mk.inj ha
    exact fun v hv => .inr ⟨v, hv, fun p => by
      simp [Propagation.forwardTransfer, Propagation.backwardTransfer, Transfer.carry]⟩
  | nop =>
    obtain ⟨rfl, -⟩ := Prod.mk.inj (Option.some.inj ha)
    exact fun v hv => .inr ⟨v, hv, fun p => by
      simp [Propagation.forwardTransfer, Propagation.backwardTransfer, Transfer.carry]⟩
  | call | ret => cases ha

theorem not_isReturn_of_act (ha : i.act? point l h = some (l', h')) : ¬ i.isReturn := by
  cases i <;> simp_all [isReturn, act?]

end Instruction

/-! ## Rules along the flow of control -/

namespace Propagation

variable {p : Propagation} {program : Program} {point next site entry : Point} {v w : Var}
  {i : Instruction} {m : MethodName} {dest : Option Var} {callee : Callee} {args : List Var} {k : Nat}
  {e : FieldEffect}

section Forward

variable (forward : p.direction = .forward) (graph : p.graph = ⟨program, .forward⟩)
include forward graph

theorem forward_stay (hi : program.instruction? point = some i) (hr : ¬ i.isReturn)
    (hc : (w, e) ∈ (p.forwardTransfer point v i).carried)
    (hn : next ∈ program.successors point) :
    ⟨⟨next, w⟩, e, .stay⟩ ∈ (p.flow ⟨point, v⟩).rules := by
  refine mem_rules_iff.2 ⟨i, by rw [graph]; exact hi, .inr ⟨w, e, ?_, .inr ⟨?_, next, ?_, rfl⟩⟩⟩
  · rw [transfer, forward]
    exact hc
  · rwa [isEndPoint_forward graph hi]
  · rw [graph]
    exact hn

theorem forward_enter (static : program.Static)
    (hi : program.instruction? site = some (.call dest callee args)) (hm : m ∈ program.callees site)
    (he : entry ∈ program.entries m) (ha : args[k]? = some v)
    (hp : (program.parameters m)[k]? = some w) :
    ⟨⟨entry, w⟩, .keep, .enter site⟩ ∈ (p.flow ⟨site, v⟩).rules := by
  refine mem_rules_iff.2 ⟨.call dest callee args, by rw [graph]; exact hi, .inl ?_⟩
  have enters : ⟨⟨entry, w⟩, .keep, .enter site⟩ ∈
      p.enterArguments site (p.callees site callee) args v := by
    rw [callees_of_static (by rwa [graph]) (by rw [graph]; exact hi), graph]
    refine mem_enterArguments_iff.2 ⟨k, ha, mem_enterParameter_iff.2 ⟨m, hm, entry, w, ?_, ?_, rfl⟩⟩
    · rwa [graph]
    · rwa [graph]
  rw [transfer, forward]
  show _ ∈ (p.forwardCall site dest callee args v).entering
  unfold forwardCall
  dsimp only
  split <;> exact enters

theorem forward_leave (hi : program.instruction? point = some (.ret (some v)))
    (hm : point.method ∈ program.callees site)
    (hs : program.instruction? site = some (.call (some w) callee args))
    (hn : next ∈ program.successors site) :
    ⟨⟨next, w⟩, .keep, .leave site⟩ ∈ (p.flow ⟨point, v⟩).rules := by
  refine mem_rules_iff.2 ⟨.ret (some v), by rw [graph]; exact hi, .inr ⟨v, .keep, ?_, .inl ⟨?_, ?_⟩⟩⟩
  · rw [transfer, forward]
    exact List.mem_cons_self
  · rw [isEndPoint_forward graph hi]
    rfl
  · rw [mem_exitRules_iff, graph]
    exact ⟨site, some w, callee, args, next, w, Program.mem_callers_iff.2 hm, hs, hn,
      mem_callerVars.2 (.inl ⟨by simpa using forward, rfl⟩), rfl⟩

end Forward

/-! ## Rules against the flow of control -/

section Backward

variable (backward : p.direction = .backward) (graph : p.graph = ⟨program, .backward⟩)
include backward graph

theorem backward_stay (hi : program.instruction? point = some i)
    (he : point ∉ program.entries point.method)
    (hc : (w, e) ∈ (p.backwardTransfer point v i).carried)
    (hn : next ∈ program.predecessors point) :
    ⟨⟨next, w⟩, e, .stay⟩ ∈ (p.flow ⟨point, v⟩).rules := by
  refine mem_rules_iff.2 ⟨i, by rw [graph]; exact hi, .inr ⟨w, e, ?_, .inr ⟨?_, next, ?_, rfl⟩⟩⟩
  · rw [transfer, backward]
    exact hc
  · rwa [isEndPoint_backward graph]
  · rw [graph]
    exact hn

theorem backward_enter (static : program.Static)
    (hi : program.instruction? site = some (.call (some v) callee args))
    (hm : point.method ∈ program.callees site)
    (hr : program.instruction? point = some (.ret (some w))) :
    ⟨⟨point, w⟩, .keep, .enter site⟩ ∈ (p.flow ⟨site, v⟩).rules := by
  refine mem_rules_iff.2 ⟨.call (some v) callee args, by rw [graph]; exact hi, .inl ?_⟩
  rw [transfer, backward]
  show _ ∈ (p.backwardCall site (some v) callee args v).entering
  unfold backwardCall
  dsimp only
  rw [if_pos rfl, callees_of_static (by rwa [graph]) (by rw [graph]; exact hi), graph]
  refine List.mem_flatMap.2 ⟨point.method, hm, List.mem_filterMap.2 ⟨point, ?_, ?_⟩⟩
  · rw [graph]
    exact Program.mem_exits_iff.2 ⟨rfl, some w, hr⟩
  · rw [graph, hr]

/-- An argument that the call does not write may come out of the callee, too: the callee may have
assigned to its parameter. -/
theorem backward_enterArgument (static : program.Static)
    (hi : program.instruction? site = some (.call dest callee args)) (kept : dest ≠ some v)
    (hm : point.method ∈ program.callees site)
    (hr : program.instruction? point = some (.ret value)) (ha : args[k]? = some v)
    (hp : (program.parameters point.method)[k]? = some w) :
    ⟨⟨point, w⟩, .keep, .enter site⟩ ∈ (p.flow ⟨site, v⟩).rules := by
  refine mem_rules_iff.2 ⟨.call dest callee args, by rw [graph]; exact hi, .inl ?_⟩
  rw [transfer, backward]
  show _ ∈ (p.backwardCall site dest callee args v).entering
  unfold backwardCall
  dsimp only
  rw [if_neg kept, callees_of_static (by rwa [graph]) (by rw [graph]; exact hi)]
  refine mem_enterArguments_iff.2 ⟨k, ha, mem_enterParameter_iff.2 ⟨point.method, ?_, point, w, ?_, ?_, rfl⟩⟩
  · rwa [graph]
  · rw [graph]
    exact Program.mem_exits_iff.2 ⟨rfl, value, hr⟩
  · rwa [graph]

theorem backward_leave (he : point ∈ program.entries m) (hm : m ∈ program.callees site)
    (hs : program.instruction? site = some (.call dest callee args))
    (hp : (program.parameters m).findIdx? (· = v) = some k) (ha : args[k]? = some w)
    (hn : next ∈ program.predecessors site) :
    ⟨⟨next, w⟩, .keep, .leave site⟩ ∈ (p.flow ⟨point, v⟩).rules := by
  obtain rfl := Program.method_of_mem_entries he
  have hi := Program.instruction?_of_mem_entries he
  refine mem_rules_iff.2 ⟨.nop, by rw [graph]; exact hi, .inr ⟨v, .keep, ?_, .inl ⟨?_, ?_⟩⟩⟩
  · rw [transfer, backward]
    exact List.mem_cons_self
  · rwa [isEndPoint_backward graph]
  · rw [mem_exitRules_iff, graph]
    exact ⟨site, dest, callee, args, next, w, Program.mem_callers_iff.2 hm, hs, hn,
      mem_callerVars.2 (.inr ⟨k, hp, ha⟩), rfl⟩

end Backward

end Propagation

end PointsTo
