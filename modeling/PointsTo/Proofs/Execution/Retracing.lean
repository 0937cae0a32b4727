import PointsTo.Proofs.Execution.Soundness
import PointsTo.Proofs.Solver.Contexts
import PointsTo.Proofs.Solver.ReturnSites
import PointsTo.Proofs.Solver.Reversal

/-!
# Backward solvers retrace forward ones

Take a fact that a forward solver reaches, and the call sites below. Whichever backward solver looks
for the variable there, with these call sites below, reaches the fact that the forward solver started
from (`Solves.Retraced`). It holds where the forward solver starts, and each forward rule keeps it,
since there is a backward rule the other way (`Solves.followsRules_retraced`).

One forward rule has no counterpart. Where a callee ends, the value of a parameter goes back to the
argument, even if the call writes this very variable (`Program.HandsBack.overwritten`). Against the
flow of control, the variable that a call writes comes from what the callee returns, and from nowhere
else. So no call may have its destination among its arguments (`Program.Reversible`).
-/

namespace PointsTo

/-! ## Programs that can be followed back -/

/-- Whether the instruction is a call that writes one of its own arguments. -/
def Instruction.overwritesArgument : Instruction → Bool
  | .call (some dest) _ args => args.contains dest
  | _ => false

namespace Program

/-- Every way of a value through the program can be gone in both directions. No call writes one of
its own arguments, parameters are told apart by their names, and no edge leads to the entry of a
method. -/
structure Reversible (p : Program) : Prop where
  static : p.Static
  /-- Through a field there are ways for one direction only: whether the way is found depends on the
  names that the box has where a solver comes to it, at the store or at the load
  (`Analysis.dropping_parts`). -/
  fieldless : p.Fieldless
  intact : ∀ b ∈ p.bodies, ∀ i ∈ b.instructions.toList, i.overwritesArgument = false
  distinct : ∀ b ∈ p.bodies, b.parameters.Nodup
  entered : ∀ {point next}, next ∈ p.successors point → ∀ m, next ∉ p.entries m

variable {p : Program} {site : Point} {dest : Option Var} {callee : Callee} {args : List Var}
  {m : MethodName} {v : Var} {k : Nat}

theorem Reversible.kept (h : p.Reversible)
    (hi : p.instruction? site = some (.call dest callee args)) (ha : args[k]? = some v) :
    dest ≠ some v := by
  rintro rfl
  obtain ⟨b, hb, hi⟩ := exists_body_of_instruction? hi
  have intact : args.contains v = false := h.intact b hb _ hi
  rw [List.contains_iff_mem.2 (List.mem_of_getElem? ha)] at intact
  cases intact

/-- The position of a parameter is the one at which its name is found. -/
theorem Reversible.findIdx? (h : p.Reversible) (hp : (p.parameters m)[k]? = some v) :
    (p.parameters m).findIdx? (· = v) = some k := by
  have distinct : (p.parameters m).Nodup := by
    unfold parameters
    cases hb : p.body? m with
    | none => exact List.nodup_nil
    | some b => exact h.distinct b (body?_eq_some hb).1
  obtain ⟨hk, rfl⟩ := List.getElem?_eq_some_iff.1 hp
  refine List.findIdx?_eq_some_iff_getElem.2 ⟨hk, by simp, fun j hj => ?_⟩
  simpa using fun same => Nat.ne_of_lt hj (distinct.getElem_inj_iff.1 same)

end Program

namespace Propagation

variable {p p' : Propagation} {point : Point} {i : Instruction} {v w : Var} {e : FieldEffect}

theorem keep_of_mem_carried (hi : i.accessesField = false)
    (h : (w, e) ∈ (p.transfer point v i).carried) : e = .keep := by
  have fields : i.fields = [] := by
    cases i <;> first | rfl | cases hi
  obtain ⟨-, named⟩ := mem_carried h
  cases e with
  | keep => rfl
  | push g => simpa [fields] using named g (.inl rfl)
  | pop g => simpa [fields] using named g (.inr rfl)

/-- Without fields, no rule changes the field stack. -/
theorem keep_of_mem_rules (fieldless : p.graph.program.Fieldless) {f : Fact} {r : Rule}
    (h : r ∈ (p.flow f).rules) : r.field = .keep := by
  obtain ⟨i, hi, h | ⟨w, e, hc, h⟩⟩ := mem_rules_iff.1 h
  · obtain ⟨_, _, _, -, -, rfl⟩ := mem_entering h
    rfl
  · obtain rfl := keep_of_mem_carried (fieldless.instruction hi) hc
    obtain ⟨-, h⟩ | ⟨-, next, -, rfl⟩ := h
    · obtain ⟨_, _, _, _, _, _, -, -, -, -, rfl⟩ := mem_exitRules_iff.1 h
      rfl
    · rfl

/-- Without fields, what a variable is passed on to is taken from this variable against the flow of
control. -/
theorem carried_reverse (forward : p.direction = .forward) (hi : i.accessesField = false)
    (h : (w, e) ∈ (p.forwardTransfer point v i).carried) :
    (v, .keep) ∈ (p'.backwardTransfer point w i).carried := by
  have keep : e = .keep := keep_of_mem_carried hi (by rwa [transfer, forward])
  subst keep
  cases call : i.isCall with
  | true =>
    cases i with
    | call dest callee args =>
      obtain ⟨rfl, kept⟩ := Solver.kept_of_mem_carried h
      simp [backwardTransfer, backwardCall, kept]
    | _ => cases call
  | false =>
    have carries : (p.forwardTransfer point v i).Carries [] w [] := ⟨.keep, h, rfl⟩
    have back : (p'.backwardTransfer point w i).Carries [] v [] := (carries_reverse call).1 carries
    obtain ⟨e', h', changes⟩ := back
    cases e' with
    | keep => exact h'
    | push g | pop g => cases changes

end Propagation

/-! ## Along the forward rules -/

namespace Solves

variable {program : Program} {made f : Fact} {sites : List Point} {site : Point} {r : Rule}
  {p : Propagation}

variable (program made) in
/-- Whoever looks for the variable, with the call sites below, has reached the fact. -/
def Retraced (f : Fact) (sites : List Point) : Prop :=
  ∀ {seed p F}, Solves program .backward seed p F → Sought program F seed f sites → F.reached made

/-- The value is found where it was made if the variable is looked for right behind. -/
theorem retraced_start {next : Point} (hn : next ∈ program.successors made.point) :
    Retraced program made ⟨next, made.var⟩ [] := by
  intro seed p F solves sought
  have tracked := sought.1 _ (Program.mem_predecessors.2 hn)
  exact ⟨tracked.live, solves.closed.productive tracked.1 solves.productive⟩

/-- Who looks for a variable with some call sites below also looks for it with nothing known below. -/
theorem Sought.forget {F : Facts} {seed : Fact} (h : Sought program F seed f sites) :
    Sought program F seed f [] :=
  ⟨fun previous hp => (h.1 previous hp).forget, fun m he => (h.2 m he).forget⟩

section Rules

variable (reversible : program.Reversible) (forward : p.direction = .forward)
  (graph : p.graph = ⟨program, .forward⟩) (hr : r ∈ (p.flow f).rules)
include reversible forward graph hr

theorem retraced_stay (h : Retraced program made f sites) (hc : r.call = .stay) :
    Retraced program made r.target sites := by
  obtain ⟨hn, i, hi, carried⟩ := Solver.edge_of_stay forward (by rw [graph]) hr hc
  rw [graph] at hn hi
  intro seed p' F solves sought
  refine h solves ?_
  have tracked := sought.1 _ (Program.mem_predecessors.2 hn)
  exact solves.sought_of_carried reversible.entered tracked hi
    (Propagation.carried_reverse forward (reversible.fieldless.instruction hi) carried)

theorem retraced_enter (h : Retraced program made f sites) (hc : r.call = .enter site) :
    Retraced program made r.target (site :: sites) := by
  obtain ⟨rfl, dest, callee, args, m, k, hi, hm, he, ha, hp⟩ :=
    Solver.parameter_of_enter forward (by rw [graph]) hr hc
  rw [graph] at hi hm he hp
  intro seed p' F solves sought
  exact h solves (solves.sought_argument sought hi hm he (reversible.findIdx? hp) ha)

/-- What a callee hands back is looked for at its end: for the destination of the call what it
returns, and for an argument what it leaves in the parameter. -/
theorem sought_end (hc : r.call = .leave site) {seed : Fact} {p' : Propagation} {F : Facts}
    (solves : Solves program .backward seed p' F) (sought : Sought program F seed r.target sites) :
    Sought program F seed f (site :: sites) := by
  obtain ⟨dest, callee, args, hs, hn, back⟩ :=
    Solver.handsBack_of_leave forward (by rw [graph]) hr hc
  rw [graph] at hs hn back
  have tracked := sought.1 _ (Program.mem_predecessors.2 hn)
  generalize r.target.var = v at tracked back
  cases back with
  | returned hm hi hd =>
    subst hd
    exact solves.sought_returned reversible.entered tracked hs hm hi
  | parameter hm hi hp ha kept =>
    have inside := tracked.enter solves.closed
      (Propagation.backward_enterArgument solves.direction solves.graph solves.static hs
        kept hm hi ha hp) rfl rfl rfl
    exact solves.sought_of_carried reversible.entered inside hi
      (by simp [Propagation.backwardTransfer, Transfer.carry])
  | overwritten _ _ _ ha written => exact absurd written (reversible.kept hs ha)

end Rules

/-- The facts from which a forward solver can be retraced are closed under its rules. -/
theorem followsRules_retraced (reversible : program.Reversible) :
    FollowsRules (program.ways .forward) (Retraced program made) fun _ => True where
  stay h hr hc := by
    obtain ⟨allocated, hr⟩ := hr
    exact retraced_stay reversible rfl rfl hr h hc
  enter h hr hc := by
    obtain ⟨allocated, hr⟩ := hr
    exact retraced_enter reversible rfl rfl hr h hc
  leave h hr hc := by
    obtain ⟨allocated, hr⟩ := hr
    exact fun solves sought => h solves (sought_end reversible rfl rfl hr hc solves sought)
  leaveBottom h hr hc _ := by
    obtain ⟨allocated, hr⟩ := hr
    refine ⟨fun solves sought => h solves ?_, trivial⟩
    exact (sought_end reversible rfl rfl hr hc solves sought).forget

end Solves

end PointsTo
