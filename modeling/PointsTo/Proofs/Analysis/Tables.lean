import PointsTo.Proofs.Analysis.Clients
import PointsTo.Proofs.Analysis.Closure

/-!
# The tables at a field access

A join learns of its queries in several ways: a solver reports what it reaches, a listener hears of a
transition into the seed, or a visitor walks to the seed along transitions that come in any order.
Once a call has returned, nothing of this is left to see. Which queries are recorded at a field access
can be read off the solvers (`fieldJoins_determined`), and there is no join where nothing would be
recorded.

Nothing is recorded too early because what a join records was justified by its solver at the time
(`Carries`, `Underlies`) and solvers only grow. Nothing is missed because every event was handled, and
a productive state has a path to the seed for a visitor to walk along (`Solver.Below.rooted`).
-/

namespace PointsTo

/-- A solver reaches a fact with an empty field stack if it reaches it at all and the seed is one
silent step away. -/
theorem Hosts.reachesWithEmptyStack_iff {w : Realm} {p : Program} {q : Query} {e : PoolEntry}
    (h : Hosts w p q e) {f : Fact} : e.solver.reachesWithEmptyStack f ↔
      f ∈ e.solver.reached ∧ ⟨.single f, .epsilon, .alloc q.fact⟩ ∈ e.solver.fields := by
  have seed : e.solver.seedState = .alloc q.fact := congrArg FieldState.alloc h.seed
  rw [Solver.reachesWithEmptyStack_iff, seed]
  refine ⟨fun ⟨known, held⟩ => ⟨?_, held⟩, fun ⟨reached, held⟩ => ⟨(h.below.witnessed f reached).1, held⟩⟩
  exact h.resting.regular.settled.reached known ((h.resting.fieldDone held).productive h.productive)

namespace Analysis

/-! ## What the solvers say -/

/-- The query follows the value of the access. -/
def Follows (a : Analysis) (access : FieldAccess) (q : Query) : Prop :=
  q.direction = access.direction ∧ ∃ s, a.solver? q = some s ∧ access.fact ∈ s.reached

/-- The query explains the base of the access. For reads, the rule says what is enough. -/
def Explains (a : Analysis) (rule : ReadBaseRule) (access : FieldAccess) (q : Query) : Prop :=
  q.direction = .forward ∧ ∃ s, a.solver? q = some s ∧
    match access.kind, rule with
    | .read, .seedTransition => access.baseFact ∈ s.reached
    | _, _ => s.reachesWithEmptyStack access.baseFact

variable {p : Program} {S : Supply p} {n : Nat} {a : Analysis} {q : Query} {access : FieldAccess}
  {calls : List ClientCall}

theorem reaches_iff {f : Fact} : a.Reaches q f ↔ ∃ s, a.solver? q = some s ∧ f ∈ s.reached := by
  constructor
  · rintro ⟨i, e, he, reached⟩
    exact ⟨e.solver, Pool.find?_eq_some_iff.2 ⟨i, e, he, rfl⟩, reached⟩
  · rintro ⟨s, hs, reached⟩
    obtain ⟨i, e, he, rfl⟩ := Pool.find?_eq_some_iff.1 hs
    exact ⟨i, e, he, reached⟩

theorem carries_iff : a.Carries q access ↔ a.Follows access q := by
  rw [Follows, ← reaches_iff]
  exact ⟨fun ⟨hd, hf⟩ => ⟨hd, hf⟩, fun ⟨hd, hf⟩ => ⟨hd, hf⟩⟩

/-- Either the base has to be the seed itself, or it is enough that the seed is reached. -/
theorem lenient_of_not_strict {rule : ReadBaseRule}
    (strict : ¬ (access.kind = .write ∨ rule = .emptyFieldOnly)) :
    access.kind = .read ∧ rule = .seedTransition := by
  obtain ⟨write, only⟩ := not_or.1 strict
  cases kind : access.kind <;> cases rule <;> simp_all

theorem Working.underlies_iff (h : Working S n a) :
    a.Underlies q access ↔ a.Explains a.config.readBaseRule access q := by
  by_cases hk : access.kind = .write ∨ a.config.readBaseRule = .emptyFieldOnly
  · have rule : a.Explains a.config.readBaseRule access q ↔ q.direction = .forward ∧
        ∃ s, a.solver? q = some s ∧ s.reachesWithEmptyStack access.baseFact := by
      unfold Explains
      split
      · next kind rule => rw [kind, rule] at hk; simp at hk
      · exact Iff.rfl
    rw [rule]
    constructor
    · rintro ⟨hd, ⟨i, e, he, reached⟩, held⟩
      have silent := (factsOf_sub he).field _ (held hk)
      exact ⟨hd, e.solver, Pool.find?_eq_some_iff.2 ⟨i, e, he, rfl⟩,
        (h.host he).reachesWithEmptyStack_iff.2 ⟨reached, silent⟩⟩
    · rintro ⟨hd, s, hs, empty⟩
      obtain ⟨i, e, he, rfl⟩ := Pool.find?_eq_some_iff.1 hs
      obtain ⟨reached, silent⟩ := (h.host he).reachesWithEmptyStack_iff.1 empty
      exact ⟨hd, ⟨i, e, he, reached⟩, fun _ => (sub_factsOf he).field _ silent⟩
  · obtain ⟨read, rule⟩ := lenient_of_not_strict hk
    rw [Explains, read, rule]
    dsimp only
    rw [← reaches_iff]
    exact ⟨fun ⟨hd, hf, _⟩ => ⟨hd, hf⟩, fun ⟨hd, hf⟩ => ⟨hd, hf, fun hk' => absurd hk' hk⟩⟩

/-! ## What is recorded -/

namespace Working

variable (h : Working S n a) (idle : a.Idle)
include h idle

/-- A flow is recorded exactly when it has reached the value. -/
theorem flow_iff (ha : a.program.Accesses access) :
    a.view.flow access q ↔ a.Carries q access := by
  constructor
  · rintro ⟨j, x, hj, hq⟩
    exact ((h.within.fieldJoin hj).flow q hq).2
  · intro carries
    exact ((h.reached_of_reaches idle carries.reaches).value carries.direction ha rfl).2

/-- A visitor that looks for the seed finds it if it sets out from a fact that was reached. -/
theorem base_of_visits {f : Fact} (hf : a.Reaches q f)
    (hv : a.view.visits q (.baseAllocation access) (.single f)) : a.view.base access q := by
  obtain ⟨i, e, he, reached⟩ := hf
  have host := h.host he
  obtain ⟨labels, path⟩ := host.below.rooted _ (host.below.witnessed f reached).2
  obtain ⟨t, ht, target, labels', path'⟩ := path.exists_last (by simp [Solver.seedState])
  have visits := h.visited_along idle he path' hv
  have acts := (h.visited idle visits ((sub_factsOf he).field t ht)).2
  exact acts (target.trans (congrArg FieldState.alloc host.seed))

/-- A base is recorded exactly when it has reached the base of the access, in the way asked for. -/
theorem base_iff (ha : a.program.Accesses access) :
    a.view.base access q ↔ a.Underlies q access := by
  constructor
  · rintro ⟨j, x, hj, hq⟩
    exact ((h.within.fieldJoin hj).base q hq).2
  · rintro ⟨hd, reaches, held⟩
    have reached := h.reached_of_reaches idle reaches
    by_cases hk : access.kind = .write ∨ a.config.readBaseRule = .emptyFieldOnly
    · exact h.awaited idle (reached.writeBase hd ha hk rfl) (held hk)
    · obtain ⟨read, rule⟩ := lenient_of_not_strict hk
      exact h.base_of_visits idle reaches (reached.readBase hd ha read rule rfl)

end Working

/-- Whatever clients have called, the tables at a field access record what the solvers say, and if
there are none, there is nothing to record. -/
theorem fieldJoins_determined (p : Program) (config : Config)
    (called : (create p config).performAll calls = .ok a) (ha : p.Accesses access) :
    (∀ x, a.fieldJoins.get? access = some x → ∀ q,
      (q ∈ x.flows ↔ a.Follows access q) ∧
        (q ∈ x.bases ↔ a.Explains config.readBaseRule access q)) ∧
      (a.fieldJoins.get? access = none → ∀ q,
        ¬ a.Follows access q ∧ ¬ a.Explains config.readBaseRule access q) := by
  obtain ⟨ready, grows⟩ := ((ready_create p config).performAll calls).of_eq_ok called
  obtain ⟨S, n, h, -⟩ := ready.working
  have idle := ready.idle
  have config' : a.config = config := grows.config
  rw [← h.program] at ha
  have flow (q : Query) : a.view.flow access q ↔ a.Follows access q :=
    (h.flow_iff idle ha).trans carries_iff
  have base (q : Query) : a.view.base access q ↔ a.Explains config.readBaseRule access q := by
    rw [h.base_iff idle ha, h.underlies_iff, config']
  constructor
  · intro x hx q
    obtain ⟨j, hj⟩ := List.mem_iff_getElem?.1 (OrderedMap.get?_eq_some_iff.1 hx)
    have only {j' y} (hj' : a.FieldJoinAt j' access y) : y = x :=
      Option.some.inj ((OrderedMap.get?_eq_some_iff.2 (List.mem_of_getElem? hj')).symm.trans hx)
    rw [← flow, ← base]
    refine ⟨⟨fun hq => ⟨j, x, hj, hq⟩, fun ⟨j', y, hj', hq⟩ => only hj' ▸ hq⟩,
      ⟨fun hq => ⟨j, x, hj, hq⟩, fun ⟨j', y, hj', hq⟩ => only hj' ▸ hq⟩⟩
  · intro hx q
    have no {j' y} (hj' : a.FieldJoinAt j' access y) : False := by
      have found := OrderedMap.get?_eq_some_iff.2 (List.mem_of_getElem? hj')
      rw [hx] at found
      cases found
    rw [← flow, ← base]
    exact ⟨fun ⟨_, _, hj', _⟩ => no hj', fun ⟨_, _, hj', _⟩ => no hj'⟩

/-- What is taken out of the box follows the value, and the box explains the base. -/
theorem sharedBox_determined : ∃ program a access x box, Source.readProgram sharedBox = .ok program ∧
    (create program default).performAll [.solve unboxed] = .ok a ∧ program.Accesses access ∧
    a.fieldJoins.get? access = some x ∧ unboxed ∈ x.flows ∧ a.Follows access unboxed ∧
    box ∈ x.bases ∧ a.Explains .seedTransition access box := by
  let load : FieldAccess :=
    ⟨.read, .ofIndex ⟨"m"⟩ 5, ⟨"x", ⟨"m"⟩⟩, .named "f", ⟨"r", ⟨"m"⟩⟩⟩
  let box : Query := ⟨.forward, ⟨.ofIndex ⟨"m"⟩ 1, ⟨"x", ⟨"m"⟩⟩⟩, some ⟨"A"⟩⟩
  have checked : (Source.readProgram sharedBox).toOption.any fun program =>
      decide (program.Accesses load) &&
      ((create program default).performAll [.solve unboxed]).toOption.any fun a =>
      (a.fieldJoins.get? load).any fun x => x.flows.contains unboxed && x.bases.contains box := by
    decide +kernel
  obtain ⟨program, read, h⟩ := exists_ok_of_any checked
  obtain ⟨loads, h⟩ := Bool.and_eq_true_iff.1 h
  obtain ⟨a, called, h⟩ := exists_ok_of_any h
  obtain ⟨x, hx, sides⟩ := (Option.any_eq_true _ _).1 h
  obtain ⟨hf, hb⟩ := Bool.and_eq_true_iff.1 sides
  have flow : unboxed ∈ x.flows := OrderedSet.contains_iff.1 hf
  have base : box ∈ x.bases := OrderedSet.contains_iff.1 hb
  have accesses : program.Accesses load := of_decide_eq_true loads
  have determined := (fieldJoins_determined program default called accesses).1 x hx
  exact ⟨program, a, load, x, box, read, called, accesses, hx, flow,
    (determined unboxed).1.1 flow, base, (determined box).2.1 base⟩

end Analysis

end PointsTo
