import PointsTo.Proofs.Analysis.World
import PointsTo.Proofs.Program.Edges
import PointsTo.Proofs.Solver.Rules

/-!
# Points that only pass values on

A `nop` changes no variable, so what holds at it holds at the next point and the other way round. If
the next point comes after nothing else (`Program.Relays`), every way between the two is one step that
leaves both stacks alone: all ways out of the `nop` (`Relays.rule_iff`), all ways forward into the next
point (`Relays.rule_into`), and backward all ways into the `nop`, unless a value is handed to a callee
at the next point (`Relays.stay_into`, `Instruction.Exchanges`). A method may begin with the `nop`, as
long as callers hand it no value in the variable.
-/

namespace PointsTo

/-- The instruction makes a value for the variable, gets one for it out of a field, or hands its value
to a field or to a callee. -/
def Instruction.Exchanges (v : Var) : Instruction → Prop
  | .new dest _ | .null dest | .load dest _ _ => dest = v
  | .store _ _ value => value = v
  | .call _ _ args => v ∈ args
  | .assign _ _ | .ret _ | .nop => False

instance (v : Var) : DecidablePred (Instruction.Exchanges v) := fun i => by
  cases i <;> unfold Instruction.Exchanges <;> infer_instance

/-- A `nop` passes on what comes to it. -/
theorem Propagation.transfer_nop (p : Propagation) (point : Point) (v : Var) :
    p.transfer point v .nop = .carry [(v, .keep)] := by
  unfold Propagation.transfer
  split <;> rfl

namespace Program

/-- Against the flow of control there is nothing to tell. -/
theorem not_tell_backward {p : Program} {f : Fact} {x : Announcement} :
    ¬ (p.ways .backward).tell f x := by
  rintro ⟨allocated, told⟩
  cases (Propagation.mem_announcements told).1

/-- A `nop` and the only point after it, which comes after nothing else. If a method begins with the
`nop`, no value is handed to the variable by callers. -/
structure Relays (p : Program) (n s : Point) (v : Var) : Prop where
  nop : p.instruction? n = some .nop
  next : p.successors n = [s]
  previous : p.predecessors s = [n]
  start : n ∈ p.entries n.method →
    p.predecessors n = [] ∧ (p.callers n.method = [] ∨ v ∉ p.parameters n.method)
  inner_next : s ∉ p.entries s.method

instance (p : Program) (n s : Point) (v : Var) : Decidable (p.Relays n s v) :=
  decidable_of_iff (p.instruction? n = some .nop ∧ p.successors n = [s] ∧ p.predecessors s = [n] ∧
      (n ∈ p.entries n.method →
        p.predecessors n = [] ∧ (p.callers n.method = [] ∨ v ∉ p.parameters n.method)) ∧
      s ∉ p.entries s.method)
    ⟨fun ⟨h₁, h₂, h₃, h₄, h₅⟩ => ⟨h₁, h₂, h₃, h₄, h₅⟩,
      fun ⟨h₁, h₂, h₃, h₄, h₅⟩ => ⟨h₁, h₂, h₃, h₄, h₅⟩⟩

variable {p : Program} {n s m : Point} {v : Var} {f g : Fact} {r : Rule} {d : Direction}

namespace Relays

variable (h : p.Relays n s v)
include h

theorem method_eq : s.method = n.method :=
  method_of_mem_successors (h.next ▸ List.mem_singleton_self s)

/-- Only the `nop` leads to the next point. -/
theorem eq_of_mem_successors (hm : s ∈ p.successors m) : m = n :=
  List.mem_singleton.1 (h.previous ▸ mem_predecessors.2 hm)

/-- Only the next point comes after the `nop`. -/
theorem eq_of_mem_predecessors (hm : n ∈ p.predecessors m) : m = s :=
  List.mem_singleton.1 (h.next ▸ mem_predecessors.1 hm)

theorem not_allocates {w : Var} : ¬ p.Allocates ⟨n, w⟩ := by
  rintro (⟨type, e⟩ | e) <;> cases h.nop.symm.trans e

theorem point_ne_of_accesses {access : FieldAccess} (ha : p.Accesses access) : access.point ≠ n := by
  intro e
  rw [Program.Accesses, e, h.nop] at ha
  split at ha <;> cases ha

theorem point_ne_of_allocates (ha : p.Allocates f) : f.point ≠ n := by
  rintro rfl
  exact h.not_allocates ha

theorem not_isEndPoint : ¬ (⟨p, .forward⟩ : Supergraph).isEndPoint n := by
  let propagation : Propagation := ⟨.forward, ⟨p, .forward⟩, ∅⟩
  have iff := propagation.isEndPoint_forward rfl h.nop
  exact fun ends => absurd (iff.1 ends) (by decide)

/-- Nothing goes out of the method at the `nop`. -/
theorem not_exits {propagation : Propagation} {w : Var} (hg : propagation.graph = ⟨p, d⟩)
    (hd : propagation.direction = d) (hw : d = .backward → w = v)
    (ends : propagation.graph.isEndPoint n) : r ∉ propagation.exitRules n .nop w .keep := by
  intro hr
  obtain ⟨site, dest, callee, args, returnSite, w', hs, -, -, hv, -⟩ :=
    Propagation.mem_exitRules_iff.1 hr
  rw [hg] at hs hv ends
  cases d with
  | forward => exact h.not_isEndPoint ends
  | backward =>
    have iff : propagation.graph.isEndPoint n ↔ _ := propagation.isEndPoint_backward hg
    rw [hg] at iff
    obtain ⟨-, uncalled | other⟩ := h.start (iff.1 ends)
    · rw [show p.callers n.method = [] from uncalled] at hs
      exact List.not_mem_nil hs
    · obtain ⟨returned, -⟩ | ⟨k, hk, -⟩ := Propagation.mem_callerVars.1 hv
      · cases (of_decide_eq_true returned).1.symm.trans hd
      · obtain ⟨_, e, -⟩ := List.findIdx?_eq_some_iff_getElem.1 hk
        rw [hw rfl] at e
        exact other (of_decide_eq_true e ▸ List.getElem_mem _)

/-- Every way out of the `nop` is a step with the same variable. -/
theorem rule_iff {w : Var} (hw : d = .backward → w = v) : (p.ways d).rule ⟨n, w⟩ r ↔
    ∃ next ∈ (⟨p, d⟩ : Supergraph).successors n, r = ⟨⟨next, w⟩, .keep, .stay⟩ := by
  constructor
  · rintro ⟨allocated, hr⟩
    obtain ⟨i, hi, hr⟩ := Propagation.mem_rules_iff.1 hr
    obtain rfl := Option.some.inj (h.nop.symm.trans hi)
    rw [Propagation.transfer_nop] at hr
    obtain hr | ⟨w', e, hc, hr⟩ := hr
    · exact absurd hr List.not_mem_nil
    · obtain ⟨rfl, rfl⟩ := Prod.mk.inj (List.mem_singleton.1 hc)
      obtain ⟨ends, hr⟩ | ⟨-, next, hn, rfl⟩ := hr
      · exact absurd hr (h.not_exits rfl rfl hw ends)
      · exact ⟨next, hn, rfl⟩
  · rintro ⟨next, hn, rfl⟩
    have goes_on : ¬ (⟨p, d⟩ : Supergraph).isEndPoint n := by
      cases d with
      | forward => exact h.not_isEndPoint
      | backward =>
        let propagation : Propagation := ⟨.backward, ⟨p, .backward⟩, ∅⟩
        have iff : propagation.graph.isEndPoint n ↔ _ := propagation.isEndPoint_backward rfl
        intro ends
        rw [show (⟨p, .backward⟩ : Supergraph).successors n = [] from (h.start (iff.1 ends)).1] at hn
        exact List.not_mem_nil hn
    refine ⟨∅, Propagation.mem_rules_iff.2 ⟨.nop, h.nop, .inr ⟨w, .keep, ?_, ?_⟩⟩⟩
    · rw [Propagation.transfer_nop]
      exact List.mem_singleton_self _
    · exact .inr ⟨goes_on, next, hn, rfl⟩

/-- Nothing is told about the `nop`. -/
theorem not_tell {w : Var} {x : Announcement} : ¬ (p.ways .forward).tell ⟨n, w⟩ x := by
  rintro ⟨allocated, hx⟩
  unfold Propagation.flow at hx
  dsimp only at hx
  rw [h.nop] at hx
  dsimp only at hx
  rw [if_neg h.not_isEndPoint, Propagation.transfer_nop] at hx
  exact List.not_mem_nil hx

theorem rule_forward {w : Var} :
    (p.ways .forward).rule ⟨n, w⟩ r ↔ r = ⟨⟨s, w⟩, .keep, .stay⟩ := by
  rw [h.rule_iff (d := .forward) nofun]
  show (∃ next ∈ p.successors n, _) ↔ _
  rw [h.next]
  simp

theorem rule_backward : (p.ways .backward).rule ⟨n, v⟩ r ↔
    ∃ next ∈ p.predecessors n, r = ⟨⟨next, v⟩, .keep, .stay⟩ :=
  h.rule_iff fun _ => rfl

/-- No value comes back from a call at the next point. -/
theorem returned_away {site : Point} (told : (p.ways d).tell f (.returned site g)) :
    d = .forward ∧ g.point ≠ s := by
  obtain ⟨allocated, told⟩ := told
  obtain ⟨forward, ⟨_, _, _, _, _, e, hn, hi, -⟩ | ⟨_, -, e, -⟩⟩ :=
    Propagation.mem_announcements told
  · refine ⟨forward, fun at_next => ?_⟩
    obtain rfl : d = .forward := forward
    obtain ⟨rfl, rfl⟩ := Announcement.returned.inj e
    obtain rfl := h.eq_of_mem_successors (at_next ▸ hn)
    cases h.nop.symm.trans hi
  · cases e

/-- No value goes past a call at the next point. -/
theorem bypassed_away {site returnSite : Point} {v : Var}
    (told : (p.ways d).tell f (.bypassed site returnSite v)) : d = .forward ∧ returnSite ≠ s := by
  have ⟨allocated, told'⟩ := told
  obtain ⟨forward, ⟨_, _, _, _, _, e, -⟩ | ⟨_, hn, e, -⟩⟩ := Propagation.mem_announcements told'
  · cases e
  · refine ⟨forward, fun at_next => ?_⟩
    obtain rfl : d = .forward := forward
    obtain ⟨-, rfl, -⟩ := Announcement.bypassed.inj e
    obtain ⟨point, _⟩ := f
    obtain rfl : point = n := h.eq_of_mem_successors (at_next ▸ hn)
    exact h.not_tell told

/-- Every way forward into the next point is a step from the `nop`. -/
theorem rule_into (hr : (p.ways .forward).rule f r) (ht : r.target = ⟨s, v⟩) :
    f = ⟨n, v⟩ ∧ r.field = .keep ∧ r.call = .stay := by
  have ⟨allocated, hr'⟩ := hr
  obtain ⟨i, hi, hr' | ⟨w, e, -, ⟨-, hr'⟩ | ⟨-, next, hn, rfl⟩⟩⟩ := Propagation.mem_rules_iff.1 hr'
  · -- callees are entered at their entries, and the next point is none
    obtain ⟨method, start, w, hs, -, rfl⟩ := Propagation.mem_entering hr'
    obtain rfl : start = s := congrArg Fact.point ht
    exact absurd (Supergraph.method_of_mem_startPoints hs ▸ hs) h.inner_next
  · -- callers go on after a call, and the `nop` is none
    obtain ⟨site, dest, callee, args, returnSite, w', -, hc, hs, -, rfl⟩ :=
      Propagation.mem_exitRules_iff.1 hr'
    obtain rfl : returnSite = s := congrArg Fact.point ht
    obtain rfl : site = n := h.eq_of_mem_successors hs
    cases h.nop.symm.trans hc
  · obtain rfl : next = s := congrArg Fact.point ht
    obtain ⟨point, v'⟩ := f
    obtain rfl : point = n := h.eq_of_mem_successors hn
    obtain ⟨e, keep, stay⟩ := Rule.mk.inj (h.rule_forward.1 hr)
    obtain rfl : v' = v := congrArg Fact.var (e.symm.trans ht)
    exact ⟨rfl, keep, stay⟩

/-- Every way backward into the `nop` is a step, unless the variable is handed to a callee at the next
point. -/
theorem stay_into (plain : ∀ i ∈ p.instruction? s, ¬ i.Exchanges v)
    (hr : (p.ways .backward).rule f r) (ht : r.target = ⟨n, v⟩) : r.call = .stay := by
  obtain ⟨allocated, hr⟩ := hr
  obtain ⟨i, hi, hr | ⟨w, e, -, ⟨-, hr⟩ | ⟨-, next, hn, rfl⟩⟩⟩ := Propagation.mem_rules_iff.1 hr
  · -- callees are entered where they return, and the `nop` returns nothing
    obtain ⟨method, start, w, hs, -, rfl⟩ := Propagation.mem_entering hr
    obtain rfl : start = n := congrArg Fact.point ht
    obtain ⟨-, value, e⟩ := mem_exits_iff.1 hs
    cases h.nop.symm.trans e
  · -- callers go on before a call, with what they handed to it
    obtain ⟨site, dest, callee, args, returnSite, w', -, hc, hn, hw, rfl⟩ :=
      Propagation.mem_exitRules_iff.1 hr
    obtain ⟨rfl, rfl⟩ : returnSite = n ∧ w' = v := ⟨congrArg Fact.point ht, congrArg Fact.var ht⟩
    obtain rfl := h.eq_of_mem_predecessors hn
    obtain ⟨returned, -⟩ | ⟨k, -, hk⟩ := Propagation.mem_callerVars.1 hw
    · simp at returned
    · exact absurd (List.mem_of_getElem? hk) (plain _ hc)
  · rfl

/-- Against the flow of control, whoever gets a value out of a field at the next point has the base
before it. -/
theorem rule_load {dest base : Var} {field : Field}
    (hl : p.instruction? s = some (.load dest base field)) :
    (p.ways .backward).rule ⟨s, dest⟩ ⟨⟨n, base⟩, .push field, .stay⟩ := by
  have inner : ¬ (⟨p, .backward⟩ : Supergraph).isEndPoint s := by
    let propagation : Propagation := ⟨.backward, ⟨p, .backward⟩, ∅⟩
    have iff : propagation.graph.isEndPoint s ↔ _ := propagation.isEndPoint_backward rfl
    exact fun ends => h.inner_next (iff.1 ends)
  have next : n ∈ (⟨p, .backward⟩ : Supergraph).successors s := by
    show n ∈ p.predecessors s
    rw [h.previous]
    exact List.mem_singleton_self n
  refine ⟨∅, Propagation.mem_rules_iff.2 ⟨_, hl, .inr ⟨base, .push field, ?_, .inr ⟨inner, n, next, rfl⟩⟩⟩⟩
  simp [Propagation.transfer, Propagation.backwardTransfer, Transfer.carry]

end Relays

end Program

end PointsTo
