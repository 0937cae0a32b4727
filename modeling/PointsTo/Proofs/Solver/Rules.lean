import PointsTo.Proofs.Program.Scope
import PointsTo.Solver.Flow

/-!
# Where rules lead

A rule leads to a point of the program, and to the variable it comes from or to one of the program
(`Rule.Stays`, `Propagation.stays_of_mem_rules`). If methods mention no variables but their own, rules
also lead from facts in scope to facts in scope (`Propagation.inScope_of_mem_rules`): a rule into
another method takes both the point and the variable from there.
-/

namespace PointsTo

/-- A rule out of the variable `v` does not leave a supply of names, if `v` is in it. -/
structure Rule.Stays (N : Names) (v : Var) (r : Rule) : Prop where
  point : r.target.point ∈ N.points
  var : r.target.var = v ∨ r.target.var ∈ N.vars
  field : ∀ {g}, r.field = .push g ∨ r.field = .pop g → g ∈ N.fields
  site : ∀ {site}, r.call = .enter site ∨ r.call = .leave site → site ∈ N.points

namespace Propagation

variable {p : Propagation}

/-! ## Ends of methods -/

section Ends

variable {program : Program} {point : Point} {i : Instruction}

/-- A walk along the flow of control leaves a method at its `return` instructions. -/
theorem isEndPoint_forward (graph : p.graph = ⟨program, .forward⟩)
    (hi : program.instruction? point = some i) : p.graph.isEndPoint point ↔ i.isReturn := by
  rw [Supergraph.isEndPoint, List.contains_iff_mem, graph]
  refine Program.mem_exits_iff.trans ⟨?_, fun hr => ⟨rfl, ?_⟩⟩
  · rintro ⟨-, value, e⟩
    obtain rfl := Option.some.inj (hi.symm.trans e)
    rfl
  · cases i with
    | ret value => exact ⟨value, hi⟩
    | _ => cases hr

/-- A walk against the flow of control leaves a method at its entry. -/
theorem isEndPoint_backward (graph : p.graph = ⟨program, .backward⟩) :
    p.graph.isEndPoint point ↔ point ∈ program.entries point.method := by
  rw [Supergraph.isEndPoint, List.contains_iff_mem, graph]
  rfl

end Ends

/-! ## What an instruction passes on -/

theorem mem_carried {point : Point} {v w : Var} {i : Instruction} {e : FieldEffect}
    (h : (w, e) ∈ (p.transfer point v i).carried) :
    (w = v ∨ w ∈ i.vars) ∧ ∀ g, e = .push g ∨ e = .pop g → g ∈ i.fields := by
  unfold transfer at h
  cases hd : p.direction with
  | forward =>
    rw [hd] at h
    cases i with
    | call dest callee args =>
      simp only [forwardTransfer, forwardCall] at h
      split at h <;> simp_all
    | new dest type => simp only [forwardTransfer, Transfer.carry] at h; split at h <;> simp_all
    | null dest => simp only [forwardTransfer, Transfer.carry] at h; split at h <;> simp_all
    | assign dest value =>
      simp only [forwardTransfer, Transfer.carry, List.mem_append] at h
      obtain h | h := h <;> split at h <;> simp_all [Instruction.vars]
    | store base field value =>
      simp only [forwardTransfer, Transfer.carry, List.mem_cons] at h
      obtain h | h := h
      · simp_all
      · split at h <;> simp_all [Instruction.vars, Instruction.fields]
    | load dest base field =>
      simp only [forwardTransfer, Transfer.carry, List.mem_append] at h
      obtain h | h := h <;> split at h <;> simp_all [Instruction.vars, Instruction.fields]
    | ret value => simp_all [forwardTransfer, Transfer.carry]
    | nop => simp_all [forwardTransfer, Transfer.carry]
  | backward =>
    rw [hd] at h
    cases i with
    | call dest callee args =>
      simp only [backwardTransfer, backwardCall] at h
      split at h <;> simp_all
    | new dest type => simp only [backwardTransfer, Transfer.carry] at h; split at h <;> simp_all
    | null dest => simp only [backwardTransfer, Transfer.carry] at h; split at h <;> simp_all
    | assign dest value =>
      simp only [backwardTransfer, Transfer.carry, List.mem_singleton, Prod.mk.injEq] at h
      obtain ⟨rfl, rfl⟩ := h
      split <;> simp [Instruction.vars]
    | load dest base field =>
      simp only [backwardTransfer, Transfer.carry, List.mem_singleton] at h
      split at h <;> simp_all [Instruction.vars, Instruction.fields]
    | store base field value =>
      simp only [backwardTransfer, Transfer.carry, List.mem_cons] at h
      obtain h | h := h
      · simp_all
      · split at h <;> simp_all [Instruction.vars, Instruction.fields]
    | ret value => simp_all [backwardTransfer, Transfer.carry]
    | nop => simp_all [backwardTransfer, Transfer.carry]

theorem callees_subset {site : Point} {callee : Callee} :
    p.callees site callee ⊆ p.graph.program.callees site := by
  cases callee with
  | static method => exact List.Subset.refl _
  | virtual name => exact List.filter_subset_self _

theorem mem_enterParameter_iff {site : Point} {callees : List MethodName} {index : Nat} {r : Rule} :
    r ∈ p.enterParameter site callees index ↔ ∃ method ∈ callees, ∃ start parameter,
      start ∈ p.graph.startPoints method ∧
      (p.graph.program.parameters method)[index]? = some parameter ∧
      r = ⟨⟨start, parameter⟩, .keep, .enter site⟩ := by
  simp only [enterParameter, List.mem_flatMap]
  refine exists_congr fun method => and_congr_right fun _ => ?_
  split
  · next hp => simp [hp]
  · next parameter hp =>
    rw [List.mem_map]
    constructor
    · rintro ⟨start, hs, rfl⟩
      exact ⟨start, parameter, hs, hp, rfl⟩
    · rintro ⟨start, parameter', hs, hp', rfl⟩
      obtain rfl := Option.some.inj (hp.symm.trans hp')
      exact ⟨start, hs, rfl⟩

/-- The rules from an argument lead to the parameters at the positions at which it is passed. -/
theorem mem_enterArguments_iff {site : Point} {callees : List MethodName} {args : List Var} {v : Var}
    {r : Rule} : r ∈ p.enterArguments site callees args v ↔
      ∃ index, args[index]? = some v ∧ r ∈ p.enterParameter site callees index := by
  simp only [enterArguments, List.mem_flatMap, List.mem_filter, decide_eq_true_eq]
  refine exists_congr fun index => and_congr_left fun _ => and_iff_right_of_imp fun ha => ?_
  exact List.mem_range.2 (List.getElem?_eq_some_iff.1 ha).1

theorem mem_enterReturns {site : Point} {callees : List MethodName} {r : Rule}
    (h : r ∈ p.enterReturns site callees) : ∃ method ∈ callees, ∃ start returned,
      start ∈ p.graph.startPoints method ∧
      p.graph.program.instruction? start = some (.ret (some returned)) ∧
      r = ⟨⟨start, returned⟩, .keep, .enter site⟩ := by
  simp only [enterReturns, List.mem_flatMap, List.mem_filterMap] at h
  obtain ⟨method, hm, start, hs, h⟩ := h
  split at h
  · next returned hi =>
    obtain rfl := Option.some.inj h
    exact ⟨method, hm, start, returned, hs, hi, rfl⟩
  · cases h

/-- Rules into a method belong to a call, and the method is one that the call enters. -/
theorem mem_entering_callees {point : Point} {v : Var} {i : Instruction} {r : Rule}
    (h : r ∈ (p.transfer point v i).entering) : ∃ dest callee args, i = .call dest callee args ∧
      ∃ method ∈ p.callees point callee, ∃ start w, start ∈ p.graph.startPoints method ∧
        (w ∈ p.graph.program.parameters method ∨
          p.graph.program.instruction? start = some (.ret (some w))) ∧
        r = ⟨⟨start, w⟩, .keep, .enter point⟩ := by
  have arguments {callees args} (h : r ∈ p.enterArguments point callees args v) :
      ∃ method ∈ callees, ∃ start w, start ∈ p.graph.startPoints method ∧
        (w ∈ p.graph.program.parameters method ∨
          p.graph.program.instruction? start = some (.ret (some w))) ∧
        r = ⟨⟨start, w⟩, .keep, .enter point⟩ := by
    obtain ⟨_, -, h⟩ := mem_enterArguments_iff.1 h
    obtain ⟨method, hm, start, w, hs, hp, rfl⟩ := mem_enterParameter_iff.1 h
    exact ⟨method, hm, start, w, hs, .inl (List.mem_of_getElem? hp), rfl⟩
  unfold transfer at h
  cases hd : p.direction with
  | forward =>
    rw [hd] at h
    cases i with
    | call dest callee args =>
      simp only [forwardTransfer, forwardCall] at h
      refine ⟨dest, callee, args, rfl, ?_⟩
      split at h <;> exact arguments h
    | _ => simp [forwardTransfer, Transfer.carry] at h
  | backward =>
    rw [hd] at h
    cases i with
    | call dest callee args =>
      simp only [backwardTransfer, backwardCall] at h
      refine ⟨dest, callee, args, rfl, ?_⟩
      split at h
      · obtain ⟨method, hm, start, w, hs, hi, rfl⟩ := mem_enterReturns h
        exact ⟨method, hm, start, w, hs, .inr hi, rfl⟩
      · exact arguments h
    | _ => simp [backwardTransfer, Transfer.carry] at h

/-- A rule into a callee leads from an argument to a parameter, or from the destination to what is
returned. -/
theorem mem_entering {point : Point} {v : Var} {i : Instruction} {r : Rule}
    (h : r ∈ (p.transfer point v i).entering) : ∃ method start w,
      start ∈ p.graph.startPoints method ∧
      (w ∈ p.graph.program.parameters method ∨
        p.graph.program.instruction? start = some (.ret (some w))) ∧
      r = ⟨⟨start, w⟩, .keep, .enter point⟩ := by
  obtain ⟨_, _, _, -, method, -, start, w, hs, hw, e⟩ := mem_entering_callees h
  exact ⟨method, start, w, hs, hw, e⟩

/-- The rules out of a method, back to the return sites of the calls that may have entered it. -/
theorem mem_exitRules_iff {point : Point} {i : Instruction} {v : Var} {e : FieldEffect} {r : Rule} :
    r ∈ p.exitRules point i v e ↔
      ∃ site dest callee args returnSite w,
        site ∈ p.graph.program.callers point.method ∧
        p.graph.program.instruction? site = some (.call dest callee args) ∧
        returnSite ∈ p.graph.successors site ∧
        w ∈ callerVars dest args (p.direction = .forward ∧ i = .ret (some v))
          ((p.graph.program.parameters point.method).findIdx? (· = v)) ∧
        r = ⟨⟨returnSite, w⟩, e, .leave site⟩ := by
  simp only [exitRules, List.mem_flatMap]
  constructor
  · rintro ⟨site, hs, h⟩
    split at h
    · next dest callee args hi =>
      simp only [List.mem_flatMap, List.mem_map] at h
      obtain ⟨returnSite, hr, w, hw, rfl⟩ := h
      exact ⟨site, dest, callee, args, returnSite, w, hs, hi, hr, hw, rfl⟩
    · simp at h
  · rintro ⟨site, dest, callee, args, returnSite, w, hs, hi, hr, hw, rfl⟩
    refine ⟨site, hs, ?_⟩
    rw [hi]
    simp only [List.mem_flatMap, List.mem_map]
    exact ⟨returnSite, hr, w, hw, rfl⟩

/-- The destination, if the value is returned, and the argument for the parameter. -/
theorem mem_callerVars {dest : Option Var} {args : List Var} {isReturned : Bool}
    {parameter : Option Nat} {w : Var} : w ∈ callerVars dest args isReturned parameter ↔
      isReturned ∧ dest = some w ∨ ∃ k, parameter = some k ∧ args[k]? = some w := by
  simp only [callerVars, List.mem_append, Option.mem_toList, Option.bind_eq_some_iff]
  refine or_congr ?_ Iff.rfl
  split <;> simp_all

theorem mem_vars_of_callerVars {dest : Option Var} {callee : Callee} {args : List Var}
    {isReturned : Bool} {parameter : Option Nat} {w : Var}
    (h : w ∈ callerVars dest args isReturned parameter) :
    w ∈ (Instruction.call dest callee args).vars := by
  obtain ⟨-, rfl⟩ | ⟨k, -, hk⟩ := mem_callerVars.1 h
  · simp [Instruction.vars]
  · simp [Instruction.vars, List.mem_of_getElem? hk]

/-! ## The rules of a fact -/

/-- A rule leads into a callee, or with one of the variables that the instruction passes on: out of
the method at its end, and along an edge before. -/
theorem mem_rules_iff {f : Fact} {r : Rule} : r ∈ (p.flow f).rules ↔
    ∃ i, p.graph.program.instruction? f.point = some i ∧
      (r ∈ (p.transfer f.point f.var i).entering ∨
        ∃ w e, (w, e) ∈ (p.transfer f.point f.var i).carried ∧
          (p.graph.isEndPoint f.point ∧ r ∈ p.exitRules f.point i w e ∨
            ¬ p.graph.isEndPoint f.point ∧
              ∃ next ∈ p.graph.successors f.point, r = ⟨⟨next, w⟩, e, .stay⟩)) := by
  unfold flow
  cases hi : p.graph.program.instruction? f.point with
  | none => simp
  | some i =>
    simp only [Option.some.injEq, exists_eq_left']
    split
    · next h =>
      simp only [h, not_true_eq_false, false_and, or_false, true_and, List.mem_append,
        List.mem_flatMap, Prod.exists]
    · next h =>
      simp only [h, Bool.false_eq_true, false_and, not_false_eq_true, true_and, false_or,
        List.mem_append, List.mem_flatMap, List.mem_map, Prod.exists]
      refine or_congr Iff.rfl ?_
      constructor
      · rintro ⟨next, hn, w, e, hc, rfl⟩
        exact ⟨w, e, hc, next, hn, rfl⟩
      · rintro ⟨w, e, hc, next, hn, rfl⟩
        exact ⟨next, hn, w, e, hc, rfl⟩

theorem stays_of_mem_rules {f : Fact} {r : Rule} (h : r ∈ (p.flow f).rules) :
    r.Stays p.graph.program.names f.var := by
  obtain ⟨i, hi, h | ⟨w, e, hc, h⟩⟩ := mem_rules_iff.1 h
  · obtain ⟨method, start, w, hs, hw, rfl⟩ := mem_entering h
    refine ⟨Supergraph.mem_points_of_startPoints hs, .inr ?_, fun h => ?_, fun {site} h => ?_⟩
    · obtain hw | hw := hw
      · exact Program.mem_vars_of_parameters hw
      · exact (Program.instruction?_eq_some hw).2.1 w (by simp [Instruction.vars])
    · simp at h
    · obtain rfl : f.point = site := by simpa using h
      exact (Program.instruction?_eq_some hi).1
  · obtain ⟨hw, hf⟩ := mem_carried hc
    obtain ⟨-, vars, fields⟩ := Program.instruction?_eq_some hi
    obtain ⟨-, h⟩ | ⟨-, next, hn, rfl⟩ := h
    · obtain ⟨site, dest, callee, args, returnSite, w', -, hi', hr, hw', rfl⟩ := mem_exitRules_iff.1 h
      obtain ⟨hsite, vars', -⟩ := Program.instruction?_eq_some hi'
      refine ⟨Supergraph.mem_points_of_successors hr, .inr (vars' w' (mem_vars_of_callerVars hw')), ?_,
        fun {s} h => ?_⟩
      · exact fun h => fields _ (hf _ h)
      · obtain rfl : site = s := by simpa using h
        exact hsite
    · refine ⟨Supergraph.mem_points_of_successors hn, hw.imp_right (vars w), ?_, fun h => ?_⟩
      · exact fun h => fields _ (hf _ h)
      · simp at h

/-- A rule that puts the value into a field, or takes it out of one, does what the instruction does. -/
theorem carried_of_mem_rules {f : Fact} {r : Rule} (h : r ∈ (p.flow f).rules)
    (stack : r.field ≠ .keep) : ∃ i w, p.graph.program.instruction? f.point = some i ∧
      (w, r.field) ∈ (p.transfer f.point f.var i).carried := by
  obtain ⟨i, hi, h | ⟨w, e, carried, ⟨-, h⟩ | ⟨-, next, -, rfl⟩⟩⟩ := mem_rules_iff.1 h
  · obtain ⟨_, _, _, -, -, rfl⟩ := mem_entering h
    exact absurd rfl stack
  · obtain ⟨_, _, _, _, _, _, -, -, -, -, rfl⟩ := mem_exitRules_iff.1 h
    exact ⟨i, w, hi, carried⟩
  · exact ⟨i, w, hi, carried⟩

/-- In the direction of control, values are put into fields by stores. -/
theorem store_of_carried_push {point : Point} {v w : Var} {i : Instruction} {g : Field}
    (forward : p.direction = .forward) (h : (w, .push g) ∈ (p.transfer point v i).carried) :
    i = .store w g v := by
  rw [transfer, forward] at h
  cases i with
  | store base field value =>
    simp only [forwardTransfer, Transfer.carry, List.mem_cons] at h
    obtain h | h := h
    · simp at h
    · split at h <;> simp_all
  | call dest callee args =>
    simp only [forwardTransfer, forwardCall] at h
    split at h <;> simp at h
  | _ => simp [forwardTransfer, Transfer.carry] at h

/-- In the direction of control, a load leaves its destination with what it takes out of the field. -/
theorem pop_of_carried_load {point : Point} {v dest base : Var} {g : Field} {e : FieldEffect}
    (forward : p.direction = .forward)
    (h : (dest, e) ∈ (p.transfer point v (.load dest base g)).carried) : e = .pop g := by
  rw [transfer, forward] at h
  simp only [forwardTransfer, Transfer.carry, List.mem_append] at h
  obtain h | h := h
  · split at h <;> simp_all
  · split at h <;> simp_all

/-- A rule that enters a callee is one of the instruction, which is a call. -/
theorem entering_of_enter {f : Fact} {r : Rule} {site : Point} (h : r ∈ (p.flow f).rules)
    (enter : r.call = .enter site) : ∃ i, p.graph.program.instruction? f.point = some i ∧
      r ∈ (p.transfer f.point f.var i).entering := by
  obtain ⟨i, hi, h | ⟨w, e, -, ⟨-, h⟩ | ⟨-, next, -, rfl⟩⟩⟩ := mem_rules_iff.1 h
  · exact ⟨i, hi, h⟩
  · obtain ⟨_, _, _, _, _, _, -, -, -, -, rfl⟩ := mem_exitRules_iff.1 h
    cases enter
  · cases enter

/-! ## Announcements -/

/-- What goes past a call is told at the call, forward only. -/
theorem mem_transfer_announcements {point : Point} {v : Var} {i : Instruction} {a : Announcement}
    (h : a ∈ (p.transfer point v i).announcements) : p.direction = .forward ∧
      (∃ dest callee args, i = .call dest callee args) ∧
      ∃ returnSite ∈ p.graph.successors point, a = .bypassed point returnSite v := by
  unfold transfer at h
  cases hd : p.direction with
  | forward =>
    rw [hd] at h
    cases i with
    | call dest callee args =>
      simp only [forwardTransfer, forwardCall] at h
      split at h
      · simp at h
      · dsimp only at h
        split at h
        · simp at h
        · obtain ⟨returnSite, hr, rfl⟩ := List.mem_map.1 h
          exact ⟨rfl, ⟨dest, callee, args, rfl⟩, returnSite, hr, rfl⟩
    | _ => simp [forwardTransfer, Transfer.carry] at h
  | backward =>
    rw [hd] at h
    cases i with
    | call dest callee args =>
      simp only [backwardTransfer, backwardCall] at h
      split at h <;> simp at h
    | _ => simp [backwardTransfer, Transfer.carry] at h

/-- What is told about a fact lies behind a call: of a caller, if the value came back from there,
or at the point of the fact, if the value goes past. -/
theorem mem_announcements {f : Fact} {a : Announcement} (h : a ∈ (p.flow f).announcements) :
    p.direction = .forward ∧
      ((∃ site fact dest callee args, a = .returned site fact ∧
        fact.point ∈ p.graph.successors site ∧
        p.graph.program.instruction? site = some (.call dest callee args) ∧
        fact.var ∈ (Instruction.call dest callee args).vars) ∨
      ∃ returnSite ∈ p.graph.successors f.point, a = .bypassed f.point returnSite f.var ∧
        ∃ dest callee args, p.graph.program.instruction? f.point = some (.call dest callee args)) := by
  unfold flow at h
  cases hi : p.graph.program.instruction? f.point with
  | none => rw [hi] at h; simp at h
  | some i =>
    rw [hi] at h
    have bypass (h : a ∈ (p.transfer f.point f.var i).announcements) : p.direction = .forward ∧
        ∃ returnSite ∈ p.graph.successors f.point, a = .bypassed f.point returnSite f.var ∧
          ∃ dest callee args, some i = some (.call dest callee args) := by
      obtain ⟨hd, ⟨dest, callee, args, rfl⟩, returnSite, hr, e⟩ := mem_transfer_announcements h
      exact ⟨hd, returnSite, hr, e, dest, callee, args, rfl⟩
    dsimp only at h
    split at h
    · obtain h | h := List.mem_append.1 h
      · exact (bypass h).imp_right .inr
      · unfold announceExits at h
        split at h
        · simp at h
        · next hd =>
          refine ⟨hd, .inl ?_⟩
          obtain ⟨r, hr, ha⟩ := List.mem_filterMap.1 h
          obtain ⟨⟨w, e⟩, -, hr⟩ := List.mem_flatMap.1 hr
          obtain ⟨site, dest, callee, args, returnSite, w', -, hi', hs, hw, rfl⟩ := mem_exitRules_iff.1 hr
          obtain rfl := Option.some.inj ha
          exact ⟨site, _, dest, callee, args, rfl, hs, hi', mem_vars_of_callerVars hw⟩
    · exact (bypass h).imp_right .inr

/-! ## Scopes -/

variable {f : Fact}

theorem inScope_of_mem_rules {r : Rule} (h : r ∈ (p.flow f).rules)
    (sealed : p.graph.program.Local) (inside : p.graph.program.InScope f) :
    p.graph.program.InScope r.target := by
  obtain ⟨i, hi, h | ⟨w, e, hc, h⟩⟩ := mem_rules_iff.1 h
  · obtain ⟨method, start, w, hs, hw, rfl⟩ := mem_entering h
    obtain hw | hw := hw
    · -- a parameter belongs to the method that is entered
      refine ⟨Program.mem_points_iff.1 (Supergraph.mem_points_of_startPoints hs), ?_⟩
      exact (sealed.parameter hw).trans (Supergraph.method_of_mem_startPoints hs).symm
    · exact sealed.inScope hw (by simp [Instruction.vars])
  · obtain ⟨-, h⟩ | ⟨-, next, hn, rfl⟩ := h
    · obtain ⟨site, dest, callee, args, returnSite, w', -, hi', hr, hw', rfl⟩ := mem_exitRules_iff.1 h
      -- the variable belongs to the call, and the return site to the method of the call
      exact (sealed.inScope hi' (mem_vars_of_callerVars hw')).along hr
    · have carried : p.graph.program.InScope ⟨f.point, w⟩ := by
        obtain rfl | hw := (mem_carried hc).1
        · exact inside
        · exact sealed.inScope hi hw
      exact carried.along hn

/-- What comes back from a call is in scope at the return site. -/
theorem inScope_of_returned {site : Point} {fact : Fact}
    (h : .returned site fact ∈ (p.flow f).announcements) (sealed : p.graph.program.Local) :
    p.graph.program.InScope fact := by
  obtain ⟨-, ⟨_, _, _, _, _, e, hr, hi, hv⟩ | ⟨_, -, e, -⟩⟩ := mem_announcements h
  · obtain ⟨rfl, rfl⟩ := Announcement.returned.inj e
    exact (sealed.inScope hi hv).along hr
  · cases e

/-- What goes past a call is in scope at the return site. -/
theorem inScope_of_bypassed {site returnSite : Point} {v : Var}
    (h : .bypassed site returnSite v ∈ (p.flow f).announcements)
    (inside : p.graph.program.InScope f) : p.graph.program.InScope ⟨returnSite, v⟩ := by
  obtain ⟨-, ⟨_, _, _, _, _, e, -⟩ | ⟨_, hr, e, -⟩⟩ := mem_announcements h
  · cases e
  · obtain ⟨-, rfl, rfl⟩ := Announcement.bypassed.inj e
    exact inside.along hr

end Propagation

end PointsTo
