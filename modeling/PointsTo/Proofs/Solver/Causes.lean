import PointsTo.Proofs.Solver.Least

/-!
# Why a call transition is there

In the least closed facts nothing is there without a cause: every call transition was asked for, or
follows from others by one of the saturation rules (`Facts.Least.call_cause`). The causes of the
transitions into a fact say where control and the value may have come from.
-/

namespace PointsTo

namespace Facts

variable (W : Ways) (seed : Fact) (os : List Operation) (F : Facts)

/-- The operation or the saturation rule by which a call transition is there. -/
inductive CallCause : CallTransition → Prop
  | solve {f} : .solve f ∈ os → CallCause ⟨.single f.var, f.point, .initial seed.var⟩
  | stay {f r c} : F.enters f c → W.rule f r → r.call = .stay →
      CallCause ⟨.single r.target.var, r.target.point, c⟩
  | enter {f r site c} : F.enters f c → W.rule f r → r.call = .enter site →
      CallCause ⟨.single r.target.var, r.target.point, .generated r.target.var r.target.point⟩
  | frame {f r site c} : F.enters f c → W.rule f r → r.call = .enter site →
      CallCause ⟨.generated r.target.var r.target.point, site, c⟩
  | leave {f r site v p c} : F.enters f (.generated v p) → W.rule f r → r.call = .leave site →
      F.call ⟨.generated v p, site, c⟩ → CallCause ⟨.single r.target.var, r.target.point, c⟩
  | leaveBottom {f r site v} : F.enters f (.initial v) → W.rule f r → r.call = .leave site →
      F.opened f.point.method → CallCause ⟨.single r.target.var, r.target.point, .initial v⟩
  | callFlow {f g c} : (.addCallFlow f g ∈ os ∨ .reachAlias f g ∈ os) → F.enters f c →
      CallCause ⟨.single g.var, g.point, c⟩

/-- The call transitions that have a cause, and the call flows that were asked for. -/
def caused : Facts where
  field := F.field
  call t := F.call t ∧ F.CallCause W seed os t
  pop := F.pop
  fieldFlow := F.fieldFlow
  callFlow f g := F.callFlow f g ∧ (.addCallFlow f g ∈ os ∨ .reachAlias f g ∈ os)
  opened := F.opened
  productive := F.productive

variable {W seed os F}

theorem Closed.caused (h : F.Closed W) : (F.caused W seed os).Closed W := by
  have live {f} (hf : (F.caused W seed os).live f) : F.live f := hf.imp fun _ hc => hc.1
  exact {
    keep := fun hf => h.keep (live hf)
    push := fun hf => h.push (live hf)
    pop := fun hf => h.pop (live hf)
    takeOver := h.takeOver
    fieldFlow := h.fieldFlow
    stay := fun hf hr e => ⟨h.stay hf.1 hr e, .stay hf.1 hr e⟩
    enter := fun hf hr e =>
      ⟨⟨(h.enter hf.1 hr e).1, .enter hf.1 hr e⟩, (h.enter hf.1 hr e).2, .frame hf.1 hr e⟩
    leave := fun hf hr e ht => ⟨h.leave hf.1 hr e ht.1, .leave hf.1 hr e ht.1⟩
    leaveBottom := fun hf hr e hm =>
      ⟨⟨(h.leaveBottom hf.1 hr e hm).1, .leaveBottom hf.1 hr e hm⟩, (h.leaveBottom hf.1 hr e hm).2⟩
    callFlow := fun hg hf => ⟨h.callFlow hg.1 hf.1, .callFlow hg.2 hf.1⟩
    productive := h.productive }

theorem caused_granted (h : Granted seed os F) : Granted seed os (F.caused W seed os) where
  opened := h.opened
  productive := h.productive
  grants o ho := by
    have granted := h.grants o ho
    cases o with
    | solve f => exact ⟨granted.1, granted.2, .solve ho⟩
    | addFieldTransition t => exact granted
    | connectBase base g f => exact granted
    | connectAlias f q => exact granted
    | addFieldFlow f g => exact granted
    | addCallFlow f g => exact ⟨granted, .inl ho⟩
    | reachAlias f g => exact ⟨granted, .inr ho⟩
    | addUnbalanced m => exact granted

/-- In the least closed facts, every call transition has a cause. -/
theorem Least.call_cause (least : Least W (Granted seed os) F) {t : CallTransition}
    (ht : F.call t) : F.CallCause W seed os t :=
  ((least.sub least.closed.caused (caused_granted least.meets)).call t ht).2

end Facts

end PointsTo
