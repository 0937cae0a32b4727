import PointsTo.Proofs.Solver.Moves

/-!
# Saturation is a sequence of moves

Each function of the saturation is shown to be a sequence of elementary moves that a closed set of
facts justifies (`process_moves`), from the recording steps up to the processing of a piece of
work. Nothing that is proved about moves has to look at these functions again.
-/

namespace PointsTo

namespace Solver

variable {W : Ways} {F : Facts} {s s' : Solver}

theorem foldl_moves {α : Type} {g : Solver → α → Solver} {l : List α} (h : s.Below W F)
    (hg : ∀ s', s'.Below W F → Grows s s' → ∀ a ∈ l, Moves W F s' (g s' a)) :
    Moves W F s (l.foldl g s) := by
  suffices H : ∀ s', Moves W F s s' → ∀ l' ⊆ l, Moves W F s (l'.foldl g s') from
    H s .refl l (List.Subset.refl l)
  intro s' m l'
  induction l' generalizing s' with
  | nil => exact fun _ => m
  | cons a l' ih =>
    intro hl
    rw [List.foldl_cons]
    have hm := hg s' (h.moves m) m.grows a (hl List.mem_cons_self)
    exact ih _ (m.trans hm) fun b hb => hl (List.mem_cons_of_mem a hb)

/-! ## Recording -/

theorem addField_moves {t : FieldTransition} (ht : F.field t) : Moves W F s (s.addField t) :=
  .single (.field ht)

theorem enter_moves {f : Fact} {c : CallState} (h : F.enters f c) : Moves W F s (s.enter f c) :=
  .single (.call h)

theorem inherit_moves (h : s.Below W F) {f : Fact} {ts : List FieldTransition}
    (ht : ∀ t ∈ ts, F.field ⟨.single f, t.label, t.target⟩) : Moves W F s (s.inherit f ts) :=
  foldl_moves h fun _ _ _ t hm => addField_moves (ht t hm)

theorem enterAll_moves (h : s.Below W F) {ways : List (Fact × CallState)}
    (hw : ∀ w ∈ ways, F.enters w.1 w.2) : Moves W F s (s.enterAll ways) :=
  foldl_moves h fun _ _ _ w hm => enter_moves (hw w hm)

theorem reachesWithEmptyStack_of_grows (hg : Grows s s') {f : Fact}
    (h : s.reachesWithEmptyStack f) : s'.reachesWithEmptyStack f :=
  reachesWithEmptyStack_mono hg.seed hg.contains_rules hg.field h

theorem answerTickets_moves (h : s.Below W F) (f : Fact) : Moves W F s (s.answerTickets f) := by
  unfold answerTickets
  split
  · next he =>
    refine foldl_moves h fun s' _ hg ticket hm => .single ?_
    obtain ⟨⟨g, n⟩, hn, rfl⟩ := List.mem_map.1 hm
    obtain ⟨hg', e⟩ := List.mem_filter.1 hn
    obtain rfl : g = f := of_decide_eq_true e
    exact .answer (hg.tickets ▸ hg') (reachesWithEmptyStack_of_grows hg he)
  · exact .refl

/-! ## Field transitions -/

theorem witnessState_moves {q : FieldState} (hq : q ∈ s.productive) :
    Moves W F s (s.witnessState q) := by
  unfold witnessState
  split
  · split
    · next hr => exact .single (.witness hr hq)
    · exact .refl
  · exact .refl

section Closed

variable (hF : F.Closed W)
include hF

/-- A state that leads to a productive state is productive itself. -/
theorem markStack_moves (fuel : Nat) (h : s.Below W F) (stack : List FieldState)
    (hp : ∀ q ∈ stack, s.Approaches q) : Moves W F s (s.markStack fuel stack) := by
  induction fuel generalizing s stack with
  | zero => unfold markStack; exact .refl
  | succ fuel ih =>
    cases stack with
    | nil => unfold markStack; exact .refl
    | cons q stack =>
      have approaches : s.Approaches q := hp q List.mem_cons_self
      have hq : F.productive q := by
        obtain ⟨t, ht, rfl, target⟩ := approaches
        exact hF.productive (h.field t ht) (h.productive _ target)
      have hs : ∀ q ∈ stack, s.Approaches q := fun q hm => hp q (List.mem_cons_of_mem _ hm)
      unfold markStack
      split
      · exact ih h stack hs
      · next productive hn =>
        have marked : q ∈ productive := by
          obtain ⟨-, rfl⟩ := OrderedSet.insertNew?_eq_some_iff.1 hn
          exact OrderedSet.mem_insert.2 (.inr rfl)
        have m₁ : Moves W F { s with productive } ({ s with productive }.witnessState q) :=
          witnessState_moves marked
        have m : Moves W F s ({ s with productive }.witnessState q) :=
          .head (.mark hq approaches hn) m₁
        refine m.trans (ih (h.moves m) _ fun q' hm => ?_)
        obtain hm | hm := List.mem_append.1 hm
        · obtain ⟨t, ht, rfl⟩ := List.mem_map.1 (List.mem_reverse.1 hm)
          obtain ⟨ht, e⟩ := Automaton.mem_incomingOf.1 ht
          exact ⟨t, ht, rfl, e ▸ m₁.grows.productive _ marked⟩
        · obtain ⟨t, ht, e, target⟩ := hs q' hm
          exact ⟨t, m.grows.field t ht, e, m.grows.productive _ target⟩

theorem addPop_moves (h : s.Below W F) {q : FieldState} {f : Fact} (hp : F.pop q f) :
    Moves W F s (s.addPop q f) := by
  unfold addPop
  split
  · exact .refl
  · next pops hn =>
    have m : Moves W F s { s with pops } := .single (.pop hp hn)
    refine m.trans (inherit_moves (h.moves m) fun t ht => ?_)
    obtain ⟨hm, rfl⟩ := Automaton.mem_outgoingOf.1 ht
    exact hF.takeOver hp (h.field t hm)

theorem applyFieldRule_moves (h : s.Below W F) {f : Fact} {t : FieldTransition} {r : Rule}
    (hf : F.live f) (ht : F.field t) (hs : t.start = .single f) (hr : W.rule f r) :
    Moves W F s (s.applyFieldRule t r) := by
  obtain ⟨start, l, q⟩ := t
  obtain rfl : start = .single f := hs
  unfold applyFieldRule
  split
  · next e => exact addField_moves (hF.keep hf hr e ht)
  · next g e =>
    obtain ⟨h₁, h₂⟩ := hF.push hf hr e ht
    exact (addField_moves h₁).trans (addField_moves h₂)
  · next g e =>
    split
    · next hl =>
      obtain rfl : l = g := hl
      exact addPop_moves hF h (hF.pop hf hr e ht)
    · exact .refl

theorem applyFieldRules_moves (h : s.Below W F) {f : Fact} {t : FieldTransition}
    (ht : F.field t) (hs : t.start = .single f) :
    Moves W F s (s.applyFieldRules (s.rules.getD f []) t) := by
  refine foldl_moves h fun s' h' _ r hr => ?_
  rw [Std.TreeMap.getD_eq_getD_getElem?] at hr
  cases e : s.rules[f]? with
  | none => simp [e] at hr
  | some rs =>
    obtain ⟨hf, hW⟩ := h.rule e
    exact applyFieldRule_moves hF h' hf ht hs (hW r (by simpa [e] using hr))

theorem followFieldFlows_moves (h : s.Below W F) {f : Fact} {t : FieldTransition}
    (ht : F.field t) (hs : t.start = .single f) : Moves W F s (s.followFieldFlows f t) := by
  refine foldl_moves h fun s' h' _ g hg => inherit_moves h' fun u hu => ?_
  obtain rfl := List.mem_singleton.1 hu
  obtain ⟨start, l, q⟩ := u
  obtain rfl : start = .single f := hs
  exact hF.fieldFlow (h.fieldFlow hg) ht

theorem processStart_moves (h : s.Below W F) {t : FieldTransition} (ht : F.field t) :
    Moves W F s (s.processStart t) := by
  unfold processStart
  split
  · next f hs =>
    have m₁ := applyFieldRules_moves hF h ht hs
    have m₂ := m₁.trans (followFieldFlows_moves hF (h.moves m₁) ht hs)
    unfold processFactTransition
    dsimp only
    split
    · exact m₂.trans (answerTickets_moves (h.moves m₂) f)
    · exact m₂
  · exact .refl

theorem markStart_moves (h : s.Below W F) {t : FieldTransition} (ht : t ∈ s.fields) :
    Moves W F s (s.markStart t) := by
  unfold markStart
  split
  · next hp =>
    refine markStack_moves hF _ h _ fun q hq => ?_
    obtain rfl := List.mem_singleton.1 hq
    exact ⟨t, ht, rfl, OrderedSet.contains_iff.1 hp⟩
  · exact .refl

theorem handOver_moves (h : s.Below W F) {t : FieldTransition} (ht : F.field t) :
    Moves W F s (s.handOver t) := by
  refine foldl_moves h fun s' h' _ f hf => inherit_moves h' fun u hu => ?_
  obtain rfl := List.mem_singleton.1 hu
  exact hF.takeOver (h.pop hf) ht

theorem processField_moves (h : s.Below W F) {t : FieldTransition} (ht : t ∈ s.fields) :
    Moves W F s (s.processField t) := by
  have m₁ := markStart_moves hF h ht
  have m₂ := m₁.trans (processStart_moves hF (h.moves m₁) (h.field t ht))
  exact m₂.trans (handOver_moves hF (h.moves m₂) (h.field t ht))

/-! ## Call transitions -/

/-- What waits at a method that may be left goes on, and opens the method it gets to. -/
theorem blocked_opened {m : MethodName} {f : Fact} {c : CallState} (h : s.Below W F)
    (hm : F.opened m) (hw : (f, c) ∈ s.blocked.getD m []) :
    F.enters f c ∧ F.opened f.point.method := by
  obtain ⟨⟨v, rfl⟩, site, g, r, rfl, he, hr, hc, rfl⟩ := h.blocked hw
  exact hF.leaveBottom he hr hc hm

theorem openStack_moves (fuel : Nat) (h : s.Below W F) (stack : List MethodName)
    (hs : ∀ m ∈ stack, F.opened m) : Moves W F s (s.openStack fuel stack) := by
  induction fuel generalizing s stack with
  | zero => unfold openStack; exact .refl
  | succ fuel ih =>
    cases stack with
    | nil => unfold openStack; exact .refl
    | cons m stack =>
      have hm : F.opened m := hs m List.mem_cons_self
      have hrest : ∀ m ∈ stack, F.opened m := fun m' h' => hs m' (List.mem_cons_of_mem _ h')
      unfold openStack
      split
      · exact ih h stack hrest
      · next unbalanced hn =>
        dsimp only
        have hw : ∀ w ∈ s.blocked.getD m [], F.enters w.1 w.2 ∧ F.opened w.1.point.method :=
          fun w hw => blocked_opened hF h hm hw
        have m₁ : Moves W F s
            ({ s with unbalanced, blocked := s.blocked.erase m }.remark
              (.leavesUnbalanced s.seed m)) :=
          .head (.opening hm hn) (.single .remark)
        have m₂ := m₁.trans (enterAll_moves (h.moves m₁) fun w hm => (hw w hm).1)
        refine m₂.trans (ih (h.moves m₂) _ fun m' hm' => ?_)
        obtain hm' | hm' := List.mem_append.1 hm'
        · obtain ⟨w, hwm, rfl⟩ := List.mem_map.1 (List.mem_reverse.1 hm')
          exact (hw w hwm).2
        · exact hrest m' hm'

theorem openMethod_moves (h : s.Below W F) {m : MethodName} (hm : F.opened m) :
    Moves W F s (s.openMethod m) :=
  openStack_moves hF _ h _ fun _ h' => List.mem_singleton.1 h' ▸ hm

theorem applyCallRule_moves (h : s.Below W F) {f : Fact} {c : CallState} {r : Rule}
    (hc : F.enters f c) (hr : W.rule f r) : Moves W F s (s.applyCallRule f c r) := by
  unfold applyCallRule
  split
  · next e => exact enter_moves (hF.stay hc hr e)
  · next site e =>
    obtain ⟨h₁, h₂⟩ := hF.enter hc hr e
    exact (enter_moves h₁).tail (.call h₂)
  · next site e =>
    split
    · next v p =>
      have hl : ∃ m, F.leaves W m (.generated v p) site r.target := ⟨_, f, r, rfl, hc, hr, e, rfl⟩
      unfold leaveFrame
      split
      · exact .refl
      · next exits hn =>
        have m : Moves W F s { s with exits } := .single (.exit rfl hl hn)
        refine m.trans (enterAll_moves (h.moves m) fun w hw => ?_)
        obtain ⟨⟨start, l, q⟩, ht, rfl⟩ := List.mem_map.1 hw
        obtain ⟨hb, hl'⟩ := List.mem_filter.1 ht
        obtain ⟨hm, hs⟩ := Automaton.mem_outgoingOf.1 hb
        obtain rfl : start = .generated v p := hs
        obtain rfl : l = site := of_decide_eq_true hl'
        exact hF.leave hc hr e (h.call _ hm)
    · next v =>
      unfold leaveBottom
      split
      · next hu =>
        obtain ⟨h₁, h₂⟩ := hF.leaveBottom hc hr e (h.opened _ (OrderedSet.contains_iff.1 hu))
        have m : Moves W F s (s.enter r.target (.initial v)) := enter_moves h₁
        exact m.trans (openMethod_moves hF (h.moves m) h₂)
      · next hu =>
        refine .single (.block ⟨site, f, r, rfl, hc, hr, e, rfl⟩ fun hm => hu ?_)
        exact OrderedSet.contains_iff.2 hm
    · exact .refl

omit hF in
theorem findRules_moves (h : s.Below W F) {f : Fact} {c : CallState}
    (hc : ⟨.single f.var, f.point, c⟩ ∈ s.calls) (hf : s.rules.contains f = false) :
    Moves W F s (s.findRules f) := by
  let flow := s.propagation.flow f
  let s₁ : Solver := { s with rules := s.rules.insert f flow.rules }
  have m₁ : Moves W F s s₁ := .single (.rules hc hf)
  have m₂ : Moves W F s₁ (flow.announcements.foldl announce s₁) :=
    foldl_moves (h.moves m₁) fun _ _ _ a ha =>
      .single (.announce ⟨c, h.call _ hc⟩ ((h.obeys f).2 a ha))
  have m₃ : Moves W F s₁ (flow.remarks.foldl remark (flow.announcements.foldl announce s₁)) :=
    m₂.trans (foldl_moves ((h.moves m₁).moves m₂) fun _ _ _ _ _ => .single .remark)
  have known : s₁.rules.contains f := by simp [s₁]
  exact (m₁.trans m₃).tail (.method (m₃.grows.contains_rules known))

theorem catchUp_moves (h : s.Below W F) (f : Fact) : Moves W F s (s.catchUp f) := by
  refine foldl_moves h fun s' h' _ t ht => ?_
  obtain ⟨hm, hs⟩ := Automaton.mem_outgoingOf.1 ht
  exact applyFieldRules_moves hF h' (h.field t hm) hs

theorem reach_moves (h : s.Below W F) {f : Fact} {c : CallState}
    (hc : ⟨.single f.var, f.point, c⟩ ∈ s.calls) (hf : s.rules.contains f = false) :
    Moves W F s (s.reach f) := by
  have m₁ := findRules_moves h hc hf
  have m₂ := catchUp_moves hF (h.moves m₁) f
  have known : ((s.findRules f).catchUp f).rules.contains f := by
    refine m₂.grows.contains_rules ?_
    obtain ⟨_, _, _, _, e, -⟩ := s.findRules_eq f
    rw [e]
    exact Std.TreeMap.contains_insert_self
  replace m₂ := m₁.trans m₂
  unfold reach
  dsimp only
  split
  · next hp =>
    have m₃ := m₂.tail (.witness known (OrderedSet.contains_iff.1 hp))
    exact m₃.trans (answerTickets_moves (h.moves m₃) f)
  · exact m₂.trans (answerTickets_moves (h.moves m₂) f)

theorem processFact_moves (h : s.Below W F) {f : Fact} {c : CallState}
    (hc : ⟨.single f.var, f.point, c⟩ ∈ s.calls) : Moves W F s (s.processFact f c) := by
  have m₁ : Moves W F s (if s.rules.contains f then s else s.reach f) := by
    split
    · exact .refl
    · next hf => exact reach_moves hF h hc (Bool.eq_false_iff.2 hf)
  unfold processFact
  dsimp only
  generalize (if s.rules.contains f then s else s.reach f) = s₁ at m₁ ⊢
  have h₁ := h.moves m₁
  have hc₁ : F.enters f c := h.call _ hc
  have m₂ : Moves W F s₁ (s₁.applyCallRules (s₁.rules.getD f []) f c) := by
    refine foldl_moves h₁ fun s' h' _ r hr => ?_
    rw [Std.TreeMap.getD_eq_getD_getElem?] at hr
    cases e : s₁.rules[f]? with
    | none => simp [e] at hr
    | some rs => exact applyCallRule_moves hF h' hc₁ ((h₁.rule e).2 r (by simpa [e] using hr))
  refine (m₁.trans m₂).trans (enterAll_moves (h₁.moves m₂) fun w hw => ?_)
  obtain ⟨g, hg, rfl⟩ := List.mem_map.1 hw
  exact hF.callFlow ((h₁.moves m₂).callFlow hg) hc₁

theorem processFrame_moves (h : s.Below W F) {c q : CallState} {site : Point}
    (hc : ⟨c, site, q⟩ ∈ s.calls) : Moves W F s (s.processFrame c site q) := by
  refine enterAll_moves h fun w hw => ?_
  obtain ⟨⟨site', g⟩, hm, rfl⟩ := List.mem_map.1 hw
  obtain ⟨he, e⟩ := List.mem_filter.1 hm
  obtain rfl : site' = site := of_decide_eq_true e
  obtain ⟨hgen, m, f, r, -, hf, hr, hrc, rfl⟩ := h.exit he
  cases c with
  | generated v p => exact hF.leave hf hr hrc (h.call _ hc)
  | single v => cases hgen
  | initial v => cases hgen

theorem processCall_moves (h : s.Below W F) {t : CallTransition} (ht : t ∈ s.calls) :
    Moves W F s (s.processCall t) := by
  obtain ⟨start, l, q⟩ := t
  cases start with
  | single v => exact processFact_moves (f := ⟨l, v⟩) hF h ht
  | generated v p => exact processFrame_moves hF h ht
  | initial v => exact .refl

/-- Processing a piece of work is a sequence of moves. -/
theorem process_moves (h : s.Below W F) {w : Work} (hw : s.Records w) :
    Moves W F s (s.process w) := by
  cases w with
  | field t => exact processField_moves hF h hw
  | call t => exact processCall_moves hF h hw

end Closed

end Solver

end PointsTo
