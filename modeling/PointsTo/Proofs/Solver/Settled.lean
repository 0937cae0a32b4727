import PointsTo.Proofs.Solver.Steps
import Mathlib.Data.List.Count

/-!
# What is not waiting is done

Every saturation rule has two halves: when a transition is processed, the rule is applied to what is
there, and when an entry of a table is new, it is applied to the transitions that were processed
before. `FieldDone` and `CallDone` say that all consequences of one transition are drawn. `Extends`
is the relation of growth that keeps them drawn: a new transition waits, and every other new entry
has been applied to the old transitions. It is transitive, each function of the saturation extends
the solver (`process_extends`), and so the invariant `Settled` holds along every run. Once nothing
waits, the facts of the solver are closed (`Settled.closed`).
-/

namespace PointsTo

namespace Solver

/-! ## Consequences that are drawn -/

/-- A field rule has been applied to a transition. -/
def FieldRuleDone (s : Solver) (t : FieldTransition) (r : Rule) : Prop :=
  match r.field with
  | .keep => ⟨.single r.target, t.label, t.target⟩ ∈ s.fields
  | .push g => ⟨.single r.target, g, .generated r.target g⟩ ∈ s.fields ∧
      ⟨.generated r.target g, t.label, t.target⟩ ∈ s.fields
  | .pop g => t.label = g → r.target ∈ s.pops.of t.target

/-- A way out of the method `m` with an empty call stack is open and was taken, or it waits. -/
def LeftBottom (s : Solver) (m : MethodName) (f : Fact) (c : CallState) : Prop :=
  m ∈ s.unbalanced ∧ s.facts.enters f c ∧ f.point.method ∈ s.unbalanced ∨
    m ∉ s.unbalanced ∧ (f, c) ∈ s.blocked.getD m []

/-- A call rule has been applied to a fact in a context. -/
def CallRuleDone (s : Solver) (f : Fact) (c : CallState) (r : Rule) : Prop :=
  match r.call with
  | .stay => s.facts.enters r.target c
  | .enter site => s.facts.enters r.target (.generated r.target.var r.target.point) ∧
      ⟨.generated r.target.var r.target.point, site, c⟩ ∈ s.calls
  | .leave site =>
    match c with
    | .generated .. => (site, r.target) ∈ s.exits.of c
    | .initial _ => s.LeftBottom f.point.method r.target c
    | .single _ => True

/-- All consequences of a field transition are drawn. -/
structure FieldDone (s : Solver) (t : FieldTransition) : Prop where
  rule : ∀ {f : Fact} {rs}, t.start = .single f → s.rules[f]? = some rs →
    ∀ r ∈ rs, s.FieldRuleDone t r
  flow : ∀ {f g}, t.start = .single f → g ∈ s.fieldFlows.of f →
    ⟨.single g, t.label, t.target⟩ ∈ s.fields
  pop : ∀ {f}, f ∈ s.pops.of t.start → ⟨.single f, t.label, t.target⟩ ∈ s.fields
  productive : t.target ∈ s.productive → t.start ∈ s.productive
  answer : ∀ {f ticket}, t = ⟨.single f, .epsilon, s.seedState⟩ → s.rules.contains f →
    (f, ticket) ∈ s.tickets → .witnessed ticket s.seed ∈ s.announced

/-- All consequences of a call transition are drawn. -/
structure CallDone (s : Solver) (t : CallTransition) : Prop where
  rule : ∀ {v}, t.start = .single v → ∃ rs, s.rules[(⟨t.label, v⟩ : Fact)]? = some rs ∧
    ∀ r ∈ rs, s.CallRuleDone ⟨t.label, v⟩ t.target r
  flow : ∀ {v g}, t.start = .single v → g ∈ s.callFlows.of ⟨t.label, v⟩ →
    s.facts.enters g t.target
  exit : ∀ {f}, t.start.isGenerated → (t.label, f) ∈ s.exits.of t.start →
    s.facts.enters f t.target

/-- All consequences of a piece of work are drawn. -/
def Done (s : Solver) : Work → Prop
  | .field t => s.FieldDone t
  | .call t => s.CallDone t

/-- These were the rules of the fact under the classes known at some time, what there was to tell
about them was told, and the method of the fact is known to be reached. -/
def Found (s : Solver) (f : Fact) (rs : List Rule) : Prop :=
  (∃ allocated, rs = (({ s.propagation with allocated } : Propagation).flow f).rules ∧
    ∀ a ∈ (({ s.propagation with allocated } : Propagation).flow f).announcements,
      a ∈ s.announced) ∧ f.point.method ∈ s.methods

/-- Nothing but what waits, and the work in `exempt`, has consequences that are not drawn. -/
structure Settled (exempt : Work → Prop) (s : Solver) : Prop where
  work : ∀ w, s.Records w → exempt w ∨ w ∈ s.worklist.pending ∨ s.Done w
  reached : ∀ {f}, s.rules.contains f → .single f ∈ s.productive → f ∈ s.reached
  found : ∀ {f rs}, s.rules[f]? = some rs → s.Found f rs

/-- Growth after which every new rule, pop and exit has been applied to the transitions that were
there. -/
structure Applies (s s' : Solver) : Prop extends Grows s s' where
  newRule : ∀ {f : Fact} {rs}, s'.rules[f]? = some rs → s.rules[f]? = some rs ∨
    ∀ t ∈ s.fields, t.start = .single f → ∀ r ∈ rs, s'.FieldRuleDone t r
  newPop : ∀ {q f}, f ∈ s'.pops.of q → f ∈ s.pops.of q ∨
    ∀ t ∈ s.fields, t.start = q → ⟨.single f, t.label, t.target⟩ ∈ s'.fields
  newExit : ∀ {c site f}, (site, f) ∈ s'.exits.of c → (site, f) ∈ s.exits.of c ∨
    ∀ t ∈ s.calls, t.start = c → t.label = site → s'.facts.enters f t.target
  newFound : ∀ {f rs}, s'.rules[f]? = some rs → s.rules[f]? = some rs ∨ s'.Found f rs
  newAnswer : ∀ {f ticket}, s'.rules.contains f → (f, ticket) ∈ s.tickets →
    s.rules.contains f ∨ (⟨.single f, .epsilon, s.seedState⟩ ∈ s.fields →
      .witnessed ticket s.seed ∈ s'.announced)

/-- Growth that keeps the consequences of all old transitions drawn. -/
structure Extends (s s' : Solver) : Prop extends Applies s s' where
  newProductive : ∀ t ∈ s.fields, t.target ∈ s'.productive →
    t.target ∈ s.productive ∨ t.start ∈ s'.productive
  newReached : ∀ {f}, s'.rules.contains f → .single f ∈ s'.productive →
    f ∈ s'.reached ∨ s.rules.contains f ∧ .single f ∈ s.productive
  left : ∀ {m f c}, s.LeftBottom m f c → s'.LeftBottom m f c

variable {s s' : Solver}

/-! ## What is drawn stays drawn -/

theorem FieldRuleDone.grows (g : Grows s s') {t : FieldTransition} {r : Rule}
    (h : s.FieldRuleDone t r) : s'.FieldRuleDone t r := by
  unfold FieldRuleDone at h ⊢
  split
  · next e => simp only [e] at h; exact g.field _ h
  · next e => simp only [e] at h; exact ⟨g.field _ h.1, g.field _ h.2⟩
  · next e => simp only [e] at h; exact fun hl => g.pop (h hl)

theorem CallRuleDone.extend (g : Extends s s') {f : Fact} {c : CallState} {r : Rule}
    (h : s.CallRuleDone f c r) : s'.CallRuleDone f c r := by
  unfold CallRuleDone at h ⊢
  split
  · next e => simp only [e] at h; exact g.call _ h
  · next e => simp only [e] at h; exact ⟨g.call _ h.1, g.call _ h.2⟩
  · next e =>
    simp only [e] at h
    cases c with
    | generated v p => exact g.exit h
    | initial v => exact g.left h
    | single v => trivial

/-- Old consequences stay drawn, and the new entries were applied to the old transition. -/
theorem FieldDone.extend (g : Extends s s') {t : FieldTransition} (ht : t ∈ s.fields)
    (h : s.FieldDone t) : s'.FieldDone t where
  rule hs hr := (g.newRule hr).elim (fun hr r hm => (h.rule hs hr r hm).grows g.toGrows)
    fun H => H t ht hs
  flow hs hf := g.field _ (h.flow hs (g.fieldFlows ▸ hf))
  pop hf := (g.newPop hf).elim (fun hf => g.field _ (h.pop hf)) fun H => H t ht rfl
  productive hp := (g.newProductive t ht hp).elim (fun hp => g.productive _ (h.productive hp)) id
  answer {f ticket} e hr asked := by
    rw [seedState, g.seed] at e
    rw [g.tickets] at asked
    rw [g.seed]
    exact (g.newAnswer hr asked).elim (fun hr => g.announced _ (h.answer e hr asked)) fun H =>
      H (e ▸ ht)

theorem CallDone.extend (g : Extends s s') {t : CallTransition} (ht : t ∈ s.calls)
    (h : s.CallDone t) : s'.CallDone t where
  rule hs := by
    obtain ⟨rs, hr, H⟩ := h.rule hs
    exact ⟨rs, g.rule hr, fun r hm => (H r hm).extend g⟩
  flow hs hf := g.call _ (h.flow hs (g.callFlows ▸ hf))
  exit hs hf := (g.newExit hf).elim (fun hf => g.call _ (h.exit hs hf)) fun H => H t ht rfl rfl

theorem Done.extend (g : Extends s s') {w : Work} (hw : s.Records w) (h : s.Done w) :
    s'.Done w := by
  cases w with
  | field t => exact FieldDone.extend g hw h
  | call t => exact CallDone.extend g hw h

theorem Grows.newWork (g : Grows s s') {w : Work} (hw : s'.Records w) :
    s.Records w ∨ w ∈ s'.worklist.pending := by
  cases w with
  | field t => exact g.newField t hw
  | call t => exact g.newCall t hw

theorem Found.keeps (g : Keeps s s') {f : Fact} {rs : List Rule} (h : s.Found f rs) :
    s'.Found f rs := by
  obtain ⟨⟨allocated, e, told⟩, visited⟩ := h
  refine ⟨⟨allocated, ?_, ?_⟩, g.methods _ visited⟩
  · rw [g.propagation]
    exact e
  · rw [g.propagation]
    exact fun a ha => g.announced a (told a ha)

theorem Settled.extend {exempt : Work → Prop} (g : Extends s s') (h : s.Settled exempt) :
    s'.Settled exempt where
  work w hw := (g.newWork hw).elim
    (fun hw => (h.work w hw).imp_right (.imp (g.pending w) (·.extend g hw))) (.inr ∘ .inl)
  reached hr hp := (g.newReached hr hp).elim id fun ⟨hr, hp⟩ => g.toGrows.reached _ (h.reached hr hp)
  found hr := (g.newFound hr).elim (fun hr => (h.found hr).keeps g.toKeeps) id

theorem Applies.trans {s₁ s₂ s₃ : Solver} (h : Applies s₁ s₂) (h' : Applies s₂ s₃) :
    Applies s₁ s₃ where
  toGrows := h.toGrows.trans h'.toGrows
  newRule hr := (h'.newRule hr).elim
    (fun hr => (h.newRule hr).imp_right fun H t ht hs r hm => (H t ht hs r hm).grows h'.toGrows)
    fun H => .inr fun t ht => H t (h.field t ht)
  newPop hf := (h'.newPop hf).elim
    (fun hf => (h.newPop hf).imp_right fun H t ht hs => h'.field _ (H t ht hs))
    fun H => .inr fun t ht => H t (h.field t ht)
  newExit hf := (h'.newExit hf).elim
    (fun hf => (h.newExit hf).imp_right fun H t ht hs hl => h'.call _ (H t ht hs hl))
    fun H => .inr fun t ht => H t (h.call t ht)
  newFound hr := (h'.newFound hr).elim
    (fun hr => (h.newFound hr).imp_right (·.keeps h'.toKeeps)) .inr
  newAnswer {f ticket} hr asked := by
    obtain hr | H := h'.newAnswer hr (h.tickets ▸ asked)
    · exact (h.newAnswer hr asked).imp_right fun H ht => h'.announced _ (H ht)
    · rw [seedState, h.seed] at H
      exact .inr fun ht => H (h.field _ ht)

theorem Extends.trans {s₁ s₂ s₃ : Solver} (h : Extends s₁ s₂) (h' : Extends s₂ s₃) :
    Extends s₁ s₃ where
  toApplies := h.toApplies.trans h'.toApplies
  newProductive t ht hp := (h'.newProductive t (h.field t ht) hp).elim
    (fun hp => (h.newProductive t ht hp).imp_right (h'.productive _)) .inr
  newReached hr hp := (h'.newReached hr hp).elim .inl
    fun ⟨hr, hp⟩ => (h.newReached hr hp).imp_left (h'.toGrows.reached _)
  left hl := h'.left (h.left hl)

/-! ## Growth of the automata alone -/

/-- Growth of the automata and of what is told, but not of the other tables. -/
structure Posts (s s' : Solver) : Prop extends Grows s s' where
  rules_eq : s'.rules = s.rules
  pops_eq : s'.pops = s.pops
  exits_eq : s'.exits = s.exits
  productive_eq : s'.productive = s.productive
  unbalanced_eq : s'.unbalanced = s.unbalanced
  blocked_eq : s'.blocked = s.blocked

namespace Posts

theorem refl (s : Solver) : Posts s s := ⟨.refl s, rfl, rfl, rfl, rfl, rfl, rfl⟩

theorem trans {s₁ s₂ s₃ : Solver} (h : Posts s₁ s₂) (h' : Posts s₂ s₃) : Posts s₁ s₃ where
  toGrows := h.toGrows.trans h'.toGrows
  rules_eq := h'.rules_eq.trans h.rules_eq
  pops_eq := h'.pops_eq.trans h.pops_eq
  exits_eq := h'.exits_eq.trans h.exits_eq
  productive_eq := h'.productive_eq.trans h.productive_eq
  unbalanced_eq := h'.unbalanced_eq.trans h.unbalanced_eq
  blocked_eq := h'.blocked_eq.trans h.blocked_eq

theorem applies (h : Posts s s') : Applies s s' where
  toGrows := h.toGrows
  newRule hr := .inl (h.rules_eq ▸ hr)
  newPop hf := .inl (h.pops_eq ▸ hf)
  newExit hf := .inl (h.exits_eq ▸ hf)
  newFound hr := .inl (h.rules_eq ▸ hr)
  newAnswer hr _ := .inl (h.rules_eq ▸ hr)

theorem leftBottom (h : Posts s s') {m : MethodName} {f : Fact} {c : CallState}
    (hl : s.LeftBottom m f c) : s'.LeftBottom m f c := by
  unfold LeftBottom at hl ⊢
  rw [h.unbalanced_eq, h.blocked_eq]
  exact hl.imp_left fun ⟨hm, he, ht⟩ => ⟨hm, h.call _ he, ht⟩

protected theorem extend (h : Posts s s') : Extends s s' where
  toApplies := h.applies
  newProductive _ _ hp := .inl (h.productive_eq ▸ hp)
  newReached hr hp := .inr ⟨h.rules_eq ▸ hr, h.productive_eq ▸ hp⟩
  left := h.leftBottom

end Posts

theorem Extends.refl (s : Solver) : Extends s s := (Posts.refl s).extend

end Solver

end PointsTo
