import PointsTo.Solver.Saturation

/-!
# What a solver knows, as sets

`Facts` gathers the tables of a solver into sets, and `Facts.Closed` says when such sets are closed
under the saturation rules. The rules are stated once, over an arbitrary source of ways out of a
fact (`Ways`), so that the same closure serves a solver with a fixed set of allocated classes
(`Propagation.ways`) and bounds that hold for every solver.

The remaining modules show that a solver computes the least closed set: whatever it adds lies in
every closed set (`Solver.Below`), and when its worklist is empty its facts are closed
(`Solver.Settled`).
-/

namespace PointsTo

/-- The ways out of each fact and what there is to tell about it. -/
@[ext] structure Ways where
  rule : Fact → Rule → Prop
  tell : Fact → Announcement → Prop

/-- The ways that a propagation computes. -/
def Propagation.ways (p : Propagation) : Ways where
  rule f r := r ∈ (p.flow f).rules
  tell f a := a ∈ (p.flow f).announcements

@[ext] structure Facts where
  field : FieldTransition → Prop
  call : CallTransition → Prop
  /-- The fact takes over what lies below the state. -/
  pop : FieldState → Fact → Prop
  fieldFlow : Fact → Fact → Prop
  callFlow : Fact → Fact → Prop
  /-- The method may be left with an empty call stack. -/
  opened : MethodName → Prop
  /-- The seed is reached from the state. -/
  productive : FieldState → Prop

namespace Facts

variable (W : Ways) (F G : Facts)

/-- The fact is reached in a context. -/
def enters (f : Fact) (c : CallState) : Prop := F.call ⟨.single f.var, f.point, c⟩

/-- The fact is reached in some context. -/
def live (f : Fact) : Prop := ∃ c, F.enters f c

/-- The fact is reached in some context and is connected to the seed. -/
def reached (f : Fact) : Prop := F.live f ∧ F.productive (.single f)

/-- Some fact of the method is reached. -/
def visits (m : MethodName) : Prop := ∃ f, F.live f ∧ f.point.method = m

/-- A rule leads out of the method `m` in a context, back to the call site. -/
def leaves (m : MethodName) (c : CallState) (site : Point) (target : Fact) : Prop :=
  ∃ f r, f.point.method = m ∧ F.enters f c ∧ W.rule f r ∧ r.call = .leave site ∧ r.target = target

/-- Every fact of the one is a fact of the other. -/
structure Sub : Prop where
  field : ∀ t, F.field t → G.field t
  call : ∀ t, F.call t → G.call t
  pop : ∀ q f, F.pop q f → G.pop q f
  fieldFlow : ∀ f g, F.fieldFlow f g → G.fieldFlow f g
  callFlow : ∀ f g, F.callFlow f g → G.callFlow f g
  opened : ∀ m, F.opened m → G.opened m
  productive : ∀ q, F.productive q → G.productive q

variable {F} in
theorem Sub.refl : F.Sub F :=
  ⟨fun _ => id, fun _ => id, fun _ _ => id, fun _ _ => id, fun _ _ => id, fun _ => id, fun _ => id⟩

variable {F G} in
theorem Sub.trans {H : Facts} (h : F.Sub G) (h' : G.Sub H) : F.Sub H where
  field t ht := h'.field t (h.field t ht)
  call t ht := h'.call t (h.call t ht)
  pop q f hf := h'.pop q f (h.pop q f hf)
  fieldFlow f g hg := h'.fieldFlow f g (h.fieldFlow f g hg)
  callFlow f g hg := h'.callFlow f g (h.callFlow f g hg)
  opened m hm := h'.opened m (h.opened m hm)
  productive q hq := h'.productive q (h.productive q hq)

variable {F G} in
theorem Sub.antisymm (h : F.Sub G) (h' : G.Sub F) : F = G := by
  ext
  · exact ⟨h.field _, h'.field _⟩
  · exact ⟨h.call _, h'.call _⟩
  · exact ⟨h.pop _ _, h'.pop _ _⟩
  · exact ⟨h.fieldFlow _ _, h'.fieldFlow _ _⟩
  · exact ⟨h.callFlow _ _, h'.callFlow _ _⟩
  · exact ⟨h.opened _, h'.opened _⟩
  · exact ⟨h.productive _, h'.productive _⟩

variable {F G} in
theorem Sub.live (h : F.Sub G) {f : Fact} (hf : F.live f) : G.live f :=
  hf.imp fun _ => h.call _

variable {F G} in
theorem Sub.reached (h : F.Sub G) {f : Fact} (hf : F.reached f) : G.reached f :=
  ⟨h.live hf.1, h.productive _ hf.2⟩

variable {F G} in
theorem Sub.visits (h : F.Sub G) {m : MethodName} (hm : F.visits m) : G.visits m :=
  hm.imp fun _ => .imp_left h.live

/-- Closed under the saturation rules. -/
structure Closed : Prop where
  keep : ∀ {f r l q}, F.live f → W.rule f r → r.field = .keep → F.field ⟨.single f, l, q⟩ →
    F.field ⟨.single r.target, l, q⟩
  push : ∀ {f r g l q}, F.live f → W.rule f r → r.field = .push g → F.field ⟨.single f, l, q⟩ →
    F.field ⟨.single r.target, g, .generated r.target g⟩ ∧
      F.field ⟨.generated r.target g, l, q⟩
  pop : ∀ {f r g q}, F.live f → W.rule f r → r.field = .pop g → F.field ⟨.single f, g, q⟩ →
    F.pop q r.target
  takeOver : ∀ {q f l q'}, F.pop q f → F.field ⟨q, l, q'⟩ → F.field ⟨.single f, l, q'⟩
  fieldFlow : ∀ {f g l q}, F.fieldFlow f g → F.field ⟨.single f, l, q⟩ →
    F.field ⟨.single g, l, q⟩
  stay : ∀ {f r c}, F.enters f c → W.rule f r → r.call = .stay → F.enters r.target c
  enter : ∀ {f r site c}, F.enters f c → W.rule f r → r.call = .enter site →
    F.enters r.target (.generated r.target.var r.target.point) ∧
      F.call ⟨.generated r.target.var r.target.point, site, c⟩
  leave : ∀ {f r site v p c}, F.enters f (.generated v p) → W.rule f r → r.call = .leave site →
    F.call ⟨.generated v p, site, c⟩ → F.enters r.target c
  leaveBottom : ∀ {f r site v}, F.enters f (.initial v) → W.rule f r → r.call = .leave site →
    F.opened f.point.method → F.enters r.target (.initial v) ∧ F.opened r.target.point.method
  callFlow : ∀ {f g c}, F.callFlow f g → F.enters f c → F.enters g c
  productive : ∀ {t}, F.field t → F.productive t.target → F.productive t.start

/-- All facts. -/
def all : Facts :=
  ⟨fun _ => True, fun _ => True, fun _ _ => True, fun _ _ => True, fun _ _ => True,
    fun _ => True, fun _ => True⟩

theorem all_closed : all.Closed W where
  keep _ _ _ _ := trivial
  push _ _ _ _ := ⟨trivial, trivial⟩
  pop _ _ _ _ := trivial
  takeOver _ _ := trivial
  fieldFlow _ _ := trivial
  stay _ _ _ := trivial
  enter _ _ _ := ⟨trivial, trivial⟩
  leave _ _ _ _ := trivial
  leaveBottom _ _ _ _ := ⟨trivial, trivial⟩
  callFlow _ _ := trivial
  productive _ _ := trivial

end Facts

namespace Solver

/-- What a solver knows. -/
def facts (s : Solver) : Facts where
  field t := t ∈ s.fields
  call t := t ∈ s.calls
  pop q f := f ∈ s.pops.of q
  fieldFlow f g := g ∈ s.fieldFlows.of f
  callFlow f g := g ∈ s.callFlows.of f
  opened m := m ∈ s.unbalanced
  productive q := q ∈ s.productive

end Solver

end PointsTo
