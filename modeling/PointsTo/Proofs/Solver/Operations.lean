import PointsTo.Proofs.Solver.Saturated

/-!
# Operations of a solver

Callers make a solver start at a fact, hand it transitions and flows from outside, or let it leave a
method with an empty call stack (`Operation`). Each operation grants some facts
(`Operation.Grants`), which it records (`Operation.begin`) before it saturates the solver. It leaves a
regular solver regular and saturated, with the granted facts among its own and with nothing that is
not in every closed set of facts that has what the solver had and what was granted (`Performs`,
`apply_performs`).
-/

namespace PointsTo

/-! ## What callers may ask for -/

inductive Operation where
  | solve (initial : Fact)
  | addFieldTransition (t : FieldTransition)
  | connectBase (base : FieldState) (field : Field) (fact : Fact)
  | connectAlias (fact : Fact) (state : FieldState)
  | addFieldFlow (source target : Fact)
  | addCallFlow (source target : Fact)
  /-- An alias found at a field access is reached in the contexts of the access. -/
  | reachAlias (access target : Fact)
  | addUnbalanced (method : MethodName)
deriving DecidableEq

namespace FieldState

/-- The field that the state is about, if any. -/
def fields : FieldState → List Field
  | generated _ g => [g]
  | single _ | alloc _ => []

end FieldState

namespace Operation

def apply (s : Solver) : Operation → Solver
  | solve initial => s.solve initial
  | addFieldTransition t => s.addFieldTransition t
  | connectBase base g f => s.connectBase base g f
  | connectAlias f q => s.connectAlias f q
  | addFieldFlow f g => s.addFieldFlow f g
  | addCallFlow f g => s.addCallFlow f g
  | reachAlias f g => s.addCallFlow f g
  | addUnbalanced m => s.addUnbalanced m

/-- What an operation records before its consequences are drawn. -/
def begin (s : Solver) : Operation → Solver
  | solve f =>
    let s := s.acceptNames.remark (.starts s.direction s.seed f)
    let s := s.addField ⟨.single f, .epsilon, s.seedState⟩
    s.enter f (.initial s.seed.var)
  | addFieldTransition t => s.acceptNames.addField t
  | connectBase base g f => s.acceptNames.addField ⟨base, g, .single f⟩
  | connectAlias f q => s.acceptNames.addPop q f
  | addFieldFlow f g =>
    match s.fieldFlows.insertNew? f g with
    | none => s
    | some fieldFlows =>
      let s := { s.acceptNames with fieldFlows }
      s.inherit g (s.fields.outgoingOf (.single f))
  | addCallFlow f g | reachAlias f g =>
    match s.callFlows.insertNew? f g with
    | none => s
    | some callFlows =>
      let s := { s.acceptNames with callFlows }
      s.enterAll ((s.contextsOf f).map (g, ·))
  | addUnbalanced m => s.openMethod m

/-- The facts that an operation contributes by itself are among `F`. -/
def Grants (seed : Fact) (F : Facts) : Operation → Prop
  | solve initial => F.field ⟨.single initial, .epsilon, .alloc seed⟩ ∧
      F.enters initial (.initial seed.var)
  | addFieldTransition t => F.field t
  | connectBase base g f => F.field ⟨base, g, .single f⟩
  | connectAlias f q => F.pop q f
  | addFieldFlow f g => F.fieldFlow f g
  | addCallFlow f g | reachAlias f g => F.callFlow f g
  | addUnbalanced m => F.opened m

theorem Grants.mono {seed : Fact} {F G : Facts} {o : Operation} (h : o.Grants seed F)
    (sub : F.Sub G) : o.Grants seed G := by
  cases o with
  | solve f => exact ⟨sub.field _ h.1, sub.call _ h.2⟩
  | addFieldTransition t => exact sub.field t h
  | connectBase base g f => exact sub.field _ h
  | connectAlias f q => exact sub.pop q f h
  | addFieldFlow f g => exact sub.fieldFlow f g h
  | addCallFlow f g | reachAlias f g => exact sub.callFlow f g h
  | addUnbalanced m => exact sub.opened m h

/-! ## The names that an operation brings in -/

def facts : Operation → List Fact
  | solve f | connectAlias f _ | addFieldFlow _ f | addCallFlow _ f | reachAlias _ f => [f]
  | addFieldTransition t => [t.start.fact, t.target.fact]
  | connectBase base _ f => [base.fact, f]
  | addUnbalanced _ => []

def fields : Operation → List Field
  | solve _ => [.epsilon]
  | addFieldTransition t => t.label :: (t.start.fields ++ t.target.fields)
  | connectBase base g _ => g :: base.fields
  | _ => []

theorem length_fields_le (o : Operation) : o.fields.length ≤ 3 := by
  cases o with
  | addFieldTransition t =>
    obtain ⟨start, l, target⟩ := t
    cases start <;> cases target <;> simp [fields, FieldState.fields]
  | connectBase base g f => cases base <;> simp [fields, FieldState.fields]
  | _ => simp [fields]

end Operation

namespace Names

theorem AtMost.mono {N : Names} {m n : Nat} (h : N.AtMost m) (hmn : m ≤ n) : N.AtMost n :=
  ⟨h.points.trans hmn, h.vars.trans hmn, h.fields.trans hmn⟩

/-- The supply with the names that an operation brings in. -/
def add (N : Names) (o : Operation) : Names where
  points := N.points ∪ (o.facts.map (·.point)).toFinset
  vars := N.vars ∪ (o.facts.map (·.var)).toFinset
  fields := N.fields ∪ o.fields.toFinset

variable {N : Names} {o : Operation}

theorem le_add : N ≤ N.add o :=
  ⟨Finset.subset_union_left, Finset.subset_union_left, Finset.subset_union_left⟩

theorem has_of_mem_facts {f : Fact} (h : f ∈ o.facts) : (N.add o).Has f :=
  ⟨Finset.mem_union_right _ (List.mem_toFinset.2 (List.mem_map_of_mem h)),
    Finset.mem_union_right _ (List.mem_toFinset.2 (List.mem_map_of_mem h))⟩

theorem mem_fields_add {g : Field} (h : g ∈ o.fields) : g ∈ (N.add o).fields :=
  Finset.mem_union_right _ (List.mem_toFinset.2 h)

theorem Has.mono {M : Names} {f : Fact} (h : N.Has f) (hM : N ≤ M) : M.Has f :=
  ⟨hM.1 h.1, hM.2.1 h.2⟩

theorem AtMost.add {n k : Nat} (h : N.AtMost n) (facts : o.facts.length ≤ k)
    (fields : o.fields.length ≤ k) : (N.add o).AtMost (n + k) := by
  have bound {α : Type} [DecidableEq α] {s : Finset α} {l : List α} (hs : s.card ≤ n)
      (hl : l.length ≤ k) : (s ∪ l.toFinset).card ≤ n + k :=
    (Finset.card_union_le _ _).trans (Nat.add_le_add hs ((List.toFinset_card_le l).trans hl))
  exact ⟨bound h.points (by simpa using facts), bound h.vars (by simpa using facts),
    bound h.fields fields⟩

theorem hasFieldState_add {q : FieldState} (hf : q.fact ∈ o.facts)
    (hg : ∀ g ∈ q.fields, g ∈ o.fields) : (N.add o).HasFieldState q := by
  cases q with
  | single f => exact has_of_mem_facts hf
  | alloc f => exact has_of_mem_facts hf
  | generated f g => exact ⟨has_of_mem_facts hf, mem_fields_add (hg g (by simp [FieldState.fields]))⟩

/-- What an operation contributes is built from the names that it brings in. -/
theorem grants_add {seed : Fact} (hs : N.Has seed) : o.Grants seed (N.add o).facts := by
  have seed_mem := hs.mono (le_add (o := o))
  cases o with
  | solve f =>
    have hf : (N.add (.solve f)).Has f := has_of_mem_facts (by simp [Operation.facts])
    have hε : Field.epsilon ∈ (N.add (.solve f)).fields := mem_fields_add (by simp [Operation.fields])
    exact ⟨⟨hf, hε, seed_mem⟩, hf.2, hf.1, seed_mem.2⟩
  | addFieldTransition t =>
    refine ⟨hasFieldState_add ?_ fun g hg => ?_, mem_fields_add ?_,
      hasFieldState_add ?_ fun g hg => ?_⟩
    · simp [Operation.facts]
    · simp [Operation.fields, hg]
    · simp [Operation.fields]
    · simp [Operation.facts]
    · simp [Operation.fields, hg]
  | connectBase base g f =>
    refine ⟨hasFieldState_add ?_ fun g' hg => ?_, mem_fields_add ?_, has_of_mem_facts ?_⟩
    · simp [Operation.facts]
    · simp [Operation.fields, hg]
    · simp [Operation.fields]
    · simp [Operation.facts]
  | connectAlias f q => exact has_of_mem_facts (by simp [Operation.facts])
  | addFieldFlow f g => exact has_of_mem_facts (by simp [Operation.facts])
  | addCallFlow f g | reachAlias f g => exact has_of_mem_facts (by simp [Operation.facts])
  | addUnbalanced m => trivial

theorem HasFieldState.mono {M : Names} {q : FieldState} (h : N.HasFieldState q) (hM : N ≤ M) :
    M.HasFieldState q := by
  cases q with
  | single f => exact Has.mono h hM
  | alloc f => exact Has.mono h hM
  | generated f g => exact ⟨Has.mono h.1 hM, hM.2.2 h.2⟩

theorem HasCallState.mono {M : Names} {q : CallState} (h : N.HasCallState q) (hM : N ≤ M) :
    M.HasCallState q := by
  cases q with
  | single v => exact hM.2.1 h
  | initial v => exact hM.2.1 h
  | generated v point => exact ⟨hM.2.1 h.1, hM.1 h.2⟩

theorem ways_mono {M : Names} (hM : N ≤ M) {f : Fact} {r : Rule} (h : N.ways.rule f r) :
    M.ways.rule f r :=
  ⟨hM.1 h.point, h.var.imp_right (@hM.2.1 _), fun hg => hM.2.2 (h.field hg),
    fun hs => hM.1 (h.site hs)⟩

theorem facts_mono {M : Names} (hM : N ≤ M) : N.facts.Sub M.facts where
  field := fun _ ⟨hs, hl, ht⟩ => ⟨hs.mono hM, hM.2.2 hl, ht.mono hM⟩
  call := fun _ ⟨hs, hl, ht⟩ => ⟨hs.mono hM, hM.1 hl, ht.mono hM⟩
  pop := fun _ _ hf => hf.mono hM
  fieldFlow := fun _ _ hf => hf.mono hM
  callFlow := fun _ _ hf => hf.mono hM
  opened := fun _ => id
  productive := fun _ => id

end Names

namespace Solver

variable {s s₀ s₁ s' : Solver} {o : Operation}

/-! ## What an operation does -/

theorem Keeps.facts_sub (h : Keeps s s') : s.facts.Sub s'.facts where
  field := h.field
  call := h.call
  pop := fun _ _ => h.pop
  fieldFlow := fun _ _ => h.fieldFlow
  callFlow := fun _ _ => h.callFlow
  opened := h.opened
  productive := h.productive

/-- The solver knows what the operation grants, and nothing else that would not follow. -/
structure Admits (o : Operation) (s s' : Solver) : Prop extends Keeps s s' where
  regular : s'.Regular
  grants : o.Grants s.seed s'.facts
  below : ∀ {W F}, F.Closed W → s.Below W F → o.Grants s.seed F → s'.Below W F
  current : s.Current → s'.Current
  tells : Tells s s'

/-- The operation is done and its consequences are drawn. -/
structure Performs (o : Operation) (s s' : Solver) : Prop extends Admits o s s' where
  idle : s'.worklist.pending = []

theorem Admits.saturate (h : Admits o s s') : Performs o s s'.saturate := by
  obtain ⟨run, idle⟩ := saturate_spec h.regular
  exact {
    toKeeps := h.toKeeps.trans run.toKeeps
    regular := run.regular
    grants := h.grants.mono run.toKeeps.facts_sub
    below := fun hF hb hg => run.below hF (h.below hF hb hg)
    current := fun hc => run.current (h.current hc)
    tells := h.tells.trans run.tells
    idle }

/-- The first part of an operation makes room for its names (from `s` to `s₀`) and records what is
granted by moves (from `s₀` to `s₁`). -/
theorem Regular.admits (h : s.Regular) (s₀ : Solver) (keeps : Keeps s s₀)
    (facts : s.foreign + o.facts.length ≤ s₀.foreign)
    (fields : s.foreign + o.fields.length ≤ s₀.foreign) (posted : s₀.Posted)
    (current : s.Current → s₀.Current) (tells : Tells s s₀)
    (below : ∀ {W F}, s.Below W F → o.Grants s.seed F → s₀.Below W F)
    (moves : ∀ {W F}, F.Closed W → s₀.Below W F → o.Grants s.seed F → Moves W F s₀ s₁)
    (settled : s₁.Settled fun _ => False) (grants : o.Grants s.seed s₁.facts) :
    Admits o s s₁ := by
  obtain ⟨N, hp, hs, hb, hN⟩ := h.named
  have graph : s₀.graph = s.graph := congrArg Propagation.graph keeps.propagation
  have hp' : s.graph.program.names ≤ N.add o :=
    ⟨hp.1.trans Names.le_add.1, hp.2.1.trans Names.le_add.2.1, hp.2.2.trans Names.le_add.2.2⟩
  have granted : o.Grants s.seed (N.add o).facts := Names.grants_add hs
  have hb₀ : s₀.Below (N.add o).ways (N.add o).facts :=
    below (hb.mono (Names.ways_mono Names.le_add) id (Names.facts_mono Names.le_add)
      (obeys_of_le hp')) granted
  have m := moves Names.closed hb₀ granted
  have graph₁ : s₁.graph = s₀.graph := congrArg Propagation.graph m.grows.propagation
  refine {
    toKeeps := keeps.trans m.grows.toKeeps
    regular := ⟨settled, (m.posted posted).1, N.add o, ?_, ?_, hb₀.moves m, ?_⟩
    grants
    below := fun hF hb hg => (below hb hg).moves (moves hF (below hb hg) hg)
    current := fun hc => Moves.current (current hc) m
    tells := tells.trans m.tells }
  · rw [graph₁, graph]
    exact hp'
  · rw [m.grows.seed, keeps.seed]
    exact hs.mono Names.le_add
  · rw [graph₁, graph, m.grows.foreign]
    have more : (N.add o).AtMost
        (s.graph.program.extent + s.foreign + max o.facts.length o.fields.length) :=
      hN.add (le_max_left _ _) (le_max_right _ _)
    exact more.mono (by omega)

/-! ## The operations one by one -/

/-- What is drawn stays drawn when a table changes that no consequence reads. -/
theorem Settled.accept (h : s.Settled fun _ => False) (foreign : Nat) (notices : Feed Notice)
    (allocated : OrderedSet ClassName) :
    ({ s with
      foreign, notices
      propagation := { s.propagation with allocated } } : Solver).Settled fun _ => False := by
  refine ⟨fun w hw => ?_, h.reached, h.found⟩
  have hw : s.Records w := by cases w <;> exact hw
  obtain h | h | h := h.work w hw
  · exact h.elim
  · exact .inr (.inl h)
  · refine .inr (.inr ?_)
    cases w with
    | field t => exact { (show s.FieldDone t from h) with }
    | call t => exact { (show s.CallDone t from h) with }

theorem acceptNames_tells (s : Solver) : Tells s s.acceptNames :=
  .of_eq rfl rfl rfl rfl rfl rfl ⟨[], rfl⟩ fun hi => { hi with }

theorem solve_admits (h : s.Regular) (f : Fact) :
    Admits (.solve f) s ((Operation.solve f).begin s) := by
  set s₀ := s.acceptNames.remark (.starts s.acceptNames.direction s.acceptNames.seed f) with hs₀
  have p₁ := s₀.addField_posts ⟨.single f, .epsilon, s₀.seedState⟩
  have p₂ := (s₀.addField ⟨.single f, .epsilon, s₀.seedState⟩).addCall_posts
    ⟨.single f.var, f.point, .initial s.seed.var⟩
  have settled : s₀.Settled fun _ => False := h.settled.accept _ _ s.allocated
  have tells : Tells s s₀ := s.acceptNames_tells.trans (remark_tells _ _)
  have run := Regular.admits (o := .solve f) h s₀ { Keeps.refl s with }
    (by simp [hs₀, Operation.facts, acceptNames, remark, say])
    (by simp [hs₀, Operation.fields, acceptNames, remark, say]) h.posted id tells
    (fun hb _ => { hb with }) (fun _ _ hg => (Relation.ReflTransGen.single (.field hg.1)).tail (.call hg.2))
    (settled.extend (p₁.trans p₂).extend)
    ⟨p₂.field _ (s₀.mem_addField _), mem_addCall _ _⟩
  have same : (s₀.addField ⟨.single f, .epsilon, s₀.seedState⟩).seed = s.seed := p₁.seed
  rw [← same] at run
  exact run

theorem addFieldTransition_admits (h : s.Regular) (t : FieldTransition) :
    Admits (.addFieldTransition t) s (s.acceptNames.addField t) := by
  have p := s.acceptNames.addField_posts t
  have settled : s.acceptNames.Settled fun _ => False := h.settled.accept _ _ s.allocated
  exact Regular.admits h s.acceptNames { Keeps.refl s with }
    (by simp [Operation.facts, acceptNames])
    (Nat.add_le_add_left (Operation.length_fields_le _) _) h.posted id s.acceptNames_tells
    (fun hb _ => { hb with }) (fun _ _ hg => .single (.field hg))
    (settled.extend p.extend) (mem_addField _ t)

theorem connectAlias_admits (h : s.Regular) (f : Fact) (q : FieldState) :
    Admits (.connectAlias f q) s (s.acceptNames.addPop q f) := by
  obtain ⟨g, done⟩ := s.acceptNames.addPop_extend q f
  have settled : s.acceptNames.Settled fun _ => False := h.settled.accept _ _ s.allocated
  exact Regular.admits h s.acceptNames { Keeps.refl s with }
    (by simp [Operation.facts, acceptNames])
    (Nat.add_le_add_left (Operation.length_fields_le _) _) h.posted id s.acceptNames_tells
    (fun hb _ => { hb with }) (fun hF hb hg => addPop_moves hF hb hg)
    (settled.extend g) done

theorem addUnbalanced_admits (h : s.Regular) (m : MethodName) :
    Admits (.addUnbalanced m) s (s.openMethod m) := by
  obtain ⟨g, done⟩ := s.openMethod_extend m
  exact Regular.admits h s (.refl s) (by simp [Operation.facts])
    (by simp [Operation.fields]) h.posted id (.refl s) (fun hb _ => hb)
    (fun hF hb hg => openMethod_moves hF hb hg) (h.settled.extend g) done

/-- What callers ask for is there already. -/
theorem Regular.admits_refl (h : s.Regular) (grants : o.Grants s.seed s.facts) : Admits o s s where
  toKeeps := .refl s
  regular := h
  grants
  below := fun _ hb _ => hb
  current := id
  tells := .refl s

theorem addFieldFlow_admits (h : s.Regular) (f g : Fact) :
    Admits (.addFieldFlow f g) s ((Operation.addFieldFlow f g).begin s) := by
  unfold Operation.begin
  dsimp only
  split
  · next hn => exact h.admits_refl (Multimap.insertNew?_eq_none_iff.1 hn)
  · next fieldFlows hn =>
    obtain ⟨-, rfl⟩ := Multimap.insertNew?_eq_some_iff.1 hn
    set s₀ : Solver := { s.acceptNames with fieldFlows := s.fieldFlows.insert f g } with hs₀
    have mem {a b} : b ∈ s₀.fieldFlows.of a ↔ b ∈ s.fieldFlows.of a ∨ a = f ∧ b = g :=
      Multimap.mem_of_insert
    obtain ⟨p, copied⟩ := s₀.inherit_posts g (s₀.fields.outgoingOf (.single f))
    have keeps : Keeps s s₀ := { Keeps.refl s with fieldFlow := fun hg => mem.2 (.inl hg) }
    refine Regular.admits h s₀ keeps (by simp [hs₀, Operation.facts, acceptNames])
      (by simp [hs₀, Operation.fields, acceptNames]) h.posted id
      (.of_eq rfl rfl rfl rfl rfl rfl ⟨[], rfl⟩ fun hi => { hi with }) ?_ ?_ ?_ ?_
    · intro W F hb hg
      refine { hb with fieldFlow := fun {a b} hm => ?_ }
      obtain hm | ⟨rfl, rfl⟩ := mem.1 hm
      · exact hb.fieldFlow hm
      · exact hg
    · intro W F hF hb hg
      refine inherit_moves hb fun t ht => ?_
      obtain ⟨ht, hs⟩ := Automaton.mem_outgoingOf.1 ht
      obtain ⟨start, l, q⟩ := t
      obtain rfl : start = .single f := hs
      exact hF.fieldFlow hg (hb.field _ ht)
    · -- old transitions of the source were copied, and new ones wait
      refine ⟨fun w hw => ?_, fun hr hp => ?_, fun hr => ?_⟩
      · obtain hw | hw := p.newWork hw
        swap
        · exact .inr (.inl hw)
        · have hw : s.Records w := by cases w <;> exact hw
          obtain hd | hd | hd := h.settled.work w hw
          · exact hd.elim
          · exact .inr (.inl (p.pending w hd))
          · refine .inr (.inr ?_)
            cases w with
            | field t =>
              have hd : s.FieldDone t := hd
              refine ⟨fun hs hr r hm => ?_, fun hs hb => ?_, fun hf => ?_, fun hp => ?_,
                fun e hr asked => ?_⟩
              · exact FieldRuleDone.grows p.toGrows (hd.rule hs (p.rules_eq ▸ hr) r hm)
              · rw [p.fieldFlows] at hb
                obtain hb | ⟨rfl, rfl⟩ := mem.1 hb
                · exact p.field _ (hd.flow hs hb)
                · exact copied t (Automaton.mem_outgoingOf.2 ⟨hw, hs⟩)
              · exact p.field _ (hd.pop (p.pops_eq ▸ hf))
              · exact p.productive _ (hd.productive (p.productive_eq ▸ hp))
              · rw [seedState, p.seed] at e
                rw [p.tickets] at asked
                rw [p.seed]
                exact p.announced _ (hd.answer e (p.rules_eq ▸ hr) asked)
            | call t =>
              have hd : s₀.CallDone t := { (show s.CallDone t from hd) with }
              exact hd.extend p.extend hw
      · exact p.toGrows.reached _ (h.settled.reached (p.rules_eq ▸ hr) (p.productive_eq ▸ hp))
      · exact Found.keeps p.toKeeps (h.settled.found (p.rules_eq ▸ hr))
    · have granted : g ∈ s₀.fieldFlows.of f := mem.2 (.inr ⟨rfl, rfl⟩)
      show g ∈ (s₀.inherit g (s₀.fields.outgoingOf (.single f))).fieldFlows.of f
      rw [p.fieldFlows]
      exact granted

theorem mem_contextsOf {f : Fact} {c : CallState} : c ∈ s.contextsOf f ↔ s.facts.enters f c := by
  simp only [contextsOf, List.mem_map, List.mem_filter, decide_eq_true_eq]
  constructor
  · rintro ⟨⟨start, l, q⟩, ⟨ht, hl⟩, rfl⟩
    obtain ⟨ht, hs⟩ := Automaton.mem_outgoingOf.1 ht
    obtain rfl : start = .single f.var := hs
    obtain rfl : l = f.point := hl
    exact ht
  · exact fun h => ⟨_, ⟨Automaton.mem_outgoingOf.2 ⟨h, rfl⟩, rfl⟩, rfl⟩

theorem addCallFlow_admits (h : s.Regular) (f g : Fact) :
    Admits (.addCallFlow f g) s ((Operation.addCallFlow f g).begin s) := by
  unfold Operation.begin
  dsimp only
  split
  · next hn => exact h.admits_refl (Multimap.insertNew?_eq_none_iff.1 hn)
  · next callFlows hn =>
    obtain ⟨-, rfl⟩ := Multimap.insertNew?_eq_some_iff.1 hn
    set s₀ : Solver := { s.acceptNames with callFlows := s.callFlows.insert f g } with hs₀
    have mem {a b} : b ∈ s₀.callFlows.of a ↔ b ∈ s.callFlows.of a ∨ a = f ∧ b = g :=
      Multimap.mem_of_insert
    obtain ⟨p, copied⟩ := s₀.enterAll_posts ((s₀.contextsOf f).map (g, ·))
    have keeps : Keeps s s₀ := { Keeps.refl s with callFlow := fun hg => mem.2 (.inl hg) }
    refine Regular.admits h s₀ keeps (by simp [hs₀, Operation.facts, acceptNames])
      (by simp [hs₀, Operation.fields, acceptNames]) h.posted id
      (.of_eq rfl rfl rfl rfl rfl rfl ⟨[], rfl⟩ fun hi => { hi with }) ?_ ?_ ?_ ?_
    · intro W F hb hg
      refine { hb with callFlow := fun {a b} hm => ?_ }
      obtain hm | ⟨rfl, rfl⟩ := mem.1 hm
      · exact hb.callFlow hm
      · exact hg
    · intro W F hF hb hg
      refine enterAll_moves hb fun w hw => ?_
      obtain ⟨c, hc, rfl⟩ := List.mem_map.1 hw
      exact hF.callFlow hg (hb.call _ (mem_contextsOf.1 hc))
    · -- old contexts of the source were copied, and new ones wait
      refine ⟨fun w hw => ?_, fun hr hp => ?_, fun hr => ?_⟩
      · obtain hw | hw := p.newWork hw
        swap
        · exact .inr (.inl hw)
        · have hw : s.Records w := by cases w <;> exact hw
          obtain hd | hd | hd := h.settled.work w hw
          · exact hd.elim
          · exact .inr (.inl (p.pending w hd))
          · refine .inr (.inr ?_)
            cases w with
            | field t =>
              have hd : s₀.FieldDone t := { (show s.FieldDone t from hd) with }
              exact hd.extend p.extend hw
            | call t =>
              have hd : s.CallDone t := hd
              refine ⟨fun hs => ?_, fun {v b} hs hb => ?_, fun hs hf => ?_⟩
              · obtain ⟨rs, hr, H⟩ := hd.rule hs
                refine ⟨rs, p.rule hr, fun r hm => ?_⟩
                exact CallRuleDone.extend p.extend (show s₀.CallRuleDone _ _ r from H r hm)
              · rw [p.callFlows] at hb
                obtain hb | ⟨e, rfl⟩ := mem.1 hb
                · exact p.call _ (hd.flow hs hb)
                · refine copied (b, t.target) (List.mem_map.2 ⟨t.target, mem_contextsOf.2 ?_, rfl⟩)
                  obtain ⟨start, l, q⟩ := t
                  obtain rfl : start = .single v := hs
                  rw [← e]
                  exact hw
              · exact p.call _ (hd.exit hs (p.exits_eq ▸ hf))
      · exact p.toGrows.reached _ (h.settled.reached (p.rules_eq ▸ hr) (p.productive_eq ▸ hp))
      · exact Found.keeps p.toKeeps (h.settled.found (p.rules_eq ▸ hr))
    · have granted : g ∈ s₀.callFlows.of f := mem.2 (.inr ⟨rfl, rfl⟩)
      show g ∈ (s₀.enterAll ((s₀.contextsOf f).map (g, ·))).callFlows.of f
      rw [p.callFlows]
      exact granted

/-- What an operation records leaves the solver regular. -/
theorem begin_admits (h : s.Regular) (o : Operation) : Admits o s (o.begin s) := by
  cases o with
  | solve f => exact solve_admits h f
  | addFieldTransition t => exact addFieldTransition_admits h t
  | connectBase base g f => exact { addFieldTransition_admits h ⟨base, g, .single f⟩ with }
  | connectAlias f q => exact connectAlias_admits h f q
  | addFieldFlow f g => exact addFieldFlow_admits h f g
  | addCallFlow f g => exact addCallFlow_admits h f g
  | reachAlias f g => exact { addCallFlow_admits h f g with }
  | addUnbalanced m => exact addUnbalanced_admits h m

/-- An operation on a saturated solver records something and then saturates the solver. -/
theorem apply_eq_saturate (idle : s.worklist.pending = []) (o : Operation) :
    o.apply s = (o.begin s).saturate := by
  cases o with
  | solve _ | addFieldTransition _ | connectBase _ _ _ | connectAlias _ _ | addUnbalanced _ => rfl
  | addFieldFlow f g =>
    unfold Operation.apply addFieldFlow Operation.begin
    dsimp only
    cases s.fieldFlows.insertNew? f g with
    | none => exact (saturateFor_of_idle idle _).symm
    | some _ => rfl
  | addCallFlow f g | reachAlias f g =>
    unfold Operation.apply addCallFlow Operation.begin
    dsimp only
    cases s.callFlows.insertNew? f g with
    | none => exact (saturateFor_of_idle idle _).symm
    | some _ => rfl

/-- Every operation on a regular and saturated solver does what it should, and no more. -/
theorem apply_performs (h : s.Regular) (idle : s.worklist.pending = []) (o : Operation) :
    Performs o s (o.apply s) := by
  rw [apply_eq_saturate idle]
  exact (begin_admits h o).saturate

end Solver

end PointsTo
