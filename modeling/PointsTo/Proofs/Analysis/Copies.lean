import PointsTo.Proofs.Analysis.Closure

/-!
# A query in place of another one

Let two backward queries find the same, but for their seeds. If an analysis may know the one, another
analysis may know the other instead. As worlds: one that is closed stays closed if the facts of a new
query are added (`World.replaced_closed`), as long as they follow the saturation rules and hold all
that is imported for the old query (`World.Copies`). The facts of the old query itself, with the seed
changed, follow the saturation rules (`Facts.reseed_closed`).
-/

namespace PointsTo

/-! ## Another seed -/

/-- The one seed is read as the other. -/
def FieldState.reseed (new old : Fact) (state : FieldState) : FieldState :=
  if state = .alloc new then .alloc old else state

@[simp] theorem FieldState.reseed_single (new old f : Fact) :
    (single f).reseed new old = single f := rfl

@[simp] theorem FieldState.reseed_generated (new old f : Fact) (g : Field) :
    (generated f g).reseed new old = generated f g := rfl

@[simp] theorem FieldState.reseed_alloc (new old : Fact) :
    (alloc new).reseed new old = alloc old := if_pos rfl

theorem FieldState.reseed_of_ne {new old : Fact} {state : FieldState} (h : state ≠ .alloc new) :
    state.reseed new old = state := if_neg h

namespace Facts

variable {W : Ways} {F : Facts} {new old f : Fact} {t : FieldTransition}

/-- What would be known about the new seed if it were the old one. -/
def reseed (new old : Fact) (F : Facts) : Facts where
  field t := F.field ⟨t.start.reseed new old, t.label, t.target.reseed new old⟩
  call := F.call
  pop state := F.pop (state.reseed new old)
  fieldFlow := F.fieldFlow
  callFlow := F.callFlow
  opened := F.opened
  productive state := F.productive (state.reseed new old)

theorem reseed_closed (h : F.Closed W) : (F.reseed new old).Closed W where
  keep := h.keep
  push hl hr e ht := h.push hl hr e ht
  pop := h.pop
  takeOver hp ht := h.takeOver hp ht
  fieldFlow := h.fieldFlow
  stay := h.stay
  enter := h.enter
  leave := h.leave
  leaveBottom := h.leaveBottom
  callFlow := h.callFlow
  productive ht := h.productive ht

theorem reseed_field_seed {l : Field} :
    (F.reseed new old).field ⟨.single f, l, .alloc new⟩ ↔ F.field ⟨.single f, l, .alloc old⟩ := by
  simp [reseed]

theorem reseed_productive_seed : (F.reseed new old).productive (.alloc new) ↔
    F.productive (.alloc old) := by
  simp [reseed]

theorem reseed_field (ht : F.field t) (start : t.start ≠ .alloc new) (target : t.target ≠ .alloc new) :
    (F.reseed new old).field t := by
  show F.field ⟨t.start.reseed new old, t.label, t.target.reseed new old⟩
  rwa [FieldState.reseed_of_ne start, FieldState.reseed_of_ne target]

/-- What is known apart from a seed. -/
def without (new : Fact) (F : Facts) : Facts :=
  { F with field := fun t => F.field t ∧ t.start ≠ .alloc new ∧ t.target ≠ .alloc new }

theorem without_sub : (F.without new).Sub F :=
  ⟨fun _ ht => ht.1, fun _ => id, fun _ _ => id, fun _ _ => id, fun _ _ => id, fun _ => id,
    fun _ => id⟩

theorem without_closed (h : F.Closed W) : (F.without new).Closed W := { h with
  keep := fun hl hr e ht => ⟨h.keep hl hr e ht.1, nofun, ht.2.2⟩
  push := fun hl hr e ht =>
    have ⟨top, rest⟩ := h.push hl hr e ht.1
    ⟨⟨top, nofun, nofun⟩, rest, nofun, ht.2.2⟩
  pop := fun hl hr e ht => h.pop hl hr e ht.1
  takeOver := fun hp ht => ⟨h.takeOver hp ht.1, nofun, ht.2.2⟩
  fieldFlow := fun hg ht => ⟨h.fieldFlow hg ht.1, nofun, ht.2.2⟩
  productive := fun ht => h.productive ht.1 }

end Facts

/-! ## The new query -/

/-- The old query stands for the new one. -/
def Query.stand (q new old : Query) : Query := if q = new then old else q

/-- The errand, with the old query in place of the new one. -/
def Errand.stand (new old : Query) : Errand → Errand
  | importInto flow access source target => importInto (flow.stand new old) access source target
  | splice flow => splice (flow.stand new old)
  | e => e

@[simp] theorem Query.stand_new {new old : Query} : new.stand new old = old := if_pos rfl

theorem Query.stand_of_fact_ne {new old q : Query} (h : q.fact ≠ new.fact) : q.stand new old = q :=
  if_neg fun e => h (congrArg Query.fact e)

namespace World

variable (w : World)

/-- The new query may know `F` wherever the world has the old one. Nothing else is known about the
fact of the new query. -/
def replaced (new old : Query) (F : Facts) : World where
  ways := w.ways
  facts q := if q = new then F else (w.facts q).without new.fact
  query q := q = new ∨ w.query q ∧ q.fact ≠ new.fact
  started q := q = new ∨ w.started q ∧ q.fact ≠ new.fact
  watched q := w.watched q ∧ q.fact ≠ new.fact
  base access q := w.base access q ∧ q.fact ≠ new.fact
  flow access q := w.flow access (q.stand new old) ∧ (q = new ∨ w.query q ∧ q.fact ≠ new.fact)
  visits q e state := w.visits q (e.stand new old) state ∧ q.fact ≠ new.fact
  callSite := w.callSite
  returned k e := w.returned k e ∧ e.1.query.fact ≠ new.fact ∧ e.2.fact ≠ new.fact
  bypassed k e := w.bypassed k e ∧ e.1.fact ≠ new.fact
  imports access base flow := w.imports access base (flow.stand new old)

/-- The facts follow the saturation rules, and whatever is done for the old query is done in them. -/
structure Copies (p : Program) (new old : Query) (F : Facts) : Prop where
  backward : old.direction = .backward
  query : w.query old
  untyped : new = .backward new.fact
  not_allocates : ¬ p.Allocates new.fact
  closed : F.Closed (w.ways .backward)
  opened : F.opened new.fact.point.method
  productive : F.productive (.alloc new.fact)
  begins : ∀ next ∈ (⟨p, .backward⟩ : Supergraph).successors new.fact.point,
    (Operation.solve ⟨next, new.fact.var⟩).Grants new.fact F
  reached : ∀ {f}, F.reached f → (w.facts old).reached f ∨ p.instruction? f.point = some .nop
  field : ∀ {t}, (w.facts old).field t → t.start ≠ .alloc new.fact → t.target ≠ .alloc new.fact →
    F.field t
  callFlow : ∀ {f g}, (w.facts old).callFlow f g → F.callFlow f g

section Replaced

variable {w : World} {p : Program} {config : Config} {new old q : Query} {F : Facts}
  {t : FieldTransition} {e : Errand} {access : FieldAccess}

theorem replaced_facts_new : (w.replaced new old F).facts new = F := if_pos rfl

theorem replaced_facts (h : q.fact ≠ new.fact) :
    (w.replaced new old F).facts q = (w.facts q).without new.fact :=
  if_neg fun e => h (congrArg Query.fact e)

theorem replaced_facts_sub (h : q.fact ≠ new.fact) :
    ((w.replaced new old F).facts q).Sub (w.facts q) :=
  replaced_facts h ▸ Facts.without_sub

variable (copies : w.Copies p new old F)
include copies

theorem Copies.direction : new.direction = .backward := by
  rw [copies.untyped]
  rfl

theorem Copies.stand_direction : (q.stand new old).direction = q.direction := by
  by_cases e : q = new
  · rw [Query.stand, if_pos e, copies.backward, e, copies.direction]
  · rw [Query.stand, if_neg e]

/-- No instruction reads or writes a field where only the new query is. -/
theorem Copies.reached_of_accesses {f : Fact} (hf : F.reached f) (accesses : p.Accesses access)
    (e : f.point = access.point) : (w.facts old).reached f := by
  obtain hf | nop := copies.reached hf
  · exact hf
  · rw [Program.Accesses, ← e, nop] at accesses
    split at accesses <;> cases accesses

theorem Copies.reached_of_allocates {f : Fact} (hf : F.reached f) (made : p.Allocates f) :
    (w.facts old).reached f := by
  obtain hf | nop := copies.reached hf
  · exact hf
  · obtain ⟨type, e⟩ | e := made <;> cases nop.symm.trans e

/-- What is known for whoever stands for a query is known for the query. -/
theorem Copies.field_of_stand (ht : (w.facts (q.stand new old)).field t)
    (start : t.start ≠ .alloc new.fact) (target : t.target ≠ .alloc new.fact) :
    ((w.replaced new old F).facts q).field t := by
  by_cases e : q = new
  · obtain rfl := e
    rw [Query.stand_new] at ht
    rw [replaced_facts_new]
    exact copies.field ht start target
  · rw [Query.stand, if_neg e] at ht
    show ((if q = new then F else _) : Facts).field t
    rw [if_neg e]
    exact ⟨ht, start, target⟩

theorem Copies.callFlow_of_stand {f g : Fact} (h : (w.facts (q.stand new old)).callFlow f g) :
    ((w.replaced new old F).facts q).callFlow f g := by
  by_cases e : q = new
  · obtain rfl := e
    rw [Query.stand_new] at h
    rw [replaced_facts_new]
    exact copies.callFlow h
  · rw [Query.stand, if_neg e] at h
    show ((if q = new then F else _) : Facts).callFlow f g
    rw [if_neg e]
    exact h

theorem Copies.acts (acts : w.Acts p q t (e.stand new old)) (kept : q.fact ≠ new.fact)
    (start : t.start ≠ .alloc new.fact) (target : t.target ≠ .alloc new.fact) :
    (w.replaced new old F).Acts p q t e := by
  cases e with
  | importInto flow access source goal =>
    have start' : t.start.rename source goal ≠ .alloc new.fact :=
      FieldState.rename_eq_alloc_iff.not.2 start
    refine ⟨copies.field_of_stand acts.1 start' (FieldState.rename_eq_alloc_iff.not.2 target), ?_⟩
    exact fun connects ends => copies.field_of_stand (acts.2 connects ends) start' nofun
  | flowAllocation site returnSite returned =>
    intro fact ends silent
    refine ⟨acts ends silent, kept, fun e => target ?_⟩
    rw [ends, ← e]
    rfl
  | splice flow => exact copies.field_of_stand acts start target
  | baseAllocation access => exact fun ends => ⟨acts ends, kept⟩

/-- The world stays closed with the new query in it. -/
theorem replaced_closed (h : w.Closed p config) (silent : ∀ {f x}, ¬ (w.ways .backward).tell f x) :
    (w.replaced new old F).Closed p config where
  covers := h.covers
  facts {q} hq := by
    obtain rfl | ⟨hq, kept⟩ := hq
    · rw [replaced_facts_new, copies.direction]
      exact copies.closed
    · rw [replaced_facts kept]
      exact Facts.without_closed (h.facts hq)
  opened {q} hq := by
    obtain rfl | ⟨hq, kept⟩ := hq
    · rw [replaced_facts_new]
      exact copies.opened
    · rw [replaced_facts kept]
      exact h.opened hq
  productive {q} hq := by
    obtain rfl | ⟨hq, kept⟩ := hq
    · rw [replaced_facts_new]
      exact copies.productive
    · rw [replaced_facts kept]
      exact h.productive hq
  started {q} hq := by
    obtain rfl | ⟨hs, kept⟩ := hq
    · refine ⟨.inl rfl, ?_⟩
      rw [replaced_facts_new, copies.direction]
      exact copies.begins
    · obtain ⟨hq, begins⟩ := h.started hs
      refine ⟨.inr ⟨hq, kept⟩, fun next hn => ?_⟩
      rw [replaced_facts kept]
      obtain ⟨field, enters⟩ := begins next hn
      exact ⟨⟨field, nofun, fun e => kept (FieldState.alloc.inj e)⟩, enters⟩
  allocation {q f} hq hd hf made := by
    have kept : (Query.allocation p f).fact ≠ new.fact := fun e => copies.not_allocates (e ▸ made)
    have started : w.started (.allocation p f) ∧ w.watched (.allocation p f) := by
      obtain rfl | ⟨hq, kept'⟩ := hq
      · rw [replaced_facts_new] at hf
        exact h.allocation copies.query copies.backward (copies.reached_of_allocates hf made) made
      · rw [replaced_facts kept'] at hf
        exact h.allocation hq hd (Facts.without_sub.reached hf) made
    exact ⟨.inr ⟨started.1, kept⟩, started.2, kept⟩
  watched {q t v point} hw ht := by
    rw [replaced_facts hw.2] at ht ⊢
    exact h.watched hw.1 ht
  value {q access} hq hd accesses hf := by
    have begins (started : w.started (.backward access.baseFact)) :
        (w.replaced new old F).started (.backward access.baseFact) := by
      by_cases e : access.baseFact = new.fact
      · rw [e]
        exact .inl copies.untyped.symm
      · exact .inr ⟨started, e⟩
    refine ⟨?_, ?_, hq⟩
    all_goals obtain rfl | ⟨hq', kept⟩ := hq
    · rw [replaced_facts_new] at hf
      rw [copies.direction, ← copies.backward] at hd
      exact begins (h.value copies.query hd accesses (copies.reached_of_accesses hf accesses rfl)).1
    · rw [replaced_facts kept] at hf
      exact begins (h.value hq' hd accesses (Facts.without_sub.reached hf)).1
    · rw [replaced_facts_new] at hf
      rw [copies.direction, ← copies.backward] at hd
      rw [Query.stand_new]
      exact (h.value copies.query hd accesses (copies.reached_of_accesses hf accesses rfl)).2
    · rw [replaced_facts kept] at hf
      rw [Query.stand_of_fact_ne kept]
      exact (h.value hq' hd accesses (Facts.without_sub.reached hf)).2
  writeBase {q access} hq hd accesses hk hf ht := by
    obtain rfl | ⟨hq, kept⟩ := hq
    · cases hd.symm.trans copies.direction
    · rw [replaced_facts kept] at hf ht
      exact ⟨h.writeBase hq hd accesses hk (Facts.without_sub.reached hf) ht.1, kept⟩
  readBase {q access} hq hd accesses hk hr hf := by
    obtain rfl | ⟨hq, kept⟩ := hq
    · cases hd.symm.trans copies.direction
    · rw [replaced_facts kept] at hf
      exact ⟨h.readBase hq hd accesses hk hr (Facts.without_sub.reached hf), kept⟩
  pair {access base flow} hb hf hd := by
    have pairs := h.pair hb.1 hf.1 (copies.stand_direction.trans hd)
    exact {
      hasBase := .inr ⟨pairs.hasBase, hb.2⟩
      hasFlow := hf.2
      visits := fun hi lets ht hp => by
        rw [replaced_facts hb.2] at ht
        exact ⟨pairs.visits hi lets ht.1 hp, hb.2⟩
      connects := fun hi lets ht hp connects => by
        rw [replaced_facts hb.2] at ht
        exact copies.callFlow_of_stand (pairs.connects hi lets ht.1 hp connects) }
  visit {q e t} hv ht := by
    rw [replaced_facts hv.2] at ht
    obtain ⟨ht, start, target⟩ := ht
    obtain ⟨visits, acts⟩ := h.visit hv.1 ht
    exact ⟨⟨visits, hv.2⟩, copies.acts acts hv.2 start target⟩
  returned {q f site fact} hq hf told := by
    obtain rfl | ⟨hq, kept⟩ := hq
    · rw [copies.direction] at told
      exact absurd told silent
    · rw [replaced_facts kept] at hf
      obtain ⟨callSite, visits⟩ := h.returned hq hf told
      exact ⟨callSite, visits, kept⟩
  bypassed {q f site returnSite v} hq hf told := by
    obtain rfl | ⟨hq, kept⟩ := hq
    · rw [copies.direction] at told
      exact absurd told silent
    · rw [replaced_facts kept] at hf
      obtain ⟨callSite, bypassed⟩ := h.bypassed hq hf told
      exact ⟨callSite, bypassed, kept⟩
  activation {site returnSite source bypassing v} hr hb different := by
    obtain ⟨hr, kept, -⟩ := hr
    obtain ⟨hb, kept'⟩ := hb
    have activates := h.activation hr hb different
    exact {
      hasBypassing := .inr ⟨activates.hasBypassing, kept'⟩
      hasFlow := .inr ⟨activates.hasFlow, kept⟩
      visits := by
        refine ⟨?_, kept'⟩
        show w.visits bypassing (.splice (source.query.stand new old)) _
        rw [Query.stand_of_fact_ne kept]
        exact activates.visits
      pop := by
        rw [replaced_facts kept]
        exact activates.pop
      fieldFlow := by
        rw [replaced_facts kept]
        exact activates.fieldFlow
      callFlow := by
        rw [replaced_facts kept]
        exact activates.callFlow }

theorem replaced_realm_closed (h : (w : Realm).Closed p config)
    (silent : ∀ {f x}, ¬ (w.ways .backward).tell f x) :
    (w.replaced new old F : Realm).Closed p config where
  toClosed := replaced_closed copies h.toClosed silent
  begins := False.elim
  goes_on hb hf hd := h.goes_on hb.1 hf.1 (copies.stand_direction.trans hd)

end Replaced

end World

end PointsTo
