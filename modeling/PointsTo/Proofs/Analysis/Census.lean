import PointsTo.Proofs.Analysis.Handlers
import PointsTo.Proofs.Analysis.Supply
import Mathlib.Algebra.Order.BigOperators.Group.List
import Mathlib.Data.List.Nodup

/-!
# How many events there can be

Whatever an analysis records is built from a supply of names, so powers of the size of the supply
bound the number of its solvers, of the records of its joins, and of the transitions and
announcements of each solver. Joins and handled events pay for listeners and tickets (`balance`), so
these are bounded as well, and with them the events that solvers can ever post
(`Inhabits.length_delivered_lt`).
-/

namespace PointsTo

/-! ## Powers of a size -/

theorem eight_mul_le_pow {n j k : Nat} (hn : 8 ≤ n) (hk : j + 1 = k) : 8 * n ^ j ≤ n ^ k := by
  rw [← hk, Nat.pow_succ, Nat.mul_comm]
  exact Nat.mul_le_mul_left _ hn

theorem mul_le_pow {n i j k a b : Nat} (ha : a ≤ n ^ i) (hb : b ≤ n ^ j) (hk : i + j = k) :
    a * b ≤ n ^ k :=
  hk ▸ Nat.pow_add n i j ▸ Nat.mul_le_mul ha hb

theorem le_pow_of_le {n i j a : Nat} (hn : 8 ≤ n) (ha : a ≤ n ^ i) (hij : i ≤ j) : a ≤ n ^ j :=
  ha.trans (Nat.pow_le_pow_right (by omega) hij)

theorem sum_map_le {α : Type} {l : List α} {f : α → Nat} {m : Nat} (h : ∀ x ∈ l, f x ≤ m) :
    (l.map f).sum ≤ l.length * m := by
  have := List.sum_le_card_nsmul (l.map f) m (by simpa using h)
  simpa using this

theorem length_le_card {α : Type} [DecidableEq α] {l : List α} {u : Finset α} (nodup : l.Nodup)
    (h : ∀ x ∈ l, x ∈ u) : l.length ≤ u.card := by
  rw [← List.toFinset_card_of_nodup nodup]
  exact Finset.card_le_card fun x hx => h x (List.mem_toFinset.1 hx)

/-! ## What a supply allows -/

namespace Supply

variable {p : Program} (S : Supply p)

def queries : Finset Query :=
  S.clients ∪ S.names.factSet.image (.allocation p) ∪ S.names.factSet.image .backward

/-- What solvers tell of calls. -/
def announcements : Finset Announcement :=
  .image₂ .returned S.names.points S.names.factSet ∪
    .image₂ (fun site f => .bypassed site f.point f.var) S.names.points S.names.factSet

/-- No more than `n` of each kind, and `n` is not too small. -/
structure AtMost (n : Nat) : Prop where
  names : S.names.AtMost n
  clients : S.clients.card ≤ n
  extent : p.extent ≤ n
  large : 8 ≤ n

variable {S}

theorem mem_queries {q : Query} (h : S.HasQuery q) : q ∈ S.queries := by
  simp only [queries, Finset.mem_union, Finset.mem_image]
  cases h with
  | client h => exact .inl (.inl h)
  | allocation h => exact .inl (.inr ⟨_, Names.mem_factSet h, rfl⟩)
  | backward h => exact .inr ⟨_, Names.mem_factSet h, rfl⟩

variable {n : Nat} (h : S.AtMost n)
include h

theorem AtMost.add (d : Direction) (q : Query) : (S.add d q).AtMost (n + 3) where
  names := {
    points := (Finset.card_insert_le _ _).trans (by have := h.names.points; omega)
    vars := (Finset.card_insert_le _ _).trans (by have := h.names.vars; omega)
    fields := h.names.fields.trans (Nat.le_add_right _ _) }
  clients := (Finset.card_insert_le _ _).trans (by have := h.clients; omega)
  extent := h.extent.trans (Nat.le_add_right _ _)
  large := h.large.trans (Nat.le_add_right _ _)

theorem card_facts_le : S.names.factSet.card ≤ n ^ 2 :=
  (Names.card_factSet_le h.names).trans_eq (Nat.pow_two n).symm

theorem card_queries_le : S.queries.card ≤ n ^ 3 := by
  have hf := card_facts_le h
  have h₁ := S.names.factSet.card_image_le (f := Query.allocation p)
  have h₂ := S.names.factSet.card_image_le (f := Query.backward)
  have : 8 * n ^ 2 ≤ n ^ 3 := eight_mul_le_pow h.large rfl
  have := le_pow_of_le h.large (h.clients.trans_eq (Nat.pow_one n).symm) (j := 2) (by decide)
  have := (Finset.card_union_le (S.clients ∪ S.names.factSet.image (.allocation p))
    (S.names.factSet.image .backward)).trans
      (Nat.add_le_add_right (Finset.card_union_le S.clients _) _)
  exact this.trans (by omega)

theorem card_announcements_le : S.announcements.card ≤ 2 * n ^ 3 := by
  have hf := card_facts_le h
  have hp : S.names.points.card ≤ n ^ 1 := h.names.points.trans_eq (Nat.pow_one n).symm
  have both : S.names.points.card * S.names.factSet.card ≤ n ^ 3 := mul_le_pow hp hf rfl
  have h₁ := (Finset.card_image₂_le Announcement.returned S.names.points S.names.factSet).trans both
  have h₂ := (Finset.card_image₂_le (fun site f => Announcement.bypassed site f.point f.var)
    S.names.points S.names.factSet).trans both
  exact (Finset.card_union_le _ _).trans (by omega)

theorem card_fieldStates_le : S.names.fieldStates.card ≤ n ^ 4 := by
  refine (Names.card_fieldStates_le h.names).trans
    (mul_le_pow (i := 2) (j := 2) (Nat.pow_two n).ge ?_ rfl)
  have : 8 * n ≤ n ^ 2 := Nat.pow_two n ▸ Nat.mul_le_mul_right n h.large
  have := h.large
  omega

theorem card_fieldTransitions_le : S.names.fieldTransitions.card ≤ n ^ 9 := by
  have hq := card_fieldStates_le h
  have hl : S.names.fields.card ≤ n ^ 1 := h.names.fields.trans_eq (Nat.pow_one n).symm
  refine (Finset.card_image₂_le _ _ _).trans (mul_le_pow (j := 5) hq ?_ rfl)
  rw [Finset.card_product]
  exact mul_le_pow hl hq rfl

theorem card_callTransitions_le : S.names.callTransitions.card ≤ n ^ 7 := by
  have hq : S.names.callStates.card ≤ n ^ 3 := by
    refine (Names.card_callStates_le h.names).trans
      (mul_le_pow (i := 1) (j := 2) (Nat.pow_one n).ge ?_ rfl)
    have : 8 * n ≤ n ^ 2 := Nat.pow_two n ▸ Nat.mul_le_mul_right n h.large
    have := h.large
    omega
  have hl : S.names.points.card ≤ n ^ 1 := h.names.points.trans_eq (Nat.pow_one n).symm
  refine (Finset.card_image₂_le _ _ _).trans (mul_le_pow (j := 4) hq ?_ rfl)
  rw [Finset.card_product]
  exact mul_le_pow hl hq rfl

end Supply

/-! ## Events of one solver -/

/-- What the handlers of all these events may add. -/
theorem sum_cost_le (es : List Event) (known : Announcement → Bool)
    (unknown : ∀ a, .announced a ∈ es → known a ∨ ∃ ticket seed, a = .witnessed ticket seed) :
    (es.map Event.cost).sum ≤ 2 * (es.filterMap Event.fact?).length +
      ((es.filterMap Event.announcement?).filter known).length := by
  induction es with
  | nil => simp
  | cons event es ih =>
    have ih := ih fun a ha => unknown a (List.mem_cons_of_mem event ha)
    rw [List.map_cons, List.sum_cons]
    cases event with
    | reached f =>
      simp only [Event.cost, List.filterMap_cons, Event.fact?, Event.announcement?,
        List.length_cons]
      omega
    | fieldTransition l t =>
      simpa only [Event.cost, List.filterMap_cons, Event.fact?, Event.announcement?, Nat.zero_add]
        using ih
    | callTransition l t =>
      simpa only [Event.cost, List.filterMap_cons, Event.fact?, Event.announcement?, Nat.zero_add]
        using ih
    | announced a =>
      have more : ((es.filterMap Event.announcement?).filter known).length ≤
          (((Event.announced a :: es).filterMap Event.announcement?).filter known).length := by
        simp only [List.filterMap_cons, Event.announcement?, List.filter_cons]
        split <;> simp
      have facts : (Event.announced a :: es).filterMap Event.fact? = es.filterMap Event.fact? := rfl
      rw [facts]
      obtain hk | ⟨ticket, seed, rfl⟩ := unknown a List.mem_cons_self
      · have one : Event.cost (.announced a) ≤ 1 := by cases a <;> simp [Event.cost]
        have here : (((Event.announced a :: es).filterMap Event.announcement?).filter known).length =
            ((es.filterMap Event.announcement?).filter known).length + 1 := by
          simp [Event.announcement?, hk]
        omega
      · have free : Event.cost (.announced (.witnessed ticket seed)) = 0 := rfl
        omega

/-- Every event is of one of four kinds. -/
theorem length_events (es : List Event) : es.length =
    (es.filterMap Event.fact?).length + (es.filterMap Event.announcement?).length +
      (es.filterMap Event.field?).length + (es.filterMap Event.call?).length := by
  induction es with
  | nil => rfl
  | cons event es ih =>
    cases event <;> simp only [List.filterMap_cons, Event.fact?, Event.announcement?, Event.field?,
      Event.call?, List.length_cons] <;> omega

namespace Analysis

/-- The analysis keeps to a supply of names, no more than `n` of each kind. -/
structure Inhabits {p : Program} (S : Supply p) (n : Nat) (a : Analysis) : Prop where
  program : a.program = p
  within : a.Within S.realm
  complete : a.Complete
  few : S.AtMost n

namespace Inhabits

variable {p : Program} {S : Supply p} {n : Nat} {a : Analysis} (h : Inhabits S n a)
include h

/-! ## Solvers -/

theorem size_le : a.pool.size ≤ n ^ 3 := by
  refine (OrderedSet.size_le_card fun q hq => ?_).trans (Supply.card_queries_le h.few)
  have hq : q ∈ a.pool.entries.keys.toList := hq
  rw [← OrderedMap.map_fst_toList, List.mem_map] at hq
  obtain ⟨⟨q, e⟩, he, rfl⟩ := hq
  obtain ⟨i, he⟩ := List.mem_iff_getElem?.1 he
  exact Supply.mem_queries (h.within.host (i := i) he).query

section Solver

variable {i : Nat} {q : Query} {e : PoolEntry} (he : a.pool.Has i q e)
include he

theorem length_reached_le : (e.solver.events.filterMap Event.fact?).length ≤ n ^ 2 := by
  have host := h.within.host he
  rw [host.resting.told.reached]
  refine (length_le_card e.solver.reached.nodup_toList fun f hf => ?_).trans
    (Supply.card_facts_le h.few)
  obtain ⟨⟨c, hc, -⟩, -⟩ := host.below.reached f hf
  exact Names.mem_factSet ⟨hc.2.1, hc.1⟩

theorem mem_announced {x : Announcement} (hx : x ∈ e.solver.announced) :
    x ∈ S.announcements ∨ ∃ ticket < a.tickets.size, x = .witnessed ticket e.solver.seed := by
  have host := h.within.host he
  obtain ⟨f, ⟨c, hc, -⟩, tell⟩ | ⟨t, ht, rfl, -⟩ := host.below.announced x hx
  · simp only [Supply.announcements, Finset.mem_union, Finset.mem_image₂]
    have has {k : Point × Point} (hk : S.HasCallSite k) : k.2 ∈ S.names.points :=
      S.program_le.1 (Program.mem_points_of_successors hk.returnSite)
    obtain ⟨site, fact, rfl, hk, hv⟩ | ⟨returnSite, rfl, hk⟩ := Supply.ways_tell (S := S) tell
    · exact .inl (.inl ⟨site, hk.site, fact, Names.mem_factSet ⟨has hk, hv⟩, rfl⟩)
    · exact .inl (.inr ⟨f.point, hk.site, ⟨returnSite, f.var⟩,
        Names.mem_factSet ⟨has hk, hc.1⟩, rfl⟩)
  · obtain ⟨holder, client, taken, -⟩ := h.within.ticket he t ht
    exact .inr ⟨t.2, (Array.getElem?_eq_some_iff.1 taken).1, rfl⟩

theorem length_announced_le :
    (e.solver.events.filterMap Event.announcement?).length ≤ 2 * n ^ 3 + a.tickets.size := by
  rw [(h.within.host he).resting.told.announced]
  refine (length_le_card e.solver.announced.nodup_toList
    (u := S.announcements ∪ (Finset.range a.tickets.size).image (.witnessed · e.solver.seed))
    fun x hx => ?_).trans ?_
  · simp only [Finset.mem_union, Finset.mem_image, Finset.mem_range]
    exact (h.mem_announced he hx).imp_right fun ⟨t, ht, e⟩ => ⟨t, ht, e.symm⟩
  · have := Finset.card_image_le (s := Finset.range a.tickets.size)
      (f := fun t => Announcement.witnessed t e.solver.seed)
    rw [Finset.card_range] at this
    exact (Finset.card_union_le _ _).trans
      (Nat.add_le_add (Supply.card_announcements_le h.few) this)

/-- What the handling of all events of a solver may add. -/
theorem sum_cost_le : (e.solver.events.map Event.cost).sum ≤ n ^ 4 := by
  have told := (h.within.host he).resting.told
  have cost := PointsTo.sum_cost_le e.solver.events (· ∈ S.announcements) fun x hx =>
    (h.mem_announced he (told.announced_iff.1 hx)).imp (by simp) fun ⟨t, _, e⟩ => ⟨t, _, e⟩
  have reached := h.length_reached_le he
  have known : ((e.solver.events.filterMap Event.announcement?).filter
      (· ∈ S.announcements)).length ≤ 2 * n ^ 3 := by
    rw [told.announced]
    exact (length_le_card (e.solver.announced.nodup_toList.filter _) fun x hx => by
      simpa using (List.mem_filter.1 hx).2).trans (Supply.card_announcements_le h.few)
  have : 8 * n ^ 2 ≤ n ^ 3 := eight_mul_le_pow h.few.large rfl
  have : 8 * n ^ 3 ≤ n ^ 4 := eight_mul_le_pow h.few.large rfl
  omega

theorem length_subscriptions_le : e.solver.fields.subscriptions.length ≤
    n ^ 5 * a.fieldListeners.size := by
  refine (length_le_card (h.within.nodup he)
    (u := insert .any (S.names.fieldStates.image .leaving) ×ˢ Finset.range a.fieldListeners.size)
    fun s hs => ?_).trans ?_
  · obtain ⟨x, hx, hr⟩ := h.within.listener he s hs
    obtain ⟨subscription, l⟩ := s
    simp only [Finset.mem_product, Finset.mem_insert, Finset.mem_image, Finset.mem_range]
    refine ⟨?_, (Array.getElem?_eq_some_iff.1 hx).1⟩
    cases x with
    | baseAllocation j =>
      obtain ⟨access, x, hj, rfl, -⟩ := hr
      have accesses := h.program ▸ (h.within.fieldJoin hj).accesses
      exact .inr ⟨_, Names.mem_fieldStates (q := .single access.baseFact)
        (Supply.has_access accesses).1, rfl⟩
    | importAliases j k point points =>
      obtain ⟨_, _, _, -, -, rfl, -⟩ := hr
      exact .inl rfl
    | visit v =>
      obtain ⟨y, state, hy, -, -, rfl, hm⟩ := hr
      obtain ⟨q', errand, -, -, -, visits⟩ := (h.within.visitor hy).errand
      exact .inr ⟨state, Names.mem_fieldStates (visits state hm).2.2, rfl⟩
  · rw [Finset.card_product, Finset.card_range]
    refine Nat.mul_le_mul_right _ ((Finset.card_insert_le _ _).trans ?_)
    have states := (Finset.card_image_le (s := S.names.fieldStates)
      (f := Subscription.leaving)).trans (Supply.card_fieldStates_le h.few)
    have : 8 * n ^ 4 ≤ n ^ 5 := eight_mul_le_pow h.few.large rfl
    have : 0 < n ^ 4 := Nat.pow_pos (by have := h.few.large; omega)
    omega

theorem length_told_le : (e.solver.events.filterMap Event.field?).length ≤
    n ^ 14 * a.fieldListeners.size := by
  have host := h.within.host he
  rw [host.resting.told.field.length_eq]
  refine (Automaton.length_told_le _).trans ?_
  rw [show n ^ 14 = n ^ 9 * n ^ 5 from Nat.pow_add n 9 5, Nat.mul_assoc]
  refine Nat.mul_le_mul ?_ (h.length_subscriptions_le he)
  exact (OrderedSet.size_le_card fun t ht => Names.mem_fieldTransitions
    (host.below.field t ht).1).trans (Supply.card_fieldTransitions_le h.few)

theorem length_watched_le : (e.solver.events.filterMap Event.call?).length ≤ n ^ 7 := by
  have host := h.within.host he
  rw [host.resting.told.call.length_eq]
  have one : e.solver.calls.subscriptions.length ≤ 1 := by
    obtain none | ⟨l, one, -⟩ := h.within.watcher he
    · simp [none]
    · simp [one]
  have size : e.solver.calls.size ≤ n ^ 7 :=
    (OrderedSet.size_le_card fun t ht => Names.mem_callTransitions
      (host.below.call t ht).1).trans (Supply.card_callTransitions_le h.few)
  exact (Automaton.length_told_le _).trans ((Nat.mul_le_mul size one).trans_eq (Nat.mul_one _))

end Solver

/-! ## Joins -/

theorem length_fieldJoins_le : a.fieldJoins.toList.length ≤ n := by
  have accesses : ∀ k ∈ a.fieldJoins.keys.toList, p.Accesses k := by
    intro k hk
    rw [← OrderedMap.map_fst_toList, List.mem_map] at hk
    obtain ⟨⟨k, x⟩, hx, rfl⟩ := hk
    obtain ⟨j, hj⟩ := List.mem_iff_getElem?.1 hx
    exact h.program ▸ (h.within.fieldJoin (j := j) hj).accesses
  have nodup : (a.fieldJoins.keys.toList.map (·.point)).Nodup := by
    refine a.fieldJoins.keys.nodup_toList.map_on fun k hk k' hk' e => ?_
    have e₁ := accesses k hk
    have e₂ := accesses k' hk'
    obtain ⟨kind, point, base, field, value⟩ := k
    obtain ⟨kind', point', base', field', value'⟩ := k'
    obtain rfl : point = point' := e
    have same := e₁.symm.trans e₂
    cases kind <;> cases kind' <;> simp_all
  have := (length_le_card nodup fun point hp => by
    obtain ⟨k, hk, rfl⟩ := List.mem_map.1 hp
    exact (Supply.has_access (S := S) (accesses k hk)).2.1.1).trans h.few.names.points
  rwa [List.length_map, ← OrderedMap.map_fst_toList, List.length_map] at this

theorem fieldWeight_le {j : Nat} {access : FieldAccess} {x : FieldJoin}
    (hx : a.FieldJoinAt j access x) : x.weight ≤ n ^ 7 := by
  have joins := h.within.fieldJoin hx
  have bases : x.bases.size ≤ n ^ 3 := (OrderedSet.size_le_card fun q hq =>
    Supply.mem_queries (joins.base q hq).1.2).trans (Supply.card_queries_le h.few)
  have flows : x.flows.size ≤ n ^ 3 := (OrderedSet.size_le_card fun q hq =>
    Supply.mem_queries (joins.flow q hq).1.2).trans (Supply.card_queries_le h.few)
  have aliases : ∀ q ∈ x.flows.toList, (x.aliases.of q).length ≤ n ^ 1 := fun q _ =>
    (length_le_card (x.aliases.group q).nodup_toList fun v hv => by
      obtain ⟨base, i, -, -, ⟨l, state, ht⟩, -⟩ := h.complete.alias' ⟨j, x, hx, hv⟩
      have has : S.names.Has ⟨i.1, v⟩ := (h.within.factsOf_sub.field _ ht).1.1
      exact has.2).trans (h.few.names.vars.trans_eq (Nat.pow_one n).symm)
  have pairs : x.bases.size * x.flows.size ≤ n ^ 6 := mul_le_pow bases flows rfl
  have imports : x.flows.toList.length * n ^ 1 ≤ n ^ 4 := mul_le_pow flows le_rfl rfl
  have := le_pow_of_le h.few.large imports (j := 6) (by decide)
  have : 8 * n ^ 6 ≤ n ^ 7 := eight_mul_le_pow h.few.large rfl
  have := sum_map_le aliases
  unfold FieldJoin.weight
  omega

theorem length_callJoins_le : a.callJoins.toList.length ≤ n ^ 2 := by
  rw [← List.length_map (f := Prod.fst), OrderedMap.map_fst_toList]
  refine (length_le_card a.callJoins.keys.nodup_toList
    (u := S.names.points ×ˢ S.names.points) fun k hk => ?_).trans ?_
  · rw [← OrderedMap.map_fst_toList, List.mem_map] at hk
    obtain ⟨⟨k, x⟩, hx, rfl⟩ := hk
    obtain ⟨j, hj⟩ := List.mem_iff_getElem?.1 hx
    obtain ⟨site, next⟩ := (h.within.callJoin (j := j) hj).callSite
    exact Finset.mem_product.2 ⟨site, S.program_le.1 (Program.mem_points_of_successors next)⟩
  · rw [Finset.card_product, Nat.pow_two]
    exact Nat.mul_le_mul h.few.names.points h.few.names.points

theorem callWeight_le {j : Nat} {k : Point × Point} {x : CallJoin} (hx : a.CallJoinAt j k x) :
    x.weight ≤ n ^ 15 := by
  have joins := h.within.callJoin hx
  have queries := Supply.card_queries_le h.few
  have vars : S.names.vars.card ≤ n ^ 1 := h.few.names.vars.trans_eq (Nat.pow_one n).symm
  have flows : x.flows.size ≤ n ^ 11 := by
    refine (OrderedSet.size_le_card (u := (Finset.image₂ (fun q (vs : Var × FieldState) =>
        (⟨q, vs.1, vs.2⟩ : FlowSource)) S.queries (S.names.vars ×ˢ S.names.fieldStates)) ×ˢ S.queries)
      fun e he => ?_).trans ?_
    · obtain ⟨⟨-, source, base⟩, -⟩ := joins.returned e he
      refine Finset.mem_product.2 ⟨Finset.mem_image₂.2 ⟨e.1.query, Supply.mem_queries source.query,
        (e.1.returned, e.1.state), ?_, rfl⟩, Supply.mem_queries base⟩
      exact Finset.mem_product.2 ⟨source.returned, Names.mem_fieldStates source.state⟩
    · rw [Finset.card_product]
      refine mul_le_pow (i := 8) ((Finset.card_image₂_le _ _ _).trans ?_) queries rfl
      rw [Finset.card_product]
      exact mul_le_pow (j := 5) queries
        (mul_le_pow vars (Supply.card_fieldStates_le h.few) rfl) rfl
  have bypasses : x.bypasses.size ≤ n ^ 4 := by
    refine (OrderedSet.size_le_card (u := S.queries ×ˢ S.names.vars) fun e he => ?_).trans ?_
    · obtain ⟨⟨-, hq, hv⟩, -⟩ := joins.bypassed e he
      exact Finset.mem_product.2 ⟨Supply.mem_queries hq, hv⟩
    · rw [Finset.card_product]
      exact mul_le_pow queries vars rfl
  exact mul_le_pow flows bypasses rfl

theorem credit_le : a.credit ≤ n ^ 18 := by
  have fields : (a.fieldJoins.toList.map (·.2.weight)).sum ≤ n ^ 8 := by
    refine (sum_map_le (m := n ^ 7) fun e he => ?_).trans (mul_le_pow (i := 1)
      (h.length_fieldJoins_le.trans_eq (Nat.pow_one n).symm) le_rfl rfl)
    obtain ⟨j, hj⟩ := List.mem_iff_getElem?.1 he
    exact h.fieldWeight_le (j := j) hj
  have calls : (a.callJoins.toList.map (·.2.weight)).sum ≤ n ^ 17 := by
    refine (sum_map_le (m := n ^ 15) fun e he => ?_).trans
      (mul_le_pow h.length_callJoins_le le_rfl rfl)
    obtain ⟨j, hj⟩ := List.mem_iff_getElem?.1 he
    exact h.callWeight_le (j := j) hj
  have extent : a.program.extent ≤ n ^ 1 :=
    h.program.symm ▸ h.few.extent.trans_eq (Nat.pow_one n).symm
  have : a.program.extent * (a.fieldJoins.toList.map (·.2.weight)).sum ≤ n ^ 9 :=
    mul_le_pow extent fields rfl
  have := le_pow_of_le h.few.large this (j := 17) (by decide)
  have : 8 * n ^ 17 ≤ n ^ 18 := eight_mul_le_pow h.few.large rfl
  unfold credit
  omega

/-! ## All events -/

/-- A number for each event of each solver, summed up. -/
theorem sum_delivered_le (cost : Event → Nat) {m : Nat}
    (each : ∀ {i q e}, a.pool.Has i q e → (e.solver.events.map cost).sum ≤ m) :
    (a.pool.delivered.map fun e => cost e.2).sum ≤ n ^ 3 * m := by
  have parts : (a.pool.delivered.map fun e => cost e.2).sum =
      (a.pool.read.map fun events => (events.map cost).sum).sum := by
    rw [Pool.delivered, List.map_flatMap, List.flatMap_def, List.sum_flatten, List.map_map]
    conv_rhs => rw [← List.zipIdx_map_fst 0 a.pool.read, List.map_map]
    simp [Function.comp_def]
  rw [parts]
  refine (sum_map_le (m := m) fun events he => ?_).trans (Nat.mul_le_mul_right _ ?_)
  · obtain ⟨i, hi⟩ := List.mem_iff_getElem?.1 he
    obtain ⟨q, e, has, rfl⟩ := Pool.getElem?_read.1 hi
    refine Nat.le_trans ?_ (each has)
    refine List.Sublist.sum_le_sum (List.Sublist.map _ (List.take_sublist _ _)) ?_
    simp
  · rw [Pool.read, List.length_map, OrderedMap.length_toList]
    exact h.size_le

/-- The events that were handed out are fewer than an analysis is ready to handle. -/
theorem length_delivered_lt
    (paid : a.balance ≤ n + (a.pool.delivered.map fun e => e.2.cost).sum) :
    a.pool.delivered.length < n ^ 40 := by
  have large := h.few.large
  have credit := h.credit_le
  have costs : (a.pool.delivered.map fun e => e.2.cost).sum ≤ n ^ 7 :=
    (h.sum_delivered_le Event.cost (fun he => h.sum_cost_le he)).trans_eq (Nat.pow_add n 3 4).symm
  have listeners : a.fieldListeners.size + a.tickets.size ≤ n ^ 19 := by
    have : 8 * n ^ 18 ≤ n ^ 19 := eight_mul_le_pow large rfl
    have := le_pow_of_le large costs (j := 18) (by decide)
    have := le_pow_of_le large (Nat.pow_one n).ge (j := 18) (by decide)
    unfold balance at paid
    omega
  have each {i q e} (he : a.pool.Has i q e) : (e.solver.events.map fun _ => 1).sum ≤ n ^ 34 := by
    rw [List.map_const', List.sum_replicate, Nat.nsmul_eq_mul, Nat.mul_one, length_events]
    have reached := le_pow_of_le large (h.length_reached_le he) (j := 33) (by decide)
    have announced := h.length_announced_le he
    have told := (h.length_told_le he).trans (mul_le_pow (j := 19) (k := 33) le_rfl (by omega) rfl)
    have watched := le_pow_of_le large (h.length_watched_le he) (j := 33) (by decide)
    have := le_pow_of_le large (le_refl (n ^ 3)) (j := 33) (by decide)
    have := le_pow_of_le large (le_refl (n ^ 19)) (j := 33) (by decide)
    have : 8 * n ^ 33 ≤ n ^ 34 := eight_mul_le_pow large rfl
    omega
  have all := h.sum_delivered_le (fun _ => 1) each
  rw [List.map_const', List.sum_replicate, Nat.nsmul_eq_mul, Nat.mul_one] at all
  calc a.pool.delivered.length
      ≤ n ^ 3 * n ^ 34 := all
    _ = n ^ 37 := (Nat.pow_add n 3 34).symm
    _ < n ^ 40 := Nat.pow_lt_pow_right (by omega) (by decide)

end Inhabits

end Analysis

end PointsTo
