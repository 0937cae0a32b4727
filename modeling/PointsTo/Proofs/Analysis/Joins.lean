import PointsTo.Proofs.Analysis.Steps

/-!
# Joins

A join answers each pair of its records once, when the second of the two is recorded
(`FieldJoin.Answers`, `CallJoin.Answers`). The analysis draws the consequences of all answers before
it goes on, so it advances (`yields_changeFieldJoin`, `yields_changeCallJoin`), and the records pay
for the listeners that this takes.
-/

namespace PointsTo

/-! ## Records of a field join -/

namespace FieldJoin

variable {x y : FieldJoin} {pairs : List (Query × Query)}

theorem Sub.refl (x : FieldJoin) : x.Sub x := ⟨rfl, fun _ => id, fun _ => id, id⟩

/-- The join has grown, and these are the new pairs that execute. -/
structure Answers (pairs : List (Query × Query)) (x y : FieldJoin) : Prop extends x.Sub y where
  aliases : y.aliases = x.aliases
  known : ∀ p ∈ pairs, p.1 ∈ y.bases ∧ p.2 ∈ y.flows
  covers : ∀ b ∈ y.bases, ∀ f ∈ y.flows, x.executes f → b ∈ x.bases ∧ f ∈ x.flows ∨ (b, f) ∈ pairs
  weight : x.weight + pairs.length ≤ y.weight

theorem Answers.refl (x : FieldJoin) : Answers [] x x :=
  { Sub.refl x with
    aliases := rfl
    known := by simp
    covers := fun b hb f hf _ => .inl ⟨hb, hf⟩
    weight := Nat.le_refl _ }

theorem addBase_answers (x : FieldJoin) (base : Query) :
    Answers (x.addBase base).1 x (x.addBase base).2 ∧ base ∈ (x.addBase base).2.bases ∧
      (∀ q ∈ (x.addBase base).2.bases, q ∈ x.bases ∨ q = base) ∧
      (x.addBase base).2.flows = x.flows := by
  unfold addBase
  split
  · next h => exact ⟨.refl x, OrderedSet.insertNew?_eq_none_iff.1 h, fun _ => .inl, rfl⟩
  · next bases h =>
    have list := OrderedSet.toList_of_insertNew?_eq_some h
    obtain ⟨new, rfl⟩ := OrderedSet.insertNew?_eq_some_iff.1 h
    refine ⟨{
      access := rfl
      base := fun q hq => OrderedSet.mem_insert.2 (.inl hq)
      flow := fun _ => id
      aliased := id
      aliases := rfl
      known := fun p hp => ?_
      covers := fun b hb f hf he => ?_
      weight := ?_ }, OrderedSet.mem_insert.2 (.inr rfl), fun q => OrderedSet.mem_insert.1, rfl⟩
    · obtain ⟨f, hf, rfl⟩ := List.mem_map.1 hp
      exact ⟨OrderedSet.mem_insert.2 (.inr rfl), (List.mem_filter.1 hf).1⟩
    · obtain hb | rfl := OrderedSet.mem_insert.1 hb
      · exact .inl ⟨hb, hf⟩
      · exact .inr (List.mem_map.2 ⟨f, List.mem_filter.2 ⟨hf, he⟩, rfl⟩)
    · have size : (x.bases.insert base).size = x.bases.size + 1 := by
        simpa using congrArg List.length list
      have pairs := List.length_filter_le x.executes x.flows.toList
      simp only [weight, size, List.length_map, Nat.succ_mul, OrderedSet.length_toList] at pairs ⊢
      omega

theorem addFlow_answers (x : FieldJoin) (flow : Query) :
    Answers (x.addFlow flow).1 x (x.addFlow flow).2 ∧ flow ∈ (x.addFlow flow).2.flows ∧
      (∀ q ∈ (x.addFlow flow).2.flows, q ∈ x.flows ∨ q = flow) ∧
      (x.addFlow flow).2.bases = x.bases := by
  unfold addFlow
  split
  · next h => exact ⟨.refl x, OrderedSet.insertNew?_eq_none_iff.1 h, fun _ => .inl, rfl⟩
  · next flows h =>
    have list := OrderedSet.toList_of_insertNew?_eq_some h
    obtain ⟨new, rfl⟩ := OrderedSet.insertNew?_eq_some_iff.1 h
    refine ⟨{
      access := rfl
      base := fun _ => id
      flow := fun q hq => OrderedSet.mem_insert.2 (.inl hq)
      aliased := id
      aliases := rfl
      known := fun p hp => ?_
      covers := fun b hb f hf he => ?_
      weight := ?_ }, OrderedSet.mem_insert.2 (.inr rfl), fun q => OrderedSet.mem_insert.1, rfl⟩
    · split at hp
      · obtain ⟨b, hb, rfl⟩ := List.mem_map.1 hp
        exact ⟨hb, OrderedSet.mem_insert.2 (.inr rfl)⟩
      · simp at hp
    · obtain hf | rfl := OrderedSet.mem_insert.1 hf
      · exact .inl ⟨hb, hf⟩
      · rw [if_pos he]
        exact .inr (List.mem_map.2 ⟨b, hb, rfl⟩)
    · have size : (x.flows.insert flow).size = x.flows.size + 1 := by
        simpa using congrArg List.length list
      have pairs : (if x.executes flow then x.bases.toList.map (·, flow) else []).length ≤
          x.bases.size := by
        split
        · rw [List.length_map, OrderedSet.length_toList]
        · exact Nat.zero_le _
      simp only [weight, size, list, List.map_append, List.sum_append, Nat.mul_succ]
      omega

/-- A new alias adds to the weight, if its flow is known. -/
theorem weight_addAlias {flow : Query} {var : Var} {aliases : Multimap Query Var}
    (h : x.aliases.insertNew? flow var = some aliases) (hf : flow ∈ x.flows) :
    x.weight + 1 ≤ { x with aliases }.weight := by
  have each (q : Query) : (x.aliases.of q).length ≤ (aliases.of q).length := by
    rw [Multimap.of_of_insertNew?_eq_some h]
    split
    · next e =>
      rw [← e, List.length_append]
      exact Nat.le_add_right _ _
    · exact Nat.le_refl _
  have more : (x.aliases.of flow).length < (aliases.of flow).length := by
    rw [Multimap.of_of_insertNew?_eq_some h, if_pos rfl, List.length_append]
    exact Nat.lt_succ_self _
  have := List.sum_lt_sum (fun q => (x.aliases.of q).length) (fun q => (aliases.of q).length)
    (fun q _ => each q) ⟨flow, hf, more⟩
  simp only [weight]
  omega

end FieldJoin

/-! ## Records of a call join -/

namespace CallJoin

variable {x y : CallJoin} {activations : List Activation}

theorem Sub.refl (x : CallJoin) : x.Sub x := ⟨rfl, rfl, fun _ => id, fun _ => id⟩

/-- The join has grown, and this is what is newly activated. -/
structure Answers (activations : List Activation) (x y : CallJoin) : Prop extends x.Sub y where
  known : ∀ c ∈ activations, (c.flow, c.bypassing) ∈ y.flows ∧ (c.bypassing, c.var) ∈ y.bypasses ∧
    c.flow.query ≠ c.bypassing
  covers : ∀ {source bypassing v}, (source, bypassing) ∈ y.flows → (bypassing, v) ∈ y.bypasses →
    source.query ≠ bypassing → (source, bypassing) ∈ x.flows ∧ (bypassing, v) ∈ x.bypasses ∨
      ⟨source, bypassing, v⟩ ∈ activations
  weight : x.weight + activations.length ≤ y.weight

theorem Answers.refl (x : CallJoin) : Answers [] x x :=
  { Sub.refl x with
    known := by simp
    covers := fun hf hb _ => .inl ⟨hf, hb⟩
    weight := Nat.le_refl _ }

theorem activation?_eq_some_iff {flow : FlowSource} {bypassing : Query} {v : Var} {c : Activation} :
    activation? flow bypassing v = some c ↔ flow.query ≠ bypassing ∧ c = ⟨flow, bypassing, v⟩ := by
  unfold activation?
  split
  · next h => simp [h]
  · next h => simp [h, eq_comm]

theorem addBypass_answers (x : CallJoin) (q : Query) (v : Var) :
    Answers (x.addBypass q v).1 x (x.addBypass q v).2 ∧ (q, v) ∈ (x.addBypass q v).2.bypasses ∧
      (∀ e ∈ (x.addBypass q v).2.bypasses, e ∈ x.bypasses ∨ e = (q, v)) ∧
      (x.addBypass q v).2.flows = x.flows := by
  unfold addBypass
  split
  · next h => exact ⟨.refl x, OrderedSet.insertNew?_eq_none_iff.1 h, fun _ => .inl, rfl⟩
  · next bypasses h =>
    have list := OrderedSet.toList_of_insertNew?_eq_some h
    obtain ⟨new, rfl⟩ := OrderedSet.insertNew?_eq_some_iff.1 h
    refine ⟨{
      site := rfl
      returnSite := rfl
      returned := fun _ => id
      bypassed := fun e he => OrderedSet.mem_insert.2 (.inl he)
      known := fun c hc => ?_
      covers := fun {source bypassing u} hf hb hne => ?_
      weight := ?_ }, OrderedSet.mem_insert.2 (.inr rfl), fun e => OrderedSet.mem_insert.1, rfl⟩
    · simp only [List.mem_filterMap, List.mem_filter, Prod.exists,
        activation?_eq_some_iff] at hc
      obtain ⟨source, base, ⟨hf, hq⟩, hne, rfl⟩ := hc
      obtain rfl := of_decide_eq_true hq
      exact ⟨hf, OrderedSet.mem_insert.2 (.inr rfl), hne⟩
    · obtain hb | e := OrderedSet.mem_insert.1 hb
      · exact .inl ⟨hf, hb⟩
      · obtain ⟨rfl, rfl⟩ := Prod.mk.inj e
        simp only [List.mem_filterMap, List.mem_filter, Prod.exists, activation?_eq_some_iff]
        exact .inr ⟨source, bypassing, ⟨hf, by simp⟩, hne, rfl⟩
    · have size : (x.bypasses.insert (q, v)).size = x.bypasses.size + 1 := by
        simpa using congrArg List.length list
      have matching := List.length_filter_le (fun (e : FlowSource × Query) => decide (e.2 = q)) x.flows.toList
      have activated := List.length_filterMap_le (fun (e : FlowSource × Query) => activation? e.1 q v)
        (x.flows.toList.filter fun e => e.2 = q)
      simp only [weight, size, Nat.mul_succ, OrderedSet.length_toList] at matching activated ⊢
      exact Nat.add_le_add_left (activated.trans matching) _

theorem addFlow_answers (x : CallJoin) (source : FlowSource) (base : Query) :
    Answers (x.addFlow source base).1 x (x.addFlow source base).2 ∧
      (source, base) ∈ (x.addFlow source base).2.flows ∧
      (∀ e ∈ (x.addFlow source base).2.flows, e ∈ x.flows ∨ e = (source, base)) ∧
      (x.addFlow source base).2.bypasses = x.bypasses := by
  unfold addFlow
  split
  · next h => exact ⟨.refl x, OrderedSet.insertNew?_eq_none_iff.1 h, fun _ => .inl, rfl⟩
  · next flows h =>
    have list := OrderedSet.toList_of_insertNew?_eq_some h
    obtain ⟨new, rfl⟩ := OrderedSet.insertNew?_eq_some_iff.1 h
    refine ⟨{
      site := rfl
      returnSite := rfl
      returned := fun e he => OrderedSet.mem_insert.2 (.inl he)
      bypassed := fun _ => id
      known := fun c hc => ?_
      covers := fun {source' bypassing u} hf hb hne => ?_
      weight := ?_ }, OrderedSet.mem_insert.2 (.inr rfl), fun e => OrderedSet.mem_insert.1, rfl⟩
    · simp only [List.mem_filterMap, List.mem_filter, Prod.exists,
        activation?_eq_some_iff] at hc
      obtain ⟨q, v, ⟨hb, hq⟩, hne, rfl⟩ := hc
      obtain rfl := of_decide_eq_true hq
      exact ⟨OrderedSet.mem_insert.2 (.inr rfl), hb, hne⟩
    · obtain hf | e := OrderedSet.mem_insert.1 hf
      · exact .inl ⟨hf, hb⟩
      · obtain ⟨rfl, rfl⟩ := Prod.mk.inj e
        simp only [List.mem_filterMap, List.mem_filter, Prod.exists, activation?_eq_some_iff]
        exact .inr ⟨bypassing, u, ⟨hb, by simp⟩, hne, rfl⟩
    · have size : (x.flows.insert (source, base)).size = x.flows.size + 1 := by
        simpa using congrArg List.length list
      have matching := List.length_filter_le (fun (e : Query × Var) => decide (e.1 = base)) x.bypasses.toList
      have activated := List.length_filterMap_le (fun (e : Query × Var) => activation? source e.1 e.2)
        (x.bypasses.toList.filter fun e => e.1 = base)
      simp only [weight, size, Nat.succ_mul, OrderedSet.length_toList] at matching activated ⊢
      exact Nat.add_le_add_left (activated.trans matching) _

end CallJoin

/-! ## Tables of joins -/

namespace OrderedMap

variable {κ β : Type} [Ord κ] {m : OrderedMap κ β} {i : Nat} {k : κ} {x y : β}

theorem getElem?_toList_replace {j : Nat} {k' : κ} {z : β} :
    (m.modify i fun _ => y).toList[j]? = some (k', z) ↔
      ∃ x, m.toList[j]? = some (k', x) ∧ z = if i = j then y else x := by
  rw [getElem?_toList_modify, Option.map_eq_some_iff]
  constructor
  · rintro ⟨⟨k, x⟩, hx, e⟩
    obtain ⟨rfl, rfl⟩ := Prod.mk.inj e
    exact ⟨x, hx, rfl⟩
  · rintro ⟨x, hx, rfl⟩
    exact ⟨_, hx, rfl⟩

theorem sum_set {l : List Nat} {n m : Nat} (h : l[i]? = some n) :
    (l.set i m).sum + n = l.sum + m := by
  induction l generalizing i with
  | nil => simp at h
  | cons n' l ih =>
    cases i with
    | zero =>
      obtain rfl := Option.some.inj h
      simp only [List.set_cons_zero, List.sum_cons]
      omega
    | succ i =>
      have := ih h
      simp only [List.set_cons_succ, List.sum_cons]
      omega

theorem sum_replace (h : m.toList[i]? = some (k, x)) (g : β → Nat) :
    ((m.modify i fun _ => y).toList.map (g ·.2)).sum + g x = (m.toList.map (g ·.2)).sum + g y := by
  have e : (m.modify i fun _ => y).toList.map (g ·.2) = (m.toList.map (g ·.2)).set i (g y) := by
    refine List.ext_getElem? fun j => ?_
    rw [List.getElem?_map, getElem?_toList_modify, List.getElem?_set, List.getElem?_map,
      Option.map_map]
    by_cases hj : i = j
    · subst hj
      simp [(List.getElem?_eq_some_iff.1 h).1]
    · simp only [hj, ↓reduceIte]
      rfl
  rw [e]
  exact sum_set (by simp [h])

variable [Std.TransOrd κ] [Std.LawfulEqOrd κ]

theorem toList_insert_new (h : m.indexOf? k = none) :
    (m.insert k y).toList = m.toList ++ [(k, y)] := by
  rw [toList_insert, if_neg (by simp [contains_eq_isSome_indexOf?, h])]

theorem getElem?_insert_new (new : m.indexOf? k = none) :
    (m.insert k y).toList[m.size]? = some (k, y) := by
  rw [toList_insert_new new, ← length_toList, List.getElem?_concat_length]

theorem getElem?_insert_of_some {j : Nat} {k' : κ} (h : m.toList[j]? = some (k', x))
    (new : m.indexOf? k = none) : (m.insert k y).toList[j]? = some (k', x) := by
  rw [toList_insert_new new, List.getElem?_append_left (List.getElem?_eq_some_iff.1 h).1, h]

theorem getElem?_insert_cases {j : Nat} {k' : κ} (new : m.indexOf? k = none)
    (h : (m.insert k y).toList[j]? = some (k', x)) : m.toList[j]? = some (k', x) ∨
      j = m.size ∧ k' = k ∧ x = y := by
  rw [toList_insert_new new, List.getElem?_append, length_toList] at h
  split at h
  · exact .inl h
  · next hj =>
    obtain ⟨hlt, e⟩ := List.getElem?_eq_some_iff.1 h
    simp only [List.length_singleton] at hlt
    simp only [List.getElem_singleton, Prod.mk.injEq] at e
    exact .inr ⟨by omega, e.1.symm, e.2.symm⟩

end OrderedMap

namespace Analysis

variable {w : Realm} {a b c : Analysis} {j : Nat} {access : FieldAccess} {k : Point × Point}

theorem balance_le {n : Nat} (listeners : b.fieldListeners = a.fieldListeners)
    (tickets : b.tickets = a.tickets)
    (credit : a.credit + n ≤ b.credit) : b.balance ≤ a.balance + -(n : Int) := by
  rw [balance, balance, listeners, tickets]
  omega

theorem weight_create (access : FieldAccess) : (FieldJoin.create access).weight = 0 := rfl

/-- The join of an access is found, or created without any records. -/
theorem Within.fieldJoin_spec (h : a.Within w) (ha : a.program.Accesses access) :
    Advances w 0 a (a.fieldJoin access).2 ∧
      ∃ x, (a.fieldJoin access).2.FieldJoinAt (a.fieldJoin access).1 access x := by
  unfold Analysis.fieldJoin
  cases new : a.fieldJoins.indexOf? access with
  | some j => exact ⟨h.advances_refl, OrderedMap.indexOf?_eq_some_iff.1 new⟩
  | none =>
    dsimp only
    set b : Analysis :=
      { a with fieldJoins := a.fieldJoins.insert access (.create access) } with hb
    have hj : b.FieldJoinAt a.fieldJoins.size access (.create access) :=
      OrderedMap.getElem?_insert_new new
    have cases {j access' x} (h : b.FieldJoinAt j access' x) :
        a.FieldJoinAt j access' x ∨ access' = access ∧ x = .create access :=
      (OrderedMap.getElem?_insert_cases new h).imp_right And.right
    have g : Grows a b := { Grows.refl a with
      fieldJoin := fun hx => ⟨_, OrderedMap.getElem?_insert_of_some hx new, .refl _⟩ }
    have within : b.Within w := h.keep g Iff.rfl rfl .inl
      (fun hx => (cases hx).imp_right fun same => by
        obtain ⟨rfl, rfl⟩ := same
        exact ⟨rfl, ha, by simp [FieldJoin.create], by simp [FieldJoin.create]⟩) .inl
    have credit : a.credit + 0 ≤ b.credit := by
      simp only [Analysis.credit, hb, OrderedMap.toList_insert_new new, List.map_append,
        List.sum_append, List.map_cons, List.map_nil, List.sum_singleton, weight_create,
        Nat.add_zero]
      exact Nat.le_refl _
    have balance := balance_le (a := a) (b := b) rfl rfl credit
    have proceeds : Proceeds w 0 a b := ⟨g, within, rfl, rfl, rfl, by omega⟩
    refine ⟨proceeds.advances id { g with
      newPair := fun {access' base flow} based flows => ?_
      newAlias := fun {access' flow v} aliased => ?_
      newActivation := fun hr hb _ => .inl ⟨hr, hb⟩
      newAllocation := .inl
      newTicket := fun hx ht => .inl ⟨hx, ht⟩
      newVisited := fun hv _ hs => .inl ⟨_, hv, hs⟩ }, _, hj⟩
    · obtain ⟨i, x, hx, hbase⟩ := based
      obtain ⟨i', y, hy, hflow⟩ := flows
      obtain hx | ⟨-, rfl⟩ := cases hx
      · obtain hy | ⟨-, rfl⟩ := cases hy
        · exact .inl ⟨⟨i, x, hx, hbase⟩, ⟨i', y, hy, hflow⟩⟩
        · simp [FieldJoin.create] at hflow
      · simp [FieldJoin.create] at hbase
    · obtain ⟨i, x, hx, hv⟩ := aliased
      obtain hx | ⟨-, rfl⟩ := cases hx
      · exact .inl ⟨i, x, hx, hv⟩
      · simp [FieldJoin.create] at hv

/-- The join of a call is found, or created without any records. -/
theorem Within.callJoin_spec (h : a.Within w) {site returnSite : Point}
    (hk : w.callSite (site, returnSite)) :
    Advances w 0 a (a.callJoin site returnSite).2 ∧ ∃ x,
      (a.callJoin site returnSite).2.CallJoinAt (a.callJoin site returnSite).1
        (site, returnSite) x := by
  unfold Analysis.callJoin
  cases new : a.callJoins.indexOf? (site, returnSite) with
  | some j => exact ⟨h.advances_refl, OrderedMap.indexOf?_eq_some_iff.1 new⟩
  | none =>
    dsimp only
    set b : Analysis := { a with
      callJoins := a.callJoins.insert (site, returnSite) (.create site returnSite) } with hb
    have hj : b.CallJoinAt a.callJoins.size (site, returnSite) (.create site returnSite) :=
      OrderedMap.getElem?_insert_new new
    have cases {j k x} (h : b.CallJoinAt j k x) :
        a.CallJoinAt j k x ∨ k = (site, returnSite) ∧ x = .create site returnSite :=
      (OrderedMap.getElem?_insert_cases new h).imp_right And.right
    have g : Grows a b := { Grows.refl a with
      callJoin := fun hx => ⟨_, OrderedMap.getElem?_insert_of_some hx new, .refl _⟩ }
    have within : b.Within w := h.keep g Iff.rfl rfl .inl .inl
      (fun hx => (cases hx).imp_right fun same => by
        obtain ⟨rfl, rfl⟩ := same
        exact ⟨rfl, rfl, hk, by simp [CallJoin.create], by simp [CallJoin.create]⟩)
    have credit : a.credit + 0 ≤ b.credit := by
      simp only [Analysis.credit, hb, OrderedMap.toList_insert_new new, List.map_append,
        List.sum_append, List.map_cons, List.map_nil, List.sum_singleton]
      exact Nat.le_refl _
    have balance := balance_le (a := a) (b := b) rfl rfl credit
    have proceeds : Proceeds w 0 a b := ⟨g, within, rfl, rfl, rfl, by omega⟩
    refine ⟨proceeds.advances id { g with
      newPair := fun hb hf => .inl ⟨hb, hf⟩
      newAlias := .inl
      newActivation := fun {k source bypassing v} returned bypassed _ => ?_
      newAllocation := .inl
      newTicket := fun hx ht => .inl ⟨hx, ht⟩
      newVisited := fun hv _ hs => .inl ⟨_, hv, hs⟩ }, _, hj⟩
    obtain ⟨i, x, hx, hr⟩ := returned
    obtain ⟨i', y, hy, hb⟩ := bypassed
    obtain hx | ⟨-, rfl⟩ := cases hx
    · obtain hy | ⟨-, rfl⟩ := cases hy
      · exact .inl ⟨⟨i, x, hx, hr⟩, ⟨i', y, hy, hb⟩⟩
      · simp [CallJoin.create] at hb
    · simp [CallJoin.create] at hr

/-! ## Growing joins -/

/-- A join of the analysis is replaced by one that has grown. -/
def replaceFieldJoin (a : Analysis) (j : Nat) (y : FieldJoin) (imported : Nat) : Analysis :=
  { a with fieldJoins := a.fieldJoins.modify j fun _ => y, importedAliases := imported }

variable {x y : FieldJoin} {imported : Nat}

theorem fieldJoinAt_replace {j' : Nat} {access' : FieldAccess} {z : FieldJoin} :
    (a.replaceFieldJoin j y imported).FieldJoinAt j' access' z ↔
      ∃ x, a.FieldJoinAt j' access' x ∧ z = if j = j' then y else x :=
  OrderedMap.getElem?_toList_replace

theorem FieldJoinAt.index_eq {j' : Nat} (hj : a.FieldJoinAt j access x)
    (hj' : a.FieldJoinAt j' access y) : j = j' :=
  OrderedMap.index_inj hj hj'

theorem FieldJoinAt.unique {access' : FieldAccess} (hj : a.FieldJoinAt j access x)
    (hj' : a.FieldJoinAt j access' y) : access = access' ∧ x = y :=
  Prod.mk.inj (Option.some.inj (hj.symm.trans hj'))

theorem FieldJoinAt.accessAt (hj : a.FieldJoinAt j access x) : a.accessAt j = .ok access :=
  entryAt_eq (OrderedMap.getElem?_toList.1 hj).1

theorem FieldJoinAt.fieldJoinAt (hj : a.FieldJoinAt j access x) : a.fieldJoinAt j = .ok x :=
  entryAt_eq (OrderedMap.getElem?_toList.1 hj).2

theorem Within.replaceFieldJoin (h : a.Within w) (hj : a.FieldJoinAt j access x) (sub : x.Sub y)
    (base : ∀ q ∈ y.bases, w.base access q ∧ a.Underlies q access)
    (flow : ∀ q ∈ y.flows, w.flow access q ∧ a.Carries q access)
    {n : Nat} (weight : x.weight + n ≤ y.weight) :
    Proceeds w (-(a.program.extent * n : Nat)) a (a.replaceFieldJoin j y imported) ∧
      (a.replaceFieldJoin j y imported).FieldJoinAt j access y := by
  have g : Grows a (a.replaceFieldJoin j y imported) := { Grows.refl a with
    fieldJoin := fun {j' access' z} hz => by
      refine ⟨_, fieldJoinAt_replace.2 ⟨z, hz, rfl⟩, ?_⟩
      split
      · next e =>
        subst e
        obtain ⟨-, rfl⟩ := hz.unique hj
        exact sub
      · exact .refl z }
  have joins := (h.fieldJoin hj)
  refine ⟨⟨g, h.keep g Iff.rfl rfl .inl (fun {j' access' z} hz => ?_) .inl, rfl, rfl, rfl,
    balance_le rfl rfl ?_⟩, fieldJoinAt_replace.2 ⟨x, hj, (if_pos rfl).symm⟩⟩
  · obtain ⟨z', hz', rfl⟩ := fieldJoinAt_replace.1 hz
    split
    · next e =>
      subst e
      obtain ⟨rfl, rfl⟩ := hz'.unique hj
      exact .inr (g.joinsField ⟨sub.access.trans joins.same, joins.accesses, base, flow⟩)
    · exact .inl hz'
  · have sum := OrderedMap.sum_replace (y := y) hj FieldJoin.weight
    simp only [credit, Analysis.replaceFieldJoin, program] at sum ⊢
    have : a.pool.program.extent * (a.fieldJoins.toList.map (·.2.weight)).sum +
        a.pool.program.extent * n ≤ a.pool.program.extent *
          ((a.fieldJoins.modify j fun _ => y).toList.map (·.2.weight)).sum := by
      rw [← Nat.mul_add]
      exact Nat.mul_le_mul_left _ (by omega)
    omega

/-! ## Pairs of a base and a flow -/

theorem Within.advances_record (h : a.Within w) {entry : Entry} (quiet : entry.isFound = false) :
    Advances w 0 a (a.record entry) := by
  have g : Grows a (a.record entry) := { Grows.refl a with }
  have proceeds : Proceeds w 0 a (a.record entry) :=
    ⟨g, h.keep g Iff.rfl rfl .inl .inl .inl, rfl, rfl, Pool.told_record_quiet a.pool quiet, by
      rw [balance_congr (b := a.record entry) (a := a) rfl rfl rfl rfl rfl]
      omega⟩
  exact proceeds.advances id (g.extend rfl rfl rfl rfl fun hv _ hs => .inl ⟨_, hv, hs⟩)

theorem length_imports_le (access : FieldAccess) (p : Program)
    (h : (⟨p, access.direction⟩ : Supergraph).successors access.point ≠ []) :
    (access.imports p).length ≤ p.extent := by
  have le : ((⟨p, access.direction⟩ : Supergraph).successors access.point).length ≤ p.extent :=
    Supergraph.length_successors_le ⟨p, access.direction⟩ access.point
  have := List.length_pos_iff.2 h
  unfold FieldAccess.imports
  split
  · rwa [List.length_map]
  · rw [List.length_singleton]
    omega

/-- Aliases of the base are looked for from now on, if the flow goes on. -/
theorem Within.ends_execute (h : a.Within w) (hj : a.FieldJoinAt j access x) {base flow : Query}
    (hb : base ∈ x.bases) (hf : flow ∈ x.flows) :
    Ends w.Lax (execute j a (base, flow)) fun b => Advances w a.program.extent a b ∧
      b.Executed access base flow := by
  have joins := h.fieldJoin hj
  obtain ⟨baseW, underlies⟩ := joins.base base hb
  obtain ⟨flowW, carries⟩ := joins.flow flow hf
  obtain ⟨i, hi⟩ := underlies.reaches.knows
  obtain ⟨k, hk⟩ := carries.reaches.knows
  have direction := carries.direction
  set entry : Entry := .executing access base flow
  set a₁ := a.record entry
  have first : Advances w 0 a a₁ := h.advances_record rfl
  obtain ⟨s, hs, -, graph⟩ := first.within.solverAt (first.index hk)
  have next : s.successors access.point =
      (⟨a.program, access.direction⟩ : Supergraph).successors access.point := by
    rw [Solver.successors, graph, direction]
    rfl
  unfold execute
  rw [hj.accessAt]
  dsimp only [bind, Except.bind]
  rw [(first.index hi).getOrCreate]
  dsimp only
  rw [(first.index hk).getOrCreate]
  dsimp only
  rw [hs]
  show Ends w.Lax (if (s.successors access.point).isEmpty then _ else _) _
  rw [next]
  by_cases goes_on : (⟨a.program, access.direction⟩ : Supergraph).successors access.point = []
  · rw [if_pos (by simpa using goes_on)]
    have lax : w.Lax := (h.closed.goes_on baseW flowW direction).resolve_right (· goes_on)
    refine .inr ⟨lax, access.point, flow, a₁, ?_⟩
    rw [(first.index hk).queryAt]
  rw [if_neg (by simpa using goes_on)]
  have loop := yields_foldlM (k := 1) (access.imports a.program) (a := a₁)
    (f := fun a (imports : Point × List Point) =>
      (a.addFieldListener (.importAliases j k imports.1 imports.2)).2.changeSolver i fun s =>
        s.subscribeField .any (a.addFieldListener (.importAliases j k imports.1 imports.2)).1)
    (Q := fun imports b => ∃ l : Nat,
      b.fieldListeners[l]? = some (.importAliases j k imports.1 imports.2) ∧ b.Subscribed i .any l)
    first.within
    (fun {b} g hb' imports hp => by
      have g' := first.toGrows.trans g
      obtain ⟨y, hy, sub⟩ := g'.fieldJoin hj
      refine (hb'.yields_subscribe (g'.index hi) (.importAliases j k imports.1 imports.2) .any
        ⟨access, y, flow, hy, g'.index hk, rfl, ?_, sub.base _ hb, sub.flow _ hf⟩).imp
          fun c hc => ⟨hc.1, _, hc.2⟩
      rw [g'.program]
      exact hp)
    fun g ⟨l, hl, hs⟩ => ⟨l, g.fieldListener hl, g.subscribed hs⟩
  obtain ⟨b, e, second, each⟩ := loop
  refine .inl ⟨b, e, (first.trans second).weaken ?_, ?_⟩
  · have := length_imports_le access a.program goes_on
    omega
  · obtain ⟨y, hy, -⟩ := (first.trans second).fieldJoin hj
    refine ⟨i, j, k, y, (first.trans second).index hi, hy, (first.trans second).index hk, ?_⟩
    rw [(first.trans second).program]
    exact each

/-- A field join grows, and the pairs that it answers are executed. -/
theorem Within.ends_changeFieldJoin (h : a.Within w) (hj : a.FieldJoinAt j access x)
    {f : FieldJoin → List (Query × Query) × FieldJoin} (answers : FieldJoin.Answers (f x).1 x (f x).2)
    (base : ∀ q ∈ (f x).2.bases, w.base access q ∧ a.Underlies q access)
    (flow : ∀ q ∈ (f x).2.flows, w.flow access q ∧ a.Carries q access) :
    Ends w.Lax (a.changeFieldJoin j f) fun b => Advances w 0 a b ∧
      ∃ y, b.FieldJoinAt j access y ∧ (f x).2.Sub y := by
  set pairs := (f x).1
  set y := (f x).2
  set a₁ := a.replaceFieldJoin j y a.importedAliases
  obtain ⟨first, hj₁⟩ : Proceeds w _ a a₁ ∧ a₁.FieldJoinAt j access y :=
    h.replaceFieldJoin hj answers.toSub base flow answers.weight
  unfold changeFieldJoin
  rw [hj.fieldJoinAt]
  refine (ends_foldlM (k := a.program.extent) pairs
    (f := execute j) (Q := fun pair b => b.Executed access pair.1 pair.2) first.within
    (fun {b} g hb pair hp => by
      obtain ⟨z, hz, sub⟩ := g.fieldJoin hj₁
      obtain ⟨hbase, hflow⟩ := answers.known pair hp
      rw [show a.program.extent = b.program.extent by rw [g.program, first.program]]
      exact hb.ends_execute hz (sub.base _ hbase) (sub.flow _ hflow))
    fun g h => g.executed h).imp fun b ⟨second, executed⟩ => ?_
  have proceeds : Proceeds w 0 a b := (first.trans second.toProceeds).weaken (by
    push_cast
    omega)
  obtain ⟨z, hz, sub⟩ := second.fieldJoin hj₁
  refine ⟨proceeds.advances second.kept { proceeds.toGrows with
    newPair := fun {access' base' flow'} hb hf => ?_
    newAlias := fun {access' flow' v} hv => (second.newAlias hv).imp_left ?_
    newActivation := fun hr hb hne => second.newActivation hr hb hne
    newAllocation := second.newAllocation
    newTicket := second.newTicket
    newVisited := second.newVisited }, z, hz, sub⟩
  · obtain ⟨⟨i, u, hu, hb⟩, i', u', hu', hf⟩ | done := second.newPair hb hf
    · obtain ⟨v, hv, rfl⟩ := fieldJoinAt_replace.1 hu
      obtain ⟨v', hv', rfl⟩ := fieldJoinAt_replace.1 hu'
      obtain rfl := hv.index_eq hv'
      obtain ⟨-, rfl⟩ := hv.unique hv'
      by_cases e : j = i
      · subst e
        obtain ⟨rfl, rfl⟩ := hv.unique hj
        rw [if_pos rfl] at hb hf
        have joins := h.fieldJoin hj
        have executes : v.executes flow' :=
          FieldJoin.executes_iff.2 (joins.same ▸ (flow flow' hf).2.direction)
        obtain ⟨hb, hf⟩ | hp := answers.covers _ hb _ hf executes
        · exact .inl ⟨⟨j, v, hj, hb⟩, ⟨j, v, hj, hf⟩⟩
        · exact .inr (executed _ hp)
      · rw [if_neg e] at hb hf
        exact .inl ⟨⟨i, v, hv, hb⟩, ⟨i, v, hv, hf⟩⟩
    · exact .inr done
  · rintro ⟨i, u, hu, hv⟩
    obtain ⟨u', hu', rfl⟩ := fieldJoinAt_replace.1 hu
    refine ⟨i, u', hu', ?_⟩
    split at hv
    · next e =>
      subst e
      obtain ⟨-, rfl⟩ := hu'.unique hj
      exact answers.aliases ▸ hv
    · exact hv

/-! ## Aliases -/

theorem length_points_le {access : FieldAccess} {p : Program} {i : Point × List Point}
    (hi : i ∈ access.imports p) : i.2.length ≤ p.extent := by
  have le : ((⟨p, access.direction⟩ : Supergraph).successors access.point).length ≤ p.extent :=
    Supergraph.length_successors_le ⟨p, access.direction⟩ access.point
  unfold FieldAccess.imports at hi
  split at hi
  · obtain ⟨next, hn, rfl⟩ := List.mem_map.1 hi
    have := List.length_pos_of_mem hn
    rw [List.length_singleton]
    omega
  · rwa [List.mem_singleton.1 hi]

/-- One point of the flow gets an alias of the base. -/
theorem Within.yields_import (h : a.Within w) {i k : Nat} {base flow : Query} (hi : a.Index i base)
    (hk : a.Index k flow) (hj : a.FieldJoinAt j access x) (source target : Fact)
    (hv : w.visits base (.importInto flow access source target) (.single source))
    (hc : access.Connects source.var → (w.facts flow).callFlow access.fact target) :
    Yields (do
      let a ← a.startVisit i (.single source)
        (.importInto k j (.single source) (.single target) (access.Connects source.var))
      if access.Connects source.var then
        a.changeSolver k fun s => s.addCallFlow access.fact target
      else return a) fun b => Advances w 1 a b ∧
        b.view.visits base (.importInto flow access source target) (.single source) ∧
        (access.Connects source.var → (b.factsOf flow).callFlow access.fact target) := by
  have means : a.Means
      (.importInto k j (.single source) (.single target) (access.Connects source.var))
      (.importInto flow access source target) := ⟨hk, ⟨x, hj⟩, rfl, rfl, rfl⟩
  refine (h.yields_startVisit hi means trivial hv).bind fun b ⟨first, visits⟩ => ?_
  split
  · next connects =>
    refine (first.within.yields_perform (first.index hk) (.addCallFlow access.fact target)
      (hc connects)).imp fun c ⟨second, grants⟩ => ⟨first.trans second, ?_, fun _ => grants⟩
    exact second.toGrows.view.visits visits
  · next connects => exact .ok ⟨first, visits, fun hc => absurd hc connects⟩

/-- An alias that is new to the flow is imported at each point, and then the world has to let it
in. -/
theorem Within.yields_importAlias (h : a.Within w) {i k : Nat} {base flow : Query}
    (hi : a.Index i base) (hk : a.Index k flow) (hj : a.FieldJoinAt j access x)
    {point : Point} {points : List Point} (hp : (point, points) ∈ access.imports a.program)
    (hb : base ∈ x.bases) (hf : flow ∈ x.flows) {t : FieldTransition}
    (ht : (a.factsOf base).field t)
    (admits : ∀ {v}, t.start = .single ⟨point, v⟩ → ¬ a.HasAlias access flow v →
      w.imports access base flow (point, points) v) :
    Yields (a.importAlias i j k point points t) fun b => Advances w 0 a b ∧
      ∀ {v}, t.start = .single ⟨point, v⟩ → b.HasAlias access flow v ∧
        (a.HasAlias access flow v ∨ b.Imports access base flow (point, points) v) := by
  have joins := h.fieldJoin hj
  obtain ⟨baseW, -⟩ := joins.base base hb
  obtain ⟨flowW, carries⟩ := joins.flow flow hf
  have pairs := h.closed.pair baseW flowW carries.direction
  obtain ⟨start, l, state⟩ := t
  unfold importAlias
  cases start with
  | alloc f => exact .ok ⟨h.advances_refl, by simp⟩
  | generated f g => exact .ok ⟨h.advances_refl, by simp⟩
  | single start =>
    obtain ⟨startPoint, v⟩ := start
    dsimp only
    by_cases e : startPoint = point
    swap
    · rw [if_pos e]
      refine .ok ⟨h.advances_refl, fun hv => ?_⟩
      simp only [FieldState.single.injEq, Fact.mk.injEq] at hv
      exact absurd hv.1 e
    subst e
    rw [if_neg (not_not_intro rfl), hj.fieldJoinAt, hk.queryAt]
    show Yields (if (!(x.addAlias flow v).1) = true then _ else _) _
    unfold FieldJoin.addAlias
    cases new : x.aliases.insertNew? flow v with
    | none =>
      refine .ok ⟨h.advances_refl, fun hv => ?_⟩
      obtain rfl : v = _ := by simpa using hv
      have has : a.HasAlias access flow v := ⟨j, x, hj, Multimap.insertNew?_eq_none_iff.1 new⟩
      exact ⟨has, .inl has⟩
    | some aliases =>
      have unknown : ¬ a.HasAlias access flow v := by
        rintro ⟨j', x', hj', hv⟩
        obtain rfl := hj.index_eq hj'
        obtain ⟨-, rfl⟩ := hj.unique hj'
        exact (Multimap.insertNew?_eq_some_iff.1 new).1 hv
      set y : FieldJoin := { x with aliases }
      set a₁ := a.replaceFieldJoin j y (a.importedAliases + 1)
      have sub : x.Sub y := ⟨rfl, fun _ => id, fun _ => id, fun {q' v'} hv' => by
        rw [Multimap.of_of_insertNew?_eq_some new]
        split
        · next e => exact List.mem_append_left _ (e ▸ hv')
        · exact hv'⟩
      obtain ⟨first, hj₁⟩ : Proceeds w _ a a₁ ∧ a₁.FieldJoinAt j access y :=
        h.replaceFieldJoin hj sub joins.base joins.flow (FieldJoin.weight_addAlias new hf)
      set a₂ := a₁.record (.importing v startPoint flow)
      have second : Advances w 0 a₁ a₂ := first.within.advances_record rfl
      have both := first.trans second.toProceeds
      have loop := yields_foldlM (k := 1) points (a := a₂)
        (f := fun a point => do
          let a ← a.startVisit i (.single ⟨startPoint, v⟩)
            (.importInto k j (.single ⟨startPoint, v⟩) (.single ⟨point, v⟩) (access.Connects v))
          if access.Connects v then a.changeSolver k fun s => s.addCallFlow access.fact ⟨point, v⟩
          else return a)
        (Q := fun point b =>
          b.view.visits base (.importInto flow access ⟨startPoint, v⟩ ⟨point, v⟩)
            (.single ⟨startPoint, v⟩) ∧
          (access.Connects v → (b.factsOf flow).callFlow access.fact ⟨point, v⟩))
        both.within
        (fun {b} g hb point hm => by
          have g' := both.toGrows.trans g
          obtain ⟨z, hz, -⟩ := g'.fieldJoin hj
          have hw : (w.facts base).field ⟨.single ⟨startPoint, v⟩, l, state⟩ :=
            h.factsOf_sub.field _ ht
          have lets := admits rfl unknown
          exact hb.yields_import (g'.index hi) (g'.index hk) hz ⟨startPoint, v⟩ ⟨point, v⟩
            (pairs.visits hp lets hw hm) fun hc => pairs.connects hp lets hw hm hc)
        fun g done => ⟨g.view.visits done.1, fun h => (g.factsOf _).callFlow _ _ (done.2 h)⟩
      obtain ⟨b, e, third, each⟩ := loop
      have all := both.trans third.toProceeds
      have proceeds : Proceeds w 0 a b := all.weaken (by
        have := length_points_le hp
        dsimp only at this
        push_cast at *
        omega)
      obtain ⟨z, hz, zsub⟩ := (second.trans third).fieldJoin hj₁
      have imports : b.Imports access base flow (startPoint, points) v := {
        isBase := ⟨j, z, hz, zsub.base _ hb⟩
        place := all.program.symm ▸ hp
        found := ⟨l, state, (all.factsOf base).field _ ht⟩
        done := each }
      have old {j' access' z} (hz : a₁.FieldJoinAt j' access' z) : ∃ x', a.FieldJoinAt j' access' x' ∧
          z.bases = x'.bases ∧ z.flows = x'.flows ∧
          ∀ {flow' v'}, v' ∈ z.aliases.of flow' → v' ∈ x'.aliases.of flow' ∨
            access' = access ∧ flow' = flow ∧ v' = v := by
        obtain ⟨x', hx', rfl⟩ := fieldJoinAt_replace.1 hz
        refine ⟨x', hx', ?_⟩
        split
        · next e =>
          subst e
          obtain ⟨rfl, rfl⟩ := hx'.unique hj
          refine ⟨rfl, rfl, fun {flow' v'} hv' => ?_⟩
          rw [Multimap.of_of_insertNew?_eq_some new] at hv'
          split at hv'
          · next e =>
            obtain hv' | hv' := List.mem_append.1 hv'
            · exact .inl (e ▸ hv')
            · exact .inr ⟨rfl, e.symm, List.mem_singleton.1 hv'⟩
          · exact .inl hv'
        · exact ⟨rfl, rfl, .inl⟩
      refine ⟨b, ?_, proceeds.advances (second.trans third).kept { proceeds.toGrows with
        newPair := fun hb hf => ((second.trans third).newPair hb hf).imp_left
          fun both => by
            obtain ⟨⟨i, u, hu, hb⟩, i', u', hu', hf⟩ := both
            obtain ⟨x₁, h₁, eb, -⟩ := old hu
            obtain ⟨x₂, h₂, -, ef, -⟩ := old hu'
            exact ⟨⟨i, x₁, h₁, eb ▸ hb⟩, ⟨i', x₂, h₂, ef ▸ hf⟩⟩
        newAlias := fun {access' flow' v'} hv => ((second.trans third).newAlias hv).elim
          (fun aliased => by
            obtain ⟨i', u, hu, hv⟩ := aliased
            obtain ⟨x₁, h₁, -, -, ha⟩ := old hu
            obtain hv | ⟨rfl, rfl, rfl⟩ := ha hv
            · exact .inl ⟨i', x₁, h₁, hv⟩
            · exact .inr ⟨base, _, imports⟩) .inr
        newActivation := fun hr hb hne => (second.trans third).newActivation hr hb hne
        newAllocation := (second.trans third).newAllocation
        newTicket := (second.trans third).newTicket
        newVisited := (second.trans third).newVisited }, ?_⟩
      · obtain rfl := joins.same
        exact e
      · intro u hu
        obtain rfl : v = u := by simpa using hu
        refine ⟨⟨j, z, hz, zsub.aliased ?_⟩, .inr imports⟩
        rw [Multimap.of_of_insertNew?_eq_some new, if_pos rfl]
        exact List.mem_append_right _ List.mem_cons_self

/-! ## Activations -/

theorem CallJoinAt.index_eq {j' : Nat} {x y : CallJoin} (hj : a.CallJoinAt j k x)
    (hj' : a.CallJoinAt j' k y) : j = j' :=
  OrderedMap.index_inj hj hj'

theorem CallJoinAt.unique {k' : Point × Point} {x y : CallJoin} (hj : a.CallJoinAt j k x)
    (hj' : a.CallJoinAt j k' y) : k = k' ∧ x = y :=
  Prod.mk.inj (Option.some.inj (hj.symm.trans hj'))

theorem CallJoinAt.callJoinAt {x : CallJoin} (hj : a.CallJoinAt j k x) :
    a.callJoinAt j = .ok x :=
  entryAt_eq (OrderedMap.getElem?_toList.1 hj).2

/-- A call join of the analysis is replaced by one that has grown. -/
def replaceCallJoin (a : Analysis) (j : Nat) (y : CallJoin) : Analysis :=
  { a with callJoins := a.callJoins.modify j fun _ => y }

theorem callJoinAt_replace {j' : Nat} {k' : Point × Point} {y z : CallJoin} :
    (a.replaceCallJoin j y).CallJoinAt j' k' z ↔
      ∃ x, a.CallJoinAt j' k' x ∧ z = if j = j' then y else x :=
  OrderedMap.getElem?_toList_replace

theorem Within.replaceCallJoin (h : a.Within w) {x y : CallJoin} (hj : a.CallJoinAt j k x)
    (sub : x.Sub y) (returned : ∀ e ∈ y.flows, w.returned k e ∧ a.Knows e.1.query)
    (bypassed : ∀ e ∈ y.bypasses, w.bypassed k e ∧ a.Knows e.1)
    {n : Nat} (weight : x.weight + n ≤ y.weight) :
    Proceeds w (-(n : Nat)) a (a.replaceCallJoin j y) ∧
      (a.replaceCallJoin j y).CallJoinAt j k y := by
  have g : Grows a (a.replaceCallJoin j y) := { Grows.refl a with
    callJoin := fun {j' k' z} hz => by
      refine ⟨_, callJoinAt_replace.2 ⟨z, hz, rfl⟩, ?_⟩
      split
      · next e =>
        subst e
        obtain ⟨-, rfl⟩ := hz.unique hj
        exact sub
      · exact .refl z }
  have joins := h.callJoin hj
  refine ⟨⟨g, h.keep g Iff.rfl rfl .inl .inl fun {j' k' z} hz => ?_, rfl, rfl, rfl,
    balance_le rfl rfl ?_⟩, callJoinAt_replace.2 ⟨x, hj, (if_pos rfl).symm⟩⟩
  · obtain ⟨z', hz', rfl⟩ := callJoinAt_replace.1 hz
    split
    · next e =>
      subst e
      obtain ⟨rfl, rfl⟩ := hz'.unique hj
      exact .inr (g.joinsCall ⟨sub.site.trans joins.site, sub.returnSite.trans joins.returnSite,
        joins.callSite, returned, bypassed⟩)
    · exact .inl hz'
  · have sum := OrderedMap.sum_replace (y := y) hj CallJoin.weight
    simp only [credit, Analysis.replaceCallJoin, program] at sum ⊢
    omega

/-- What goes past a call is unified with what comes back from it. -/
theorem Within.yields_activate (h : a.Within w) {x : CallJoin} (hj : a.CallJoinAt j k x)
    {c : Activation} (hf : (c.flow, c.bypassing) ∈ x.flows)
    (hb : (c.bypassing, c.var) ∈ x.bypasses) (hne : c.flow.query ≠ c.bypassing) :
    Yields (activate j a c) fun b => Advances w 1 a b ∧
      b.Activated k.2 c.flow c.bypassing c.var := by
  have joins := h.callJoin hj
  obtain ⟨returnedW, l, hl⟩ := joins.returned _ hf
  obtain ⟨bypassedW, i, hi⟩ := joins.bypassed _ hb
  have activates : w.Activates k.2 c.flow c.bypassing c.var :=
    h.closed.activation returnedW bypassedW hne
  set bypass : Fact := ⟨k.2, c.var⟩
  set returned : Fact := ⟨k.2, c.flow.returned⟩
  set a₁ : Analysis := { a with activations := a.activations + 1 }
  set a₂ := a₁.record (.activating x.site x.returnSite c)
  have g₂ : Grows a a₂ := { Grows.refl a with }
  have first : Proceeds w 0 a a₂ := ⟨g₂, h.keep g₂ Iff.rfl rfl .inl .inl .inl, rfl, rfl,
      Pool.told_record_quiet a.pool rfl, by
    rw [balance_congr (b := a₂) (a := a) rfl rfl rfl rfl rfl]
    omega⟩
  have first : Advances w 0 a a₂ :=
    first.advances id (g₂.extend rfl rfl rfl rfl fun hv _ hs => .inl ⟨_, hv, hs⟩)
  obtain ⟨b, e, second, visits⟩ := first.within.yields_startVisit (g₂.index hi)
    (show Means _ (.splice l) (.splice c.flow.query) from g₂.index hl) trivial activates.visits
  set cs : List Change := (if c.flow.state.isGenerated then
    [.perform (.connectAlias bypass c.flow.state)] else []) ++
      ([.perform (.addFieldFlow returned bypass)] ++ [.perform (.addCallFlow returned bypass)])
  have alters {s : Solver} (hs : s.Resting) : s.Alters cs
      (((if c.flow.state.isGenerated then s.connectAlias bypass c.flow.state else s).addFieldFlow
        returned bypass).addCallFlow returned bypass) := by
    have head : s.Alters (if c.flow.state.isGenerated then
        [.perform (.connectAlias bypass c.flow.state)] else [])
        (if c.flow.state.isGenerated then s.connectAlias bypass c.flow.state else s) := by
      split
      · exact hs.perform (.connectAlias bypass c.flow.state)
      · exact hs.alters_refl
    have field := head.resting.perform (.addFieldFlow returned bypass)
    exact head.trans (field.trans (field.resting.perform (.addCallFlow returned bypass)))
  have mem {o : Change} : o ∈ cs ↔
      c.flow.state.isGenerated ∧ o = .perform (.connectAlias bypass c.flow.state) ∨
        o = .perform (.addFieldFlow returned bypass) ∨
          o = .perform (.addCallFlow returned bypass) := by
    simp only [cs]
    split <;> simp_all
  have both := first.trans second
  obtain ⟨d, e', third, granted⟩ := both.within.yields_change (both.index hl) _ alters
    (fun o ho => by
      obtain ⟨hs, rfl⟩ | rfl | rfl := mem.1 ho
      · exact activates.pop hs
      · exact activates.fieldFlow
      · exact activates.callFlow)
    (by simp only [cs]; split <;> rfl) (by simp only [cs]; split <;> simp [Change.tickets])
    (by simp only [cs]; split <;> rfl)
  refine ⟨d, ?_, both.trans third, third.view.visits visits, fun hs => ?_, ?_, ?_⟩
  · unfold activate
    rw [hj.callJoinAt]
    dsimp only [bind, Except.bind]
    rw [(first.index hi).getOrCreate]
    dsimp only
    rw [(first.index hl).getOrCreate]
    dsimp only
    rw [joins.returnSite, e]
    exact e'
  · exact granted _ (mem.2 (.inl ⟨hs, rfl⟩))
  · exact granted _ (mem.2 (.inr (.inl rfl)))
  · exact granted _ (mem.2 (.inr (.inr rfl)))

/-- A call join grows, and what it answers is activated. -/
theorem Within.yields_changeCallJoin (h : a.Within w) {x : CallJoin} (hj : a.CallJoinAt j k x)
    {f : CallJoin → List Activation × CallJoin} (answers : CallJoin.Answers (f x).1 x (f x).2)
    (returned : ∀ e ∈ (f x).2.flows, w.returned k e ∧ a.Knows e.1.query)
    (bypassed : ∀ e ∈ (f x).2.bypasses, w.bypassed k e ∧ a.Knows e.1) :
    Yields (a.changeCallJoin j f) fun b => Advances w 0 a b ∧
      ∃ y, b.CallJoinAt j k y ∧ (f x).2.Sub y := by
  set activations := (f x).1
  set y := (f x).2
  set a₁ := a.replaceCallJoin j y
  obtain ⟨first, hj₁⟩ : Proceeds w _ a a₁ ∧ a₁.CallJoinAt j k y :=
    h.replaceCallJoin hj answers.toSub returned bypassed answers.weight
  obtain ⟨b, e, second, activated⟩ := yields_foldlM (k := 1) activations
    (f := activate j) (Q := fun c b => b.Activated k.2 c.flow c.bypassing c.var) first.within
    (fun {b} g hb c hc => by
      obtain ⟨z, hz, sub⟩ := g.callJoin hj₁
      obtain ⟨hf, hb', hne⟩ := answers.known c hc
      exact hb.yields_activate hz (sub.returned _ hf) (sub.bypassed _ hb') hne)
    fun g h => g.activated h
  have proceeds : Proceeds w 0 a b := (first.trans second.toProceeds).weaken (by omega)
  obtain ⟨z, hz, sub⟩ := second.callJoin hj₁
  refine ⟨b, ?_, proceeds.advances second.kept { proceeds.toGrows with
    newPair := second.newPair
    newAlias := second.newAlias
    newActivation := fun {k' source bypassing v} hr hb hne => ?_
    newAllocation := second.newAllocation
    newTicket := second.newTicket
    newVisited := second.newVisited }, z, hz, sub⟩
  · unfold changeCallJoin
    rw [hj.callJoinAt]
    exact e
  · obtain ⟨⟨i, u, hu, hr⟩, i', u', hu', hb⟩ | done := second.newActivation hr hb hne
    · obtain ⟨v, hv, rfl⟩ := callJoinAt_replace.1 hu
      obtain ⟨v', hv', rfl⟩ := callJoinAt_replace.1 hu'
      obtain rfl := hv.index_eq hv'
      obtain ⟨-, rfl⟩ := hv.unique hv'
      by_cases e : j = i
      · subst e
        obtain ⟨rfl, rfl⟩ := hv.unique hj
        rw [if_pos rfl] at hr hb
        obtain ⟨hr, hb⟩ | hc := answers.covers hr hb hne
        · exact .inl ⟨⟨j, v, hj, hr⟩, ⟨j, v, hj, hb⟩⟩
        · exact .inr (activated _ hc)
      · rw [if_neg e] at hr hb
        exact .inl ⟨⟨i, v, hv, hr⟩, ⟨i, v, hv, hb⟩⟩
    · exact .inr done

end Analysis

end PointsTo
