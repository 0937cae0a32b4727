import Mathlib.Data.List.Nodup
import Mathlib.Data.List.Perm.Basic
import PointsTo.Join.Field
import PointsTo.Proofs.Analysis.Joins

/-!
# Joins answer each pair once

Both kinds of join keep two tables and a rule for which entries of the two make an answer. An entry
that is news is compared with the other table as it is then, so an answer is given when the second
of its entries comes in. What has been answered so far is therefore a rearrangement of all answers that
the two tables make (`matchesOf`): one record keeps this (`FieldJoin.perm_record`,
`CallJoin.perm_record`), hence so does a history (`perm_answerAll`). No entry is listed twice and no
answer comes from two pairs of entries (`Separates`), so each is given once, and the order of the
records makes no difference.
-/

namespace PointsTo

/-! ## Matches of two tables -/

section Matches

variable {α β γ : Type} {pair? : α → β → Option γ} {as : List α} {bs : List β} {c : γ}

/-- The answers that the entries of two tables make with each other. -/
def matchesOf (pair? : α → β → Option γ) (as : List α) (bs : List β) : List γ :=
  as.flatMap fun a => bs.filterMap (pair? a)

theorem mem_matchesOf : c ∈ matchesOf pair? as bs ↔ ∃ a ∈ as, ∃ b ∈ bs, pair? a b = some c := by
  simp [matchesOf]

theorem matchesOf_concat_left (pair? : α → β → Option γ) (as : List α) (bs : List β) (a : α) :
    matchesOf pair? (as ++ [a]) bs = matchesOf pair? as bs ++ bs.filterMap (pair? a) := by
  simp [matchesOf]

theorem perm_matchesOf_concat_right (pair? : α → β → Option γ) (as : List α) (bs : List β) (b : β) :
    (matchesOf pair? as (bs ++ [b])).Perm (matchesOf pair? as bs ++ as.filterMap (pair? · b)) := by
  have each : as.filterMap (pair? · b) = as.flatMap fun a => [b].filterMap (pair? a) := by
    rw [List.filterMap_eq_flatMap_toList]
    refine List.flatMap_congr fun a _ => ?_
    cases h : pair? a b <;> simp [h]
  simp only [matchesOf, List.filterMap_append, each]
  exact (List.flatMap_append_perm as _ _).symm

/-- An answer tells from which entries it comes. -/
def Separates (pair? : α → β → Option γ) : Prop :=
  ∀ {a a' b b' c}, pair? a b = some c → pair? a' b' = some c → a = a' ∧ b = b'

theorem nodup_matchesOf (separates : Separates pair?) (ha : as.Nodup) (hb : bs.Nodup) :
    (matchesOf pair? as bs).Nodup := by
  refine List.nodup_flatMap.2 ⟨fun a _ => hb.filterMap fun b b' c h h' => (separates h h').2, ?_⟩
  refine ha.imp fun {a a'} hne c hc hc' => hne ?_
  obtain ⟨b, -, h⟩ := List.mem_filterMap.1 hc
  obtain ⟨b', -, h'⟩ := List.mem_filterMap.1 hc'
  exact (separates h h').1

end Matches

/-! ## Histories -/

section Histories

variable {σ ρ γ : Type} (step : σ → ρ → List γ × σ)

/-- All answers to a list of records, one after the other. -/
def answerAll (s : σ) : List ρ → List γ × σ
  | [] => ([], s)
  | r :: rs =>
    let (now, s) := step s r
    let (later, s) := answerAll s rs
    (now ++ later, s)

variable {step} {view : σ → List γ}

/-- If every record answers what it adds to a view of the state, then so does every history. -/
theorem perm_answerAll (each : ∀ s r, (view (step s r).2).Perm (view s ++ (step s r).1)) (s : σ)
    (rs : List ρ) : (view (answerAll step s rs).2).Perm (view s ++ (answerAll step s rs).1) := by
  induction rs generalizing s with
  | nil => simp [answerAll]
  | cons r rs ih =>
    calc view (answerAll step s (r :: rs)).2
        |>.Perm (view (step s r).2 ++ (answerAll step (step s r).2 rs).1) := ih _
      _ |>.Perm (view s ++ (step s r).1 ++ (answerAll step (step s r).2 rs).1) :=
        (each s r).append_right _
      _ = view s ++ (answerAll step s (r :: rs)).1 := List.append_assoc ..

/-- What one record brings about is so after a history if it was so before or the record was made. -/
theorem mem_answerAll {P : σ → Prop} {r : ρ} (each : ∀ s r', P (step s r').2 ↔ P s ∨ r' = r) (s : σ)
    (rs : List ρ) : P (answerAll step s rs).2 ↔ P s ∨ r ∈ rs := by
  induction rs generalizing s with
  | nil => simp [answerAll]
  | cons r' rs ih =>
    rw [List.mem_cons, ← or_assoc, eq_comm (a := r), ← each]
    exact ih _

end Histories

/-! ## Field accesses -/

namespace FieldJoin

/-- What may be recorded at a field access. -/
inductive Record where
  | base (query : Query)
  | flow (query : Query)
  /-- The import of an alias of the base into a flow -/
  | imported (flow : Query) (var : Var)

/-- Makes a record, and answers the pairs that execute because of it. Imports execute nothing. -/
def record (x : FieldJoin) : Record → List (Query × Query) × FieldJoin
  | .base query => x.addBase query
  | .flow query => x.addFlow query
  | .imported flow var => ([], (x.addAlias flow var).2)

/-- The pair of a base and a flow, if it executes. -/
def pair? (x : FieldJoin) (base flow : Query) : Option (Query × Query) :=
  if x.executes flow then some (base, flow) else none

/-- All pairs of what is recorded that execute. -/
def pairs (x : FieldJoin) : List (Query × Query) := matchesOf x.pair? x.bases.toList x.flows.toList

variable {x : FieldJoin} {base flow q : Query} {pair : Query × Query}

theorem pair?_eq_some_iff : x.pair? base flow = some pair ↔
    x.executes flow ∧ pair = (base, flow) := by
  unfold pair?
  split
  · next h => simp [h, eq_comm]
  · next h => simp [h]

theorem separates_pair? : Separates x.pair? := by
  intro base base' flow flow' pair h h'
  obtain ⟨-, rfl⟩ := pair?_eq_some_iff.1 h
  exact Prod.mk.inj (pair?_eq_some_iff.1 h').2

theorem mem_pairs : (base, flow) ∈ x.pairs ↔ base ∈ x.bases ∧ flow ∈ x.flows ∧ x.executes flow := by
  simp only [pairs, mem_matchesOf, pair?_eq_some_iff, Prod.mk.injEq, OrderedSet.mem_toList]
  constructor
  · rintro ⟨_, hb, _, hf, executes, rfl, rfl⟩
    exact ⟨hb, hf, executes⟩
  · rintro ⟨hb, hf, executes⟩
    exact ⟨base, hb, flow, hf, executes, rfl, rfl⟩

theorem nodup_pairs (x : FieldJoin) : x.pairs.Nodup :=
  nodup_matchesOf separates_pair? x.bases.nodup_toList x.flows.nodup_toList

theorem filterMap_pair?_left (qs : List Query) :
    qs.filterMap (x.pair? · flow) = if x.executes flow then qs.map (·, flow) else [] := by
  split
  · next h => simp [pair?, h]
  · next h => simp [pair?, h]

theorem filterMap_pair?_right (qs : List Query) :
    qs.filterMap (x.pair? base) = (qs.filter x.executes).map (base, ·) := by
  induction qs with
  | nil => rfl
  | cons q qs ih => by_cases h : x.executes q <;> simp [pair?, h, ← ih]

theorem perm_addBase (x : FieldJoin) (q : Query) :
    (x.addBase q).2.pairs.Perm (x.pairs ++ (x.addBase q).1) := by
  unfold addBase
  split
  · simp
  · next bases h =>
    have list := OrderedSet.toList_of_insertNew?_eq_some h
    have added := matchesOf_concat_left x.pair? x.bases.toList x.flows.toList q
    rw [← list, filterMap_pair?_right] at added
    exact .of_eq added

theorem perm_addFlow (x : FieldJoin) (q : Query) :
    (x.addFlow q).2.pairs.Perm (x.pairs ++ (x.addFlow q).1) := by
  unfold addFlow
  split
  · simp
  · next flows h =>
    have list := OrderedSet.toList_of_insertNew?_eq_some h
    have added := perm_matchesOf_concat_right x.pair? x.bases.toList x.flows.toList q
    rw [← list, filterMap_pair?_left] at added
    exact added

/-- Imports leave the tables as they are. -/
theorem addAlias_snd (x : FieldJoin) (flow : Query) (v : Var) :
    ∃ aliases, (x.addAlias flow v).2 = { x with aliases } := by
  unfold addAlias
  split
  · exact ⟨_, rfl⟩
  · exact ⟨_, rfl⟩

/-- A record answers the pairs that it completes. -/
theorem perm_record (x : FieldJoin) (r : Record) :
    (x.record r).2.pairs.Perm (x.pairs ++ (x.record r).1) := by
  cases r with
  | base q => exact x.perm_addBase q
  | flow q => exact x.perm_addFlow q
  | imported flow var =>
    obtain ⟨aliases, e⟩ := x.addAlias_snd flow var
    rw [record, e]
    exact .of_eq (List.append_nil _).symm

/-! ### What is recorded -/

theorem access_record (x : FieldJoin) (r : Record) : (x.record r).2.access = x.access := by
  cases r with
  | base q => exact (x.addBase_answers q).1.access
  | flow q => exact (x.addFlow_answers q).1.access
  | imported flow var =>
    obtain ⟨aliases, e⟩ := x.addAlias_snd flow var
    rw [record, e]

theorem mem_bases_record (x : FieldJoin) (r : Record) :
    q ∈ (x.record r).2.bases ↔ q ∈ x.bases ∨ r = .base q := by
  cases r with
  | base b =>
    obtain ⟨answers, new, only, -⟩ := x.addBase_answers b
    rw [Record.base.injEq, eq_comm (a := b)]
    exact ⟨only q, (·.elim (answers.base q) (· ▸ new))⟩
  | flow f => simp [record, (x.addFlow_answers f).2.2.2]
  | imported flow var =>
    obtain ⟨aliases, e⟩ := x.addAlias_snd flow var
    simp [record, e]

theorem mem_flows_record (x : FieldJoin) (r : Record) :
    q ∈ (x.record r).2.flows ↔ q ∈ x.flows ∨ r = .flow q := by
  cases r with
  | base b => simp [record, (x.addBase_answers b).2.2.2]
  | flow f =>
    obtain ⟨answers, new, only, -⟩ := x.addFlow_answers f
    rw [Record.flow.injEq, eq_comm (a := f)]
    exact ⟨only q, (·.elim (answers.flow q) (· ▸ new))⟩
  | imported flow var =>
    obtain ⟨aliases, e⟩ := x.addAlias_snd flow var
    simp [record, e]

/-! ### Histories of an access -/

/-- Makes records one after the other, and answers all pairs that execute because of them. -/
def recordAll (x : FieldJoin) (records : List Record) : List (Query × Query) × FieldJoin :=
  answerAll record x records

variable {access : FieldAccess} {records : List Record}

theorem access_recordAll (x : FieldJoin) (records : List Record) :
    (x.recordAll records).2.access = x.access := by
  induction records generalizing x with
  | nil => rfl
  | cons r records ih => exact (ih _).trans (x.access_record r)

theorem mem_bases_recordAll :
    q ∈ ((create access).recordAll records).2.bases ↔ .base q ∈ records := by
  refine (mem_answerAll (P := fun x : FieldJoin => q ∈ x.bases) mem_bases_record _ records).trans ?_
  simp [create]

theorem mem_flows_recordAll :
    q ∈ ((create access).recordAll records).2.flows ↔ .flow q ∈ records := by
  refine (mem_answerAll (P := fun x : FieldJoin => q ∈ x.flows) mem_flows_record _ records).trans ?_
  simp [create]

/-- So far the pairs have been answered, in some order. -/
theorem perm_recordAll (access : FieldAccess) (records : List Record) :
    ((create access).recordAll records).2.pairs.Perm ((create access).recordAll records).1 :=
  perm_answerAll perm_record (create access) records

theorem mem_recordAll : (base, flow) ∈ ((create access).recordAll records).1 ↔
    .base base ∈ records ∧ .flow flow ∈ records ∧ (create access).executes flow := by
  have executes : ((create access).recordAll records).2.executes flow =
      (create access).executes flow := by
    rw [FieldJoin.executes, access_recordAll, FieldJoin.executes]
  rw [← (perm_recordAll access records).mem_iff, mem_pairs, mem_bases_recordAll,
    mem_flows_recordAll, executes]

theorem nodup_recordAll (access : FieldAccess) (records : List Record) :
    ((create access).recordAll records).1.Nodup :=
  (perm_recordAll access records).nodup_iff.1 (nodup_pairs _)

/-- However bases, flows and imports of aliases are recorded at an access, in whatever order and however
often: each recorded base is answered once with each recorded flow that executes there, and nothing
else is answered. So the pairs that are answered do not depend on the order of the records. -/
theorem recordAll_answers_once (access : FieldAccess) (records : List Record) :
    let answers := ((create access).recordAll records).1
    let x := ((create access).recordAll records).2
    (∀ base, base ∈ x.bases ↔ .base base ∈ records) ∧
      (∀ flow, flow ∈ x.flows ↔ .flow flow ∈ records) ∧
      answers.Nodup ∧
      (∀ base flow, (base, flow) ∈ answers ↔
        base ∈ x.bases ∧ flow ∈ x.flows ∧ x.executes flow) ∧
      ∀ records', records'.Perm records → ((create access).recordAll records').1.Perm answers := by
  refine ⟨fun _ => mem_bases_recordAll, fun _ => mem_flows_recordAll, nodup_recordAll access records,
    fun base flow => ?_, fun records' same => ?_⟩
  · rw [← mem_pairs, (perm_recordAll access records).mem_iff]
  · refine (List.perm_ext_iff_of_nodup (nodup_recordAll access records')
      (nodup_recordAll access records)).2 ?_
    rintro ⟨base, flow⟩
    rw [mem_recordAll, mem_recordAll, same.mem_iff, same.mem_iff]

end FieldJoin

/-! ## Call sites -/

namespace CallJoin

/-- What may be recorded at a call site. -/
inductive Record where
  | bypass (query : Query) (var : Var)
  | flow (source : FlowSource) (base : Query)

/-- Makes a record, and answers what it activates. -/
def record (x : CallJoin) : Record → List Activation × CallJoin
  | .bypass query var => x.addBypass query var
  | .flow source base => x.addFlow source base

/-- What comes back and what goes past activate each other if they belong to one query, unless the
flow is of that query itself. -/
def pair? : FlowSource × Query → Query × Var → Option Activation
  | (source, base), (query, var) => if query = base then activation? source query var else none

/-- Everything that what is recorded activates. -/
def activations (x : CallJoin) : List Activation :=
  matchesOf pair? x.flows.toList x.bypasses.toList

variable {x : CallJoin} {source : FlowSource} {base query : Query} {v : Var} {c : Activation}

theorem pair?_eq_some_iff : pair? (source, base) (query, v) = some c ↔
    query = base ∧ source.query ≠ query ∧ c = ⟨source, query, v⟩ := by
  show (if query = base then activation? source query v else none) = some c ↔ _
  split
  · next h => simp [h, activation?_eq_some_iff]
  · next h => simp [h]

theorem separates_pair? : Separates pair? := by
  rintro ⟨source, base⟩ ⟨source', base'⟩ ⟨query, v⟩ ⟨query', v'⟩ c h h'
  obtain ⟨rfl, -, rfl⟩ := pair?_eq_some_iff.1 h
  obtain ⟨rfl, -, e⟩ := pair?_eq_some_iff.1 h'
  obtain ⟨rfl, rfl, rfl⟩ := Activation.mk.inj e
  exact ⟨rfl, rfl⟩

theorem mem_activations : ⟨source, query, v⟩ ∈ x.activations ↔
    (source, query) ∈ x.flows ∧ (query, v) ∈ x.bypasses ∧ source.query ≠ query := by
  simp only [activations, mem_matchesOf, OrderedSet.mem_toList, Prod.exists, pair?_eq_some_iff]
  constructor
  · rintro ⟨_, _, hf, _, _, hb, rfl, other, e⟩
    obtain ⟨rfl, rfl, rfl⟩ := Activation.mk.inj e
    exact ⟨hf, hb, other⟩
  · rintro ⟨hf, hb, other⟩
    exact ⟨source, query, hf, query, v, hb, rfl, other, rfl⟩

theorem nodup_activations (x : CallJoin) : x.activations.Nodup :=
  nodup_matchesOf separates_pair? x.flows.nodup_toList x.bypasses.nodup_toList

theorem perm_addBypass (x : CallJoin) (query : Query) (v : Var) :
    (x.addBypass query v).2.activations.Perm (x.activations ++ (x.addBypass query v).1) := by
  unfold addBypass
  split
  · simp
  · next bypasses h =>
    have list := OrderedSet.toList_of_insertNew?_eq_some h
    have added := perm_matchesOf_concat_right pair? x.flows.toList x.bypasses.toList (query, v)
    rw [← list] at added
    simp only [List.filterMap_filter, decide_eq_true_eq, eq_comm (b := query)]
    exact added

theorem perm_addFlow (x : CallJoin) (source : FlowSource) (base : Query) :
    (x.addFlow source base).2.activations.Perm (x.activations ++ (x.addFlow source base).1) := by
  unfold addFlow
  split
  · simp
  · next flows h =>
    have list := OrderedSet.toList_of_insertNew?_eq_some h
    have added := matchesOf_concat_left pair? x.flows.toList x.bypasses.toList (source, base)
    rw [← list] at added
    simp only [List.filterMap_filter, decide_eq_true_eq]
    exact .of_eq added

/-- A record answers the activations that it completes. -/
theorem perm_record (x : CallJoin) (r : Record) :
    (x.record r).2.activations.Perm (x.activations ++ (x.record r).1) := by
  cases r with
  | bypass query v => exact x.perm_addBypass query v
  | flow source base => exact x.perm_addFlow source base

/-! ### What is recorded -/

theorem mem_bypasses_record (x : CallJoin) (r : Record) :
    (query, v) ∈ (x.record r).2.bypasses ↔ (query, v) ∈ x.bypasses ∨ r = .bypass query v := by
  cases r with
  | bypass query' v' =>
    obtain ⟨answers, new, only, -⟩ := x.addBypass_answers query' v'
    rw [Record.bypass.injEq, ← Prod.mk.injEq, eq_comm (b := (query, v))]
    exact ⟨only _, (·.elim (answers.bypassed _) (· ▸ new))⟩
  | flow source base => simp [record, (x.addFlow_answers source base).2.2.2]

theorem mem_flows_record (x : CallJoin) (r : Record) :
    (source, base) ∈ (x.record r).2.flows ↔ (source, base) ∈ x.flows ∨ r = .flow source base := by
  cases r with
  | bypass query v => simp [record, (x.addBypass_answers query v).2.2.2]
  | flow source' base' =>
    obtain ⟨answers, new, only, -⟩ := x.addFlow_answers source' base'
    rw [Record.flow.injEq, ← Prod.mk.injEq, eq_comm (b := (source, base))]
    exact ⟨only _, (·.elim (answers.returned _) (· ▸ new))⟩

/-! ### Histories of a call -/

/-- Makes records one after the other, and answers everything that they activate. -/
def recordAll (x : CallJoin) (records : List Record) : List Activation × CallJoin :=
  answerAll record x records

variable {site returnSite : Point} {records : List Record}

theorem mem_bypasses_recordAll :
    (query, v) ∈ ((create site returnSite).recordAll records).2.bypasses ↔
      .bypass query v ∈ records := by
  refine (mem_answerAll (P := fun x : CallJoin => (query, v) ∈ x.bypasses) mem_bypasses_record _
    records).trans ?_
  simp [create]

theorem mem_flows_recordAll :
    (source, base) ∈ ((create site returnSite).recordAll records).2.flows ↔
      .flow source base ∈ records := by
  refine (mem_answerAll (P := fun x : CallJoin => (source, base) ∈ x.flows) mem_flows_record _
    records).trans ?_
  simp [create]

/-- So far the activations have been answered, in some order. -/
theorem perm_recordAll (site returnSite : Point) (records : List Record) :
    ((create site returnSite).recordAll records).2.activations.Perm
      ((create site returnSite).recordAll records).1 :=
  perm_answerAll perm_record (create site returnSite) records

theorem mem_recordAll : ⟨source, query, v⟩ ∈ ((create site returnSite).recordAll records).1 ↔
    .flow source query ∈ records ∧ .bypass query v ∈ records ∧ source.query ≠ query := by
  rw [← (perm_recordAll site returnSite records).mem_iff, mem_activations, mem_flows_recordAll,
    mem_bypasses_recordAll]

theorem nodup_recordAll (site returnSite : Point) (records : List Record) :
    ((create site returnSite).recordAll records).1.Nodup :=
  (perm_recordAll site returnSite records).nodup_iff.1 (nodup_activations _)

/-- However what comes back from a call and what goes past it are recorded, in whatever order and
however often: each recorded flow that belongs to a query is activated once against each variable that
is recorded to go past for this query, unless the flow is of the query itself, and nothing else is
activated. So what is activated does not depend on the order of the records. -/
theorem recordAll_activates_once (site returnSite : Point) (records : List Record) :
    let answers := ((create site returnSite).recordAll records).1
    let x := ((create site returnSite).recordAll records).2
    (∀ source base, (source, base) ∈ x.flows ↔ .flow source base ∈ records) ∧
      (∀ query v, (query, v) ∈ x.bypasses ↔ .bypass query v ∈ records) ∧
      answers.Nodup ∧
      (∀ source query v, ⟨source, query, v⟩ ∈ answers ↔
        (source, query) ∈ x.flows ∧ (query, v) ∈ x.bypasses ∧ source.query ≠ query) ∧
      ∀ records', records'.Perm records →
        ((create site returnSite).recordAll records').1.Perm answers := by
  refine ⟨fun _ _ => mem_flows_recordAll, fun _ _ => mem_bypasses_recordAll,
    nodup_recordAll site returnSite records, fun source query v => ?_, fun records' same => ?_⟩
  · rw [← mem_activations, (perm_recordAll site returnSite records).mem_iff]
  · refine (List.perm_ext_iff_of_nodup (nodup_recordAll site returnSite records')
      (nodup_recordAll site returnSite records)).2 ?_
    rintro ⟨source, query, v⟩
    rw [mem_recordAll, mem_recordAll, same.mem_iff, same.mem_iff]

end CallJoin

end PointsTo
