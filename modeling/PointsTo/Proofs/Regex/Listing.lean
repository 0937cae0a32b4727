import Mathlib.Data.List.AList
import PointsTo.Proofs.Regex.PathExpression

/-!
# The expression does not depend on the order of a hash table

The words between pairs of states may also be kept in a hash table (`PairTable`), with entries for
the pairs that have any. To eliminate a state, the table is asked for the entries that lead into the
state and for those that lead out of it, and answers in an order of its own, which may differ from one
time to the next (`Listing`). In one round every pair of states is updated at most once, and from the
entries as they were listed, so the round has the outcome `PathTable.get_eliminate` states, with no
order in it (`Listing.get_eliminate`). The expression that remains is that of `pathExpression`, as a
tree, for all listings (`pathExpressionBy_eq_pathExpression`).
-/

namespace PointsTo

/-- A table of the words that lead from one state to another. A pair of states has at most one
entry. -/
abbrev PairTable (α : Type) := AList fun _ : Nat × Nat => Regex α

/-- An entry of a table: two states and the words that lead from the one to the other. -/
abbrev PairEntry (α : Type) := Σ _ : Nat × Nat, Regex α

namespace PairTable

variable {α : Type} {t : PairTable α} {pair pair' : Nat × Nat} {r : Regex α}

/-- The words between two states, none if the table has no entry for them. -/
def get (t : PairTable α) (pair : Nat × Nat) : Regex α := (t.lookup pair).getD .empty

/-- Keeps the entries of the pairs that satisfy a test. -/
def retain (keep : Nat × Nat → Bool) (t : PairTable α) : PairTable α :=
  ⟨t.entries.filter fun e => keep e.1, t.nodupKeys.sublist List.filter_sublist⟩

/-- Takes out the entry of a pair, and puts it back with the words of `r` added. -/
def unite [BEq α] (t : PairTable α) (pair : Nat × Nat) (r : Regex α) : PairTable α :=
  (t.erase pair).insert pair ((t.get pair).union r)

@[simp] theorem get_empty : (∅ : PairTable α).get pair = .empty := rfl

theorem get_erase : PairTable.get (t.erase pair) pair' =
    if pair' = pair then .empty else t.get pair' := by
  unfold get
  split
  · next h => rw [h, AList.lookup_erase, Option.getD_none]
  · next h => rw [AList.lookup_erase_ne h]

theorem lookup_retain {keep : Nat × Nat → Bool} :
    (t.retain keep).lookup pair = if keep pair then t.lookup pair else none := by
  refine Option.ext fun r => ?_
  rw [← Option.mem_def, AList.mem_lookup_iff, retain, List.mem_filter, ← AList.mem_lookup_iff]
  cases keep pair <;> simp

theorem get_retain {keep : Nat × Nat → Bool} :
    (t.retain keep).get pair = if keep pair then t.get pair else .empty := by
  rw [get, lookup_retain]
  split
  · rfl
  · rfl

theorem get_unite [BEq α] :
    (t.unite pair r).get pair' = if pair' = pair then (t.get pair).union r else t.get pair' := by
  rw [get, unite]
  split
  · next h => rw [h, AList.lookup_insert, Option.getD_some]
  · next h => rw [AList.lookup_insert_ne h, AList.lookup_erase_ne h, get]

/-! ## The entries in another order -/

/-- The table whose entries are those of `t` in the order of `entries`. -/
def listed (t : PairTable α) (entries : List (PairEntry α)) (perm : entries.Perm t.entries) :
    PairTable α :=
  ⟨entries, (List.perm_nodupKeys perm).2 t.nodupKeys⟩

@[simp] theorem get_listed {entries : List (PairEntry α)} {perm : entries.Perm t.entries} :
    (t.listed entries perm).get pair = t.get pair := by
  have same : (t.listed entries perm).lookup pair = t.lookup pair := AList.perm_lookup perm
  rw [get, same, get]

@[simp] theorem get_nil {nodup : ([] : List (PairEntry α)).NodupKeys} :
    get ⟨[], nodup⟩ pair = .empty := rfl

theorem get_cons_self {e : PairEntry α} {es : List (PairEntry α)} {nodup : (e :: es).NodupKeys} :
    get ⟨e :: es, nodup⟩ e.1 = e.2 := by
  have found : AList.lookup e.1 ⟨e :: es, nodup⟩ = some e.2 := List.dlookup_cons_eq es e.1 e.2
  rw [get, found, Option.getD_some]

/-- What the first entry is for has no other entry. -/
theorem get_tail {e : PairEntry α} {es : List (PairEntry α)} {nodup : es.NodupKeys}
    (new : e.1 ∉ es.keys) : get ⟨es, nodup⟩ e.1 = .empty := by
  have missing : AList.lookup e.1 ⟨es, nodup⟩ = none := List.dlookup_eq_none.2 new
  rw [get, missing, Option.getD_none]

theorem get_cons_of_ne {e : PairEntry α} {es : List (PairEntry α)} {nodup : (e :: es).NodupKeys}
    (ne : pair ≠ e.1) :
    get ⟨e :: es, nodup⟩ pair = get ⟨es, (List.nodupKeys_cons.1 nodup).2⟩ pair := by
  rw [get, AList.lookup, List.dlookup_cons_ne es e ne, get, AList.lookup]

end PairTable

/-- The orders in which a table lists its entries when state `k` is eliminated: first for the states
before `k`, then for those behind it. -/
structure Listing (α : Type) where
  before : Nat → PairTable α → List (PairEntry α)
  behind : Nat → PairTable α → List (PairEntry α)
  before_perm (k : Nat) (t : PairTable α) : (before k t).Perm t.entries
  behind_perm (k : Nat) (t : PairTable α) : (behind k t).Perm t.entries

namespace Listing

open PairTable

variable {α : Type} {listing : Listing α} {t before behind : PairTable α} {i i' j k : Nat}
  {r around : Regex α}

/-- The entries that lead into state `k` from another one, as they are listed. -/
def into (listing : Listing α) (t : PairTable α) (k : Nat) : PairTable α :=
  (t.listed (listing.before k t) (listing.before_perm k t)).retain fun pair =>
    pair.2 = k && pair.1 ≠ k

/-- The entries that lead out of state `k` to another one, as they are listed. -/
def outOf (listing : Listing α) (t : PairTable α) (k : Nat) : PairTable α :=
  (t.listed (listing.behind k t) (listing.behind_perm k t)).retain fun pair =>
    pair.1 = k && pair.2 ≠ k

theorem get_into :
    (listing.into t k).get (i, j) = if j = k ∧ i ≠ k then t.get (i, j) else .empty := by
  simp [into, get_retain]

theorem get_outOf :
    (listing.outOf t k).get (i, j) = if i = k ∧ j ≠ k then t.get (i, j) else .empty := by
  simp [outOf, get_retain]

theorem target_of_into {e : PairEntry α} (h : e ∈ (listing.into t k).entries) : e.1.2 = k := by
  have test := (List.mem_filter.1 h).2
  simp only [Bool.and_eq_true, decide_eq_true_eq] at test
  exact test.1

theorem source_of_outOf {e : PairEntry α} (h : e ∈ (listing.outOf t k).entries) : e.1.1 = k := by
  have test := (List.mem_filter.1 h).2
  simp only [Bool.and_eq_true, decide_eq_true_eq] at test
  exact test.1

variable [DecidableEq α]

/-- Adds the words of `r`, which lead from state `i`, continued along each of the entries
`behind`. -/
def extend (i : Nat) (r : Regex α) (behind t : PairTable α) : PairTable α :=
  behind.entries.foldl (fun t e => t.unite (i, e.1.2) (r.concat e.2)) t

/-- Adds the words that lead along each of the entries `before`, then around, then along each of the
entries `behind`. -/
def bypass (before : PairTable α) (around : Regex α) (behind t : PairTable α) : PairTable α :=
  before.entries.foldl (fun t e => extend e.1.1 (e.2.concat around) behind t) t

/-- Takes out state `k`: walks through it become direct, and nothing leads to or from it. -/
def eliminate (listing : Listing α) (t : PairTable α) (k : Nat) : PairTable α :=
  let around := (t.get (k, k)).star
  let rest : PairTable α := t.erase (k, k)
  (bypass (listing.into rest k) around (listing.outOf rest k) rest).retain fun pair =>
    pair.1 ≠ k && pair.2 ≠ k

/-! ## One round -/

/-- Of the pairs that begin with `i`, each is updated once, with the entry behind `k` for it. -/
theorem get_extend (source : ∀ e ∈ behind.entries, e.1.1 = k) :
    (extend i r behind t).get (i', j) =
      if i' = i then (t.get (i', j)).union (r.concat (behind.get (k, j))) else t.get (i', j) := by
  obtain ⟨es, nodup⟩ := behind
  induction es generalizing t with
  | nil => simp [extend]
  | cons e es ih =>
    obtain ⟨new, nodup'⟩ := List.nodupKeys_cons.1 nodup
    obtain rfl : e.1.1 = k := source e List.mem_cons_self
    have tail := ih (t := t.unite (i, e.1.2) (r.concat e.2)) nodup' fun e' he' =>
      source e' (List.mem_cons_of_mem _ he')
    refine tail.trans ?_
    rw [get_unite]
    by_cases hi : i' = i
    · rw [if_pos hi, if_pos hi]
      -- The first entry is the one for `j`, and then no later one is, or it is passed over.
      by_cases hj : j = e.1.2
      · subst hi hj
        rw [if_pos rfl, get_tail new, get_cons_self, Regex.concat_empty_right,
          Regex.union_empty_right]
      · have ne : (e.1.1, j) ≠ e.1 := fun h => hj (congrArg Prod.snd h)
        rw [if_neg fun h => hj (congrArg Prod.snd h), get_cons_of_ne ne]
    · rw [if_neg hi, if_neg hi, if_neg fun h => hi (congrArg Prod.fst h)]

/-- Every pair is updated once, with the entries before and behind `k` for it. The entries are those of
the beginning: no update changes them. -/
theorem get_bypass (target : ∀ e ∈ before.entries, e.1.2 = k)
    (source : ∀ e ∈ behind.entries, e.1.1 = k) :
    (bypass before around behind t).get (i, j) =
      (t.get (i, j)).union (((before.get (i, k)).concat around).concat (behind.get (k, j))) := by
  obtain ⟨es, nodup⟩ := before
  induction es generalizing t with
  | nil => simp [bypass]
  | cons e es ih =>
    obtain ⟨new, nodup'⟩ := List.nodupKeys_cons.1 nodup
    have hk : e.1.2 = k := target e List.mem_cons_self
    have tail := ih (t := extend e.1.1 (e.2.concat around) behind t) nodup' fun e' he' =>
      target e' (List.mem_cons_of_mem _ he')
    refine tail.trans ?_
    rw [get_extend source]
    by_cases hi : i = e.1.1
    · have same : (i, k) = e.1 := by rw [hi, ← hk]
      rw [if_pos hi, same, get_tail new, get_cons_self, Regex.concat_empty_left,
        Regex.concat_empty_left, Regex.union_empty_right]
    · have ne : (i, k) ≠ e.1 := fun h => hi (congrArg Prod.fst h)
      rw [if_neg hi, get_cons_of_ne ne]

/-- An entry after the elimination of `k`, in whatever order the table was listed, has the words it
had before, and those that lead into `k`, any number of times around it, and out of it. -/
theorem get_eliminate :
    (listing.eliminate t k).get (i, j) =
      if i = k ∨ j = k then .empty
      else (t.get (i, j)).union (((t.get (i, k)).concat (t.get (k, k)).star).concat (t.get (k, j))) := by
  rw [eliminate, get_retain, get_bypass (fun _ => target_of_into) (fun _ => source_of_outOf),
    get_into, get_outOf]
  by_cases hi : i = k
  · simp [hi]
  by_cases hj : j = k
  · simp [hj]
  simp [hi, hj, get_erase]

end Listing

/-! ## The whole expression -/

/-- The table of pairs has the same words between any two states as the table of rows. -/
def PairTable.Agrees {α : Type} (t : PairTable α) (rows : PathTable α) : Prop :=
  ∀ i j, t.get (i, j) = rows.get i j

/-- The words that lead from state 0 to state `sink` once no other states are left. -/
def PairTable.twoStateExpression {α : Type} [DecidableEq α] (t : PairTable α) (sink : Nat) :
    Regex α :=
  if sink = 0 then (t.get (0, 0)).star
  else
    let a := t.get (0, 0)
    let b := t.get (0, sink)
    let c := t.get (sink, 0)
    let d := (t.get (sink, sink)).star
    ((a.union ((b.concat d).concat c)).star.concat b).concat d

section

variable {σ α : Type} [Ord σ] [Std.TransOrd σ] [Std.LawfulEqOrd σ] [DecidableEq α]
  {states : OrderedSet σ} {t : PairTable α} {rows : PathTable α} {n k sink : Nat}

def pairTable (states : OrderedSet σ) (edges : List (Edge σ α)) : PairTable α :=
  edges.foldl
    (fun t e =>
      match states.indexOf? e.source, states.indexOf? e.target with
      | some i, some j => t.unite (i, j) e.expression
      | _, _ => t)
    ∅

/-- The words read along the walks from `source` to `target`, computed on a table that lists its
entries in the orders of `listing`. -/
def pathExpressionBy (listing : Listing α) (edges : List (Edge σ α)) (source target : σ) :
    Regex α :=
  let states := graphStates source target edges
  let sink := (states.indexOf? target).getD 0
  let others := (List.range states.size).filter fun k => k ≠ 0 && k ≠ sink
  (others.foldl listing.eliminate (pairTable states edges)).twoStateExpression sink

namespace PairTable

omit [Std.TransOrd σ] [Std.LawfulEqOrd σ] in
theorem pairTable_append (edges : List (Edge σ α)) (e : Edge σ α) :
    pairTable states (edges ++ [e]) =
      match states.indexOf? e.source, states.indexOf? e.target with
      | some i, some j => (pairTable states edges).unite (i, j) e.expression
      | _, _ => pairTable states edges := by
  rw [pairTable, List.foldl_append]
  rfl

omit [Std.TransOrd σ] [Std.LawfulEqOrd σ] in
/-- Both tables of a graph have the same words. -/
theorem agrees_pairTable (edges : List (Edge σ α)) :
    (pairTable states edges).Agrees (edgeTable states edges) := by
  induction edges using List.reverseRecOn with
  | nil =>
    intro i j
    simp [pairTable, edgeTable, PathTable.get_blank]
  | append_singleton edges e ih =>
    rw [pairTable_append, edgeTable_append]
    rcases hi : states.indexOf? e.source with _ | i
    · exact ih
    rcases hj : states.indexOf? e.target with _ | j
    · exact ih
    intro i' j'
    have square := (edgeTable_spec states edges).1
    rw [square.get_add (OrderedSet.lt_size_of_indexOf? hi) (OrderedSet.lt_size_of_indexOf? hj), get_unite, ih, ih]
    simp only [Prod.mk.injEq, eq_comm]

/-- The tables still have the same words when a state is taken out of both. -/
theorem Agrees.eliminate (h : t.Agrees rows) (square : rows.Square n) (listing : Listing α) :
    (listing.eliminate t k).Agrees (rows.eliminate k) := by
  intro i j
  rw [Listing.get_eliminate, square.get_eliminate, h, h, h, h]

theorem Agrees.eliminateAll (h : t.Agrees rows) (square : rows.Square n) (listing : Listing α)
    (ks : List Nat) : (ks.foldl listing.eliminate t).Agrees (ks.foldl .eliminate rows) := by
  induction ks generalizing t rows with
  | nil => exact h
  | cons k ks ih => exact ih (h.eliminate square listing) (square.eliminate k)

theorem Agrees.twoStateExpression (h : t.Agrees rows) :
    t.twoStateExpression sink = PointsTo.twoStateExpression rows sink := by
  simp only [PairTable.twoStateExpression, PointsTo.twoStateExpression, h _ _]

end PairTable

/-- In whatever orders the table lists its entries, the expression is the same tree. -/
theorem pathExpressionBy_eq_pathExpression (listing : Listing α) (edges : List (Edge σ α))
    (source target : σ) :
    pathExpressionBy listing edges source target = pathExpression edges source target := by
  have square := (edgeTable_spec (graphStates source target edges) edges).1
  exact ((PairTable.agrees_pairTable edges).eliminateAll square listing _).twoStateExpression

end

/-- The table lists its entries from the first to the last for the states before, and from the last to
the first for those behind. -/
def backAndForth : Listing Nat where
  before _ t := t.entries
  behind _ t := t.entries.reverse
  before_perm _ t := .refl t.entries
  behind_perm _ t := t.entries.reverse_perm

/-- Two edges side by side lead into a state with a loop, and two ways lead on from it: the text is that
of `pathExpression`. -/
theorem text_pathExpressionBy_backAndForth :
    (pathExpressionBy backAndForth
      [⟨0, some 1, 1⟩, ⟨0, some 2, 1⟩, ⟨1, some 3, 1⟩, ⟨1, some 4, 2⟩, ⟨1, some 5, 0⟩] 0 2).text
        toString =
      "([((\x7b1 U 2\x7d . [3]* ) . 5)]*  . ((\x7b1 U 2\x7d . [3]* ) . 4))" := by
  rw [pathExpressionBy_eq_pathExpression]
  decide +kernel

end PointsTo
