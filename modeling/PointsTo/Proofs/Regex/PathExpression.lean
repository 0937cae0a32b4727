import PointsTo.Proofs.Regex.Language
import PointsTo.Proofs.Regex.Walks
import PointsTo.Regex.PathExpression

/-!
# The expression between two states has the words of the walks

A table of expressions stands for a table of languages (`PathTable.table`). Filled from the edges,
its walks are the walks of the graph (`mem_walks_edgeTable`). Eliminating a state of the expressions
eliminates it in the languages (`table_eliminate`), so the walks between the two ends stay the same
until only they are left, and the closed form of `twoStateExpression` reads them off.
-/

namespace PointsTo

open scoped Computability

/-- A walk along edges that ends in `target`, with the word of its labels. -/
inductive Walk {σ α : Type} (edges : List (Edge σ α)) (target : σ) : σ → List α → Prop
  | nil : Walk edges target target []
  | cons {e w} : e ∈ edges → Walk edges target e.target w →
      Walk edges target e.source (e.label.toList ++ w)

namespace PathTable

variable {α : Type} {t : PathTable α} {n i j k : Nat}

/-- Every state up to `n` has an entry for every state up to `n`. -/
structure Square (t : PathTable α) (n : Nat) : Prop where
  rows : t.rows.size = n
  row : ∀ i < n, (t.rows.getD i #[]).size = n

/-- The languages of the entries. -/
def table (t : PathTable α) : Table α := fun i j => (t.get i j).language

theorem square_blank : (blank n : PathTable α).Square n where
  rows := by simp [blank]
  row i hi := by simp [blank, hi]

theorem get_blank : (blank n : PathTable α).get i j = .empty := by
  by_cases hi : i < n <;> by_cases hj : j < n <;> simp [blank, get, hi, hj]

/-- Nothing leads from or to a state that the table does not have. -/
theorem Square.get_of_le (h : t.Square n) (hk : n ≤ k) : t.get i k = .empty ∧ t.get k i = .empty := by
  have hrow : (t.rows.getD i #[]).size ≤ n := by
    by_cases hi : i < n
    · exact (h.row i hi).le
    · simp [h.rows, hi]
  constructor
  · rw [get, Array.getD_eq_getD_getElem?, Array.getElem?_eq_none (hrow.trans hk)]
    rfl
  · simp [get, h.rows, hk]

theorem Square.isolated (h : t.Square n) (hk : n ≤ k) : t.table.Isolated k := fun i => by
  simp [table, (h.get_of_le hk).1, (h.get_of_le hk).2]

variable [DecidableEq α]

/-! ## Adding an edge -/

omit [DecidableEq α] in
theorem Square.getElem? (h : t.Square n) (hi : i < n) :
    ∃ row, t.rows[i]? = some row ∧ row.size = n := by
  have hs : i < t.rows.size := h.rows ▸ hi
  have hrow := h.row i hi
  rw [Array.getD_eq_getD_getElem?, Array.getElem?_eq_getElem hs] at hrow
  exact ⟨_, Array.getElem?_eq_getElem hs, hrow⟩

theorem rows_add (t : PathTable α) (i j : Nat) (r : Regex α) (i' : Nat) :
    (t.add i j r).rows[i']? =
      if i = i' then t.rows[i']?.map fun row => row.modify j (·.union r) else t.rows[i']? :=
  Array.getElem?_modify

theorem Square.add (h : t.Square n) (i j : Nat) (r : Regex α) : (t.add i j r).Square n where
  rows := by simp [PathTable.add, h.rows]
  row i' hi' := by
    obtain ⟨row, e, hrow⟩ := h.getElem? hi'
    rw [Array.getD_eq_getD_getElem?, rows_add, e]
    split
    · simpa using hrow
    · simpa using hrow

theorem Square.get_add (h : t.Square n) (hi : i < n) (hj : j < n) (r : Regex α) (i' j' : Nat) :
    (t.add i j r).get i' j' = if i = i' ∧ j = j' then (t.get i j).union r else t.get i' j' := by
  obtain ⟨row, e, hrow⟩ := h.getElem? hi
  simp only [get, Array.getD_eq_getD_getElem?, rows_add]
  by_cases hii : i = i'
  · subst hii
    by_cases hjj : j = j'
    · subst hjj
      have hs : j < row.size := hrow ▸ hj
      simp [e, Array.getElem?_modify, Array.getElem?_eq_getElem hs]
    · simp [e, Array.getElem?_modify, hjj]
  · simp [hii]

/-! ## Eliminating a state -/

theorem Square.eliminate (h : t.Square n) (k : Nat) : (t.eliminate k).Square n where
  rows := by simp [PathTable.eliminate, h.rows]
  row i hi := by
    obtain ⟨row, e, hrow⟩ := h.getElem? hi
    simp only [PathTable.eliminate, Array.getD_eq_getD_getElem?, Array.getElem?_mapIdx, e,
      Option.map_some, Option.getD_some]
    split
    · simpa using hrow
    · simpa [bypass] using hrow

/-- The rule of `PathTable.get_eliminate` holds for all positions: nothing leads from or to those that
the table does not have. -/
theorem Square.get_eliminate (h : t.Square n) (k i j : Nat) :
    (t.eliminate k).get i j =
      if i = k ∨ j = k then .empty
      else (t.get i j).union (((t.get i k).concat (t.get k k).star).concat (t.get k j)) := by
  by_cases hi : i < n
  swap
  · have row (j : Nat) : t.get i j = .empty := (h.get_of_le (Nat.le_of_not_lt hi)).2
    simp [row, ((h.eliminate k).get_of_le (Nat.le_of_not_lt hi)).2]
  by_cases hj : j < n
  swap
  · have column (i : Nat) : t.get i j = .empty := (h.get_of_le (Nat.le_of_not_lt hj)).1
    simp [column, ((h.eliminate k).get_of_le (Nat.le_of_not_lt hj)).1]
  exact t.get_eliminate k i j (h.rows ▸ hi) (h.row i hi ▸ hj)

/-- Eliminating a state of the expressions eliminates it in their languages. -/
theorem Square.table_eliminate (h : t.Square n) (k : Nat) :
    (t.eliminate k).table = t.table.eliminate k := by
  funext i j
  simp only [table, h.get_eliminate, Table.eliminate]
  split
  · rfl
  · simp only [Regex.language_union, Regex.language_concat, Regex.language_star]

/-- After the elimination of some states, none of them is connected, and the walks between the other
states are what they were. -/
theorem Square.eliminateAll (h : t.Square n) (ks : List Nat) :
    (ks.foldl PathTable.eliminate t).Square n ∧
      (∀ k ∈ ks, (ks.foldl PathTable.eliminate t).table.Isolated k) ∧
      (∀ k, t.table.Isolated k → (ks.foldl PathTable.eliminate t).table.Isolated k) ∧
      ∀ i j, i ∉ ks → j ∉ ks → (ks.foldl PathTable.eliminate t).table.walks i j = t.table.walks i j := by
  induction ks generalizing t with
  | nil => exact ⟨h, fun _ hk => absurd hk List.not_mem_nil, fun _ => id, fun _ _ _ _ => rfl⟩
  | cons k ks ih =>
    obtain ⟨square, gone, stay, walks⟩ := ih (h.eliminate k)
    rw [h.table_eliminate k] at stay walks
    refine ⟨square, fun l hl => ?_, fun l hl => stay l (hl.eliminate k), fun i j hi hj => ?_⟩
    · rcases List.mem_cons.mp hl with rfl | hl
      · exact stay l Table.isolated_eliminate
      · exact gone l hl
    · rw [List.mem_cons, not_or] at hi hj
      rw [List.foldl_cons, walks i j hi.2 hj.2, Table.walks_eliminate hi.1 hj.1]

end PathTable

section

variable {σ α : Type} [Ord σ] {states : OrderedSet σ} {edges : List (Edge σ α)}

/-! ## The table of a graph -/

/-- The expression of one edge. -/
def Edge.expression (e : Edge σ α) : Regex α :=
  match e.label with
  | some a => .letter a
  | none => .epsilon

omit [Ord σ] in
theorem Edge.language_expression (e : Edge σ α) : e.expression.language = {e.label.toList} := by
  unfold expression
  cases e.label <;> rfl

variable [DecidableEq α] [Std.TransOrd σ] [Std.LawfulEqOrd σ]

omit [Std.TransOrd σ] [Std.LawfulEqOrd σ] in
theorem edgeTable_append (edges : List (Edge σ α)) (e : Edge σ α) :
    edgeTable states (edges ++ [e]) =
      match states.indexOf? e.source, states.indexOf? e.target with
      | some i, some j => (edgeTable states edges).add i j e.expression
      | _, _ => edgeTable states edges := by
  rw [edgeTable, List.foldl_append]
  rfl

omit [Std.TransOrd σ] [Std.LawfulEqOrd σ] in
/-- The table has the states of the graph, and a step between two of them reads the label of an
edge. -/
theorem edgeTable_spec (states : OrderedSet σ) (edges : List (Edge σ α)) :
    (edgeTable states edges).Square states.size ∧ ∀ i j w,
      w ∈ (edgeTable states edges).table i j ↔
        ∃ e ∈ edges, states.indexOf? e.source = some i ∧ states.indexOf? e.target = some j ∧
          w = e.label.toList := by
  induction edges using List.reverseRecOn with
  | nil =>
    refine ⟨PathTable.square_blank, fun i j w => ?_⟩
    simp [edgeTable, PathTable.table, PathTable.get_blank]
  | append_singleton edges e ih =>
    obtain ⟨square, entries⟩ := ih
    simp only [List.mem_append, List.mem_singleton, or_and_right, exists_or, exists_eq_left]
    rw [edgeTable_append]
    split
    · next i j hi hj =>
      refine ⟨square.add i j _, fun i' j' w => ?_⟩
      have new := square.get_add (OrderedSet.lt_size_of_indexOf? hi) (OrderedSet.lt_size_of_indexOf? hj) e.expression i' j'
      rw [PathTable.table, new, ← entries, hi, hj]
      split
      · next h =>
        obtain ⟨rfl, rfl⟩ := h
        rw [Regex.language_union, e.language_expression, Language.mem_add]
        simp only [true_and]
        rfl
      · next h =>
        simp only [Option.some.injEq, ← and_assoc, h, false_and, or_false]
        rfl
    · next out =>
      refine ⟨square, fun i j w => ?_⟩
      rw [entries]
      refine ⟨.inl, fun h => h.resolve_right fun new => out i j new.1 new.2.1⟩

omit [Std.TransOrd σ] [Std.LawfulEqOrd σ] in
/-- Between two states of the graph, the walks of the table are those of the graph. -/
theorem mem_walks_edgeTable (known : ∀ e ∈ edges, e.source ∈ states ∧ e.target ∈ states) {p q : σ}
    {i j : Nat} (hp : states.indexOf? p = some i) (hq : states.indexOf? q = some j) {w : List α} :
    w ∈ (edgeTable states edges).table.walks i j ↔ Walk edges q p w := by
  obtain ⟨-, entries⟩ := edgeTable_spec states edges
  constructor
  · intro h
    induction h generalizing p with
    | nil =>
      rw [OrderedSet.eq_of_indexOf? hp hq]
      exact .nil
    | @cons i k u w hu _ ih =>
      obtain ⟨e, he, hs, ht, rfl⟩ := (entries i k u).mp hu
      rw [OrderedSet.eq_of_indexOf? hp hs]
      exact .cons he (ih ht)
  · intro h
    induction h generalizing i with
    | nil =>
      obtain rfl := Option.some.inj (hp.symm.trans hq)
      exact .nil
    | @cons e w he _ ih =>
      obtain ⟨k, hk⟩ := OrderedSet.exists_indexOf? (known e he).2
      exact .cons ((entries i k _).mpr ⟨e, he, hp, hk, rfl⟩) (ih hk)

/-! ## The states of a graph -/

omit [DecidableEq α] in
theorem mem_graphStates {source target : σ} {edges : List (Edge σ α)} {q : σ} :
    q ∈ graphStates source target edges ↔
      q = source ∨ q = target ∨ ∃ e ∈ edges, q = e.source ∨ q = e.target := by
  simp [graphStates]

/-- The first element of a list keeps its place. -/
theorem indexOf?_ofList_cons (q : σ) (qs : List σ) :
    (OrderedSet.ofList (q :: qs)).indexOf? q = some 0 := by
  have key : ∀ (qs : List σ) (s : OrderedSet σ), s.toList[0]? = some q →
      (qs.foldl OrderedSet.insert s).toList[0]? = some q := by
    intro qs
    induction qs with
    | nil => exact fun s h => h
    | cons r qs ih =>
      intro s h
      refine ih _ ?_
      rw [OrderedSet.toList_insert]
      split
      · exact h
      · rw [List.getElem?_append_left (List.getElem?_eq_some_iff.mp h).1]
        exact h
  rw [OrderedSet.indexOf?_eq_some_iff]
  exact key qs _ (by rw [OrderedSet.toList_insert]; rfl)

/-! ## The whole expression -/

omit [Ord σ] [Std.TransOrd σ] [Std.LawfulEqOrd σ] in
theorem language_twoStateExpression {t : PathTable α} {sink : Nat}
    (h : ∀ k, k ≠ 0 → k ≠ sink → t.table.Isolated k) :
    (twoStateExpression t sink).language = t.table.walks 0 sink := by
  unfold twoStateExpression
  split
  · next e =>
    subst e
    rw [Regex.language_star, Table.walks_loop fun k hk => h k hk hk]
    rfl
  · next e =>
    rw [Table.walks_two (Ne.symm e) h]
    simp only [Regex.language_concat, Regex.language_star, Regex.language_union]
    rfl

/-- Taking out all other states leaves the words that are read from the source to the target. -/
theorem language_pathExpression (edges : List (Edge σ α)) (source target : σ) :
    (pathExpression edges source target).language = {w | Walk edges target source w} := by
  ext w
  set states := graphStates source target edges with hstates
  set sink := (states.indexOf? target).getD 0 with hsink
  set others := (List.range states.size).filter fun k => k ≠ 0 && k ≠ sink with hothers
  have first : states.indexOf? source = some 0 := indexOf?_ofList_cons ..
  have last : states.indexOf? target = some sink := by
    obtain ⟨i, hi⟩ := OrderedSet.exists_indexOf? (mem_graphStates.mpr (.inr (.inl rfl)) : target ∈ states)
    rw [hsink, hi]
    rfl
  have mem_others {k : Nat} : k ∈ others ↔ k < states.size ∧ k ≠ 0 ∧ k ≠ sink := by
    simp [hothers]
  obtain ⟨square, gone, -, walks⟩ := (edgeTable_spec states edges).1.eliminateAll others
  have isolated : ∀ k, k ≠ 0 → k ≠ sink →
      (others.foldl .eliminate (edgeTable states edges)).table.Isolated k := by
    intro k h0 hs
    by_cases hk : k < states.size
    · exact gone k (mem_others.mpr ⟨hk, h0, hs⟩)
    · exact square.isolated (Nat.le_of_not_lt hk)
  have stays : 0 ∉ others ∧ sink ∉ others := by simp [mem_others]
  have known : ∀ e ∈ edges, e.source ∈ states ∧ e.target ∈ states := fun e he =>
    ⟨mem_graphStates.mpr (.inr (.inr ⟨e, he, .inl rfl⟩)),
      mem_graphStates.mpr (.inr (.inr ⟨e, he, .inr rfl⟩))⟩
  show w ∈ (twoStateExpression (others.foldl .eliminate (edgeTable states edges)) sink).language ↔ _
  rw [language_twoStateExpression isolated, walks 0 sink stays.1 stays.2]
  exact mem_walks_edgeTable known first last

/-- The language of the expression between two states of a labelled graph is the set of the words
read along the walks from the one to the other. -/
theorem mem_language_pathExpression (edges : List (Edge σ α)) (source target : σ) (w : List α) :
    w ∈ (pathExpression edges source target).language ↔ Walk edges target source w := by
  rw [language_pathExpression]
  rfl

end

/-- Two turns around a loop, an edge without a label, and a last letter. -/
theorem mem_language_loop_and_exit :
    [5, 5, 7] ∈ (pathExpression [⟨0, some 5, 0⟩, ⟨0, none, 1⟩, ⟨1, some 7, 2⟩] 0 2).language := by
  rw [mem_language_pathExpression]
  set edges : List (Edge Nat Nat) := [⟨0, some 5, 0⟩, ⟨0, none, 1⟩, ⟨1, some 7, 2⟩] with hedges
  have loop : (⟨0, some 5, 0⟩ : Edge Nat Nat) ∈ edges := by simp [hedges]
  have across : (⟨0, none, 1⟩ : Edge Nat Nat) ∈ edges := by simp [hedges]
  have exit : (⟨1, some 7, 2⟩ : Edge Nat Nat) ∈ edges := by simp [hedges]
  exact .cons loop (.cons loop (.cons across (.cons exit .nil)))

end PointsTo
