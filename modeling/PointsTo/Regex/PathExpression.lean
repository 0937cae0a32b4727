import PointsTo.Collection.OrderedSet
import PointsTo.Regex.Basic

/-!
# The language of the paths between two states

`pathExpression` summarises all walks between two states of a labelled graph by one expression. It
eliminates the other states one after the other, in the order in which the graph mentions them:
a walk through an eliminated state goes into it, around it, and out of it. `get_eliminate` states
this rule for each pair of states.
-/

namespace PointsTo

/-- An edge of a labelled graph. An edge without a label reads the empty word. -/
structure Edge (σ α : Type) where
  source : σ
  label : Option α
  target : σ

/-- For each two states, named by position, the words that lead from the one to the other. -/
structure PathTable (α : Type) where
  rows : Array (Array (Regex α))

namespace PathTable

variable {α : Type}

def get (t : PathTable α) (i j : Nat) : Regex α := (t.rows.getD i #[]).getD j .empty

/-- The table of `n` states without any edge. -/
def blank (n : Nat) : PathTable α := ⟨Array.replicate n (Array.replicate n .empty)⟩

variable [DecidableEq α]

/-- Adds the words of `r` to those that lead from `i` to `j`. -/
def add (t : PathTable α) (i j : Nat) (r : Regex α) : PathTable α :=
  ⟨t.rows.modify i fun row => row.modify j fun old => old.union r⟩

/-- The row of a state from which the words `before` lead to the eliminated state `k`, whose own
row is `via`. -/
def bypass (k : Nat) (before : Regex α) (via row : Array (Regex α)) : Array (Regex α) :=
  row.mapIdx fun j old =>
    if j = k then .empty
    else if before.isEmpty then old
    else old.union (before.concat (via.getD j .empty))

/-- Takes out state `k`: walks through it become direct, and nothing leads to or from it. -/
def eliminate (t : PathTable α) (k : Nat) : PathTable α :=
  let via := t.rows.getD k #[]
  let around := (via.getD k .empty).star
  ⟨t.rows.mapIdx fun i row =>
    if i = k then Array.replicate row.size .empty
    else bypass k ((row.getD k .empty).concat around) via row⟩

/-- An entry after the elimination of `k` has the words it had before, and those that lead into
`k`, any number of times around it, and out of it. -/
theorem get_eliminate (t : PathTable α) (k i j : Nat) (hi : i < t.rows.size)
    (hj : j < (t.rows.getD i #[]).size) :
    (t.eliminate k).get i j =
      if i = k ∨ j = k then .empty
      else (t.get i j).union (((t.get i k).concat (t.get k k).star).concat (t.get k j)) := by
  have hrow : t.rows.getD i #[] = t.rows[i] := by simp [hi]
  rw [hrow] at hj
  by_cases hik : i = k
  · subst hik
    simp [get, eliminate, hi, hj]
  · by_cases hjk : j = k
    · subst hjk
      simp [get, eliminate, bypass, hi, hik, hj]
    · simp only [get, eliminate, bypass, Array.getD_eq_getD_getElem?, Array.getElem?_mapIdx, hi,
        Array.getElem?_eq_getElem, Option.map_some, Option.getD_some, hik, hjk, or_self,
        ↓reduceIte, hj]
      split
      · next h => simp [Regex.isEmpty_iff.1 h]
      · rfl

end PathTable

section

variable {σ α : Type} [Ord σ] [Std.TransOrd σ] [Std.LawfulEqOrd σ]

/-- The states of a graph: first the two ends, then the others as the edges mention them. -/
def graphStates (source target : σ) (edges : List (Edge σ α)) : OrderedSet σ :=
  .ofList (source :: target :: edges.flatMap fun e => [e.source, e.target])

variable [DecidableEq α]

def edgeTable (states : OrderedSet σ) (edges : List (Edge σ α)) : PathTable α :=
  edges.foldl
    (fun table e =>
      let letter := match e.label with
        | some a => Regex.letter a
        | none => Regex.epsilon
      match states.indexOf? e.source, states.indexOf? e.target with
      | some i, some j => table.add i j letter
      | _, _ => table)
    (.blank states.size)

/-- The words that lead from state 0 to state `sink` once no other states are left. -/
def twoStateExpression (table : PathTable α) (sink : Nat) : Regex α :=
  if sink = 0 then (table.get 0 0).star
  else
    let a := table.get 0 0
    let b := table.get 0 sink
    let c := table.get sink 0
    let d := (table.get sink sink).star
    ((a.union ((b.concat d).concat c)).star.concat b).concat d

/-- The words read along the walks from `source` to `target`. -/
def pathExpression (edges : List (Edge σ α)) (source target : σ) : Regex α :=
  let states := graphStates source target edges
  let sink := (states.indexOf? target).getD 0
  let others := (List.range states.size).filter fun k => k ≠ 0 && k ≠ sink
  twoStateExpression (others.foldl .eliminate (edgeTable states edges)) sink

end

end PointsTo
