import PointsTo.Analysis.Basic
import PointsTo.Dot

/-!
# Drawing an analysis

The field automata of all solvers side by side, in the order of the solvers. A node is a state of
one automaton and is labelled with the state and the query. Nodes are numbered as they are drawn
(`toList_nodes`). An edge finds its nodes by the positions of its states in their automaton, counted
from the first node of the solver. Every state has a node, so all edges can be drawn (`exists_edges`).
-/

namespace PointsTo

/-- What is pushed one by one, each with its position, comes behind what was there. -/
theorem toList_foldl_push {α β : Type} (f : α → Nat → β) (as : List α) (bs : Array β) :
    (as.foldl (fun bs a => bs.push (f a bs.size)) bs).toList =
      bs.toList ++ (as.zipIdx bs.size).map fun (a, i) => f a i := by
  induction as generalizing bs with
  | nil => simp
  | cons a as ih =>
    rw [List.foldl_cons, ih, Array.toList_push, Array.size_push, List.zipIdx_cons, List.map_cons,
      List.append_assoc, List.singleton_append]

namespace Analysis

/-! ## Nodes -/

/-- The node of a state of a solver. -/
def node (query : Query) (s : Solver) (state : FieldState) (id : Nat) : Dot.Node :=
  ⟨s!"{state.text} in {query.text}", id, state = s.seedState⟩

/-- The nodes of all states, each with the next number. -/
def nodes (a : Analysis) : Array Dot.Node :=
  a.pool.toList.foldl (fun nodes (query, s) =>
    s.fields.states.toList.foldl (fun nodes state => nodes.push (node query s state nodes.size))
      nodes) #[]

/-- The parts of some solvers, each with its solver and the query. -/
def partsOf {α : Type} (parts : Solver → List α) (solvers : List (Query × Solver)) :
    List (Query × Solver × α) :=
  solvers.flatMap fun (query, s) => (parts s).map (query, s, ·)

/-- The states of all field automata. -/
def statesOf (solvers : List (Query × Solver)) : List (Query × Solver × FieldState) :=
  partsOf (·.fields.states.toList) solvers

@[simp] theorem partsOf_cons {α : Type} (parts : Solver → List α) (query : Query) (s : Solver)
    (solvers : List (Query × Solver)) : partsOf parts ((query, s) :: solvers) =
      (parts s).map (query, s, ·) ++ partsOf parts solvers :=
  List.flatMap_cons

@[simp] theorem partsOf_append {α : Type} (parts : Solver → List α)
    (solvers rest : List (Query × Solver)) :
    partsOf parts (solvers ++ rest) = partsOf parts solvers ++ partsOf parts rest :=
  List.flatMap_append

theorem toList_nodes (a : Analysis) : a.nodes.toList =
    (statesOf a.pool.toList).zipIdx.map fun ((query, s, state), i) => node query s state i := by
  have drawn := toList_foldl_push (fun (query, s, state) => node query s state)
    (statesOf a.pool.toList) #[]
  rw [statesOf, partsOf, List.foldl_flatMap] at drawn
  simp only [List.foldl_map] at drawn
  exact drawn

/-! ## Edges -/

/-- The node of a state of an automaton, the nodes of which stand from `offset` on. -/
def nodeAt (nodes : Array Dot.Node) (offset : Nat) (states : OrderedSet FieldState)
    (state : FieldState) : Except Fault Dot.Node :=
  match states.indexOf? state with
  | none => .error (.noState state)
  | some index =>
    match nodes[offset + index]? with
    | none => .error (.noEntry (offset + index) nodes.size)
    | some node => .ok node

def edgeAt (nodes : Array Dot.Node) (offset : Nat) (states : OrderedSet FieldState)
    (t : FieldTransition) : Except Fault Dot.Edge := do
  let source ← nodeAt nodes offset states t.start
  let target ← nodeAt nodes offset states t.target
  return ⟨source.id, target.id, t.label.text, if t.label.isEpsilon then .epsilon else .field⟩

/-- The edges of some solvers, the nodes of which stand from `offset` on. -/
def edgesFrom (nodes : Array Dot.Node) (offset : Nat) :
    List (Query × Solver) → Except Fault (List Dot.Edge)
  | [] => .ok []
  | (_, s) :: rest => do
    let states := s.fields.states
    let edges ← s.fields.toList.mapM (edgeAt nodes offset states)
    return edges ++ (← edgesFrom nodes (offset + states.size) rest)

def edges (a : Analysis) : Except Fault (List Dot.Edge) := edgesFrom a.nodes 0 a.pool.toList

/-! ## Every state has a node -/

theorem exists_nodeAt {nodes : Array Dot.Node} {offset : Nat} {states : OrderedSet FieldState}
    {state : FieldState} (room : offset + states.size ≤ nodes.size) (h : state ∈ states) :
    ∃ n, nodeAt nodes offset states state = .ok n := by
  obtain ⟨i, hi⟩ := OrderedSet.exists_indexOf? h
  have bound := OrderedSet.lt_size_of_indexOf? hi
  have hn : nodes[offset + i]? = some nodes[offset + i] := Array.getElem?_eq_getElem (by omega)
  exact ⟨nodes[offset + i], by simp only [nodeAt, hi, hn]⟩

theorem exists_edgeAt {nodes : Array Dot.Node} {offset : Nat} {s : Solver} {t : FieldTransition}
    (room : offset + s.fields.states.size ≤ nodes.size) (ht : t ∈ s.fields.toList) :
    ∃ e, edgeAt nodes offset s.fields.states t = .ok e := by
  obtain ⟨source, hs⟩ := exists_nodeAt room (Automaton.mem_states.2 ⟨t, ht, .inl rfl⟩)
  obtain ⟨target, ht⟩ := exists_nodeAt room (Automaton.mem_states.2 ⟨t, ht, .inr rfl⟩)
  exact ⟨_, by rw [edgeAt, hs, ht]; rfl⟩

theorem exists_edgesFrom {nodes : Array Dot.Node} {offset : Nat} {solvers : List (Query × Solver)}
    (room : offset + (statesOf solvers).length ≤ nodes.size) :
    ∃ es, edgesFrom nodes offset solvers = .ok es := by
  induction solvers generalizing offset with
  | nil => exact ⟨[], rfl⟩
  | cons solver solvers ih =>
    obtain ⟨query, s⟩ := solver
    rw [statesOf, partsOf_cons, List.length_append, List.length_map, OrderedSet.length_toList,
      ← statesOf, ← Nat.add_assoc] at room
    obtain ⟨rest, hr⟩ := ih room
    cases he : s.fields.toList.mapM (edgeAt nodes offset s.fields.states) with
    | ok es => exact ⟨es ++ rest, by simp only [edgesFrom, he, hr]; rfl⟩
    | error fault =>
      obtain ⟨t, ht, failed⟩ := Body.exists_error_of_mapM he
      have fits : offset + s.fields.states.size ≤ nodes.size := by omega
      obtain ⟨e, drawn⟩ := exists_edgeAt fits ht
      rw [drawn] at failed
      cases failed

theorem exists_edges (a : Analysis) : ∃ es, a.edges = .ok es := by
  refine exists_edgesFrom (Nat.le_of_eq ?_)
  rw [← Array.length_toList, toList_nodes, List.length_map, List.length_zipIdx, Nat.zero_add]

/-! ## The drawing -/

def drawing (a : Analysis) : Dot.Graph :=
  match h : a.edges with
  | .ok edges => ⟨a.nodes.toList, edges⟩
  | .error _ => absurd a.exists_edges (by simp [h])

end Analysis

end PointsTo
