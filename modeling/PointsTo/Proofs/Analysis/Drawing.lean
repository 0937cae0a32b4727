import Mathlib.Data.List.Forall2
import PointsTo.Analysis.Drawing
import PointsTo.Proofs.Analysis.Reachable
import PointsTo.Proofs.Analysis.Splicing
import PointsTo.Proofs.Dot
import PointsTo.Proofs.Source.Writing

/-!
# What a drawing shows

A drawing shows the field automata of all solvers, and nothing else (`Depicts`). The same state may
stand in several automata, and then it has a node for each. An edge knows its nodes by their places
only. These are counted from the first node of the solver, which stands behind the nodes of all
solvers before (`getElem?_statesOf`), so an edge joins two states of the automaton that has its
transition (`edgesFrom_connects`).

Labels are put together from names. What clients and programs may name has no brackets (`Legible`).
A point brings in a pair of brackets, but nowhere is a closing bracket followed by an opening one
(`Fact.smooth_text`). So joining the brackets of attributes leaves the labels alone
(`drawing_depicts`).
-/

namespace PointsTo

open Dot (Plain Smooth Seamless)

namespace Analysis

/-! ## The parts of all solvers -/

section Parts

variable {α : Type} {parts : Solver → List α} {a : Analysis} {q : Query} {s : Solver} {x : α}

/-- The transitions of all field automata. -/
def transitionsOf (solvers : List (Query × Solver)) : List (Query × Solver × FieldTransition) :=
  partsOf (·.fields.toList) solvers

theorem mem_partsOf_iff : (q, s, x) ∈ partsOf parts a.pool.toList ↔
    a.solver? q = some s ∧ x ∈ parts s := by
  rw [solver?, Pool.find?_eq_some_iff, ← Pool.mem_toList_iff]
  simp [partsOf]

/-- No part stands twice among the parts if it does not within one solver. -/
theorem nodup_partsOf (once : ∀ s, (parts s).Nodup) (p : Pool) :
    (partsOf parts p.toList).Nodup := by
  refine List.nodup_flatMap.2 ⟨fun (q, s) _ => (once s).map fun _ _ e => by simpa using e, ?_⟩
  have queries : (p.toList.map (·.1)).Nodup := by
    rw [Pool.toList, List.map_map]
    exact OrderedMap.map_fst_toList p.entries ▸ OrderedSet.nodup_toList _
  refine (List.pairwise_map.1 queries).imp fun {e e'} other => ?_
  rintro ⟨q, s, x⟩ here there
  obtain ⟨_, -, same⟩ := List.mem_map.1 here
  obtain ⟨_, -, same'⟩ := List.mem_map.1 there
  exact other ((congrArg (·.1) same).trans (congrArg (·.1) same').symm)

end Parts

/-! ## Nodes and edges in their places -/

/-- The node shows a state, and is a box if this is the seed of the solver. -/
structure Shows (state : Query × Solver × FieldState) (n : Dot.Node) : Prop where
  label : n.label = s!"{state.2.2.text} in {state.1.text}"
  seed : n.isSeed ↔ state.2.2 = state.2.1.seedState

/-- The edge shows a transition, and its ends are the places of the states in the same solver. -/
structure Connects (states : List (Query × Solver × FieldState))
    (t : Query × Solver × FieldTransition) (e : Dot.Edge) : Prop where
  source : states[e.source]? = some (t.1, t.2.1, t.2.2.start)
  target : states[e.target]? = some (t.1, t.2.1, t.2.2.target)
  label : e.label = t.2.2.label.text
  kind : e.kind = .epsilon ↔ t.2.2.label = .epsilon

/-- The graph has a node for each state and an edge for each transition of all field automata, in
the order of the solvers. The nodes are numbered. -/
structure Depicts (a : Analysis) (g : Dot.Graph) : Prop where
  ids : g.nodes.map (·.id) = List.range g.nodes.length
  nodes : List.Forall₂ Shows (statesOf a.pool.toList) g.nodes
  edges : List.Forall₂ (Connects (statesOf a.pool.toList)) (transitionsOf a.pool.toList) g.edges

section Places

variable {nodes : Array Dot.Node} {offset : Nat} {states : OrderedSet FieldState} {q : Query}
  {s : Solver}

theorem ids_nodes (a : Analysis) :
    a.nodes.toList.map (·.id) = List.range a.nodes.toList.length := by
  have ids : a.nodes.toList.map (·.id) = (statesOf a.pool.toList).zipIdx.map Prod.snd := by
    rw [toList_nodes, List.map_map]
    rfl
  have size : a.nodes.toList.length = (statesOf a.pool.toList).length := by
    rw [toList_nodes, List.length_map, List.length_zipIdx]
  rw [ids, size, List.zipIdx_map_snd, List.range_eq_range']

theorem nodes_show (a : Analysis) :
    List.Forall₂ Shows (statesOf a.pool.toList) a.nodes.toList := by
  have states := List.zipIdx_map_fst 0 (statesOf a.pool.toList)
  rw [toList_nodes, List.forall₂_map_right_iff]
  nth_rewrite 1 [← states]
  rw [List.forall₂_map_left_iff, List.forall₂_same]
  rintro ⟨⟨q, s, state⟩, i⟩ -
  exact ⟨rfl, decide_eq_true_iff⟩

theorem id_of_getElem? {a : Analysis} {i : Nat} {n : Dot.Node} (h : a.nodes[i]? = some n) :
    n.id = i := by
  rw [← Array.getElem?_toList] at h
  have ids := congrArg (·[i]?) a.ids_nodes
  have bound : i < a.nodes.toList.length := (List.getElem?_eq_some_iff.1 h).1
  rw [List.getElem?_map, h, List.getElem?_range bound] at ids
  exact Option.some.inj ids

theorem nodeAt_eq_ok {state : FieldState} {n : Dot.Node}
    (h : nodeAt nodes offset states state = .ok n) :
    ∃ i, states.indexOf? state = some i ∧ nodes[offset + i]? = some n := by
  unfold nodeAt at h
  split at h
  · cases h
  · next i hi =>
    split at h
    · cases h
    · next hn => exact ⟨i, hi, Except.ok.inj h ▸ hn⟩

/-- What stands where the automaton says, counted from the offset, is joined. -/
theorem edgeAt_connects {places : List (Query × Solver × FieldState)} {t : FieldTransition}
    {e : Dot.Edge} (numbered : ∀ (i : Nat) (n : Dot.Node), nodes[i]? = some n → n.id = i)
    (stand : ∀ i state, s.fields.states.indexOf? state = some i →
      places[offset + i]? = some (q, s, state))
    (h : edgeAt nodes offset s.fields.states t = .ok e) : Connects places (q, s, t) e := by
  obtain ⟨source, hs, h⟩ := bind_eq_ok.1 h
  obtain ⟨target, ht, h⟩ := bind_eq_ok.1 h
  obtain rfl := Except.ok.inj h
  obtain ⟨i, hi, atSource⟩ := nodeAt_eq_ok hs
  obtain ⟨j, hj, atTarget⟩ := nodeAt_eq_ok ht
  exact {
    source := numbered _ _ atSource ▸ stand i _ hi
    target := numbered _ _ atTarget ▸ stand j _ hj
    label := rfl
    kind := by cases t.label <;> simp [Field.isEpsilon] }

theorem forall₂_of_mapM_eq_ok {ε α β : Type} {f : α → Except ε β} {as : List α} {bs : List β}
    (h : as.mapM f = .ok bs) : List.Forall₂ (f · = .ok ·) as bs := by
  induction as generalizing bs with
  | nil =>
    obtain rfl := Except.ok.inj h
    exact .nil
  | cons a as ih =>
    rw [List.mapM_cons] at h
    obtain ⟨b, hb, h⟩ := bind_eq_ok.1 h
    obtain ⟨rest, hr, h⟩ := bind_eq_ok.1 h
    obtain rfl := Except.ok.inj h
    exact .cons hb (ih hr)

/-- A state stands behind those of all solvers before, where its own automaton says. -/
theorem getElem?_statesOf {before solvers : List (Query × Solver)} {state : FieldState} {i : Nat}
    (hi : s.fields.states.indexOf? state = some i) :
    (statesOf (before ++ (q, s) :: solvers))[(statesOf before).length + i]? =
      some (q, s, state) := by
  have bound : i < s.fields.states.toList.length := OrderedSet.lt_size_of_indexOf? hi
  rw [OrderedSet.indexOf?_eq_some_iff] at hi
  rw [statesOf, partsOf_append, partsOf_cons, ← statesOf, List.getElem?_append_right (by omega),
    Nat.add_sub_cancel_left, List.getElem?_append_left (by simpa using bound), List.getElem?_map,
    hi]
  rfl

/-- The offset of a solver is the number of the states before. -/
theorem edgesFrom_connects
    (numbered : ∀ (i : Nat) (n : Dot.Node), nodes[i]? = some n → n.id = i)
    {before solvers : List (Query × Solver)} {edges : List Dot.Edge}
    (h : edgesFrom nodes (statesOf before).length solvers = .ok edges) :
    List.Forall₂ (Connects (statesOf (before ++ solvers))) (transitionsOf solvers) edges := by
  induction solvers generalizing before edges with
  | nil =>
    obtain rfl := Except.ok.inj h
    exact .nil
  | cons solver solvers ih =>
    obtain ⟨q, s⟩ := solver
    obtain ⟨here, hh, h⟩ := bind_eq_ok.1 h
    obtain ⟨rest, hr, h⟩ := bind_eq_ok.1 h
    obtain rfl := Except.ok.inj h
    have next : (statesOf before).length + s.fields.states.size =
        (statesOf (before ++ [(q, s)])).length := by
      simp [statesOf, partsOf]
    rw [next] at hr
    have others := ih hr
    rw [List.append_assoc, List.singleton_append] at others
    rw [transitionsOf, partsOf_cons]
    refine List.rel_append ?_ others
    rw [List.forall₂_map_left_iff]
    exact (forall₂_of_mapM_eq_ok hh).imp fun _ _ =>
      edgeAt_connects numbered fun _ _ => getElem?_statesOf

/-- The drawing of an analysis, whatever its state, can be made and shows the field automata. -/
theorem depicts (a : Analysis) :
    ∃ edges, a.edges = .ok edges ∧ a.drawing = ⟨a.nodes.toList, edges⟩ ∧ a.Depicts a.drawing := by
  obtain ⟨edges, drawn⟩ := a.exists_edges
  have drawing : a.drawing = ⟨a.nodes.toList, edges⟩ := by
    unfold Analysis.drawing
    split
    · next edges' drawn' => rw [Except.ok.inj (drawn.symm.trans drawn')]
    · next failed => cases drawn.symm.trans failed
  -- no solvers stand before the first one
  have first : edgesFrom a.nodes (statesOf []).length a.pool.toList = .ok edges := drawn
  refine ⟨edges, drawn, drawing, ?_⟩
  rw [drawing]
  exact {
    ids := a.ids_nodes
    nodes := a.nodes_show
    edges := edgesFrom_connects (fun _ _ => id_of_getElem?) first }

end Places

end Analysis

/-! ## Labels -/

namespace Source

variable {name : List Char}

theorem plain_of_isIdent (h : isIdent name = true) : Plain name :=
  ⟨not_mem_of_isIdent h rfl, not_mem_of_isIdent h rfl⟩

theorem plain_of_isMethodName (h : isMethodName name = true) : Plain name :=
  ⟨fun hm => absurd (mem_methodName h hm) (by decide),
    fun hm => absurd (mem_methodName h hm) (by decide)⟩

end Source

/-- There are no brackets in names. -/
structure Names.Legible (N : Names) : Prop where
  points : ∀ point ∈ N.points, Plain point.method.name.toList
  vars : ∀ v ∈ N.vars, Plain v.name.toList
  fields : ∀ g ∈ N.fields, Plain g.text.toList

/-- What is behind the opening bracket of a point does not open another one before it is closed. -/
theorem Fact.smooth_text {f : Fact} (point : Plain f.point.method.name.toList)
    (var : Plain f.var.name.toList) : Smooth f.text.toList := by
  have back : Smooth (']' :: ',' :: ' ' :: (f.var.name.toList ++ [')'])) :=
    Dot.smooth_of_not_mem (by simp [var.2])
  have front (index : List Char) (h : ']' ∉ index) :
      Smooth ('(' :: (f.point.method.name.toList ++ '[' :: index)) :=
    ⟨Dot.seamless_of_not_mem (.inl (by simp [point.1, h])), by simp⟩
  unfold Fact.text Point.text MethodName.text
  cases f.point.index with
  | none => simpa [toString] using (front ['-'] (by decide)).append back
  | some index =>
    have digits : ']' ∉ Nat.toDigits 10 index := Text.not_mem_digits rfl index
    simpa [toString] using (front _ digits).append back

namespace Names.Legible

variable {N : Names} (legible : N.Legible)
include legible

theorem smooth_fact {f : Fact} (h : N.Has f) : Smooth f.text.toList :=
  Fact.smooth_text (legible.points _ h.1) (legible.vars _ h.2)

theorem smooth_state {state : FieldState} (h : N.HasFieldState state) :
    Smooth state.text.toList := by
  cases state with
  | single f => exact legible.smooth_fact h
  | alloc f =>
    have alloc : Smooth ['a', 'l', 'l', 'o', 'c'] := Plain.smooth (by decide)
    simpa [FieldState.text, toString] using alloc.append (legible.smooth_fact h)
  | generated f g =>
    have dot : Smooth ['.'] := Plain.smooth (by decide)
    have field := (legible.fields g h.2).smooth
    simpa [FieldState.text, toString] using (legible.smooth_fact h.1).append (dot.append field)

theorem smooth_query {q : Query} (fact : N.Has q.fact) (type : ∀ t ∈ q.type, Plain t.name.toList) :
    Smooth q.text.toList := by
  obtain ⟨direction, f, type?⟩ := q
  have seed : Smooth f.text.toList := legible.smooth_fact fact
  have forward : Smooth ['F', 'Q'] := Plain.smooth (by decide)
  have backward : Smooth ['B', 'Q'] := Plain.smooth (by decide)
  cases direction with
  | forward =>
    cases type? with
    | some t =>
      have colon : Smooth [':'] := Plain.smooth (by decide)
      have name : Smooth t.text.toList := (type t rfl).smooth
      simpa [Query.text, toString] using forward.append (seed.append (colon.append name))
    | none => simpa [Query.text, toString] using forward.append seed
  | backward => simpa [Query.text, toString] using backward.append seed

end Names.Legible

/-- The query is about a statement of the program, and what it names is named by identifiers. -/
structure Program.Admits (p : Program) (q : Query) : Prop where
  statement : (p.instruction? q.fact.point).isSome
  var : Source.isIdent q.fact.var.name.toList = true
  type : ∀ t ∈ q.type, Source.isIdent t.name.toList = true

/-- The names of the program and of some queries, which may start in either direction. -/
def Supply.ofClients (p : Program) (clients : Finset Query) : Supply p where
  names := { (ofProgram p).names with
    points := p.names.points ∪ clients.image (·.fact.point)
    vars := p.names.vars ∪ clients.image (·.fact.var) }
  clients
  reversed := clients
  program_le :=
    ⟨Finset.subset_union_left, Finset.subset_union_left, (ofProgram p).program_le.2.2⟩
  epsilon := (ofProgram p).epsilon
  client _ hq :=
    ⟨Finset.mem_union_right _ (Finset.mem_image_of_mem _ hq),
      Finset.mem_union_right _ (Finset.mem_image_of_mem _ hq)⟩
  reversed_sub := Finset.Subset.refl _

section Clients

variable {p : Program} {source : String} {clients : Finset Query}

theorem Supply.ofClients_legible (read : Source.readProgram source = .ok p)
    (admitted : ∀ q ∈ clients, p.Admits q) : (Supply.ofClients p clients).names.Legible := by
  obtain ⟨points, vars, fields⟩ := Source.readProgram_names read
  constructor
  · intro point hp
    refine Source.plain_of_isMethodName (points point ?_)
    obtain hp | hp := Finset.mem_union.1 hp
    · exact hp
    · obtain ⟨q, hq, rfl⟩ := Finset.mem_image.1 hp
      exact Program.mem_points_iff.2 (admitted q hq).statement
  · intro v hv
    obtain hv | hv := Finset.mem_union.1 hv
    · exact Source.plain_of_isIdent (vars v hv)
    · obtain ⟨q, hq, rfl⟩ := Finset.mem_image.1 hv
      exact Source.plain_of_isIdent (admitted q hq).var
  · intro g hg
    obtain rfl | hg := Finset.mem_insert.1 hg
    · decide
    · cases g with
      | named name => exact Source.plain_of_isIdent (fields _ hg)
      | epsilon => decide

/-- The type of a query is that of a client or that of an allocation. -/
theorem Supply.plain_type (read : Source.readProgram source = .ok p)
    (admitted : ∀ q ∈ clients, p.Admits q) {q : Query}
    (h : (Supply.ofClients p clients).HasQuery q) : ∀ t ∈ q.type, Plain t.name.toList := by
  intro t ht
  cases h with
  | client hq => exact Source.plain_of_isIdent ((admitted q hq).type t ht)
  | allocation _ =>
    unfold Query.allocation at ht
    split at ht
    · next dest type hi =>
      obtain rfl := Option.some.inj ht
      exact Source.plain_of_isIdent (Source.readProgram_instruction read hi).2
    · cases ht
  | backward _ => cases ht

end Clients

namespace Analysis

variable {p : Program} {config : Config} {calls : List ClientCall} {a : Analysis} {q : Query}
  {s : Solver} {source : String}

/-- In a program that was read, and for queries which it admits, all labels are smooth. -/
theorem Reachable.smooth_labels (h : Reachable p config calls a)
    (read : Source.readProgram source = .ok p)
    (asked : ∀ call ∈ calls, ∀ q ∈ call.query?, p.Admits q) (hs : a.solver? q = some s)
    {t : FieldTransition} (ht : t ∈ s.fields) : Smooth q.text.toList ∧
      (∀ state, state = t.start ∨ state = t.target → Smooth state.text.toList) ∧
      Smooth t.label.text.toList := by
  let clients := (calls.filterMap (·.query?)).toFinset
  have admitted : ∀ q ∈ clients, p.Admits q := by
    intro q hq
    obtain ⟨call, hc, hq⟩ := List.mem_filterMap.1 (List.mem_toFinset.1 hq)
    exact asked call hc q hq
  have inside := h.within ((Supply.ofClients p clients).closed config) (fun _ _ _ _ _ => trivial)
    fun call hc q hq =>
    List.mem_toFinset.2 (List.mem_filterMap.2 ⟨call, hc, hq⟩)
  have legible := Supply.ofClients_legible read admitted
  obtain ⟨i, e, he, rfl⟩ := Pool.find?_eq_some_iff.1 hs
  have host := inside.host he
  have query : (Supply.ofClients p clients).HasQuery q := host.query
  obtain ⟨⟨start, label, target⟩, -⟩ := host.below.field t ht
  refine ⟨legible.smooth_query (Supply.has_fact query) (Supply.plain_type read admitted query), ?_,
    (legible.fields _ label).smooth⟩
  rintro state (rfl | rfl)
  · exact legible.smooth_state start
  · exact legible.smooth_state target

/-! ## The drawing -/

theorem mem_statesOf_iff {state : FieldState} : (q, s, state) ∈ statesOf a.pool.toList ↔
    a.solver? q = some s ∧ ∃ t ∈ s.fields, state = t.start ∨ state = t.target := by
  rw [statesOf, mem_partsOf_iff, OrderedSet.mem_toList, Automaton.mem_states]

theorem exists_of_forall₂ {α β : Type} {R : α → β → Prop} {as : List α} {bs : List β}
    (h : List.Forall₂ R as bs) {b : β} (hb : b ∈ bs) : ∃ a ∈ as, R a b := by
  induction h with
  | nil => cases hb
  | cons r _ ih =>
    obtain rfl | hb := List.mem_cons.1 hb
    · exact ⟨_, List.mem_cons_self, r⟩
    · obtain ⟨a, ha, r⟩ := ih hb
      exact ⟨a, List.mem_cons_of_mem _ ha, r⟩

/-- In a program that was read, whatever state admitted queries lead to, the drawing shows each
state and each transition of each field automaton once, and edges join nodes of one solver. No label
has a seam. So the text is the one that has all attributes of a statement in one pair of brackets,
with the labels as they are. -/
theorem drawing_depicts (read : Source.readProgram source = .ok p) (h : Reachable p config calls a)
    (asked : ∀ call ∈ calls, ∀ q ∈ call.query?, p.Admits q) :
    ∃ edges, a.edges = .ok edges ∧ a.drawing = ⟨a.nodes.toList, edges⟩ ∧ a.Depicts a.drawing ∧
      (statesOf a.pool.toList).Nodup ∧
      (∀ q s state, (q, s, state) ∈ statesOf a.pool.toList ↔
        a.solver? q = some s ∧ ∃ t ∈ s.fields, state = t.start ∨ state = t.target) ∧
      (transitionsOf a.pool.toList).Nodup ∧
      (∀ q s t, (q, s, t) ∈ transitionsOf a.pool.toList ↔ a.solver? q = some s ∧ t ∈ s.fields) ∧
      (∀ n ∈ a.drawing.nodes, Seamless n.label.toList) ∧
      (∀ e ∈ a.drawing.edges, Seamless e.label.toList) ∧ a.drawing.text = a.drawing.joined := by
  obtain ⟨edges, drawn, drawing, depicts⟩ := a.depicts
  have nodeLabels : ∀ n ∈ a.drawing.nodes, Seamless n.label.toList := by
    intro n hn
    obtain ⟨⟨q, s, state⟩, hs, shows⟩ := exists_of_forall₂ depicts.nodes hn
    obtain ⟨hs, t, ht, ends⟩ := mem_statesOf_iff.1 hs
    obtain ⟨query, states, -⟩ := h.smooth_labels read asked hs ht
    have between : Smooth [' ', 'i', 'n', ' '] := Plain.smooth (by decide)
    rw [shows.label]
    simpa [toString] using ((states state ends).append (between.append query)).seamless
  have edgeLabels : ∀ e ∈ a.drawing.edges, Seamless e.label.toList := by
    intro e he
    obtain ⟨⟨q, s, t⟩, ht, connects⟩ := exists_of_forall₂ depicts.edges he
    obtain ⟨hs, ht⟩ := mem_partsOf_iff.1 ht
    obtain ⟨-, -, label⟩ := h.smooth_labels read asked hs ht
    rw [connects.label]
    exact label.seamless
  have states := nodup_partsOf (fun s => OrderedSet.nodup_toList s.fields.states) a.pool
  have transitions := nodup_partsOf (fun s => OrderedSet.nodup_toList s.fields.transitions) a.pool
  exact ⟨edges, drawn, drawing, depicts, states, fun _ _ _ => mem_statesOf_iff, transitions,
    fun _ _ _ => mem_partsOf_iff, nodeLabels, edgeLabels,
    Dot.Graph.text_eq_joined nodeLabels edgeLabels⟩

/-- The seed of the box stands in two automata, so it has two nodes. The edge that leads to it in
the solver for the content ends at the node for that solver. -/
theorem crated_depicted : ∃ program a s s' e, Source.readProgram crated = .ok program ∧
    Reachable program default [.solve content] a ∧ program.Admits content ∧ boxed ∈ s.fields ∧
    (box, s', .alloc box.fact) ∈ statesOf a.pool.toList ∧ e ∈ a.drawing.edges ∧
    (statesOf a.pool.toList)[e.target]? = some (content, s, .alloc box.fact) ∧
    a.drawing.text = a.drawing.joined := by
  have checked : (Source.readProgram crated).toOption.any fun program =>
      ((create program default).performAll [.solve content]).toOption.any fun a =>
      (a.solver? content).any fun s => (a.solver? box).any fun s' =>
        decide ((program.instruction? content.fact.point).isSome ∧ s.fields.contains boxed ∧
          s'.fields.states.contains (.alloc box.fact)) := by
    decide +kernel
  obtain ⟨program, read, h⟩ := exists_ok_of_any checked
  obtain ⟨a, called, h⟩ := exists_ok_of_any h
  obtain ⟨s, hs, h⟩ := (Option.any_eq_true _ _).1 h
  obtain ⟨s', hs', h⟩ := (Option.any_eq_true _ _).1 h
  obtain ⟨statement, hb, shared⟩ := of_decide_eq_true h
  have reachable := reachable_of_performAll called
  have admits : program.Admits content := ⟨statement, by decide, by decide⟩
  have asked : ∀ call ∈ [ClientCall.solve content], ∀ q ∈ call.query?, program.Admits q := by
    simpa [ClientCall.query?] using admits
  obtain ⟨edges, -, -, depicts, -, -, -, transitions, -, -, text⟩ :=
    drawing_depicts read reachable asked
  have ht : boxed ∈ s.fields := Automaton.contains_iff.1 hb
  obtain ⟨e, he, connects⟩ := exists_of_forall₂ depicts.edges.flip ((transitions _ _ _).2 ⟨hs, ht⟩)
  exact ⟨program, a, s, s', e, read, reachable, admits, ht,
    mem_partsOf_iff.2 ⟨hs', OrderedSet.contains_iff.1 shared⟩, he, connects.target, text⟩

end Analysis

end PointsTo
