import PointsTo.Proofs.Analysis.Tables
import PointsTo.Proofs.Execution.AccessPaths
import PointsTo.Proofs.Execution.Trails

/-!
# What a trail says is found

In a program without calls, an analysis that has solved its queries has found whatever the trail of a
run says (`Confirms`): the solvers bring their values to the variables that the trail leads to, and
from every variable that is traced, a backward query gets to the point where its value was made. The
proof is an induction along the run, with one lemma for each kind of instruction.

The two halves need each other at loads and stores. A name of the object counts only if a base meets
the flow there (`Confirms.meets`). The base is found because the backward query for it can be traced,
and it is recorded because the value that was found leads to it.
-/

namespace PointsTo

namespace Analysis

variable {source : String} {program : Program} {config : Config} {qs : List Query} {a : Analysis}
  {q flow : Query} {access : FieldAccess} {w w' : List Field} {point next : Point} {y z v : Var}
  {i : Instruction}

/-! ## What the trail says -/

/-- What the trail says is what was found. -/
structure Confirms (program : Program) (a : Analysis) (point : Point) (l : Locals) (heap : Heap)
    (τ : Trail) : Prop where
  leads : ∀ {y w x v}, τ.leads y w x → program.Allocates ⟨x.origin, v⟩ →
    a.Knows (.allocation program ⟨x.origin, v⟩) →
      a.Brings (.allocation program ⟨x.origin, v⟩) ⟨point, y⟩ w
  names : ∀ {o g y}, τ.names o g y → τ.leads y [] o
  traced : ∀ {y x q}, τ.traced y → l y = some x → a.Knows q → q.direction = .backward →
    (∀ previous ∈ program.predecessors point, (a.factsOf q).reached ⟨previous, y⟩) →
      Solves.Found program (a.factsOf q) x
  written : ∀ {o g y x q}, τ.names o g y → heap.field? o g = some (some x) → a.Knows q →
    q.direction = .backward →
      (∀ previous ∈ program.predecessors point, (a.factsOf q).Asks ⟨previous, y⟩ g) →
        Solves.Found program (a.factsOf q) x

namespace Confirms

variable {τ : Trail} {l l' : Locals} {heap heap' : Heap} {x o : Value} {g : Field} {dest value : Var}

theorem initial (program : Program) (a : Analysis) (entry : Point) :
    Confirms program a entry .unset .empty .empty :=
  ⟨nofun, nofun, nofun, nofun⟩

/-- Whatever the step does to the trail, it is enough to look at the point from which it comes. -/
theorem step {τ' : Trail} (hn : next ∈ program.successors point)
    (leads : ∀ {y w x v}, τ'.leads y w x → program.Allocates ⟨x.origin, v⟩ →
      a.Knows (.allocation program ⟨x.origin, v⟩) →
        a.Brings (.allocation program ⟨x.origin, v⟩) ⟨next, y⟩ w)
    (names : ∀ {o g y}, τ'.names o g y → τ'.leads y [] o)
    (traced : ∀ {y x q}, τ'.traced y → l' y = some x → a.Knows q → q.direction = .backward →
      (a.factsOf q).reached ⟨point, y⟩ → Solves.Found program (a.factsOf q) x)
    (written : ∀ {o g y x q}, τ'.names o g y → heap'.field? o g = some (some x) → a.Knows q →
      q.direction = .backward → (a.factsOf q).Asks ⟨point, y⟩ g →
        Solves.Found program (a.factsOf q) x) : Confirms program a next l' heap' τ' :=
  have before := Program.mem_predecessors.2 hn
  ⟨leads, names, fun ht hx hq hd sought => traced ht hx hq hd (sought _ before),
    fun ht hx hq hd sought => written ht hx hq hd (sought _ before)⟩

section Step

variable (h : Answers program config qs a) (parsed : Source.readProgram source = .ok program)
  (callFree : program.CallFree) (c : Confirms program a point l heap τ)
  (hi : program.instruction? point = some i) (hn : next ∈ program.successors point)
include h parsed callFree c hi

theorem leads_carried (hn : next ∈ program.successors point) (hr : ¬ i.isReturn)
    (leads : τ.leads y w x)
    (carries : ∀ p : Propagation, (p.forwardTransfer point y i).Carries w z w')
    (made : program.Allocates ⟨x.origin, v⟩) (hq : a.Knows (.allocation program ⟨x.origin, v⟩)) :
    a.Brings (.allocation program ⟨x.origin, v⟩) ⟨next, z⟩ w' :=
  h.brings_carried (Source.readProgram_named parsed) callFree.static (c.leads leads made hq) rfl hi hr
    carries hn

theorem traced_before (traced : τ.traced z) (held : l z = some x)
    (hc : ∀ p : Propagation, (z, .keep) ∈ (p.backwardTransfer point y i).carried) (hq : a.Knows q)
    (backward : q.direction = .backward) (reached : (a.factsOf q).reached ⟨point, y⟩) :
    Solves.Found program (a.factsOf q) x :=
  c.traced traced held hq backward
    (h.reached_before parsed callFree.static hq backward hi hc reached)

theorem written_before (names : τ.names o g z) (held : heap.field? o g = some (some x))
    (hc : ∀ p : Propagation, (z, .keep) ∈ (p.backwardTransfer point y i).carried) (hq : a.Knows q)
    (backward : q.direction = .backward) (asks : (a.factsOf q).Asks ⟨point, y⟩ g) :
    Solves.Found program (a.factsOf q) x :=
  c.written names held hq backward (h.asks_before parsed callFree.static hq backward hi hc asks)

variable (hn : next ∈ program.successors point)
include hn

theorem make (hr : ¬ i.isReturn) (made : program.Allocates ⟨point, dest⟩) (origin : x.origin = point)
    (kept : ∀ y ≠ dest, ∀ p : Propagation, (y, .keep) ∈ (p.forwardTransfer point y i).carried ∧
      (y, .keep) ∈ (p.backwardTransfer point y i).carried)
    (same : heap'.field? = heap.field?) :
    Confirms program a next (l.set dest (some x)) heap' (τ.make dest x) := by
  refine step hn ?_ ?_ ?_ ?_
  · intro y w z v leads hz hq
    unfold Trail.make at leads
    dsimp only at leads
    split at leads
    · next e =>
      -- the solver of the value begins here
      obtain ⟨rfl, rfl⟩ := leads
      subst e origin
      obtain rfl := made.unique hz
      exact h.brings_seed (Source.readProgram_named parsed) callFree.static hq hn
    · next e =>
      exact c.leads_carried h parsed callFree hi hn hr leads
        (fun p => ⟨.keep, (kept y e p).1, rfl⟩) hz hq
  · rintro o g y ⟨ne, names⟩
    simpa [Trail.make, ne] using c.names names
  · intro y z q traced held hq backward reached
    by_cases e : y = dest
    · subst e
      obtain rfl : x = z := by simpa using held
      exact ⟨y, origin ▸ made, origin ▸ reached⟩
    · exact c.traced_before h parsed callFree hi (traced.resolve_left e)
        (by simpa [e] using held) (fun p => (kept y e p).2) hq backward reached
  · rintro o g y z q ⟨ne, names⟩ held hq backward asks
    exact c.written_before h parsed callFree hi names (same ▸ held) (fun p => (kept y ne p).2) hq
      backward asks

/-- Every variable holds what one of them held before, and the rules of both directions say which. -/
theorem move (took : Var → Var) (hr : ¬ i.isReturn)
    (passes : ∀ y, ∀ p : Propagation, (y, .keep) ∈ (p.forwardTransfer point (took y) i).carried ∧
      (took y, .keep) ∈ (p.backwardTransfer point y i).carried) (held : ∀ y, l' y = l (took y)) :
    Confirms program a next l' heap ⟨fun y => τ.leads (took y), fun y => τ.traced (took y),
      fun o g y => τ.names o g (took y)⟩ := by
  refine step hn ?_ c.names ?_ ?_
  · intro y w x v leads made hq
    exact c.leads_carried h parsed callFree hi hn hr leads
      (fun p => ⟨.keep, (passes y p).1, rfl⟩) made hq
  · intro y x q traced hx hq backward reached
    exact c.traced_before h parsed callFree hi traced (held y ▸ hx) (fun p => (passes y p).2) hq
      backward reached
  · intro o g y x q names hx hq backward asks
    exact c.written_before h parsed callFree hi names hx (fun p => (passes y p).2) hq backward asks

end Step

end Confirms

/-! ## Where a base meets a flow -/

/-- Where a value was found, its own solver follows it. -/
theorem Answers.knows_of_found (h : Answers program config qs a) {x : Value}
    (backward : q.direction = .backward) (found : Solves.Found program (a.factsOf q) x) :
    ∃ v, program.Allocates ⟨x.origin, v⟩ ∧ a.Knows (.allocation program ⟨x.origin, v⟩) := by
  obtain ⟨v, made, reached⟩ := found
  obtain ⟨S, n, running⟩ := h.running
  have handled := running.reached h.solved.idle reached
  rw [← running.program] at made ⊢
  exact ⟨v, made, (handled.allocation backward made).2.1⟩

section Meeting

variable {τ : Trail} {l : Locals} {heap : Heap} {o : Value}
  (h : Answers program config qs a) (parsed : Source.readProgram source = .ok program)
  (callFree : program.CallFree) (c : Confirms program a access.point l heap τ)
  (ha : program.Accesses access)
include h parsed callFree c ha

/-- The base of an access meets the flows that have reached the value, if it can be traced and is led
to. -/
theorem Confirms.meets (traced : τ.traced access.base) (leads : τ.leads access.base [] o)
    (held : l access.base = some o) (hd : flow.direction = access.direction)
    (reached : (a.factsOf flow).reached access.fact) :
    a.view.flow access flow ∧ ∃ v, program.Allocates ⟨o.origin, v⟩ ∧
      a.Knows (.allocation program ⟨o.origin, v⟩) ∧
      a.view.base access (.allocation program ⟨o.origin, v⟩) := by
  have named := Source.readProgram_named parsed
  obtain ⟨S, n, running⟩ := h.running
  have idle := h.solved.idle
  have accesses : a.program.Accesses access := running.program ▸ ha
  obtain ⟨asked, isFlow⟩ := (running.reached idle reached).value hd accesses rfl
  -- the query for the base finds the object
  have found := c.traced traced held asked rfl fun previous hp =>
    h.reached_of_brings (h.brings_seed named callFree.static asked hp)
  obtain ⟨v, made, known⟩ := h.knows_of_found rfl found
  -- and the solver of the object gets to the base
  have brings := c.leads leads made known
  obtain ⟨i, e, he, reached⟩ : a.Reaches (.allocation program ⟨o.origin, v⟩) access.baseFact := by
    obtain ⟨i, e, he⟩ := known
    refine ⟨i, e, he, (running.host he).resting.mem_reached ?_⟩
    exact (factsOf_sub he).reached (h.reached_of_brings brings)
  refine ⟨isFlow, v, made, known, (running.base_iff idle accesses).2 ⟨rfl, ⟨i, e, he, reached⟩, ?_⟩⟩
  exact fun _ => (h.spells_nil_iff named known).1 brings.2

end Meeting

/-! ## Loads and stores -/

section Fields

variable {τ : Trail} {l : Locals} {heap : Heap} {o x : Value}
  (h : Answers program config qs a) (parsed : Source.readProgram source = .ok program)
  (callFree : program.CallFree) (c : Confirms program a access.point l heap τ)
  (ha : program.Accesses access) (held : l.object? access.base = some o)
  (hn : next ∈ program.successors access.point)
include h parsed callFree c ha held

namespace Confirms

section Store

variable (write : access.kind = .write)
include write hn

/-- The solver of a value that is stored brings it below the other names of the object. -/
theorem brings_stored {above below : List Field} (leads : τ.leads access.value below x)
    (connects : access.Connects y) (name : τ.leads y above o) (traced : τ.traced access.base)
    (base : τ.leads access.base [] o) (conveys : a.Conveys access ⟨next, y⟩ above)
    (made : program.Allocates ⟨x.origin, v⟩) (hq : a.Knows (.allocation program ⟨x.origin, v⟩)) :
    a.Brings (.allocation program ⟨x.origin, v⟩) ⟨next, y⟩ (above ++ access.field :: below) := by
  have hi := ha.store write
  have flow := c.leads leads made hq
  obtain ⟨isFlow, u, made', known, isBase⟩ := c.meets h parsed callFree ha traced base
    (Locals.object?_eq_some held) (by simp [Query.allocation, FieldAccess.direction, write])
    (h.reached_of_brings flow)
  have brings : a.Brings (.allocation program ⟨o.origin, u⟩) ⟨next, y⟩ above :=
    c.leads_carried h parsed callFree hi hn Bool.false_ne_true name
      (fun p => ⟨.keep, by simp [Propagation.forwardTransfer, Transfer.carry], rfl⟩) made' known
  have imports {i} := FieldAccess.mem_imports_of_write write (p := program) (i := i)
  obtain ⟨base', p, place, here, spells, done⟩ := h.conveyed isBase isFlow
    (imports.2 ⟨next, hn, rfl⟩) brings.2 conveys
  obtain ⟨next', -, rfl⟩ := imports.1 place
  obtain rfl : next' = next := here
  obtain ⟨visits, callFlow⟩ := done next' List.mem_cons_self
  exact h.brings_alias connects flow spells visits (callFlow connects) callFree.static
    (field_ne_epsilon_of_accesses (Source.readProgram_named parsed) ha)

theorem store : Confirms program a next l (heap.set o access.field (l access.value))
    (τ.store (a.Conveys access) access next o) := by
  have hi := ha.store write
  have kept (y : Var) (p : Propagation) :
      (y, .keep) ∈ (p.forwardTransfer access.point y
          (.store access.base access.field access.value)).carried ∧
        (y, .keep) ∈ (p.backwardTransfer access.point y
          (.store access.base access.field access.value)).carried := by
    simp [Propagation.forwardTransfer, Propagation.backwardTransfer, Transfer.carry]
  refine step hn ?_ ?_ ?_ ?_
  · rintro y w x v (leads | ⟨above, below, rfl, leads, into⟩) made hq
    · exact c.leads_carried h parsed callFree hi hn Bool.false_ne_true leads
        (fun p => ⟨.keep, (kept y p).1, rfl⟩) made hq
    · obtain ⟨rfl, rfl⟩ | ⟨connects, name, traced, base, conveys⟩ := into
      · refine c.leads_carried h parsed callFree hi hn Bool.false_ne_true leads
          (fun p => ⟨.push access.field, ?_, rfl⟩) made hq
        simp [Propagation.forwardTransfer, Transfer.carry]
      · exact c.brings_stored h parsed callFree ha held hn write leads connects name traced base
          conveys made hq
  · intro o' g y names
    left
    unfold Trail.store at names
    dsimp only at names
    split at names
    · next e =>
      obtain ⟨rfl, -, base⟩ := names
      exact e.1 ▸ base
    · exact c.names names
  · intro y x q traced hx hq backward reached
    exact c.traced_before h parsed callFree hi traced hx (fun p => (kept y p).2) hq backward reached
  · intro o' g y x q names hx hq backward asks
    unfold Trail.store at names
    dsimp only [Heap.set] at names hx
    split at names
    · next e =>
      obtain ⟨rfl, rfl⟩ := e
      obtain ⟨rfl, traced, -⟩ := names
      rw [if_pos ⟨rfl, rfl⟩] at hx
      refine c.traced traced (Option.some.inj hx) hq backward ?_
      refine h.reached_before_store parsed callFree.static hq backward hi
        (field_ne_epsilon_of_accesses (Source.readProgram_named parsed) ha) (fun p => ?_) asks
      simp [Propagation.backwardTransfer, Transfer.carry]
    · next e =>
      rw [if_neg e] at hx
      exact c.written_before h parsed callFree hi names hx (fun p => (kept y p).2) hq backward asks

end Store

section Load

variable (read : access.kind = .read)
include read

/-- What was loaded is found if the field was written through another name of the object. -/
theorem found_loaded (names : τ.names o access.field z) (connects : access.Connects z)
    (traced : τ.traced access.base) (base : τ.leads access.base [] o)
    (conveys : a.Conveys access ⟨access.point, z⟩ [])
    (content : heap.field? o access.field = some (some x)) (hq : a.Knows q)
    (backward : q.direction = .backward) (reached : (a.factsOf q).reached access.fact) :
    Solves.Found program (a.factsOf q) x := by
  have named := Source.readProgram_named parsed
  obtain ⟨isFlow, u, made, known, isBase⟩ := c.meets h parsed callFree ha traced base
    (Locals.object?_eq_some held) (by simp [FieldAccess.direction, read, backward]) reached
  have brings := c.leads (c.names names) made known
  have place {i} : i ∈ access.imports program ↔
      i = (access.point, program.predecessors access.point) := by
    simp [FieldAccess.imports, FieldAccess.direction, read, Supergraph.successors]
  obtain ⟨base', p, here, -, spells, done⟩ :=
    h.conveyed isBase isFlow (place.2 rfl) brings.2 conveys
  obtain rfl := place.1 here
  refine c.written names content hq backward fun previous hp => ?_
  obtain ⟨visits, callFlow⟩ := done previous hp
  have unstacked := (h.spells_nil_iff named spells.knows).1 spells
  exact h.asks_alias connects callFree.static reached hq unstacked visits (callFlow connects)

include hn

theorem load {content : Option Value} (stored : heap.field? o access.field = some content) :
    Confirms program a next (l.set access.value content) heap
      (τ.load (a.Conveys access) access o) := by
  have hi := ha.load read
  have kept {y : Var} (e : y ≠ access.value) (p : Propagation) :
      (y, .keep) ∈ (p.forwardTransfer access.point y
          (.load access.value access.base access.field)).carried ∧
        (y, .keep) ∈ (p.backwardTransfer access.point y
          (.load access.value access.base access.field)).carried := by
    simp [Propagation.forwardTransfer, Propagation.backwardTransfer, Transfer.carry, e]
  refine step hn ?_ ?_ ?_ ?_
  · intro y w x v leads made hq
    unfold Trail.load at leads
    dsimp only at leads
    split at leads
    · next e =>
      refine c.leads_carried h parsed callFree hi hn Bool.false_ne_true leads
        (fun p => ⟨.pop access.field, ?_, rfl⟩) made hq
      simp [Propagation.forwardTransfer, Transfer.carry, e]
    · next e =>
      exact c.leads_carried h parsed callFree hi hn Bool.false_ne_true leads
        (fun p => ⟨.keep, (kept e p).1, rfl⟩) made hq
  · rintro o' g y ⟨ne, names⟩
    simpa [Trail.load, ne] using c.names names
  · intro y x q traced hx hq backward reached
    unfold Trail.load at traced
    dsimp only [Locals.set] at traced hx
    split at traced
    · next e =>
      subst e
      obtain rfl : content = some x := by simpa using hx
      obtain names | ⟨traced, base, z, connects, names, conveys⟩ := traced
      · refine c.written names stored hq backward ?_
        refine h.asks_before_load parsed callFree.static hq backward hi (fun p => ?_) reached
        simp [Propagation.backwardTransfer, Transfer.carry]
      · exact c.found_loaded h parsed callFree ha held read names connects traced base conveys stored
          hq backward reached
    · next e =>
      rw [if_neg e] at hx
      exact c.traced_before h parsed callFree hi traced hx (fun p => (kept e p).2) hq backward reached
  · rintro o' g y x q ⟨ne, names⟩ hx hq backward asks
    exact c.written_before h parsed callFree hi names hx (fun p => (kept ne p).2) hq backward asks

end Load

end Confirms

end Fields

/-! ## Along a run -/

section Run

variable {s : State} {τ : Trail} (h : Answers program config qs a)
  (parsed : Source.readProgram source = .ok program) (callFree : program.CallFree)
  (trails : program.Trails a.Conveys s τ)
include h parsed callFree trails

theorem Answers.confirms : Confirms program a s.top.point s.top.locals s.heap τ := by
  induction trails with
  | @initial m entry _ => exact .initial program a entry
  | @act point next l l' heap heap' i τ _ hi ha hn c =>
    dsimp only at c ⊢
    cases i with
    | new dest type =>
      obtain ⟨rfl, rfl⟩ := Prod.mk.inj (Option.some.inj ha)
      refine c.make h parsed callFree hi hn Bool.false_ne_true (.inl ⟨type, hi⟩) rfl
        (fun y e p => ?_) rfl
      simp [Propagation.forwardTransfer, Propagation.backwardTransfer, Transfer.carry, e]
    | null dest =>
      obtain ⟨rfl, rfl⟩ := Prod.mk.inj (Option.some.inj ha)
      refine c.make h parsed callFree hi hn Bool.false_ne_true (.inr hi) rfl
        (fun y e p => ?_) rfl
      simp [Propagation.forwardTransfer, Propagation.backwardTransfer, Transfer.carry, e]
    | assign dest value =>
      obtain ⟨rfl, rfl⟩ := Prod.mk.inj (Option.some.inj ha)
      refine c.move h parsed callFree hi hn (fun y => if y = dest then value else y)
        Bool.false_ne_true (fun y p => ?_) fun y => ?_
      · by_cases e : y = dest <;>
          simp [Propagation.forwardTransfer, Propagation.backwardTransfer, Transfer.carry, e]
      · by_cases e : y = dest <;> simp [e]
    | store base field value =>
      obtain ⟨object, held, ha⟩ := Option.map_eq_some_iff.1 ha
      obtain ⟨rfl, rfl⟩ := Prod.mk.inj ha
      rw [Trail.act, held]
      have accesses : program.Accesses ⟨.write, point, base, field, value⟩ := hi
      exact c.store h parsed callFree accesses held hn rfl
    | load dest base field =>
      obtain ⟨object, held, ha⟩ := Option.bind_eq_some_iff.1 ha
      obtain ⟨content, stored, ha⟩ := Option.bind_eq_some_iff.1 ha
      obtain ⟨rfl, rfl⟩ := Prod.mk.inj (Option.some.inj ha)
      rw [Trail.act, held]
      have accesses : program.Accesses ⟨.read, point, base, field, dest⟩ := hi
      exact c.load h parsed callFree accesses held hn rfl stored
    | nop =>
      obtain ⟨rfl, rfl⟩ := Prod.mk.inj (Option.some.inj ha)
      refine c.move h parsed callFree hi hn id Bool.false_ne_true (fun y p => ?_) fun _ => rfl
      simp [Propagation.forwardTransfer, Propagation.backwardTransfer, Transfer.carry]
    | call | ret => cases ha

/-- A value is among the allocation sites of a variable that it is led to and that can be traced. -/
theorem Answers.mem_allocationSites_of_trails {x : Value}
    (asked : a.Knows (.backward ⟨s.top.point, v⟩)) (held : s.top.locals v = some x)
    (finds : τ.Finds v x) (made : program.Allocates ⟨x.origin, y⟩) :
    .allocation program ⟨x.origin, y⟩ ∈ a.allocationSites (.backward ⟨s.top.point, v⟩) := by
  have named := Source.readProgram_named parsed
  have c := h.confirms parsed callFree trails
  have found := c.traced finds.1 held asked rfl fun previous hp =>
    h.reached_of_brings (h.brings_seed named callFree.static asked hp)
  obtain ⟨y', made', known⟩ := h.knows_of_found rfl found
  obtain rfl := made.unique made'
  obtain ⟨live, spells⟩ := c.leads finds.2 made known
  obtain ⟨S, n, running⟩ := h.running
  exact running.within.mem_allocationSites_iff.2
    ⟨rfl, known, live, (h.spells_nil_iff named known).1 spells⟩

end Run

end Analysis

end PointsTo
