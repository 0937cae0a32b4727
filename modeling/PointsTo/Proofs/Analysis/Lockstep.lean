import PointsTo.Proofs.Analysis.Handlers
import PointsTo.Proofs.Analysis.Observed
import PointsTo.Proofs.Source.Reader

/-!
# Handlers with other observers

An analysis that ignores witnesses goes in step with one that has more tickets. What the second one
has beside the first are tickets without a label, and whatever is done about these leaves no trace in
the first: they are pushed behind the others, they are handed to solvers that have answered all others,
and their answers change nothing but the list of witnesses. Everything else is done on both sides, in
the same order (`Alike.handle`).
-/

namespace PointsTo

namespace Analysis

/-- Both computations stop for the same reason, or both return, with results that are related. -/
inductive Together {α β : Type} (R : α → β → Prop) : Except Halt α → Except Halt β → Prop
  | ok {x y} (h : R x y) : Together R (.ok x) (.ok y)
  | error {fault a b} : Together R (.error ⟨fault, a⟩) (.error ⟨fault, b⟩)

namespace Together

variable {α β γ δ : Type} {R R' : α → β → Prop} {S : γ → δ → Prop} {x : Except Halt α}
  {y : Except Halt β}

theorem imp (h : Together R x y) (le : ∀ a b, R a b → R' a b) : Together R' x y := by
  cases h with
  | ok h => exact .ok (le _ _ h)
  | error => exact .error

/-- Two computations that go with the same third one go together. -/
theorem trans_right {z : Except Halt γ} {R' : α → γ → Prop} {T : β → γ → Prop} (h : Together R x y)
    (h' : Together R' x z) (le : ∀ a b c, R a b → R' a c → T b c) : Together T y z := by
  cases h with
  | ok h =>
    cases h' with
    | ok h' => exact .ok (le _ _ _ h h')
  | error =>
    cases h' with
    | error => exact .error

theorem bind {f : α → Except Halt γ} {g : β → Except Halt δ} (h : Together R x y)
    (hf : ∀ a b, R a b → Together S (f a) (g b)) : Together S (x >>= f) (y >>= g) := by
  cases h with
  | ok h => exact hf _ _ h
  | error => exact .error

/-- What holds of all results of one side may be added. -/
theorem and_left {P : α → Prop} (h : Together R x y) (hx : ∀ a, x = .ok a → P a) :
    Together (fun a b => P a ∧ R a b) x y := by
  cases h with
  | ok h => exact .ok ⟨hx _ rfl, h⟩
  | error => exact .error

theorem and_right {P : β → Prop} (h : Together R x y) (hy : ∀ b, y = .ok b → P b) :
    Together (fun a b => R a b ∧ P b) x y := by
  cases h with
  | ok h => exact .ok ⟨h, hy _ rfl⟩
  | error => exact .error

theorem foldlM {ι : Type} {xs : List ι} {f : α → ι → Except Halt α} {g : β → ι → Except Halt β}
    {a : α} {b : β} (h : R a b) (step : ∀ i ∈ xs, ∀ a b, R a b → Together R (f a i) (g b i)) :
    Together R (xs.foldlM f a) (xs.foldlM g b) := by
  induction xs generalizing a b with
  | nil => exact .ok h
  | cons i xs ih =>
    rw [List.foldlM_cons, List.foldlM_cons]
    exact (step i List.mem_cons_self a b h).bind fun a b h =>
      ih h fun j hj => step j (List.mem_cons_of_mem i hj)

end Together

/-! ## The queries of an analysis -/

section Keys

variable {a b : Analysis} {i : Nat} {q x : Query}

theorem Knows.of_keys (h : a.Knows x) (sub : ∀ q ∈ a.pool.entries.keys, q ∈ b.pool.entries.keys) :
    b.Knows x := by
  obtain ⟨i, e, he⟩ := h
  have mem : x ∈ a.pool.entries.keys := by
    rw [← OrderedSet.mem_toList, ← OrderedMap.map_fst_toList]
    exact List.mem_map.2 ⟨(x, e), List.mem_of_getElem? he, rfl⟩
  obtain ⟨j, hj⟩ := List.mem_iff_getElem?.1 (OrderedSet.mem_toList.2 (sub x mem))
  exact ⟨j, Pool.indexOf?_eq_some_iff.1 (OrderedSet.indexOf?_eq_some_iff.2 hj)⟩

theorem keys_changeSolver {f : Solver → Solver} (h : a.changeSolver i f = .ok b) :
    b.pool.entries.keys = a.pool.entries.keys ∧ b.allocations = a.allocations := by
  unfold changeSolver at h
  split at h
  · cases h
    exact ⟨rfl, rfl⟩
  · cases h

theorem keys_watchContexts (h : a.watchContexts i = .ok b) :
    b.pool.entries.keys = a.pool.entries.keys := by
  unfold watchContexts at h
  split at h
  · cases h
    rfl
  · exact (keys_changeSolver h).1

theorem keys_foldlM_changeSolver {f : Point → Solver → Solver} {points : List Point}
    (h : points.foldlM (fun a point => a.changeSolver i (f point)) a = .ok b) :
    b.pool.entries.keys = a.pool.entries.keys ∧ b.allocations = a.allocations := by
  induction points generalizing a with
  | nil =>
    cases h
    exact ⟨rfl, rfl⟩
  | cons point points ih =>
    rw [List.foldlM_cons] at h
    obtain ⟨c, first, rest⟩ := bind_eq_ok.1 h
    obtain ⟨keys, allocations⟩ := ih rest
    obtain ⟨keys₀, allocations₀⟩ := keys_changeSolver first
    exact ⟨keys.trans keys₀, allocations.trans allocations₀⟩

/-- A query that is started has a solver then, and no query loses its solver. -/
theorem keys_startQuery {d : Direction} (h : a.startQuery d q = .ok (i, b)) :
    b.pool.entries.keys = a.pool.entries.keys.insert q ∧ b.pool.indexOf? q = some i ∧
      b.allocations = a.allocations := by
  have index := a.pool.indexOf?_getOrCreate q
  have keys := a.pool.keys_getOrCreate q
  suffices e : i = (a.getOrCreate q).1 ∧
      b.pool.entries.keys = (a.getOrCreate q).2.pool.entries.keys ∧
        b.allocations = (a.getOrCreate q).2.allocations by
    obtain ⟨rfl, same, allocations⟩ := e
    refine ⟨same.trans keys, ?_, allocations⟩
    exact (congrArg (OrderedSet.indexOf? · q) same).trans index
  unfold startQuery at h
  generalize a.getOrCreate q = r at h ⊢
  obtain ⟨j, a₁⟩ := r
  obtain ⟨⟨isNew, p⟩, started, rest⟩ := bind_eq_ok.1 h
  have started : a₁.pool.start j = .ok (isNew, p) := by
    unfold ask at started
    split at started
    · next result =>
      rw [result]
      exact congrArg _ (Except.ok.inj started)
    · cases started
  have keys := Pool.keys_start started
  dsimp only at rest
  split at rest
  · cases rest
    exact ⟨rfl, keys, rfl⟩
  · split at rest
    · cases rest
      exact ⟨rfl, keys, rfl⟩
    · obtain ⟨c, begun, rest⟩ := bind_eq_ok.1 rest
      obtain ⟨keys', allocations⟩ := keys_foldlM_changeSolver begun
      cases rest
      exact ⟨rfl, keys'.trans keys, allocations⟩

end Keys

/-- The analyses differ only in their observers, of which the second one may have more, and
witnesses are ignored in the first one. -/
structure Alike (L : Pairing) (a b : Analysis) : Prop where
  ignores : a.config.witnessPolicy = .ignore
  readBaseRule : a.config.readBaseRule = b.config.readBaseRule
  pool : Pool.Alike L a.pool b.pool
  quiet : b.pool.Quiet
  queue : a.queue.pending = b.queue.pending.filterMap (Pool.seen L.right)
  fieldListeners : a.fieldListeners = b.fieldListeners
  callListeners : a.callListeners = b.callListeners
  visitors : a.visitors = b.visitors
  fieldJoins : a.fieldJoins = b.fieldJoins
  callJoins : a.callJoins = b.callJoins
  allocations : a.allocations = b.allocations
  watched : a.watched = b.watched
  importedAliases : a.importedAliases = b.importedAliases
  activations : a.activations = b.activations
  foreign : a.foreign = b.foreign
  labels : L.left = some
  issued : ∀ {t k}, L.right t = some k → ∃ x, a.tickets[k]? = some x ∧ b.tickets[t]? = some x
  ticketsOf : ∀ q, a.ticketsOf q = (b.ticketsOf q).filterMap L.right
  unheard : L.heard → ∀ {t x}, b.tickets[t]? = some x → L.right t = none → x.client = none
  witnesses : ∀ x ∈ a.witnesses, x ∈ b.witnesses

namespace Alike

variable {L : Pairing} {a b : Analysis} {f f' : Solver → Solver}

/-! ## Questions -/

section Questions

variable (h : Alike L a b)
include h

theorem program : a.program = b.program := h.pool.program

theorem queryAt (i : Nat) : Together Eq (a.queryAt i) (b.queryAt i) := by
  unfold Analysis.queryAt
  rw [← h.pool.queryAt]
  cases a.pool.queryAt i with
  | ok q => exact .ok rfl
  | error fault => exact .error

theorem solverAt (i : Nat) : Together (Solver.Alike L) (a.solverAt i) (b.solverAt i) := by
  unfold Analysis.solverAt
  by_cases hi : i < a.pool.size
  · obtain ⟨q, e, he⟩ := Pool.lt_size_iff.1 hi
    obtain ⟨e', he', alike⟩ := h.pool.exists_has he
    rw [he.solverAt, he'.solverAt]
    exact .ok alike.solver.toAlike
  · unfold Pool.solverAt
    rw [Pool.value?_eq_none hi, Pool.value?_eq_none (h.pool.size ▸ hi), h.pool.size]
    exact .error

omit h in
theorem entryAt {α : Type} {value? : Option α} {i size : Nat} :
    Together Eq (a.entryAt value? i size) (b.entryAt value? i size) := by
  cases value? with
  | some value => exact .ok rfl
  | none => exact .error

theorem listenerAt (i : Nat) : Together Eq (a.listenerAt i) (b.listenerAt i) := by
  unfold Analysis.listenerAt
  rw [h.fieldListeners]
  exact entryAt

theorem callListenerAt (i : Nat) : Together Eq (a.callListenerAt i) (b.callListenerAt i) := by
  unfold Analysis.callListenerAt
  rw [h.callListeners]
  exact entryAt

theorem visitorAt (i : Nat) : Together Eq (a.visitorAt i) (b.visitorAt i) := by
  unfold Analysis.visitorAt
  rw [h.visitors]
  exact entryAt

theorem accessAt (i : Nat) : Together Eq (a.accessAt i) (b.accessAt i) := by
  unfold Analysis.accessAt
  rw [h.fieldJoins]
  exact entryAt

theorem fieldJoinAt (i : Nat) : Together Eq (a.fieldJoinAt i) (b.fieldJoinAt i) := by
  unfold Analysis.fieldJoinAt
  rw [h.fieldJoins]
  exact entryAt

theorem callJoinAt (i : Nat) : Together Eq (a.callJoinAt i) (b.callJoinAt i) := by
  unfold Analysis.callJoinAt
  rw [h.callJoins]
  exact entryAt

end Questions

/-! ## Small steps -/

theorem record (h : Alike L a b) (entry : Entry) : Alike L (a.record entry) (b.record entry) :=
  { h with pool := h.pool.record entry }

theorem changeSolver (h : Alike L a b)
    (hf : ∀ {s s'}, Solver.Paired L s s' → Solver.Paired L (f s) (f' s')) (i : Nat) :
    Together (Alike L) (a.changeSolver i f) (b.changeSolver i f') := by
  unfold Analysis.changeSolver
  rw [h.pool.size]
  split
  · exact .ok { h with pool := h.pool.modify hf i, quiet := h.quiet.modify i f' }
  · exact .error

theorem getOrCreate (h : Alike L a b) (q : Query) : ∃ i a₁ b₁,
    a.getOrCreate q = (i, a₁) ∧ b.getOrCreate q = (i, b₁) ∧ Alike L a₁ b₁ := by
  obtain ⟨same, created⟩ := h.pool.getOrCreate q
  refine ⟨(a.pool.getOrCreate q).1, { a with pool := (a.pool.getOrCreate q).2 },
    { b with pool := (b.pool.getOrCreate q).2 }, rfl, ?_,
    { h with pool := created, quiet := h.quiet.getOrCreate q }⟩
  rw [same]
  rfl

theorem fieldJoin (h : Alike L a b) (access : FieldAccess) : ∃ i a₁ b₁,
    a.fieldJoin access = (i, a₁) ∧ b.fieldJoin access = (i, b₁) ∧ Alike L a₁ b₁ := by
  unfold Analysis.fieldJoin
  rw [h.fieldJoins]
  split
  · exact ⟨_, _, _, rfl, rfl, h⟩
  · exact ⟨_, _, _, rfl, rfl, { h with fieldJoins := rfl }⟩

theorem callJoin (h : Alike L a b) (site returnSite : Point) : ∃ i a₁ b₁,
    a.callJoin site returnSite = (i, a₁) ∧ b.callJoin site returnSite = (i, b₁) ∧
      Alike L a₁ b₁ := by
  unfold Analysis.callJoin
  rw [h.callJoins]
  split
  · exact ⟨_, _, _, rfl, rfl, h⟩
  · exact ⟨_, _, _, rfl, rfl, { h with callJoins := rfl }⟩

/-- A listener is added and subscribed. -/
theorem subscribe (h : Alike L a b) (l : FieldListener) (i : Nat)
    (subscription : Subscription FieldState) :
    Together (Alike L)
      ((a.addFieldListener l).2.changeSolver i fun s =>
        s.subscribeField subscription (a.addFieldListener l).1)
      ((b.addFieldListener l).2.changeSolver i fun s =>
        s.subscribeField subscription (b.addFieldListener l).1) := by
  have added : Alike L (a.addFieldListener l).2 (b.addFieldListener l).2 :=
    { h with fieldListeners := congrArg (·.push l) h.fieldListeners }
  refine added.changeSolver (fun {s s'} paired => ?_) i
  show Solver.Paired L (s.subscribeField subscription a.fieldListeners.size) _
  rw [h.fieldListeners]
  exact paired.subscribeField _ _

/-! ## Starting queries -/

theorem startQuery (h : Alike L a b) (d : Direction) (q : Query) :
    Together (fun r r' => r.1 = r'.1 ∧ Alike L r.2 r'.2) (a.startQuery d q) (b.startQuery d q) := by
  obtain ⟨i, a₁, b₁, e, e', created⟩ := h.getOrCreate q
  have hi : i < a₁.pool.size := by
    obtain ⟨_, known⟩ := Pool.indexOf?_eq_some_iff.1 (a.pool.indexOf?_getOrCreate q)
    obtain ⟨rfl, rfl⟩ := Prod.mk.inj e
    exact Pool.lt_size_iff.2 ⟨q, _, known⟩
  unfold Analysis.startQuery
  rw [e, e']
  obtain ⟨isNew, p, p', start, start', begun⟩ := created.pool.start hi
  dsimp only at start start' ⊢
  rw [start, start']
  have started : Alike L { a₁ with pool := p } { b₁ with pool := p' } :=
    { created with pool := begun, quiet := created.quiet.start start' }
  show Together _ (if (!isNew) = true then _ else _) (if (!isNew) = true then _ else _)
  split
  · exact .ok ⟨rfl, started⟩
  · split
    · exact .ok ⟨rfl, started.record _⟩
    · have program : p.program = p'.program := begun.program
      show Together _ (List.foldlM _ _ ((⟨p.program, d⟩ : Supergraph).successors q.fact.point) >>= _)
        (List.foldlM _ _ ((⟨p'.program, d⟩ : Supergraph).successors q.fact.point) >>= _)
      rw [program]
      refine (Together.foldlM (started.record (.solving q)) fun next _ a b h =>
        h.changeSolver (fun h => h.perform (.solve ⟨next, q.fact.var⟩)) i).bind fun a b h => ?_
      exact .ok ⟨rfl, h⟩

/-! ## Tickets -/

/-- The tickets of a query after another one was taken. -/
theorem ticketsOf_push (a : Analysis) (x : Ticket) (q : Query) :
    ({ a with tickets := a.tickets.push x } : Analysis).ticketsOf q =
      a.ticketsOf q ++ if x.query = q then [a.tickets.size] else [] := by
  unfold Analysis.ticketsOf
  dsimp only
  rw [Array.size_push, List.range_succ, List.filter_append]
  congr 1
  · refine List.filter_congr fun i hi => ?_
    rw [Array.getElem?_push_lt (List.mem_range.1 hi), Array.getElem?_eq_getElem]
  · rw [List.filter_singleton, Array.getElem?_push_size]
    simp

/-- The next ticket is not seen yet. -/
theorem right_size (h : Alike L a b) : L.right b.tickets.size = none := by
  refine Option.eq_none_iff_forall_ne_some.2 fun k seen => ?_
  obtain ⟨y, -, hy⟩ := h.issued seen
  simp at hy

/-- A ticket that nobody sees makes no difference. -/
theorem pushTicket_right (h : Alike L a b) (x : Ticket) (unheard : L.heard → x.client = none) :
    Alike L a { b with tickets := b.tickets.push x } :=
  { h with
    issued := fun seen =>
      have ⟨y, hy, hy'⟩ := h.issued seen
      ⟨y, hy, getElem?_push_of_some hy'⟩
    ticketsOf := fun q => by
      rw [ticketsOf_push, List.filterMap_append, ← h.ticketsOf]
      split <;> simp [h.right_size]
    unheard := fun heard {t y} hy seen => by
      obtain hy | ⟨-, rfl⟩ := getElem?_push_cases hy
      · exact h.unheard heard hy seen
      · exact unheard heard }

/-- The second side changes a solver in a way that makes no difference. -/
theorem changeSolver_right (h : Alike L a b)
    (hf : ∀ {s s'}, Solver.Paired L s s' → Solver.Paired L s (f s'))
    (silent : ∀ s, (f s).notices = s.notices) {i : Nat} (hi : i < b.pool.size) :
    Yields (b.changeSolver i f) fun c =>
      Alike L a c ∧ c.pool.entries.keys = b.pool.entries.keys :=
  ⟨{ b with pool := b.pool.modify i f }, if_pos hi,
    { h with pool := h.pool.modify_right h.quiet hf silent i, quiet := h.quiet.modify i f }, rfl⟩

theorem requestTicket_right (h : Alike L a b) (fact : Fact) {ticket i : Nat}
    (unseen : L.right ticket = none) (hi : i < b.pool.size) :
    Yields (requestTicket fact ticket b i) fun c =>
      Alike L a c ∧ c.pool.entries.keys = b.pool.entries.keys :=
  h.changeSolver_right (fun h => h.requestTicket_right fact unseen)
    (fun s => s.notices_requestTicket fact ticket) hi

/-- Solvers that are there are asked to answer a ticket that nobody sees. -/
theorem requestTicket_each_right (h : Alike L a b) (fact : Fact) {ticket : Nat}
    (unseen : L.right ticket = none) {xs : List Query} (known : ∀ x ∈ xs, b.Knows x) :
    Yields (xs.foldlM (fun b x => requestTicket fact ticket (b.getOrCreate x).2
      (b.getOrCreate x).1) b) (Alike L a) := by
  induction xs generalizing b with
  | nil => exact .ok h
  | cons x xs ih =>
    rw [List.forall_mem_cons] at known
    obtain ⟨⟨k, hk⟩, known⟩ := known
    rw [List.foldlM_cons, hk.getOrCreate]
    obtain ⟨e, he⟩ := hk
    refine (h.requestTicket_right fact unseen (Pool.lt_size_iff.2 ⟨x, e, he⟩)).bind ?_
    exact fun c ⟨alike, keys⟩ => ih alike fun y hy => (known y hy).of_keys fun _ => keys ▸ id

/-- A solver is asked to answer some tickets. Those that are seen are asked for on both sides. -/
theorem requestTickets (h : Alike L a b) (fact : Fact) {i : Nat} (hi : i < b.pool.size)
    {tickets tickets' : List Nat} (same : tickets = tickets'.filterMap L.right) :
    Together (Alike L) (tickets.foldlM (fun a ticket => requestTicket fact ticket a i) a)
      (tickets'.foldlM (fun b ticket => requestTicket fact ticket b i) b) := by
  induction tickets' generalizing tickets a b with
  | nil =>
    subst same
    exact .ok h
  | cons ticket tickets' ih =>
    rw [List.foldlM_cons]
    cases seen : L.right ticket with
    | none =>
      rw [List.filterMap_cons_none seen] at same
      obtain ⟨c, result, alike, keys⟩ := h.requestTicket_right fact seen hi
      rw [result]
      exact ih alike (lt_of_lt_of_eq hi (congrArg OrderedSet.size keys).symm) same
    | some k =>
      rw [List.filterMap_cons_some seen] at same
      subst same
      rw [List.foldlM_cons]
      have left : L.left k = some k := congrFun h.labels k
      refine ((h.changeSolver (fun h => h.requestTicket fact left seen) i).and_right
        fun _ => keys_changeSolver).bind fun a b ⟨alike, keys, _⟩ => ?_
      exact ih alike (lt_of_lt_of_eq hi (congrArg OrderedSet.size keys).symm) rfl

/-- A query is started on both sides, and a listener without counterpart takes a ticket. -/
theorem startBackward_right (h : Alike L a b) (q : Query)
    (known : ∀ x ∈ b.allocations.of q, b.Knows x) {listener : Option (Option Nat)}
    (unheard : L.heard → ∀ client, listener = some client → client = none) :
    Together (Alike L) (a.startBackward q none) (b.startBackward q listener) := by
  unfold Analysis.startBackward
  refine ((h.startQuery .backward q).and_right fun _ => keys_startQuery).bind ?_
  rintro ⟨i, a₁⟩ ⟨j, b₁⟩ ⟨⟨-, alike⟩, keys, -, allocations⟩
  dsimp only at alike keys allocations ⊢
  have known₁ : ∀ x ∈ b₁.allocations.of q, b₁.Knows x := by
    rw [allocations]
    exact fun x hx => (known x hx).of_keys fun y hy =>
      keys ▸ OrderedSet.mem_insert.2 (.inl hy)
  cases listener with
  | none => exact .ok alike
  | some client =>
    dsimp only
    have unseen : L.right b₁.tickets.size = none := alike.right_size
    have taken := alike.pushTicket_right ⟨q, client⟩ fun heard => unheard heard client rfl
    obtain ⟨c, result, alike'⟩ := taken.requestTicket_each_right q.fact unseen known₁
    have same : Except.ok c = _ := result.symm
    exact same ▸ .ok alike'

/-- A query that the analysis poses itself is started on both sides, and witnesses are recorded on
the second one at most. -/
theorem spawnBackward (h : Alike L a b) (known : ∀ {q x}, x ∈ b.allocations.of q → b.Knows x)
    (q : Query) : Together (Alike L) (a.spawnBackward q) (b.spawnBackward q) := by
  unfold Analysis.spawnBackward
  rw [h.pool.indexOf?, h.ignores]
  cases b.pool.indexOf? q with
  | some i => exact .ok h
  | none =>
    have start {listener : Option (Option Nat)}
        (unheard : L.heard → ∀ client, listener = some client → client = none) :
        Together (Alike L) (a.startBackward q none) (b.startBackward q listener) :=
      h.startBackward_right q (fun _ => known) unheard
    cases b.config.witnessPolicy with
    | ignore => exact start nofun
    | record => exact start fun _ _ e => (Option.some.inj e).symm

/-! ## Visiting -/

theorem startVisit (h : Alike L a b) (solver : Nat) (state : FieldState) (action : VisitAction) :
    Together (Alike L) (a.startVisit solver state action) (b.startVisit solver state action) := by
  let send (a : Analysis) : Analysis :=
    { a with
      fieldListeners := a.fieldListeners.push (.visit a.visitors.size)
      visitors := a.visitors.push ⟨solver, a.fieldListeners.size, .ofList [state], action⟩ }
  have sent : Alike L (send a) (send b) := { h with
    fieldListeners := by
      show a.fieldListeners.push _ = b.fieldListeners.push _
      rw [h.fieldListeners, h.visitors]
    visitors := by
      show a.visitors.push _ = b.visitors.push _
      rw [h.fieldListeners, h.visitors] }
  exact sent.changeSolver (fun paired => h.fieldListeners ▸ paired.subscribeField _ _) solver

/-! ## Joins at field accesses -/

theorem execute (h : Alike L a b) (join : Nat) (pair : Query × Query) :
    Together (Alike L) (execute join a pair) (execute join b pair) := by
  unfold Analysis.execute
  refine (h.accessAt join).bind ?_
  rintro access _ rfl
  obtain ⟨base, a₁, b₁, e₁, e₁', first⟩ :=
    (h.record (.executing access pair.1 pair.2)).getOrCreate pair.1
  obtain ⟨flow, a₂, b₂, e₂, e₂', second⟩ := first.getOrCreate pair.2
  dsimp only
  rw [e₁, e₁']
  dsimp only
  rw [e₂, e₂']
  refine (second.solverAt flow).bind fun s s' alike => ?_
  have successors : s.successors access.point = s'.successors access.point :=
    congrArg (·.graph.successors access.point) alike.propagation
  dsimp only
  rw [successors]
  split
  · refine (second.queryAt flow).bind ?_
    rintro q _ rfl
    exact .error
  · exact Together.foldlM second fun imports _ _ _ h => h.subscribe _ base .any

theorem changeFieldJoin (h : Alike L a b) (join : Nat)
    (f : FieldJoin → List (Query × Query) × FieldJoin) :
    Together (Alike L) (a.changeFieldJoin join f) (b.changeFieldJoin join f) := by
  unfold Analysis.changeFieldJoin
  refine (h.fieldJoinAt join).bind ?_
  rintro j _ rfl
  have changed : Alike L { a with fieldJoins := a.fieldJoins.modify join fun _ => (f j).2 }
      { b with fieldJoins := b.fieldJoins.modify join fun _ => (f j).2 } :=
    { h with fieldJoins := congrArg (·.modify join fun _ => (f j).2) h.fieldJoins }
  exact Together.foldlM changed fun pair _ _ _ h => h.execute join pair

theorem addBase (h : Alike L a b) (solver join : Nat) :
    Together (Alike L) (a.addBase solver join) (b.addBase solver join) := by
  unfold Analysis.addBase
  refine (h.queryAt solver).bind ?_
  rintro q _ rfl
  exact h.changeFieldJoin join _

theorem watchBase (h : Alike L a b) (solver : Nat) (fact : Fact) (join : Nat) :
    Together (Alike L) (a.watchBase solver fact join) (b.watchBase solver fact join) :=
  h.subscribe _ solver _

theorem importAlias (h : Alike L a b) (base join flow : Nat) (basePoint : Point)
    (flowPoints : List Point) (t : FieldTransition) :
    Together (Alike L) (a.importAlias base join flow basePoint flowPoints t)
      (b.importAlias base join flow basePoint flowPoints t) := by
  unfold Analysis.importAlias
  split
  · next start _ =>
    split
    · exact .ok h
    · refine (h.fieldJoinAt join).bind ?_
      rintro j _ rfl
      refine (h.queryAt flow).bind ?_
      rintro q _ rfl
      dsimp only
      generalize j.addAlias q start.var = r
      obtain ⟨isNew, j'⟩ := r
      dsimp only
      split
      · exact .ok h
      · have imported : Alike L
            { a with
              fieldJoins := a.fieldJoins.modify join fun _ => j'
              importedAliases := a.importedAliases + 1 }
            { b with
              fieldJoins := b.fieldJoins.modify join fun _ => j'
              importedAliases := b.importedAliases + 1 } := { h with
          fieldJoins := congrArg (·.modify join fun _ => j') h.fieldJoins
          importedAliases := congrArg (· + 1) h.importedAliases }
        refine Together.foldlM (imported.record _) fun point _ _ _ h => ?_
        refine (h.startVisit base t.start _).bind fun _ _ h => ?_
        split
        · exact h.changeSolver (fun h => h.perform (.addCallFlow _ _)) flow
        · exact .ok h
  · exact .ok h

/-! ## Joins at call sites -/

theorem activate (h : Alike L a b) (join : Nat) (activation : Activation) :
    Together (Alike L) (activate join a activation) (activate join b activation) := by
  unfold Analysis.activate
  refine (h.callJoinAt join).bind ?_
  rintro j _ rfl
  have counted : Alike L { a with activations := a.activations + 1 }
      { b with activations := b.activations + 1 } :=
    { h with activations := congrArg (· + 1) h.activations }
  obtain ⟨bypassing, a₁, b₁, e₁, e₁', first⟩ :=
    (counted.record (.activating j.site j.returnSite activation)).getOrCreate activation.bypassing
  obtain ⟨flow, a₂, b₂, e₂, e₂', second⟩ := first.getOrCreate activation.flow.query
  dsimp only
  rw [e₁, e₁']
  dsimp only
  rw [e₂, e₂']
  refine (second.startVisit bypassing _ _).bind fun _ _ h => ?_
  refine h.changeSolver (fun {s s'} paired => ?_) flow
  let bypass : Fact := ⟨j.returnSite, activation.var⟩
  have connected : Solver.Paired L
      (if activation.flow.state.isGenerated then s.connectAlias bypass activation.flow.state else s)
      (if activation.flow.state.isGenerated then s'.connectAlias bypass activation.flow.state
        else s') := by
    split
    · exact paired.perform (.connectAlias bypass activation.flow.state)
    · exact paired
  let returned : Fact := ⟨j.returnSite, activation.flow.returned⟩
  exact (connected.perform (.addFieldFlow returned bypass)).perform (.addCallFlow returned bypass)

theorem changeCallJoin (h : Alike L a b) (join : Nat)
    (f : CallJoin → List Activation × CallJoin) :
    Together (Alike L) (a.changeCallJoin join f) (b.changeCallJoin join f) := by
  unfold Analysis.changeCallJoin
  refine (h.callJoinAt join).bind ?_
  rintro j _ rfl
  have changed : Alike L { a with callJoins := a.callJoins.modify join fun _ => (f j).2 }
      { b with callJoins := b.callJoins.modify join fun _ => (f j).2 } :=
    { h with callJoins := congrArg (·.modify join fun _ => (f j).2) h.callJoins }
  exact Together.foldlM changed fun activation _ _ _ h => h.activate join activation

/-! ## Transitions -/

theorem act (h : Alike L a b) (source : Nat) (action : VisitAction) (t : FieldTransition) :
    Together (Alike L) (a.act source action t) (b.act source action t) := by
  cases action with
  | importInto flow join old new connect =>
    let rename (state : FieldState) := if state = old then new else state
    have copy {a b : Analysis} (h : Alike L a b) :=
      h.changeSolver (fun paired => paired.perform
        (.addFieldTransition ⟨rename t.start, t.label, rename t.target⟩)) flow
    refine (h.solverAt source).bind fun s s' alike => ?_
    rw [Solver.seedState, Solver.seedState, alike.seed]
    dsimp only
    split
    · refine (h.accessAt join).bind ?_
      rintro access _ rfl
      refine (h.changeSolver (fun paired => paired.perform
        (.connectBase (rename t.start) access.field access.fact)) flow).bind fun _ _ h => ?_
      exact copy h
    · exact copy h
  | flowAllocation join returned =>
    obtain ⟨start, label, target⟩ := t
    dsimp only [Analysis.act]
    split
    · refine (h.queryAt source).bind ?_
      rintro q _ rfl
      rw [h.program]
      exact h.changeCallJoin join _
    · exact .ok h
  | splice flow => exact h.changeSolver (fun paired => paired.perform (.addFieldTransition t)) flow
  | baseAllocation join =>
    refine (h.solverAt source).bind fun s s' alike => ?_
    rw [Solver.seedState, Solver.seedState, alike.seed]
    split
    · exact h.addBase source join
    · exact .ok h

theorem visit (h : Alike L a b) (visitor : Nat) (t : FieldTransition) :
    Together (Alike L) (a.visit visitor t) (b.visit visitor t) := by
  unfold Analysis.visit
  refine (h.visitorAt visitor).bind ?_
  rintro v _ rfl
  refine (h.act v.solver v.action t).bind fun a b h => ?_
  split
  · exact .ok h
  · next visited _ =>
    have came : Alike L (a.comeTo visitor visited) (b.comeTo visitor visited) :=
      { h with visitors := congrArg (·.modify visitor fun y => { y with visited }) h.visitors }
    exact came.changeSolver (fun paired => paired.subscribeField _ _) v.solver

theorem onFieldTransition (h : Alike L a b) (i listener : Nat) (t : FieldTransition) :
    Together (Alike L) (a.onFieldTransition i listener t) (b.onFieldTransition i listener t) := by
  unfold Analysis.onFieldTransition
  refine (h.listenerAt listener).bind ?_
  rintro l _ rfl
  cases l with
  | baseAllocation join =>
    refine (h.solverAt i).bind fun s s' alike => ?_
    rw [Solver.seedState, Solver.seedState, alike.seed]
    dsimp only
    split
    · exact h.addBase i join
    · exact .ok h
  | importAliases join flow basePoint flowPoints => exact h.importAlias i join flow _ _ t
  | visit visitor => exact h.visit visitor t

theorem onCallTransition (h : Alike L a b) (i listener : Nat) (t : CallTransition) :
    Together (Alike L) (a.onCallTransition i listener t) (b.onCallTransition i listener t) := by
  unfold Analysis.onCallTransition
  refine (h.callListenerAt listener).bind ?_
  rintro l _ rfl
  cases l with
  | unbalancedFlow =>
    dsimp only
    split
    · next point _ => exact h.changeSolver (fun paired => paired.perform (.addUnbalanced _)) i
    · exact .ok h

/-! ## Facts that are reached -/

theorem watchContexts (h : Alike L a b) (solver : Nat) :
    Together (Alike L) (a.watchContexts solver) (b.watchContexts solver) := by
  unfold Analysis.watchContexts
  rw [h.watched]
  split
  · exact .ok h
  · next watched _ =>
    let watch (a : Analysis) : Analysis :=
      { a with watched, callListeners := a.callListeners.push .unbalancedFlow }
    have watches : Alike L (watch a) (watch b) := { h with
      watched := rfl
      callListeners := congrArg (·.push .unbalancedFlow) h.callListeners }
    exact watches.changeSolver (fun paired => h.callListeners ▸ paired.subscribeCall _ _) solver

/-- The tickets that go to an allocation are, on both sides, those that are seen and others that
make no difference. -/
theorem foundAllocation (h : Alike L a b) (q : Query) (fact : Fact) :
    Together (Alike L) (a.foundAllocation q fact) (b.foundAllocation q fact) := by
  unfold Analysis.foundAllocation
  rw [h.program]
  have found : Alike L
      { a with allocations := a.allocations.insert q (.allocation b.program fact) }
      { b with allocations := b.allocations.insert q (.allocation b.program fact) } :=
    { h with allocations := congrArg (·.insert q (.allocation b.program fact)) h.allocations }
  refine ((found.startQuery .forward _).and_right fun _ => keys_startQuery).bind ?_
  rintro ⟨i, a₁⟩ ⟨_, b₁⟩ ⟨⟨rfl, h₁⟩, -, index, -⟩
  refine ((h₁.watchContexts i).and_right fun _ => keys_watchContexts).bind fun a₂ b₂ ⟨h₂, keys⟩ => ?_
  have hi : i < b₂.pool.size := by
    obtain ⟨e, he⟩ := Pool.indexOf?_eq_some_iff.1 index
    exact lt_of_lt_of_eq (Pool.lt_size_iff.2 ⟨_, e, he⟩) (congrArg OrderedSet.size keys).symm
  exact h₂.requestTickets q.fact hi (h₂.ticketsOf q)

theorem reachedValue (h : Alike L a b) (known : ∀ {q x}, x ∈ b.allocations.of q → b.Knows x)
    (q : Query) (access : FieldAccess) :
    Together (Alike L) (a.reachedValue q access) (b.reachedValue q access) := by
  unfold Analysis.reachedValue
  refine (h.spawnBackward known _).bind fun a b h => ?_
  obtain ⟨join, a₁, b₁, e, e', joined⟩ := h.fieldJoin access
  rw [e, e']
  exact joined.changeFieldJoin join _

theorem backwardReached (h : Alike L a b) (known : ∀ {q x}, x ∈ b.allocations.of q → b.Knows x)
    (q : Query) (fact : Fact) :
    Together (Alike L) (a.backwardReached q fact) (b.backwardReached q fact) := by
  unfold Analysis.backwardReached
  rw [h.program]
  split
  · split
    · exact h.foundAllocation q fact
    · exact .ok h
  · split
    · exact h.foundAllocation q fact
    · exact .ok h
  · split
    · exact h.reachedValue known q _
    · exact .ok h
  · exact .ok h

theorem reachedReadBase (h : Alike L a b) (i : Nat) (fact : Fact) (access : FieldAccess) :
    Together (Alike L) (a.reachedReadBase i fact access) (b.reachedReadBase i fact access) := by
  unfold Analysis.reachedReadBase
  obtain ⟨join, a₁, b₁, e, e', joined⟩ := h.fieldJoin access
  rw [e, e']
  dsimp only
  rw [joined.readBaseRule]
  split
  · exact joined.watchBase i fact join
  · exact joined.startVisit i _ _

theorem forwardReached (h : Alike L a b) (known : ∀ {q x}, x ∈ b.allocations.of q → b.Knows x)
    (i : Nat) (q : Query) (fact : Fact) :
    Together (Alike L) (a.forwardReached i q fact) (b.forwardReached i q fact) := by
  unfold Analysis.forwardReached
  rw [h.program]
  split
  · next base field value _ =>
    let access : FieldAccess := ⟨.write, fact.point, base, field, value⟩
    have second {a b : Analysis} (h : Alike L a b) : Together (Alike L)
        (if base = fact.var then (a.fieldJoin access).2.watchBase i fact (a.fieldJoin access).1
          else pure a)
        (if base = fact.var then (b.fieldJoin access).2.watchBase i fact (b.fieldJoin access).1
          else pure b) := by
      obtain ⟨join, a₁, b₁, e, e', joined⟩ := h.fieldJoin access
      rw [e, e']
      split
      · exact joined.watchBase i fact join
      · exact .ok h
    show Together _ (if value = fact.var then a.reachedValue q access >>= _ else pure a >>= _)
      (if value = fact.var then b.reachedValue q access >>= _ else pure b >>= _)
    split
    · exact (h.reachedValue known q access).bind fun _ _ h => second h
    · exact second h
  · split
    · exact h.reachedReadBase i fact _
    · exact .ok h
  · exact .ok h

/-! ## Announcements -/

/-- An answer that is seen goes to the same holder on both sides. -/
theorem onWitness (h : Alike L a b) {ticket k : Nat} (seen : L.right ticket = some k) (seed : Fact) :
    Together (Alike L) (a.onWitness k seed) (b.onWitness ticket seed) := by
  obtain ⟨t, held, held'⟩ := h.issued seen
  unfold Analysis.onWitness
  rw [show a.ticketAt k = .ok t from entryAt_eq held,
    show b.ticketAt ticket = .ok t from entryAt_eq held']
  have noted {a b : Analysis} (h : Alike L a b) : Alike L
      { a with witnesses := a.witnesses.insert (t.query, seed) }
      { b with witnesses := b.witnesses.insert (t.query, seed) } := { h with
    witnesses := fun x hx => by
      rw [OrderedSet.mem_insert] at hx ⊢
      exact hx.imp_left (h.witnesses x) }
  obtain ⟨query, client⟩ := t
  cases client with
  | some client => exact .ok (noted (h.record _))
  | none => exact .ok (noted h)

/-- An answer that is not seen is noted, and that is all. -/
theorem onWitness_right (h : Alike L a b) {ticket : Nat} {t : Ticket}
    (held : b.tickets[ticket]? = some t) (unseen : L.right ticket = none) (seed : Fact) :
    Yields (b.onWitness ticket seed) (Alike L a) := by
  unfold Analysis.onWitness
  rw [show b.ticketAt ticket = .ok t from entryAt_eq held]
  have noted {b : Analysis} (h : Alike L a b) :
      Alike L a { b with witnesses := b.witnesses.insert (t.query, seed) } := { h with
    witnesses := fun x hx => OrderedSet.mem_insert.2 (.inl (h.witnesses x hx)) }
  obtain ⟨query, client⟩ := t
  cases client with
  | some client =>
    have unheard : ¬ L.heard := fun heard => nomatch h.unheard heard held unseen
    have recorded : Alike L a (b.record (.found client query seed)) :=
      { h with pool := { h.pool with journal := fun heard => absurd heard unheard } }
    exact .ok (noted recorded)
  | none => exact .ok (noted h)

/-- An event that is seen is handled on both sides. -/
theorem handle (h : Alike L a b) (known : ∀ {q x}, x ∈ b.allocations.of q → b.Knows x) (i : Nat)
    {event event' : Event} (seen : event'.seen L.right = some event) :
    Together (Alike L) (a.handle i event) (b.handle i event') := by
  unfold Analysis.handle
  cases event' with
  | reached fact =>
    obtain rfl : Event.reached fact = event := Option.some.inj seen
    refine (h.queryAt i).bind ?_
    rintro q _ rfl
    split
    · exact h.forwardReached known i q fact
    · exact h.backwardReached known q fact
  | fieldTransition listener t =>
    obtain rfl : Event.fieldTransition listener t = event := Option.some.inj seen
    exact h.onFieldTransition i listener t
  | callTransition listener t =>
    obtain rfl : Event.callTransition listener t = event := Option.some.inj seen
    exact h.onCallTransition i listener t
  | announced announcement =>
    cases announcement with
    | returned site fact =>
      obtain rfl : Event.announced (.returned site fact) = event := Option.some.inj seen
      obtain ⟨join, a₁, b₁, e, e', joined⟩ := h.callJoin site fact.point
      dsimp only
      rw [e, e']
      exact joined.startVisit i _ _
    | bypassed site returnSite var =>
      obtain rfl : Event.announced (.bypassed site returnSite var) = event := Option.some.inj seen
      obtain ⟨join, a₁, b₁, e, e', joined⟩ := h.callJoin site returnSite
      dsimp only
      rw [e, e']
      refine (joined.queryAt i).bind ?_
      rintro q _ rfl
      exact joined.changeCallJoin join _
    | witnessed ticket seed =>
      rw [Event.seen_announced, Announcement.seen_witnessed, Option.map_map,
        Option.map_eq_some_iff] at seen
      obtain ⟨k, seen, rfl⟩ := seen
      exact h.onWitness seen seed

end Alike

end Analysis

end PointsTo
