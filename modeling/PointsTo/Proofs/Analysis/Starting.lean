import PointsTo.Proofs.Analysis.Steps

/-!
# Starting queries

The solver of a new query is created, marked as started, and given the variable of the seed at each
point next to the seed (`yields_startQuery`). On the way the solver is `Nascent`: it has no
subscriptions yet, and its propagation has begun at some of these points.
-/

namespace PointsTo

/-- A solver whose propagation has begun at some points. -/
structure Nascent (w : Realm) (p : Program) (q : Query) (done : List Point) (e : PoolEntry) :
    Prop where
  seed : e.solver.seed = q.fact
  direction : e.solver.direction = q.direction
  graph : e.solver.graph = ⟨p, q.direction⟩
  tidy : e.Tidy
  resting : e.solver.Resting
  below : e.solver.Below (w.ways q.direction) (w.facts q)
  started : e.started
  fields : e.solver.fields.subscriptions = []
  calls : e.solver.calls.subscriptions = []
  tickets : e.solver.tickets = []
  opened : e.solver.facts.opened q.fact.point.method
  productive : e.solver.facts.productive (.alloc q.fact)
  begun : ∀ next ∈ done, (Operation.solve ⟨next, q.fact.var⟩).Grants q.fact e.solver.facts

namespace Analysis

variable {w : Realm} {a b c : Analysis} {i : Nat} {q : Query} {done : List Point}

/-- A query is being started at a position. -/
structure Starting (w : Realm) (a : Analysis) (i : Nat) (q : Query) (done : List Point) (p : Pool) :
    Prop where
  program : p.program = a.program
  nascent : ∃ e, p.Has i q e ∧ Nascent w a.program q done e
  old : ∀ {j q e}, a.pool.Has j q e → ∃ e', p.Has j q e' ∧ e.Revised [] e'
  new : ∀ {j q' e'}, p.Has j q' e' → j = i ∨ ∃ e, a.pool.Has j q' e ∧ e.Revised [] e'
  fresh : ∀ {q e}, ¬ a.pool.Has i q e
  delivered : p.delivered = a.pool.delivered
  told : p.told = a.pool.told

theorem Starting.grows {p : Pool} (s : Starting w a i q done p) : Grows a { a with pool := p } :=
  { Grows.refl a with
    program := s.program
    entry := fun he => by
      obtain ⟨e', he', r⟩ := s.old he
      exact ⟨e', he', r.alters.toLater⟩ }

theorem Starting.resting {p : Pool} (s : Starting w a i q done p) {j : Nat} {q' : Query}
    {e : PoolEntry} (he : p.Has j q' e) : e.solver.Resting := by
  obtain rfl | ⟨_, _, r⟩ := s.new he
  · obtain ⟨e', he', n⟩ := s.nascent
    exact (he.unique he').2 ▸ n.resting
  · exact r.alters.resting

/-- Once the propagation has begun everywhere, the new solver is like the others. -/
theorem Starting.finish (h : a.Within w) (hw : w.query q) {p : Pool} (s : Starting w a i q done p)
    (all : w.reversed q ∨
      (⟨a.program, q.direction⟩ : Supergraph).successors q.fact.point = done) :
    Advances w 0 a { a with pool := p } ∧ Index { a with pool := p } i q := by
  obtain ⟨e₀, he₀, n⟩ := s.nascent
  have g := s.grows
  have cases {j q' e'} (he' : p.Has j q' e') :
      (q' = q ∧ e' = e₀) ∨ ∃ e, a.pool.Has j q' e ∧ e.Revised [] e' := by
    obtain rfl | old := s.new he'
    · exact .inl (he'.unique he₀)
    · exact .inr old
  have hosts : Hosts w a.program q e₀ :=
    ⟨hw, n.seed, n.direction, n.graph, n.tidy, n.resting, n.below, n.started, n.opened, n.productive,
      fun hq next hn => n.begun next (all.resolve_left hq ▸ hn)⟩
  have within : Within w { a with pool := p } := {
    closed := g.program.symm ▸ h.closed
    host := fun he' => by
      rw [g.program]
      obtain ⟨rfl, rfl⟩ | ⟨e, he, r⟩ := cases he'
      · exact hosts
      · exact (h.host he).revised h.closed r (by simp)
    listener := fun he' s hs => by
      obtain ⟨rfl, rfl⟩ | ⟨e, he, r⟩ := cases he'
      · simp [n.fields] at hs
      · rw [r.alters.fieldSubscriptions, List.flatMap_nil, List.append_nil] at hs
        obtain ⟨x, hx, hr⟩ := h.listener he s hs
        exact ⟨x, hx, g.justified hr⟩
    nodup := fun he' => by
      obtain ⟨rfl, rfl⟩ | ⟨e, he, r⟩ := cases he'
      · simp [n.fields]
      · rw [r.alters.fieldSubscriptions, List.flatMap_nil, List.append_nil]
        exact h.nodup he
    ticket := fun he' t ht => by
      obtain ⟨rfl, rfl⟩ | ⟨e, he, r⟩ := cases he'
      · simp [n.tickets] at ht
      · exact g.owes ((r.alters.tickets t ht).elim (h.ticket he t) (by simp))
    watcher := fun he' => by
      obtain ⟨rfl, rfl⟩ | ⟨e, he, r⟩ := cases he'
      · exact .inl n.calls
      · rw [r.alters.callSubscriptions, List.flatMap_nil, List.append_nil]
        exact h.watcher he
    watched := fun i hi => by
      obtain ⟨q', e, l, he, hs⟩ := h.watched i hi
      obtain ⟨e', he', r⟩ := s.old he
      exact ⟨q', e', l, he', r.alters.callSubscription _ hs⟩
    visitor := fun hv => g.guided (h.visitor hv)
    fieldJoin := fun hj => g.joinsField (h.fieldJoin hj)
    callJoin := fun hj => g.joinsCall (h.callJoin hj) }
  have proceeds : Proceeds w 0 a { a with pool := p } := ⟨g, within, rfl, s.delivered, s.told, by
    rw [balance_congr (b := { a with pool := p }) (a := a) g.program rfl rfl rfl rfl]
    omega⟩
  exact ⟨proceeds.advances id (g.extend rfl rfl rfl rfl fun hv _ hs => .inl ⟨_, hv, hs⟩), e₀, he₀⟩

/-- The propagation begins at one more point. -/
theorem Starting.begin (h : a.Within w) (hq : w.query q) {p : Pool} (s : Starting w a i q done p)
    {next : Point} (hw : (Operation.solve ⟨next, q.fact.var⟩).Grants q.fact (w.facts q)) :
    Starting w a i q (done ++ [next]) (p.modify i (·.solve ⟨next, q.fact.var⟩)) := by
  obtain ⟨e₀, he₀, n⟩ := s.nascent
  have ev := Pool.evolves_modify (f := (·.solve ⟨next, q.fact.var⟩)) he₀ s.resting
    (n.resting.perform (.solve ⟨next, q.fact.var⟩))
  obtain ⟨e₁, he₁, r⟩ := ev.old he₀
  rw [if_pos rfl] at r
  refine ⟨ev.program.trans s.program, ⟨e₁, he₁, ?_⟩, fun {j q' e} he => ?_, fun {j q' e'} he' => ?_,
    s.fresh, ev.delivered.trans s.delivered, ev.told.trans s.told⟩
  · refine ⟨r.alters.seed.trans n.seed, r.alters.direction.trans n.direction,
      r.alters.graph.trans n.graph, r.tidy n.tidy, r.alters.resting, ?_, r.started.trans n.started,
      ?_, ?_, ?_, r.alters.facts.opened _ n.opened, r.alters.facts.productive _ n.productive, ?_⟩
    · refine r.alters.below ?_ (h.closed.facts hq) ?_ n.below
      · rw [n.direction, n.graph]
        exact (h.closed.covers q.direction).upTo _
      · simpa [Change.Grants, n.seed] using hw
    · rw [r.alters.fieldSubscriptions, n.fields]
      rfl
    · rw [r.alters.callSubscriptions, n.calls]
      rfl
    · refine List.eq_nil_iff_forall_not_mem.2 fun t ht => ?_
      simpa [n.tickets, Change.tickets] using r.alters.tickets t ht
    · intro point hm
      obtain hm | hm := List.mem_append.1 hm
      · exact (n.begun point hm).mono r.alters.facts
      · obtain rfl := List.mem_singleton.1 hm
        exact n.seed ▸ r.alters.grants _ List.mem_cons_self
  · obtain ⟨e₂, he₂, r₂⟩ := s.old he
    have hj : j ≠ i := fun hj => s.fresh (hj ▸ he)
    obtain ⟨e₃, he₃, r₃⟩ := ev.old he₂
    rw [if_neg hj] at r₃
    exact ⟨e₃, he₃, ⟨r₂.alters.trans r₃.alters, r₃.started.trans r₂.started,
      fun ht => r₃.tidy (r₂.tidy ht)⟩⟩
  · obtain ⟨e₂, he₂, r₂⟩ := ev.new he'
    by_cases hj : j = i
    · exact .inl hj
    · rw [if_neg hj] at r₂
      obtain hj | ⟨e₁, he₁, r₁⟩ := s.new he₂
      · exact .inl hj
      · exact .inr ⟨e₁, he₁, r₁.alters.trans r₂.alters, r₂.started.trans r₁.started,
          fun ht => r₂.tidy (r₁.tidy ht)⟩

theorem Starting.record {p : Pool} (s : Starting w a i q done p) {entry : Entry}
    (quiet : entry.isFound = false) : Starting w a i q done (p.record entry) :=
  { s with told := (Pool.told_record_quiet p quiet).trans s.told }

/-- A new query gets a solver of its own. -/
theorem Within.starting (h : a.Within w) (hq : w.query q) (hn : ¬ a.Knows q) :
    ∃ p, (a.pool.getOrCreate q).2.start a.pool.size = .ok (true, p) ∧
      (a.pool.getOrCreate q).1 = a.pool.size ∧ Starting w a a.pool.size q [] p := by
  have resting {i q e} (he : a.pool.Has i q e) := (h.host he).resting
  obtain ⟨index, program, ⟨e, he, notStarted, dirty, born⟩, old, new⟩ :=
    Pool.getOrCreate_new (fun i e he => hn ⟨i, e, he⟩) resting
  obtain ⟨p, hp, program', has⟩ := Pool.start_spec he
  rw [notStarted] at hp
  have fresh {q' e'} : ¬ a.pool.Has a.pool.size q' e' := fun he' =>
    Nat.lt_irrefl _ (Pool.lt_size_iff.2 ⟨_, _, he'⟩)
  have started : p.Has a.pool.size q { e with started := true } :=
    has.2 ⟨e, he, (if_pos rfl).symm⟩
  have below : e.solver.Below (w.ways q.direction) (w.facts q) := by
    refine born.fresh.below (fun f => ?_) ?_ ?_
    · have covers := h.closed.covers q.direction e.solver.allocated f
      have parts : e.solver.propagation =
          ⟨e.solver.direction, e.solver.graph, e.solver.allocated⟩ := rfl
      rw [parts, born.direction, born.graph]
      exact covers
    · rw [born.seed]
      exact h.closed.opened hq
    · rw [Solver.seedState, born.seed]
      exact h.closed.productive hq
  have opened : e.solver.facts.opened q.fact.point.method := by
    show _ ∈ e.solver.unbalanced
    rw [born.fresh.unbalanced, born.seed]
    simp
  have productive : e.solver.facts.productive (.alloc q.fact) := by
    show _ ∈ e.solver.productive
    rw [born.fresh.productive, Solver.seedState, born.seed]
    simp
  refine ⟨p, hp, index, program'.trans program, ⟨_, started, ?_⟩, fun {j q' e'} he' => ?_,
    fun {j q' e'} he' => ?_, fresh, ?_, (Pool.told_start hp).trans (Pool.told_getOrCreate _ q)⟩
  · exact ⟨born.seed, born.direction, born.graph, .inl dirty,
      ⟨born.fresh.regular, born.fresh.idle, born.fresh.told⟩, below, rfl,
      by rw [born.fresh.fields]; rfl, by rw [born.fresh.calls]; rfl, born.fresh.tickets, opened, productive, by simp⟩
  · obtain ⟨e₁, he₁, r⟩ := old he'
    have hj : a.pool.size ≠ j := fun hj => fresh (hj ▸ he')
    exact ⟨e₁, has.2 ⟨e₁, he₁, (if_neg hj).symm⟩, r⟩
  · obtain ⟨e₁, he₁, rfl⟩ := has.1 he'
    obtain hj | ⟨e₀, he₀, r⟩ := new he₁
    · exact .inl hj
    · have hj : a.pool.size ≠ j := fun hj => fresh (hj ▸ he₀)
      rw [if_neg hj]
      exact .inr ⟨e₀, he₀, r⟩
  · rw [← Pool.delivered_getOrCreate q resting, Pool.delivered, Pool.delivered]
    congr 2
    refine Pool.read_congr (fun {j q' e'} he' => ?_) fun {j q' e'} he' => ?_
    · refine ⟨_, has.2 ⟨e', he', rfl⟩, ?_⟩
      split <;> rfl
    · obtain ⟨e₁, he₁, -⟩ := has.1 he'
      exact ⟨e₁, he₁⟩

/-- The propagation begins at all points of a list. -/
theorem Starting.loop (h : a.Within w) (hq : w.query q) {nexts : List Point}
    (hw : ∀ next ∈ nexts, (Operation.solve ⟨next, q.fact.var⟩).Grants q.fact (w.facts q))
    {p : Pool} (s : Starting w a i q done p) :
    ∃ p', nexts.foldlM (fun (a : Analysis) next =>
        a.changeSolver i fun s => s.solve ⟨next, q.fact.var⟩) { a with pool := p } =
          .ok { a with pool := p' } ∧ Starting w a i q (done ++ nexts) p' := by
  induction nexts generalizing done p with
  | nil => exact ⟨p, rfl, by rwa [List.append_nil]⟩
  | cons next nexts ih =>
    obtain ⟨e, he, -⟩ := s.nascent
    obtain ⟨p', e', s'⟩ := ih (fun n hn => hw n (List.mem_cons_of_mem next hn))
      (s.begin h hq (hw next List.mem_cons_self))
    refine ⟨p', ?_, by rwa [List.append_assoc] at s'⟩
    rw [List.foldlM_cons, changeSolver, if_pos (Pool.lt_size_iff.2 ⟨q, e, he⟩)]
    exact e'

/-- A query is started, if it was not yet, and has a solver then. -/
theorem Within.yields_startQuery (h : a.Within w) {d : Direction} (hw : w.Starts d q) :
    Yields (a.startQuery d q) fun r => Advances w 0 a r.2 ∧ r.2.Index r.1 q ∧
      r.2.tickets = a.tickets := by
  obtain ⟨hq, begins⟩ := hw.query h.closed
  have all : w.reversed q ∨ (⟨a.program, q.direction⟩ : Supergraph).successors q.fact.point =
      (⟨a.program, d⟩ : Supergraph).successors q.fact.point :=
    hw.elim (fun ⟨_, e⟩ => .inr (e ▸ rfl)) .inl
  unfold startQuery
  by_cases hn : a.Knows q
  · obtain ⟨i, e, he⟩ := hn
    obtain ⟨p, hp, program, has⟩ := Pool.start_spec he
    rw [(h.host he).started] at hp
    have same {j q' e'} : p.Has j q' e' ↔ a.pool.Has j q' e' := by
      rw [has]
      constructor
      · rintro ⟨e₁, he₁, rfl⟩
        split
        · next hj =>
          subst hj
          obtain ⟨rfl, rfl⟩ := he₁.unique he
          rwa [← (h.host he).started]
        · exact he₁
      · intro he'
        refine ⟨e', he', ?_⟩
        split
        · next hj =>
          subst hj
          obtain ⟨rfl, rfl⟩ := he'.unique he
          rw [← (h.host he).started]
        · rfl
    have g : Grows a { a with pool := p } := { Grows.refl a with
      program := program
      entry := fun he' => ⟨_, same.2 he', .refl _⟩ }
    have delivered : p.delivered = a.pool.delivered := by
      rw [Pool.delivered, Pool.delivered,
        Pool.read_congr (fun he' => ⟨_, same.2 he', rfl⟩) fun he' => ⟨_, same.1 he'⟩]
    have proceeds : Proceeds w 0 a { a with pool := p } :=
      ⟨g, h.keep g same rfl .inl .inl .inl, rfl, delivered, Pool.told_start hp, by
        rw [balance_congr (b := { a with pool := p }) (a := a) program rfl rfl rfl rfl]
        omega⟩
    refine ⟨(i, { a with pool := p }), ?_, proceeds.advances id
      (g.extend rfl rfl rfl rfl fun hv _ hs => .inl ⟨_, hv, hs⟩), ⟨e, same.2 he⟩, rfl⟩
    rw [Index.getOrCreate ⟨e, he⟩]
    dsimp only
    rw [hp]
    rfl
  · obtain ⟨p, hp, index, s⟩ := h.starting hq hn
    have begun : a.getOrCreate q = (a.pool.size, { a with pool := (a.pool.getOrCreate q).2 }) := by
      rw [← index]
      rfl
    rw [begun]
    dsimp only
    rw [hp]
    by_cases synthetic : q.fact.point.index = none
    · have s := s.record (show (Entry.synthetic q).isFound = false from rfl)
      rw [← Supergraph.successors_of_synthetic (g := ⟨a.program, d⟩) synthetic] at s
      obtain ⟨advances, hi⟩ := s.finish h hq all
      refine ⟨(a.pool.size, { a with pool := p.record (.synthetic q) }), ?_, advances, hi, rfl⟩
      simp only [synthetic]
      rfl
    · have quiet : (Entry.solving q).isFound = false := rfl
      obtain ⟨p', e, s'⟩ := (s.record quiet).loop h hq begins
      obtain ⟨advances, hi⟩ := s'.finish h hq all
      refine ⟨(a.pool.size, { a with pool := p' }), ?_, advances, hi, rfl⟩
      have real : q.fact.point.index.isNone = false := by
        rw [Option.isNone_eq_false_iff]
        exact Option.isSome_iff_ne_none.2 synthetic
      rw [← s.program] at e
      simp only [real]
      exact congrArg (Except.bind · fun b => .ok (a.pool.size, b)) e

end Analysis

end PointsTo
