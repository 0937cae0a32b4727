import PointsTo.Proofs.Analysis.Within

/-!
# The small steps of handlers

Handlers are made of few kinds of steps: a solver changes, a listener or a visitor is added, a
visitor comes to a state, a join is added or grows. Each step stays inside a closed world
(`Proceeds`) if what it adds has a reason there.
-/

namespace PointsTo

namespace Pool

open PoolEntry

variable {p p' : Pool} {i : Nat} {q : Query} {e : PoolEntry} {cs : List Change}

/-- The pool has the same solvers, and each went through the given changes. -/
structure Evolves (cs : Nat → List Change) (p p' : Pool) : Prop where
  program : p'.program = p.program
  old : ∀ {i q e}, p.Has i q e → ∃ e', p'.Has i q e' ∧ Revised (cs i) e e'
  new : ∀ {i q e'}, p'.Has i q e' → ∃ e, p.Has i q e ∧ Revised (cs i) e e'
  told : p'.told = p.told

theorem Evolves.delivered {cs : Nat → List Change} (h : Evolves cs p p') :
    p'.delivered = p.delivered := by
  have : p'.read = p.read := by
    refine read_congr (fun he => ?_) fun he' => (h.new he').imp fun _ => And.left
    obtain ⟨e', he', r⟩ := h.old he
    exact ⟨e', he', r.alters.taken⟩
  rw [Pool.delivered, Pool.delivered, this]

theorem evolves_modify {f : Solver → Solver} (h : p.Has i q e)
    (resting : ∀ {i q e}, p.Has i q e → e.solver.Resting)
    (hf : Solver.Alters cs e.solver (f e.solver)) :
    Evolves (fun j => if j = i then cs else []) p (p.modify i f) := by
  obtain ⟨⟨e', he', r⟩, other⟩ := modify_spec h hf
  refine ⟨rfl, fun {j q₁ e₁} h₁ => ?_, fun {j q₁ e₁} h₁ => ?_, told_modify p i f⟩
  · by_cases hj : j = i
    · subst hj
      obtain ⟨rfl, rfl⟩ := h.unique h₁
      exact ⟨e', he', by rwa [if_pos rfl]⟩
    · rw [if_neg hj]
      exact ⟨e₁, (other j hj q₁ e₁).2 h₁, (resting h₁).alters_refl, rfl, id⟩
  · by_cases hj : j = i
    · subst hj
      obtain ⟨rfl, rfl⟩ := he'.unique h₁
      exact ⟨e, h, by rwa [if_pos rfl]⟩
    · rw [if_neg hj]
      have h₁ := (other j hj q₁ e₁).1 h₁
      exact ⟨e₁, h₁, (resting h₁).alters_refl, rfl, id⟩

end Pool

namespace Analysis

/-! ## Results -/

/-- The computation succeeds with a result of which `P` holds. -/
def Yields {α : Type} (x : Except Halt α) (P : α → Prop) : Prop := ∃ a, x = .ok a ∧ P a

namespace Yields

variable {α β : Type} {x : Except Halt α} {P Q : α → Prop}

theorem ok {a : α} (h : P a) : Yields (.ok a) P := ⟨a, rfl, h⟩

theorem imp (h : Yields x P) (hPQ : ∀ a, P a → Q a) : Yields x Q :=
  have ⟨a, e, ha⟩ := h
  ⟨a, e, hPQ a ha⟩

theorem bind {f : α → Except Halt β} {R : β → Prop} (h : Yields x P)
    (hf : ∀ a, P a → Yields (f a) R) : Yields (x >>= f) R := by
  obtain ⟨a, rfl, ha⟩ := h
  exact hf a ha

end Yields

/-- The computation stops at a field access whose flow has nowhere to go. -/
def Stops {α : Type} (x : Except Halt α) : Prop :=
  ∃ point flow a, x = .error ⟨.noSuccessor point flow, a⟩

/-- The computation succeeds with a result of which `P` holds, or stops, if it may. -/
def Ends {α : Type} (mayStop : Prop) (x : Except Halt α) (P : α → Prop) : Prop :=
  Yields x P ∨ mayStop ∧ Stops x

theorem Yields.ends {α : Type} {x : Except Halt α} {P : α → Prop} {mayStop : Prop} (h : Yields x P) :
    Ends mayStop x P := .inl h

namespace Ends

variable {α β : Type} {mayStop mayStop' : Prop} {x : Except Halt α} {P Q : α → Prop}

theorem ok {a : α} (h : P a) : Ends mayStop (.ok a) P := .inl (.ok h)

theorem imp (h : Ends mayStop x P) (hPQ : ∀ a, P a → Q a) : Ends mayStop x Q :=
  h.imp_left fun h => h.imp hPQ

theorem bind {f : α → Except Halt β} {R : β → Prop} (h : Ends mayStop x P)
    (hf : ∀ a, P a → Ends mayStop (f a) R) : Ends mayStop (x >>= f) R := by
  obtain ⟨a, rfl, ha⟩ | ⟨may, point, flow, a, rfl⟩ := h
  · exact hf a ha
  · exact .inr ⟨may, point, flow, a, rfl⟩

theorem yields (h : Ends mayStop x P) (never : ¬ mayStop) : Yields x P :=
  h.resolve_right fun stops => never stops.1

theorem mono (h : Ends mayStop x P) (le : mayStop → mayStop') : Ends mayStop' x P :=
  Or.imp_right (.imp_left le) h

/-- What a computation has returned is as it should be. -/
theorem of_eq_ok (h : Ends mayStop x P) {a : α} (e : x = .ok a) : P a := by
  obtain ⟨b, rfl, hb⟩ | ⟨-, point, flow, b, rfl⟩ := h
  · exact Except.ok.inj e ▸ hb
  · cases e

end Ends

variable {w : Realm} {a b c : Analysis} {i j : Nat} {q : Query} {k : Int}

/-- A loop advances as often as its body, and what each turn leaves behind lasts. -/
theorem ends_foldlM {mayStop : Prop} {α : Type} (xs : List α)
    {f : Analysis → α → Except Halt Analysis} {Q : α → Analysis → Prop} (h : a.Within w)
    (step : ∀ {b}, Grows a b → b.Within w → ∀ x ∈ xs,
      Ends mayStop (f b x) fun c => Advances w k b c ∧ Q x c)
    (lasts : ∀ {x b c}, Grows b c → Q x b → Q x c) :
    Ends mayStop (xs.foldlM f a) fun b => Advances w (k * xs.length) a b ∧ ∀ x ∈ xs, Q x b := by
  induction xs generalizing a with
  | nil => exact .ok ⟨by simpa using h.advances_refl, by simp⟩
  | cons x xs ih =>
    rw [List.foldlM_cons]
    refine (step (.refl a) h x List.mem_cons_self).bind fun b ⟨hb, hx⟩ => ?_
    have rest := ih hb.within fun g hc y hy =>
      step (hb.toGrows.trans g) hc y (List.mem_cons_of_mem x hy)
    refine rest.imp fun c ⟨hc, hxs⟩ => ⟨?_, ?_⟩
    · have e : k * (x :: xs).length = k + k * xs.length := by
        rw [List.length_cons, Int.natCast_add, Int.mul_add, Int.add_comm]
        simp
      exact e ▸ hb.trans hc
    · intro y hy
      obtain rfl | hy := List.mem_cons.1 hy
      · exact lasts hc.toGrows hx
      · exact hxs y hy

theorem yields_foldlM {α : Type} (xs : List α) {f : Analysis → α → Except Halt Analysis}
    {Q : α → Analysis → Prop} (h : a.Within w)
    (step : ∀ {b}, Grows a b → b.Within w → ∀ x ∈ xs,
      Yields (f b x) fun c => Advances w k b c ∧ Q x c)
    (lasts : ∀ {x b c}, Grows b c → Q x b → Q x c) :
    Yields (xs.foldlM f a) fun b => Advances w (k * xs.length) a b ∧ ∀ x ∈ xs, Q x b :=
  (ends_foldlM xs h (fun g hb x hx => (step g hb x hx).ends) lasts).yields not_false

/-! ## Facts by position -/

theorem Index.unique {q' : Query} (h : a.Index i q) (h' : a.Index i q') : q = q' :=
  have ⟨_, he⟩ := h
  have ⟨_, he'⟩ := h'
  (he.unique he').1

theorem Index.queryAt (h : a.Index i q) : a.queryAt i = .ok q := by
  obtain ⟨e, he⟩ := h
  rw [Analysis.queryAt, he.queryAt, ask]

/-- What a table holds at a position is there to be read. -/
theorem entryAt_eq {α : Type} {value? : Option α} {value : α} {size : Nat}
    (h : value? = some value) : a.entryAt value? i size = .ok value := by
  subst h
  rfl

/-- A query with a solver is found. -/
theorem Index.getOrCreate (h : a.Index i q) : a.getOrCreate q = (i, a) := by
  obtain ⟨e, he⟩ := h
  rw [Analysis.getOrCreate, Pool.getOrCreate_of_has he]

theorem Within.solverAt (h : a.Within w) (hi : a.Index i q) : ∃ s, a.solverAt i = .ok s ∧
    s.seedState = .alloc q.fact ∧ s.graph = ⟨a.program, q.direction⟩ := by
  obtain ⟨e, he⟩ := hi
  have host := h.host he
  refine ⟨e.solver, by rw [Analysis.solverAt, he.solverAt, ask], ?_, host.graph⟩
  rw [Solver.seedState, host.seed]

theorem sub_factsOf {e : PoolEntry} (h : a.pool.Has i q e) :
    e.solver.facts.Sub (a.factsOf q) where
  field _ ht := ⟨i, e, h, ht⟩
  call _ ht := ⟨i, e, h, ht⟩
  pop _ _ hp := ⟨i, e, h, hp⟩
  fieldFlow _ _ hg := ⟨i, e, h, hg⟩
  callFlow _ _ hg := ⟨i, e, h, hg⟩
  opened _ hm := ⟨i, e, h, hm⟩
  productive _ hs := ⟨i, e, h, hs⟩

theorem factsOf_sub {e : PoolEntry} (h : a.pool.Has i q e) :
    (a.factsOf q).Sub e.solver.facts := by
  have same {j : Nat} {e' : PoolEntry} (h' : a.pool.Has j q e') : e' = e := by
    obtain rfl := h.index_eq h'
    exact (h'.unique h).2
  exact {
    field := fun _ ⟨_, _, h', ht⟩ => same h' ▸ ht
    call := fun _ ⟨_, _, h', ht⟩ => same h' ▸ ht
    pop := fun _ _ ⟨_, _, h', hp⟩ => same h' ▸ hp
    fieldFlow := fun _ _ ⟨_, _, h', hg⟩ => same h' ▸ hg
    callFlow := fun _ _ ⟨_, _, h', hg⟩ => same h' ▸ hg
    opened := fun _ ⟨_, _, h', hm⟩ => same h' ▸ hm
    productive := fun _ ⟨_, _, h', hs⟩ => same h' ▸ hs }

/-- What a query knows is what the world has for it. -/
theorem Within.factsOf_sub (h : a.Within w) : (a.factsOf q).Sub (w.facts q) where
  field _ := fun ⟨_, _, he, ht⟩ => (h.host he).below.field _ ht
  call _ := fun ⟨_, _, he, ht⟩ => (h.host he).below.call _ ht
  pop _ _ := fun ⟨_, _, he, hp⟩ => (h.host he).below.pop hp
  fieldFlow _ _ := fun ⟨_, _, he, hg⟩ => (h.host he).below.fieldFlow hg
  callFlow _ _ := fun ⟨_, _, he, hg⟩ => (h.host he).below.callFlow hg
  opened _ := fun ⟨_, _, he, hm⟩ => (h.host he).below.opened _ hm
  productive _ := fun ⟨_, _, he, hs⟩ => (h.host he).below.productive _ hs

theorem Within.query (h : a.Within w) (hq : a.Knows q) : w.query q :=
  have ⟨_, _, he⟩ := hq
  (h.host he).query

/-- What a query is known to reach is reached in the world. -/
theorem Within.reached (h : a.Within w) {f : Fact} (hf : a.Reaches q f) : (w.facts q).reached f :=
  have ⟨_, _, he, hf⟩ := hf
  (h.host he).below.reached f hf

/-- A subscription names a listener that there is. -/
theorem Within.listener_lt (h : a.Within w) {e : PoolEntry} (he : a.pool.Has i q e)
    {s : Subscription FieldState × Nat} (hs : s ∈ e.solver.fields.subscriptions) :
    s.2 < a.fieldListeners.size := by
  obtain ⟨x, hx, -⟩ := h.listener he s hs
  exact (Array.getElem?_eq_some_iff.1 hx).1

/-! ## Changing solvers -/

/-- Solvers may change in any way that the world has, if new subscriptions have a reason. -/
theorem Within.evolves (h : a.Within w) {cs : Nat → List Change} {p' : Pool}
    (ev : a.pool.Evolves cs p') (watched : OrderedSet Nat) (more : ∀ i ∈ a.watched, i ∈ watched)
    (grants : ∀ {i q}, a.Index i q → ∀ c ∈ cs i, c.Grants q.fact (w.facts q))
    (new : ∀ {i q}, a.Index i q → ∀ s ∈ (cs i).flatMap (·.fieldSubscriptions),
      ∃ x, a.fieldListeners[s.2]? = some x ∧ a.Justified q s.1 s.2 x)
    (fresh : ∀ {i q e}, a.pool.Has i q e →
      (e.solver.fields.subscriptions ++ (cs i).flatMap (·.fieldSubscriptions)).Nodup)
    (tickets : ∀ {i q}, a.Index i q → ∀ t ∈ (cs i).flatMap (·.tickets), a.Owes q t)
    (calls : ∀ {i q}, a.Index i q → (cs i).flatMap (·.callSubscriptions) = [] ∨
      ∃ l : Nat, (cs i).flatMap (·.callSubscriptions) = [(.any, l)] ∧
        a.callListeners[l]? = some .unbalancedFlow ∧ w.watched q ∧ i ∈ watched ∧ i ∉ a.watched)
    (known : ∀ i ∈ watched, i ∈ a.watched ∨ (∃ q, a.Index i q) ∧
      ∃ l, (cs i).flatMap (·.callSubscriptions) = [(.any, l)]) :
    Proceeds w 0 a { a with pool := p', watched } := by
  set b : Analysis := { a with pool := p', watched } with hb
  have program : b.program = a.program := ev.program
  have g : Grows a b := { Grows.refl a with
    program
    entry := fun he => by
      obtain ⟨e', he', r⟩ := ev.old he
      exact ⟨e', he', r.alters.toLater⟩ }
  refine {
    toGrows := g
    within := ?_
    queue := rfl
    delivered := ev.delivered
    told := ev.told
    balance := ?_ }
  · refine {
      closed := program.symm ▸ h.closed
      host := fun he' => ?_
      listener := fun he' s hs => ?_
      nodup := fun he' => ?_
      ticket := fun he' t ht => ?_
      watcher := fun {i q e'} he' => ?_
      watched := fun i hi => ?_
      visitor := fun hv => g.guided (h.visitor hv)
      fieldJoin := fun hj => g.joinsField (h.fieldJoin hj)
      callJoin := fun hj => g.joinsCall (h.callJoin hj) }
    · obtain ⟨e, he, r⟩ := ev.new he'
      exact program.symm ▸ (h.host he).revised h.closed r (grants ⟨e, he⟩)
    · obtain ⟨e, he, r⟩ := ev.new he'
      rw [r.alters.fieldSubscriptions, List.mem_append] at hs
      obtain ⟨x, hx, hr⟩ := hs.elim (h.listener he s) (new ⟨e, he⟩ s)
      exact ⟨x, hx, g.justified hr⟩
    · obtain ⟨e, he, r⟩ := ev.new he'
      rw [r.alters.fieldSubscriptions]
      exact fresh he
    · obtain ⟨e, he, r⟩ := ev.new he'
      exact g.owes ((r.alters.tickets t ht).elim (h.ticket he t) (tickets ⟨e, he⟩ t))
    · obtain ⟨e, he, r⟩ := ev.new he'
      rw [r.alters.callSubscriptions]
      obtain hn | ⟨l, hn, hl, hw, hi, hni⟩ := calls ⟨e, he⟩
      · rw [hn, List.append_nil]
        exact (h.watcher he).imp_right fun ⟨l, hs, hl, hw, hi⟩ => ⟨l, hs, hl, hw, more i hi⟩
      · have none : e.solver.calls.subscriptions = [] :=
          (h.watcher he).resolve_right fun ⟨_, _, _, _, hi⟩ => hni hi
        exact .inr ⟨l, by rw [none, hn, List.nil_append], hl, hw, hi⟩
    · obtain hi | ⟨⟨q, e, he⟩, l, hn⟩ := known i hi
      · obtain ⟨q, e, l, he, hs⟩ := h.watched i hi
        obtain ⟨e', he', r⟩ := ev.old he
        exact ⟨q, e', l, he', r.alters.callSubscription _ hs⟩
      · obtain ⟨e', he', r⟩ := ev.old he
        refine ⟨q, e', l, he', ?_⟩
        rw [r.alters.callSubscriptions, hn]
        exact List.mem_append_right _ List.mem_cons_self
  · rw [balance_congr program rfl rfl rfl rfl]
    omega

/-- One solver may change in any way that the world has, if new subscriptions have a reason. -/
theorem Within.changes (h : a.Within w) (hi : a.Index i q) {f : Solver → Solver}
    (cs : List Change) (hf : ∀ {s : Solver}, s.Resting → s.Alters cs (f s))
    (grants : ∀ c ∈ cs, c.Grants q.fact (w.facts q))
    (new : ∀ s ∈ cs.flatMap (·.fieldSubscriptions),
      ∃ x, a.fieldListeners[s.2]? = some x ∧ a.Justified q s.1 s.2 x)
    (fresh : ∀ {e}, a.pool.Has i q e →
      (e.solver.fields.subscriptions ++ cs.flatMap (·.fieldSubscriptions)).Nodup)
    (tickets : ∀ t ∈ cs.flatMap (·.tickets), a.Owes q t)
    (calls : cs.flatMap (·.callSubscriptions) = []) :
    ∃ p', a.changeSolver i f = .ok { a with pool := p' } ∧ Proceeds w 0 a { a with pool := p' } ∧
      ∃ e e', a.pool.Has i q e ∧ p'.Has i q e' ∧ e.Revised cs e' := by
  obtain ⟨e, he⟩ := hi
  have ev := Pool.evolves_modify he (fun he => (h.host he).resting) (hf (h.host he).resting)
  have at_i : (fun j => if j = i then cs else []) i = cs := if_pos rfl
  refine ⟨a.pool.modify i f, if_pos (Pool.lt_size_iff.2 ⟨q, e, he⟩), ?_, ?_⟩
  · refine h.evolves ev a.watched (fun _ => id) ?_ ?_ ?_ ?_ ?_ fun _ => .inl
    · intro j q' hj
      by_cases e : j = i
      · subst e
        rw [if_pos rfl, hj.unique ⟨_, he⟩]
        exact grants
      · simp [e]
    · intro j q' hj
      by_cases e : j = i
      · subst e
        rw [if_pos rfl, hj.unique ⟨_, he⟩]
        exact new
      · simp [e]
    · intro j q' e' he'
      by_cases e : j = i
      · subst e
        obtain ⟨rfl, -⟩ := he'.unique he
        rw [if_pos rfl]
        exact fresh he'
      · simpa [e] using h.nodup he'
    · intro j q' hj
      by_cases e : j = i
      · subst e
        rw [if_pos rfl, hj.unique ⟨_, he⟩]
        exact tickets
      · simp [e]
    · intro j q' hj
      by_cases e : j = i
      · subst e
        rw [if_pos rfl]
        exact .inl calls
      · simp [e]
  · obtain ⟨e', he', r⟩ := ev.old he
    exact ⟨e, e', he, he', at_i ▸ r⟩

/-- Changes without subscriptions. -/
theorem Within.yields_change (h : a.Within w) (hi : a.Index i q) {f : Solver → Solver}
    (cs : List Change) (hf : ∀ {s : Solver}, s.Resting → s.Alters cs (f s))
    (grants : ∀ c ∈ cs, c.Grants q.fact (w.facts q))
    (fields : cs.flatMap (·.fieldSubscriptions) = [])
    (tickets : ∀ t ∈ cs.flatMap (·.tickets), a.Owes q t)
    (calls : cs.flatMap (·.callSubscriptions) = []) :
    Yields (a.changeSolver i f) fun b => Advances w 0 a b ∧
      ∀ c ∈ cs, c.Grants q.fact (b.factsOf q) := by
  obtain ⟨p', e, proceeds, e₀, e₁, he₀, he₁, r⟩ :=
    h.changes hi cs hf grants (by simp [fields]) (fun he => by simpa [fields] using h.nodup he)
      tickets calls
  refine ⟨_, e, proceeds.advances id (proceeds.toGrows.extend rfl rfl rfl rfl fun hv state hs => ?_),
    fun c hc => ?_⟩
  · exact .inl ⟨_, hv, hs⟩
  · rw [← (h.host he₀).seed]
    exact (r.alters.grants c hc).mono (sub_factsOf he₁)

theorem Within.yields_perform (h : a.Within w) (hi : a.Index i q) (o : Operation)
    (grants : o.Grants q.fact (w.facts q)) :
    Yields (a.changeSolver i (o.apply ·)) fun b => Advances w 0 a b ∧
      o.Grants q.fact (b.factsOf q) := by
  refine (h.yields_change hi [.perform o] (fun hs => hs.perform o) ?_ rfl
    (by simp [Change.tickets]) rfl).imp ?_
  · simpa [Change.Grants] using grants
  · exact fun b hb => ⟨hb.1, hb.2 _ List.mem_cons_self⟩

/-! ## Listeners and visitors -/

/-- The elements are those that there were and one behind them. -/
theorem getElem?_push_cases {α : Type} {xs : Array α} {x y : α} {n : Nat}
    (h : (xs.push x)[n]? = some y) : xs[n]? = some y ∨ n = xs.size ∧ y = x := by
  rw [Array.getElem?_push] at h
  split at h
  · next e => exact .inr ⟨e, (Option.some.inj h).symm⟩
  · exact .inl h

theorem getElem?_push_of_some {α : Type} {xs : Array α} {x y : α} {n : Nat}
    (h : xs[n]? = some y) : (xs.push x)[n]? = some y := by
  have lt := (Array.getElem?_eq_some_iff.1 h).1
  rw [Array.getElem?_push_lt lt, ← h, Array.getElem?_eq_getElem lt]

theorem grows_addFieldListener (a : Analysis) (x : FieldListener) :
    Grows a (a.addFieldListener x).2 :=
  { Grows.refl a with
    fieldListener := getElem?_push_of_some }

theorem fieldListeners_addFieldListener (a : Analysis) (x : FieldListener) :
    (a.addFieldListener x).2.fieldListeners[a.fieldListeners.size]? = some x :=
  Array.getElem?_push_size

theorem Within.addFieldListener (h : a.Within w) (x : FieldListener) :
    Proceeds w 1 a (a.addFieldListener x).2 where
  toGrows := grows_addFieldListener a x
  within := h.keep (grows_addFieldListener a x) Iff.rfl rfl .inl .inl .inl
  queue := rfl
  delivered := rfl
  told := rfl
  balance := by
    simp only [balance, credit, Analysis.addFieldListener, Array.size_push, program]
    omega

theorem Within.addCallListener (h : a.Within w) (x : CallListener) :
    Proceeds w 0 a (a.addCallListener x).2 := by
  have g : Grows a (a.addCallListener x).2 :=
    { Grows.refl a with callListener := getElem?_push_of_some }
  refine ⟨g, h.keep g Iff.rfl rfl .inl .inl .inl, rfl, rfl, rfl, ?_⟩
  rw [balance_congr (b := (a.addCallListener x).2) (a := a) rfl rfl rfl rfl rfl]
  omega

/-- A listener that is new is in no subscription yet. -/
theorem Within.fresh (h : a.Within w) {e : PoolEntry} (he : a.pool.Has i q e)
    (s : Subscription FieldState) :
    (e.solver.fields.subscriptions ++ [(s, a.fieldListeners.size)]).Nodup := by
  refine List.nodup_append.2 ⟨h.nodup he, by simp, fun x hx y hy e => ?_⟩
  rw [List.mem_singleton.1 hy] at e
  have := h.listener_lt he (e ▸ hx)
  exact Nat.lt_irrefl _ this

/-- A new listener is subscribed. -/
theorem Within.yields_subscribe (h : a.Within w) (hi : a.Index i q) (x : FieldListener)
    (s : Subscription FieldState) (hx : a.Justified q s a.fieldListeners.size x) :
    Yields ((a.addFieldListener x).2.changeSolver i fun σ =>
        σ.subscribeField s a.fieldListeners.size) fun b => Advances w 1 a b ∧
      b.fieldListeners[a.fieldListeners.size]? = some x ∧
        b.Subscribed i s a.fieldListeners.size := by
  have g := grows_addFieldListener a x
  have first := h.addFieldListener x
  have new := fieldListeners_addFieldListener a x
  obtain ⟨p', e, proceeds, e₀, e₁, he₀, he₁, r⟩ := first.within.changes (g.index hi)
    [.subscribeField s a.fieldListeners.size] (fun hs => hs.subscribeField _ _)
    (by simp [Change.Grants])
    (by simpa [Change.fieldSubscriptions] using ⟨x, new, g.justified hx⟩)
    (fun he => h.fresh he s) (by simp [Change.tickets]) rfl
  have both := first.trans proceeds
  refine ⟨_, e, both.advances id (both.toGrows.extend rfl rfl rfl rfl fun hv state hs => ?_), ?_, ?_⟩
  · exact .inl ⟨_, hv, hs⟩
  · exact proceeds.toGrows.fieldListener new
  · refine ⟨q, e₁, he₁, ?_⟩
    rw [r.alters.fieldSubscriptions]
    exact List.mem_append_right _ List.mem_cons_self

theorem grows_addVisitor (a : Analysis) (y : Visitor) :
    Grows a { a with visitors := a.visitors.push y } :=
  { Grows.refl a with
    visitor := fun hv => ⟨_, getElem?_push_of_some hv, rfl, rfl, rfl, fun _ => id⟩ }

/-- A visitor starts on its errand. -/
theorem Within.yields_startVisit (h : a.Within w) (hi : a.Index i q) {state : FieldState}
    {action : VisitAction} {e : Errand} (hm : a.Means action e) (hs : a.Sends q e)
    (hv : w.visits q e state) :
    Yields (a.startVisit i state action) fun b => Advances w 1 a b ∧ b.view.visits q e state := by
  set l := a.fieldListeners.size
  set a₁ := (a.addFieldListener (.visit a.visitors.size)).2
  have first : Proceeds w 1 a a₁ := h.addFieldListener _
  have hears : a₁.fieldListeners[l]? = some (.visit a.visitors.size) :=
    fieldListeners_addFieldListener a _
  set y : Visitor := ⟨i, l, .ofList [state], action⟩
  set a₂ : Analysis := { a₁ with visitors := a₁.visitors.push y }
  have g : Grows a₁ a₂ := grows_addVisitor a₁ y
  have g₂ := first.toGrows.trans g
  have new : a₂.visitors[a.visitors.size]? = some y := Array.getElem?_push_size
  have guided : a₂.Guided w a.visitors.size y :=
    ⟨g.fieldListener hears, q, e, g₂.index hi, g₂.means hm, g₂.sends hs, fun s hs => by
      obtain rfl : s = state := by simpa [y] using hs
      exact hv⟩
  have visitor {v : Nat} {z : Visitor} (hz : a₂.visitors[v]? = some z) :
      a₁.visitors[v]? = some z ∨ a₂.Guided w v z := by
    obtain hz | ⟨ev, ey⟩ := getElem?_push_cases hz
    · exact .inl hz
    · exact .inr (ev ▸ ey ▸ guided)
  have second : Proceeds w 0 a₁ a₂ := {
    toGrows := g
    within := first.within.keep g Iff.rfl rfl visitor .inl .inl
    queue := rfl
    delivered := rfl
    told := rfl
    balance := by
      rw [balance_congr (b := a₂) (a := a₁) rfl rfl rfl rfl rfl]
      omega }
  have member : state ∈ y.visited := by simp [y]
  obtain ⟨p', e', third, e₀, e₁, he₀, he₁, r⟩ := second.within.changes (g₂.index hi)
    [.subscribeField (.leaving state) l] (fun hs => hs.subscribeField _ _)
    (by simp [Change.Grants])
    (by simpa [Change.fieldSubscriptions] using ⟨_, g.fieldListener hears, y, state, new, rfl,
      g₂.index hi, rfl, member⟩)
    (fun he => h.fresh he _) (by simp [Change.tickets]) rfl
  have subscribed : Subscribed { a₂ with pool := p' } i (.leaving state) l := by
    refine ⟨q, e₁, he₁, ?_⟩
    rw [r.alters.fieldSubscriptions]
    exact List.mem_append_right _ List.mem_cons_self
  have all := (first.trans second).trans third
  refine ⟨_, e', all.advances getElem?_push_of_some
    (all.toGrows.extend rfl rfl rfl rfl fun hv s hs => ?_), ?_⟩
  · obtain hv | ⟨-, rfl⟩ := getElem?_push_cases hv
    · exact .inl ⟨_, hv, hs⟩
    · obtain rfl : s = state := by simpa [y] using hs
      exact .inr subscribed
  · exact ⟨a.visitors.size, y, new, third.toGrows.index (g₂.index hi),
      third.toGrows.means (g₂.means hm), member⟩

end Analysis

end PointsTo
