import PointsTo.Proofs.Solver.Operations

/-!
# What the owner of a solver does with it

Beside the operations, the owner of a solver subscribes listeners, asks for tickets, and makes
classes and method listeners known (`Change`). Whenever the owner looks, the solver is at rest
(`Resting`): its consequences are drawn and everything was told. Each change leaves it at rest, grows
its tables (`Later`), posts events and takes none away, and keeps it below every closed set of facts
that has what was granted (`Resting.apply`). Who listens for methods stays informed, also of those
that were reached before (`Informs.addMethodListener`).
-/

namespace PointsTo

/-! ## Growth as the owner sees it -/

/-- These ways cover whatever a propagation through the graph computes. -/
def Ways.Covers (W : Ways) (direction : Direction) (graph : Supergraph) : Prop :=
  ∀ allocated f, (∀ r ∈ (({ direction, graph, allocated } : Propagation).flow f).rules, W.rule f r) ∧
    ∀ a ∈ (({ direction, graph, allocated } : Propagation).flow f).announcements, W.tell f a

/-- These ways cover whatever a propagation computes that knows of no more than these classes. -/
def Ways.CoversUpTo (W : Ways) (known : OrderedSet ClassName) (direction : Direction)
    (graph : Supergraph) : Prop :=
  ∀ allocated, (∀ type ∈ allocated, type ∈ known) → ∀ f,
    (∀ r ∈ (({ direction, graph, allocated } : Propagation).flow f).rules, W.rule f r) ∧
    ∀ a ∈ (({ direction, graph, allocated } : Propagation).flow f).announcements, W.tell f a

theorem Ways.Covers.upTo {W : Ways} {direction : Direction} {graph : Supergraph}
    (h : W.Covers direction graph) (known : OrderedSet ClassName) :
    W.CoversUpTo known direction graph := fun allocated _ => h allocated

theorem Ways.CoversUpTo.mono {W : Ways} {known known' : OrderedSet ClassName}
    {direction : Direction} {graph : Supergraph} (h : W.CoversUpTo known' direction graph)
    (more : ∀ type ∈ known, type ∈ known') : W.CoversUpTo known direction graph :=
  fun allocated sub => h allocated fun type ht => more type (sub type ht)

namespace Solver

/-- Every table that the owner relies on has grown. -/
structure Later (s s' : Solver) : Prop where
  seed : s'.seed = s.seed
  direction : s'.direction = s.direction
  graph : s'.graph = s.graph
  facts : s.facts.Sub s'.facts
  rule : ∀ {f : Fact} {rs}, s.rules[f]? = some rs → s'.rules[f]? = some rs
  reached : ∀ f ∈ s.reached, f ∈ s'.reached
  announced : ∀ a ∈ s.announced, a ∈ s'.announced
  ticket : ∀ e ∈ s.tickets, e ∈ s'.tickets
  fieldSubscription : ∀ e ∈ s.fields.subscriptions, e ∈ s'.fields.subscriptions
  callSubscription : ∀ e ∈ s.calls.subscriptions, e ∈ s'.calls.subscriptions
  event : ∀ e ∈ s.events, e ∈ s'.events
  allocated : ∀ type ∈ s.allocated, type ∈ s'.allocated
  methodListener : ∀ l ∈ s.methodListeners, l ∈ s'.methodListeners
  informs : s.Informs → s'.Informs

variable {W : Ways} {F : Facts} {s s' s₁ s₂ s₃ : Solver}

namespace Later

theorem refl (s : Solver) : Later s s where
  seed := rfl
  direction := rfl
  graph := rfl
  facts := (Keeps.refl s).facts_sub
  rule := id
  reached := fun _ => id
  announced := fun _ => id
  ticket := fun _ => id
  fieldSubscription := fun _ => id
  callSubscription := fun _ => id
  event := fun _ => id
  allocated := fun _ => id
  methodListener := fun _ => id
  informs := id

theorem trans (h : Later s₁ s₂) (h' : Later s₂ s₃) : Later s₁ s₃ where
  seed := h'.seed.trans h.seed
  direction := h'.direction.trans h.direction
  graph := h'.graph.trans h.graph
  facts := h.facts.trans h'.facts
  rule := fun hr => h'.rule (h.rule hr)
  reached := fun f hf => h'.reached f (h.reached f hf)
  announced := fun a ha => h'.announced a (h.announced a ha)
  ticket := fun e he => h'.ticket e (h.ticket e he)
  fieldSubscription := fun e he => h'.fieldSubscription e (h.fieldSubscription e he)
  callSubscription := fun e he => h'.callSubscription e (h.callSubscription e he)
  event := fun e he => h'.event e (h.event e he)
  allocated := fun type ht => h'.allocated type (h.allocated type ht)
  methodListener := fun l hl => h'.methodListener l (h.methodListener l hl)
  informs := fun hi => h'.informs (h.informs hi)

end Later

theorem mem_events_of_outbox (h : ∃ es, s'.outbox = s.outbox.postAll es) :
    ∀ e ∈ s.events, e ∈ s'.events := by
  obtain ⟨es, eq⟩ := h
  intro e he
  simp only [events, eq, Feed.posted_postAll, Array.toList_append, List.mem_append]
  exact .inl he

theorem Keeps.later (h : Keeps s s') (t : Tells s s') : Later s s' where
  seed := h.seed
  direction := congrArg Propagation.direction h.propagation
  graph := congrArg Propagation.graph h.propagation
  facts := h.facts_sub
  rule := h.rule
  reached := h.reached
  announced := h.announced
  ticket := fun _ he => h.tickets.symm ▸ he
  fieldSubscription := fun _ he => t.fieldSubscriptions.symm ▸ he
  callSubscription := fun _ he => t.callSubscriptions.symm ▸ he
  event := mem_events_of_outbox t.outbox
  allocated := fun type ht => by
    rw [allocated, h.propagation]
    exact ht
  methodListener := fun _ hl => t.methodListeners.symm ▸ hl
  informs := t.informs

/-- What holds of a solver whenever its owner looks. -/
structure Resting (s : Solver) : Prop where
  regular : s.Regular
  idle : s.worklist.pending = []
  told : s.Told

theorem Resting.fieldDone (h : s.Resting) {t : FieldTransition} (ht : t ∈ s.fields) :
    s.FieldDone t :=
  h.regular.settled.done h.idle (w := .field t) ht

theorem Resting.callDone (h : s.Resting) {t : CallTransition} (ht : t ∈ s.calls) : s.CallDone t :=
  h.regular.settled.done h.idle (w := .call t) ht

/-- At rest, the methods are those of the facts that are reached in some context. -/
theorem Resting.mem_methods_iff (h : s.Resting) {m : MethodName} :
    m ∈ s.methods ↔ s.facts.visits m := by
  constructor
  · obtain ⟨N, -, -, below, -⟩ := h.regular.named
    exact below.visited m
  · rintro ⟨f, ⟨c, hc⟩, rfl⟩
    obtain ⟨rs, hr, -⟩ := (h.callDone hc).rule rfl
    exact (h.regular.settled.found hr).2

/-- The tickets that were answered are those of the facts that are reached with an empty field stack,
whichever came first. -/
theorem Resting.witnessed_iff (h : s.Resting) {ticket : Nat} {seed : Fact} :
    .witnessed ticket seed ∈ s.announced ↔
      seed = s.seed ∧ ∃ f, (f, ticket) ∈ s.tickets ∧ s.reachesWithEmptyStack f := by
  constructor
  · intro ha
    obtain ⟨N, -, -, below, -⟩ := h.regular.named
    obtain ⟨f, -, tell⟩ | ⟨⟨f, ticket'⟩, asked, e, reaches⟩ := below.announced _ ha
    · exact absurd rfl (tell ticket seed)
    · obtain ⟨rfl, rfl⟩ := Announcement.witnessed.inj e
      exact ⟨rfl, f, asked, reaches⟩
  · rintro ⟨rfl, f, asked, reaches⟩
    obtain ⟨known, held⟩ := reachesWithEmptyStack_iff.1 reaches
    exact (h.fieldDone held).answer rfl known asked

end Solver

/-! ## Changes -/

inductive Change where
  | perform (o : Operation)
  | requestTicket (fact : Fact) (ticket : Nat)
  | subscribeField (subscription : Subscription FieldState) (listener : Nat)
  | subscribeCall (subscription : Subscription CallState) (listener : Nat)
  | addAllocatedType (type : ClassName)
  | addMethodListener (listener : Nat)

namespace Change

def apply (s : Solver) : Change → Solver
  | perform o => o.apply s
  | requestTicket f ticket => s.requestTicket f ticket
  | subscribeField subscription listener => s.subscribeField subscription listener
  | subscribeCall subscription listener => s.subscribeCall subscription listener
  | addAllocatedType type => (s.addAllocatedType type).2
  | addMethodListener listener => s.addMethodListener listener

def Grants (seed : Fact) (F : Facts) : Change → Prop
  | perform o => o.Grants seed F
  | _ => True

theorem Grants.mono {seed : Fact} {F G : Facts} {c : Change} (h : c.Grants seed F)
    (sub : F.Sub G) : c.Grants seed G := by
  cases c with
  | perform o => exact Operation.Grants.mono h sub
  | _ => trivial

def fieldSubscriptions : Change → List (Subscription FieldState × Nat)
  | subscribeField subscription listener => [(subscription, listener)]
  | _ => []

def callSubscriptions : Change → List (Subscription CallState × Nat)
  | subscribeCall subscription listener => [(subscription, listener)]
  | _ => []

def tickets : Change → List (Fact × Nat)
  | requestTicket f ticket => [(f, ticket)]
  | _ => []

end Change

namespace Solver

/-- What some changes do to a solver. -/
structure Alters (cs : List Change) (s s' : Solver) : Prop extends Later s s' where
  resting : s'.Resting
  outbox : ∃ es, s'.outbox = s.outbox.postAll es
  fieldSubscriptions :
    s'.fields.subscriptions = s.fields.subscriptions ++ cs.flatMap (·.fieldSubscriptions)
  callSubscriptions :
    s'.calls.subscriptions = s.calls.subscriptions ++ cs.flatMap (·.callSubscriptions)
  requested : ∀ e ∈ cs.flatMap (·.tickets), e ∈ s'.tickets
  tickets : ∀ e ∈ s'.tickets, e ∈ s.tickets ∨ e ∈ cs.flatMap (·.tickets)
  grants : ∀ c ∈ cs, c.Grants s.seed s'.facts
  below : ∀ {W F}, W.CoversUpTo s'.allocated s.direction s.graph → F.Closed W →
    (∀ c ∈ cs, c.Grants s.seed F) → s.Below W F → s'.Below W F

theorem Alters.trans {cs cs' : List Change} (h : Alters cs s₁ s₂) (h' : Alters cs' s₂ s₃) :
    Alters (cs ++ cs') s₁ s₃ where
  toLater := h.toLater.trans h'.toLater
  resting := h'.resting
  outbox := Feed.exists_postAll_trans h.outbox h'.outbox
  fieldSubscriptions := by
    rw [h'.fieldSubscriptions, h.fieldSubscriptions, List.flatMap_append, List.append_assoc]
  callSubscriptions := by
    rw [h'.callSubscriptions, h.callSubscriptions, List.flatMap_append, List.append_assoc]
  requested e he := by
    rw [List.flatMap_append, List.mem_append] at he
    exact he.elim (fun he => h'.ticket e (h.requested e he)) (h'.requested e)
  tickets e he := by
    rw [List.flatMap_append, List.mem_append]
    obtain he | he := h'.tickets e he
    · exact (h.tickets e he).imp_right .inl
    · exact .inr (.inr he)
  grants c hc := (List.mem_append.1 hc).elim (fun hc => (h.grants c hc).mono h'.facts)
    fun hc => h.seed ▸ h'.grants c hc
  below hW hF hg hb := by
    refine h'.below (h.direction.symm ▸ h.graph.symm ▸ hW) hF (fun c hc => ?_)
      (h.below (hW.mono h'.allocated) hF (fun c hc => hg c (List.mem_append_left _ hc)) hb)
    exact h.seed.symm ▸ hg c (List.mem_append_right _ hc)

/-- Changes that leave nothing to remember but growth. -/
theorem Alters.forget {cs : List Change} (h : Alters cs s s')
    (fields : cs.flatMap (·.fieldSubscriptions) = []) (calls : cs.flatMap (·.callSubscriptions) = [])
    (tickets : cs.flatMap (·.tickets) = []) (grants : ∀ F, ∀ c ∈ cs, c.Grants s.seed F) :
    Alters [] s s' :=
  { h with
    fieldSubscriptions := by rw [h.fieldSubscriptions, fields, List.flatMap_nil]
    callSubscriptions := by rw [h.callSubscriptions, calls, List.flatMap_nil]
    requested := by simp
    tickets := by simpa [tickets] using h.tickets
    grants := by simp
    below := fun hW hF _ => h.below hW hF (grants _) }

/-! ## Each change by itself -/

theorem Resting.perform (h : s.Resting) (o : Operation) :
    Alters [.perform o] s (o.apply s) := by
  have p := apply_performs h.regular h.idle o
  exact {
    toLater := p.toKeeps.later p.tells
    resting := ⟨p.regular, p.idle, p.tells.told h.told⟩
    outbox := p.tells.outbox
    fieldSubscriptions := p.tells.fieldSubscriptions.trans (List.append_nil _).symm
    callSubscriptions := p.tells.callSubscriptions.trans (List.append_nil _).symm
    requested := by simp [Change.tickets]
    tickets := fun e he => .inl (p.tickets ▸ he)
    grants := by simpa [Change.Grants] using p.grants
    below := fun _ hF hg hb => p.below hF hb (by simpa [Change.Grants] using hg) }

/-- A change that touches no automaton and keeps the regular solver regular. -/
theorem Resting.alters (h : s.Resting) {c : Change} (later : Later s s') (regular : s'.Regular)
    (worklist : s'.worklist = s.worklist) (told : s'.Told)
    (outbox : ∃ es, s'.outbox = s.outbox.postAll es)
    (fields : s'.fields.subscriptions = s.fields.subscriptions ++ c.fieldSubscriptions)
    (calls : s'.calls.subscriptions = s.calls.subscriptions ++ c.callSubscriptions)
    (requested : ∀ e ∈ c.tickets, e ∈ s'.tickets)
    (tickets : ∀ e ∈ s'.tickets, e ∈ s.tickets ∨ e ∈ c.tickets) (grants : c.Grants s.seed s'.facts)
    (below : ∀ {W F}, W.CoversUpTo s'.allocated s.direction s.graph → F.Closed W → s.Below W F →
      s'.Below W F) :
    Alters [c] s s' where
  toLater := later
  resting := ⟨regular, worklist ▸ h.idle, told⟩
  outbox := outbox
  fieldSubscriptions := by simpa using fields
  callSubscriptions := by simpa using calls
  requested := by simpa using requested
  tickets := by simpa using tickets
  grants := by simpa using grants
  below := fun hW hF _ => below hW hF

theorem Regular.posts (h : s.Regular) (p : Posts s s') (posted : s'.Posted)
    (below : ∀ {W F}, s.Below W F → s'.Below W F) : s'.Regular where
  settled := h.settled.extend p.extend
  posted := posted
  named := by
    obtain ⟨N, hp, hs, hb, hN⟩ := h.named
    have graph : s'.graph = s.graph := congrArg Propagation.graph p.propagation
    refine ⟨N, graph.symm ▸ hp, p.seed.symm ▸ hs, below hb, ?_⟩
    rw [graph, p.foreign]
    exact hN

theorem Resting.subscribeField (h : s.Resting) (subscription : Subscription FieldState)
    (listener : Nat) :
    Alters [.subscribeField subscription listener] s (s.subscribeField subscription listener) := by
  have p : Posts s (s.subscribeField subscription listener) := { Posts.refl s with }
  have outbox : ∃ es, (s.subscribeField subscription listener).outbox = s.outbox.postAll es :=
    ⟨_, rfl⟩
  have later : Later s (s.subscribeField subscription listener) := { Later.refl s with
    fieldSubscription := fun e he => List.mem_append_left _ he
    event := mem_events_of_outbox outbox
    informs := fun hi => { hi with } }
  have below {W F} (hb : s.Below W F) : (s.subscribeField subscription listener).Below W F :=
    { hb with rooted := fun q hq => (hb.rooted q hq).imp fun _ path => path.mono fun _ => id }
  exact h.alters later (h.regular.posts p h.regular.posted below) rfl
    (h.told.subscribeField _ _) outbox rfl (List.append_nil _).symm (by simp [Change.tickets]) (fun _ => .inl)
    trivial fun _ _ => below

theorem Resting.subscribeCall (h : s.Resting) (subscription : Subscription CallState)
    (listener : Nat) :
    Alters [.subscribeCall subscription listener] s (s.subscribeCall subscription listener) := by
  have p : Posts s (s.subscribeCall subscription listener) := { Posts.refl s with }
  have outbox : ∃ es, (s.subscribeCall subscription listener).outbox = s.outbox.postAll es :=
    ⟨_, rfl⟩
  have later : Later s (s.subscribeCall subscription listener) := { Later.refl s with
    callSubscription := fun e he => List.mem_append_left _ he
    event := mem_events_of_outbox outbox
    informs := fun hi => { hi with } }
  exact h.alters later (h.regular.posts p h.regular.posted fun hb => { hb with }) rfl
    (h.told.subscribeCall _ _) outbox (List.append_nil _).symm rfl (by simp [Change.tickets]) (fun _ => .inl)
    trivial fun _ _ hb => { hb with }

theorem Resting.addAllocatedType (h : s.Resting) (type : ClassName) :
    Alters [.addAllocatedType type] s (s.addAllocatedType type).2 := by
  rw [addAllocatedType_eq]
  have regular : Regular
      { s with propagation := { s.propagation with allocated := s.allocated.insert type } } := by
    obtain ⟨N, hp, hs, hb, hN⟩ := h.regular.named
    exact ⟨h.regular.settled.accept s.foreign s.notices _, h.regular.posted, N, hp, hs,
      { hb with obeys := obeys_of_le hp }, hN⟩
  refine h.alters { Later.refl s with allocated := fun _ ht => ?_, informs := fun hi => { hi with } }
    regular rfl { h.told with } ⟨[], rfl⟩ (List.append_nil _).symm (List.append_nil _).symm
    (by simp [Change.tickets]) (fun _ => .inl) trivial fun hW _ hb => { hb with obeys := hW _ fun _ => id }
  exact OrderedSet.mem_insert.2 (.inl ht)

/-- A new listener is told of the methods that it has missed. -/
theorem Informs.addMethodListener {s : Solver} (h : s.Informs) (listener : Nat) :
    (s.addMethodListener listener).Informs := by
  unfold Solver.addMethodListener
  split
  · exact h
  · next new =>
    have new : listener ∉ s.methodListeners := fun known => new (List.contains_iff_mem.2 known)
    refine ⟨List.concat_eq_append ▸ h.nodup.concat new, fun l => ?_⟩
    have told := h.reports l
    simp only [Solver.reports, Feed.posted_postAll, Array.toList_append, List.filterMap_append,
      List.mem_append, List.mem_singleton, List.filterMap_map] at told ⊢
    rw [told]
    by_cases e : l = listener
    · subst e
      simp [new, Notice.methodFor?, Function.comp_def]
    · simp [e, Ne.symm e, Notice.methodFor?, Function.comp_def]

theorem Resting.addMethodListener (h : s.Resting) (listener : Nat) :
    Alters [.addMethodListener listener] s (s.addMethodListener listener) := by
  have informs (hi : s.Informs) := hi.addMethodListener listener
  unfold Solver.addMethodListener at informs ⊢
  by_cases known : s.methodListeners.contains listener
  · rw [if_pos known]
    exact h.alters (.refl s) h.regular rfl h.told ⟨[], rfl⟩ (List.append_nil _).symm
      (List.append_nil _).symm (by simp [Change.tickets]) (fun _ => .inl) trivial fun _ _ hb => hb
  · rw [if_neg known] at informs ⊢
    have p : Posts s { s with
        methodListeners := s.methodListeners ++ [listener]
        notices := s.notices.postAll (s.methods.toList.map fun m => .method listener m) } :=
      { Posts.refl s with }
    refine h.alters { Later.refl s with methodListener := ?_, informs }
      (h.regular.posts p h.regular.posted fun hb => { hb with }) rfl { h.told with } ⟨[], rfl⟩
      (List.append_nil _).symm (List.append_nil _).symm (by simp [Change.tickets]) (fun _ => .inl)
      trivial fun _ _ hb => { hb with }
    exact fun _ => List.mem_append_left _

/-- A ticket that is answered, if it can be, leaves nothing to do. -/
theorem Settled.requestTicket (h : Settled (fun _ => False) s) (f : Fact) (ticket : Nat) :
    (({ s with tickets := s.tickets ++ [(f, ticket)] } : Solver).answerTickets f).Settled
      fun _ => False := by
  set s₀ : Solver := { s with tickets := s.tickets ++ [(f, ticket)] } with hs₀
  obtain ⟨p, answered⟩ := s₀.answerTickets_posts f
  obtain ⟨announced, outbox, e⟩ := s₀.answerTickets_eq f
  rw [e] at p answered ⊢
  refine ⟨fun w hw => ?_, h.reached, fun hr => Found.keeps p.toKeeps (h.found hr)⟩
  have hw : s.Records w := by cases w <;> exact hw
  refine (h.work w hw).imp_right (.imp_right fun done => ?_)
  cases w with
  | call t => exact { (show s.CallDone t from done) with }
  | field t =>
    have done : s.FieldDone t := done
    refine { done with answer := fun {g ticket'} et hr asked => ?_ }
    obtain asked | asked := List.mem_append.1 asked
    · exact p.announced _ (done.answer et hr asked)
    · obtain ⟨rfl, rfl⟩ := Prod.mk.inj (List.mem_singleton.1 asked)
      have ht : t ∈ s.fields := hw
      exact answered (reachesWithEmptyStack_iff.2 ⟨hr, et ▸ ht⟩)
        (List.mem_append_right _ List.mem_cons_self)

theorem Resting.requestTicket (h : s.Resting) (f : Fact) (ticket : Nat) :
    Alters [.requestTicket f ticket] s (s.requestTicket f ticket) := by
  unfold Solver.requestTicket
  split
  · next hm =>
    exact h.alters (.refl s) h.regular rfl h.told ⟨[], rfl⟩ (List.append_nil _).symm
      (List.append_nil _).symm (by simpa [Change.tickets] using hm)
      (fun _ => .inl) trivial fun _ _ hb => hb
  · set s₀ : Solver := { s with tickets := s.tickets ++ [(f, ticket)] } with hs₀
    obtain ⟨N, hp, hs, hb, hN⟩ := h.regular.named
    have more {W F} (hb : s.Below W F) : s₀.Below W F := { hb with
      announced := fun a ha => (hb.announced a ha).imp_right fun ⟨e, he, h⟩ =>
        ⟨e, List.mem_append_left _ he, h⟩ }
    have hb₀ : s₀.Below N.ways N.facts := more hb
    have m := answerTickets_moves hb₀ f
    have posted₀ : s₀.Posted := h.regular.posted
    have p := (s₀.answerTickets_posts f).1
    obtain ⟨announced, outbox, e⟩ := s₀.answerTickets_eq f
    have later₀ : Later s s₀ :=
      { Later.refl s with
        ticket := fun e he => List.mem_append_left _ he
        informs := fun hi => { hi with } }
    have below {W F} (hb : s.Below W F) : (s₀.answerTickets f).Below W F :=
      (more hb).moves (answerTickets_moves (more hb) f)
    have told₀ : s₀.Told := { h.told with }
    refine h.alters (later₀.trans (p.toKeeps.later m.tells)) ?_ ?_ (m.tells.told told₀)
      m.tells.outbox ?_ ?_ ?_ ?_ trivial fun _ _ hb => below hb
    · exact ⟨h.regular.settled.requestTicket f ticket, (m.posted posted₀).1, N, by rw [e]; exact hp,
        by rw [e]; exact hs, below hb, by rw [e]; exact hN⟩
    · rw [e]
    · exact m.tells.fieldSubscriptions.trans (List.append_nil _).symm
    · exact m.tells.callSubscriptions.trans (List.append_nil _).symm
    · intro e he
      rw [p.tickets]
      exact List.mem_append_right _ he
    · intro e he
      rw [p.tickets] at he
      exact List.mem_append.1 he

/-- Every change of a solver at rest does what it should, and no more. -/
theorem Resting.apply (h : s.Resting) (c : Change) : Alters [c] s (c.apply s) := by
  cases c with
  | perform o => exact h.perform o
  | requestTicket f ticket => exact h.requestTicket f ticket
  | subscribeField subscription listener => exact h.subscribeField subscription listener
  | subscribeCall subscription listener => exact h.subscribeCall subscription listener
  | addAllocatedType type => exact h.addAllocatedType type
  | addMethodListener listener => exact h.addMethodListener listener

theorem notices_requestTicket (s : Solver) (fact : Fact) (ticket : Nat) :
    (s.requestTicket fact ticket).notices = s.notices := by
  unfold Solver.requestTicket
  split
  · rfl
  · obtain ⟨announced, outbox, e⟩ :=
      ({ s with tickets := s.tickets ++ [(fact, ticket)] } : Solver).answerTickets_eq fact
    rw [e]

/-- A change takes no notices away. -/
theorem Resting.notices_apply (h : s.Resting) (c : Change) :
    ∃ ns, (c.apply s).notices = s.notices.postAll ns := by
  cases c with
  | perform o => exact (apply_performs h.regular h.idle o).tells.notices
  | requestTicket f ticket => exact ⟨[], s.notices_requestTicket f ticket⟩
  | subscribeField subscription listener => exact ⟨[], rfl⟩
  | subscribeCall subscription listener => exact ⟨[], rfl⟩
  | addAllocatedType type =>
    refine ⟨[], ?_⟩
    rw [Change.apply, addAllocatedType_eq]
    rfl
  | addMethodListener listener =>
    rw [Change.apply, Solver.addMethodListener]
    split
    · exact ⟨[], rfl⟩
    · exact ⟨_, rfl⟩

/-! ## Reading what was told -/

theorem Resting.alters_refl (h : s.Resting) : Alters [] s s where
  toLater := .refl s
  resting := h
  outbox := ⟨[], rfl⟩
  fieldSubscriptions := (List.append_nil _).symm
  callSubscriptions := (List.append_nil _).symm
  requested := by simp
  tickets := fun _ => .inl
  grants := by simp
  below := fun _ _ _ hb => hb

theorem Resting.drainNotices (h : s.Resting) : Alters [] s s.drainNotices.2 := by
  have p : Posts s s.drainNotices.2 := { Posts.refl s with }
  exact { h.alters_refl with
    toLater := { Later.refl s with informs := fun hi => { hi with } }
    resting := ⟨h.regular.posts p h.regular.posted fun hb => { hb with }, h.idle,
      { h.told with }⟩
    below := fun _ _ _ hb => { hb with } }

theorem Resting.drainEvents (h : s.Resting) : Later s s.drainEvents.2 ∧ s.drainEvents.2.Resting ∧
    ∀ {W F}, s.Below W F → s.drainEvents.2.Below W F := by
  have p : Posts s s.drainEvents.2 := { Posts.refl s with }
  have later : Later s s.drainEvents.2 := { Later.refl s with informs := fun hi => { hi with } }
  have regular := h.regular.posts p h.regular.posted fun hb => { hb with }
  exact ⟨later, ⟨regular, h.idle, { h.told with }⟩, fun hb => { hb with }⟩

/-- Changes one after the other, each of which finds the solver at rest. -/
theorem Resting.foldl_apply (h : s.Resting) (cs : List Change) :
    Alters cs s (cs.foldl Change.apply s) ∧
      ∃ ns, (cs.foldl Change.apply s).notices = s.notices.postAll ns := by
  induction cs generalizing s with
  | nil => exact ⟨h.alters_refl, [], rfl⟩
  | cons c cs ih =>
    have first := h.apply c
    obtain ⟨alters, notices⟩ := ih first.resting
    exact ⟨first.trans alters, Feed.exists_postAll_trans (h.notices_apply c) notices⟩

theorem Alters.taken {cs : List Change} (h : Alters cs s s') :
    s'.outbox.taken = s.outbox.taken := by
  obtain ⟨es, e⟩ := h.outbox
  rw [e, Feed.taken_postAll]

end Solver

end PointsTo
