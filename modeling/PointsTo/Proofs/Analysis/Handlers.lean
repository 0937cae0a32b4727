import PointsTo.Proofs.Analysis.Joins
import PointsTo.Proofs.Analysis.Starting

/-!
# The handlers of events

The handler of each kind of event succeeds, stays inside a closed world, and leaves behind what
`Handled` says (`ends_handle`). Only where a base meets a flow that does not go on, the handler stops.
-/

namespace PointsTo

namespace Analysis

variable {w : Realm} {a b c : Analysis} {i j k : Nat} {q : Query} {access : FieldAccess}
  {x : FieldJoin} {t : FieldTransition}

/-! ## Visitors -/

theorem Within.ends_addBase (h : a.Within w) (hi : a.Index i q) (hj : a.FieldJoinAt j access x)
    (hw : w.base access q) (hu : a.Underlies q access) :
    Ends w.Lax (a.addBase i j) fun b => Advances w 0 a b ∧ b.view.base access q := by
  have joins := h.fieldJoin hj
  obtain ⟨answers, mem, bases, flows⟩ := x.addBase_answers q
  unfold addBase
  rw [hi.queryAt]
  refine (h.ends_changeFieldJoin hj (f := (·.addBase q)) answers (fun q' hq' => ?_)
    (flows ▸ joins.flow)).imp fun b ⟨hb, y, hy, sub⟩ => ⟨hb, j, y, hy, sub.base q mem⟩
  obtain hq' | rfl := bases q' hq'
  · exact joins.base q' hq'
  · exact ⟨hw, hu⟩

/-- A visitor does its errand at a transition. -/
theorem Within.ends_act (h : a.Within w) (hi : a.Index i q) {action : VisitAction} {e : Errand}
    (hm : a.Means action e) (sends : a.Sends q e) (hw : w.Acts a.program q t e) :
    Ends w.Lax (a.act i action t) fun b => Advances w 0 a b ∧ b.view.Acts b.program q t e := by
  obtain ⟨s, hs, seed, -⟩ := h.solverAt hi
  cases action with
  | importInto k j source target connect =>
    cases e with
    | importInto flow access f g =>
      obtain ⟨hk, ⟨x, hj⟩, rfl, rfl, rfl⟩ := hm
      have copy {a : Analysis} (h : a.Within w) (hk : a.Index k flow) :=
        h.yields_perform hk (.addFieldTransition
          ⟨t.start.rename f g, t.label, t.target.rename f g⟩) hw.1
      unfold act
      rw [hs]
      dsimp only [bind, Except.bind]
      rw [seed]
      by_cases both : access.Connects f.var ∧ t.target = .alloc q.fact
      · rw [if_pos (by simpa using both), hj.accessAt]
        refine Yields.ends ((h.yields_perform hk (.addFieldTransition
          ⟨t.start.rename f g, access.field, .single access.fact⟩) (hw.2 both.1 both.2)).bind
            fun b ⟨first, connected⟩ => ?_)
        refine (copy first.within (first.index hk)).imp fun c ⟨second, copied⟩ => ?_
        exact ⟨first.trans second, copied,
          fun _ _ => (second.toGrows.factsOf flow).field _ connected⟩
      · rw [if_neg (by simpa using both)]
        exact ((copy h hk).imp fun b ⟨first, copied⟩ =>
          ⟨first, copied, fun hc ht => absurd ⟨hc, ht⟩ both⟩).ends
    | _ => exact hm.elim
  | flowAllocation j returned =>
    cases e with
    | flowAllocation site returnSite v =>
      obtain ⟨⟨x, hj⟩, rfl⟩ := hm
      have joins := h.callJoin hj
      obtain ⟨start, label, target⟩ := t
      dsimp only [act]
      split
      · next fact =>
        rw [hi.queryAt]
        obtain ⟨answers, mem, flows, bypasses⟩ :=
          x.addFlow_answers ⟨q, returned, start⟩ (.allocation a.program fact)
        refine (h.yields_changeCallJoin hj
          (f := (·.addFlow ⟨q, returned, start⟩ (.allocation a.program fact))) answers
          (fun e he => ?_) (bypasses ▸ joins.bypassed)).ends.imp fun b ⟨hb, y, hy, sub⟩ => ⟨hb, ?_⟩
        · obtain he | rfl := flows e he
          · exact joins.returned e he
          · exact ⟨hw rfl rfl, i, hi⟩
        · intro fact' ht' _
          obtain rfl : fact = fact' := by simpa using ht'
          rw [hb.program]
          exact ⟨j, y, hy, sub.returned _ mem⟩
      · next no => exact .ok ⟨h.advances_refl, fun {fact} ht hl => absurd hl (no fact ht)⟩
    | _ => exact hm.elim
  | splice k =>
    cases e with
    | splice flow =>
      exact ((h.yields_perform hm (.addFieldTransition t) hw).imp fun b hb => hb).ends
    | _ => exact hm.elim
  | baseAllocation j =>
    cases e with
    | baseAllocation access =>
      obtain ⟨x, hj⟩ := hm
      unfold act
      rw [hs]
      show Ends w.Lax (if t.target = s.seedState then a.addBase i j else .ok a) _
      rw [seed]
      split
      · next ht =>
        obtain ⟨hd, hk, hr, hf⟩ := sends
        have hu : a.Underlies q access := ⟨hd, hf, by simp [hk, hr]⟩
        exact (h.ends_addBase hi hj (hw ht) hu).imp fun b ⟨hb, base⟩ => ⟨hb, fun _ => base⟩
      · next ht => exact .ok ⟨h.advances_refl, fun ht' => absurd ht' ht⟩
    | _ => exact hm.elim

/-- A visitor of the analysis has come to a state. -/
def comeTo (a : Analysis) (v : Nat) (visited : OrderedSet FieldState) : Analysis :=
  { a with visitors := a.visitors.modify v fun y => { y with visited } }

theorem getElem?_comeTo {v n : Nat} {visited : OrderedSet FieldState} {z : Visitor} :
    (a.comeTo v visited).visitors[n]? = some z ↔
      ∃ y : Visitor, a.visitors[n]? = some y ∧ z = if v = n then { y with visited } else y := by
  rw [comeTo, Array.getElem?_modify]
  split
  · rw [Option.map_eq_some_iff]
    exact exists_congr fun y => and_congr_right fun _ => eq_comm
  · simp [eq_comm]

/-- A visitor goes on to a state where it has not been. -/
theorem Within.yields_comeTo (h : a.Within w) {v : Nat} {y : Visitor} (hv : a.visitors[v]? = some y)
    (hi : a.Index y.solver q) {state : FieldState} (new : state ∉ y.visited)
    (hw : ∀ {e}, a.Means y.action e → (∀ s ∈ y.visited, w.visits q e s) → w.visits q e state) :
    Yields ((a.comeTo v (y.visited.insert state)).changeSolver y.solver fun s =>
      s.subscribeField (.leaving state) y.listener) fun b =>
        Proceeds w 0 a b ∧ Extends a b ∧
          b.visitors[v]? = some { y with visited := y.visited.insert state } := by
  set y' : Visitor := { y with visited := y.visited.insert state }
  set a₁ := a.comeTo v (y.visited.insert state)
  have g : Grows a a₁ := { Grows.refl a with
    visitor := fun {n z} hz => by
      refine ⟨_, getElem?_comeTo.2 ⟨z, hz, rfl⟩, ?_⟩
      split
      · next e =>
        subst e
        obtain rfl := Option.some.inj (hz.symm.trans hv)
        exact ⟨rfl, rfl, rfl, fun s hs => OrderedSet.mem_insert.2 (.inl hs)⟩
      · exact ⟨rfl, rfl, rfl, fun _ => id⟩ }
  have hv₁ : a₁.visitors[v]? = some y' := getElem?_comeTo.2 ⟨y, hv, (if_pos rfl).symm⟩
  have guided := h.visitor hv
  obtain ⟨q', e, hi', hm, sends, visits⟩ := guided.errand
  obtain rfl := hi.unique hi'
  have guided₁ : a₁.Guided w v y' := by
    refine ⟨g.fieldListener guided.hears, q, e, g.index hi, g.means hm, g.sends sends, fun s hs => ?_⟩
    obtain hs | rfl := OrderedSet.mem_insert.1 hs
    · exact visits s hs
    · exact hw hm visits
  have first : Proceeds w 0 a a₁ := {
    toGrows := g
    within := h.keep g Iff.rfl rfl (fun {n z} hz => by
      obtain ⟨z', hz', rfl⟩ := getElem?_comeTo.1 hz
      split
      · next e =>
        subst e
        obtain rfl := Option.some.inj (hz'.symm.trans hv)
        exact .inr guided₁
      · exact .inl hz') .inl .inl
    queue := rfl
    delivered := rfl
    told := rfl
    balance := by
      rw [balance_congr (b := a₁) (a := a) rfl rfl rfl rfl rfl]
      omega }
  have member : state ∈ y'.visited := OrderedSet.mem_insert.2 (.inr rfl)
  obtain ⟨p', e', second, e₀, e₁, he₀, he₁, r⟩ := first.within.changes (g.index hi)
    [.subscribeField (.leaving state) y.listener] (fun hs => hs.subscribeField _ _)
    (by simp [Change.Grants])
    (by simpa [Change.fieldSubscriptions] using ⟨_, g.fieldListener guided.hears, y', state, hv₁,
      rfl, g.index hi, rfl, member⟩)
    (fun {e} he => List.nodup_append.2 ⟨h.nodup he, by simp [Change.fieldSubscriptions], by
      -- The visitor would already have been where its listener listens.
      intro s hs s' hs' eq
      obtain rfl : s' = (.leaving state, y.listener) := by
        simpa [Change.fieldSubscriptions] using hs'
      subst eq
      obtain ⟨x, hx, hr⟩ := h.listener he _ hs
      obtain rfl := Option.some.inj (hx.symm.trans guided.hears)
      obtain ⟨z, state', hz, -, -, e, hm⟩ := hr
      obtain rfl := Option.some.inj (hz.symm.trans hv)
      obtain rfl : state = state' := by simpa using e
      exact new hm⟩) (by simp [Change.tickets]) rfl
  have both := first.trans second
  refine ⟨_, e', both, both.toGrows.extend rfl rfl rfl rfl fun {n z} hz s hs => ?_, hv₁⟩
  obtain ⟨z', hz', rfl⟩ := getElem?_comeTo.1 hz
  split at hs
  · next e =>
    subst e
    obtain rfl := Option.some.inj (hz'.symm.trans hv)
    obtain hs | rfl := OrderedSet.mem_insert.1 hs
    · exact .inl ⟨_, hv, hs⟩
    · rw [if_pos rfl]
      refine .inr ⟨q, e₁, he₁, ?_⟩
      rw [r.alters.fieldSubscriptions]
      exact List.mem_append_right _ List.mem_cons_self
  · exact .inl ⟨z', hz', hs⟩

/-- A visitor comes to a transition. -/
theorem Within.ends_visit (h : a.Within w) {v : Nat} {y : Visitor} (hv : a.visitors[v]? = some y)
    (hi : a.Index y.solver q) (ht : (a.factsOf q).field t) (hs : t.start ∈ y.visited) :
    Ends w.Lax (a.visit v t) fun b => Proceeds w 0 a b ∧ Extends a b ∧ b.Heard q t (.visit v) := by
  have guided := h.visitor hv
  obtain ⟨q', e, hi', hm, sends, visits⟩ := guided.errand
  obtain rfl := hi.unique hi'
  have there : ∀ {e}, (∀ s ∈ y.visited, w.visits q e s) →
      w.visits q e t.target ∧ w.Acts a.program q t e :=
    fun visits => h.closed.visit (visits _ hs) (h.factsOf_sub.field t ht)
  unfold visit
  rw [show a.visitorAt v = .ok y from entryAt_eq hv]
  refine (h.ends_act hi hm sends (there visits).2).bind fun b ⟨first, acts⟩ => ?_
  have hv' := first.kept hv
  cases new : y.visited.insertNew? t.target with
  | none =>
    exact .ok ⟨first.toProceeds, first.toExtends, y, e, hv', first.means hm,
      OrderedSet.insertNew?_eq_none_iff.1 new, acts⟩
  | some visited =>
    obtain ⟨absent, rfl⟩ := OrderedSet.insertNew?_eq_some_iff.1 new
    refine (first.within.yields_comeTo hv' (first.index hi) absent
      fun _ visits => (there visits).1).ends.imp fun c ⟨second, extends', hc⟩ => ?_
    refine ⟨first.toProceeds.trans second, first.toExtends.trans extends', _, e, hc,
      second.means (first.means hm), OrderedSet.mem_insert.2 (.inr rfl), ?_⟩
    rw [second.program]
    exact acts.mono second.toGrows.view

/-- The world lets in the alias that handling the event may import. -/
def Admits (w : Realm) (a : Analysis) (q : Query) : Event → Prop
  | .fieldTransition l t => ∀ {j k point points access x flow v},
    a.fieldListeners[l]? = some (.importAliases j k point points) → a.FieldJoinAt j access x →
      a.Index k flow → t.start = .single ⟨point, v⟩ → ¬ a.HasAlias access flow v →
        w.imports access q flow (point, points) v
  | _ => True

theorem admits_of_open {event : Event}
    (all : ∀ access base flow p v, w.imports access base flow p v) : Admits w a q event := by
  cases event with
  | fieldTransition l t => exact fun _ _ _ _ _ => all _ _ _ _ _
  | _ => trivial

/-- A listener hears of a transition that its subscription covers. -/
theorem Within.ends_onFieldTransition (h : a.Within w) (hi : a.Index i q) {l : Nat}
    {subscription : Subscription FieldState} (hl : ∃ x, a.fieldListeners[l]? = some x ∧
      a.Justified q subscription l x)
    (covers : subscription.covers t) (ht : (a.factsOf q).field t)
    (admits : Admits w a q (.fieldTransition l t)) :
    Ends w.Lax (a.onFieldTransition i l t) fun b => Proceeds w 0 a b ∧ Extends a b ∧
      ∃ x, b.fieldListeners[l]? = some x ∧ b.Heard q t x := by
  obtain ⟨x, hx, hr⟩ := hl
  unfold onFieldTransition
  rw [show a.listenerAt l = .ok x from entryAt_eq hx]
  cases x with
  | baseAllocation j =>
    obtain ⟨access, x, hj, rfl, hd, hk, hf⟩ := hr
    have hw := h.closed.writeBase (h.query ⟨i, hi⟩) hd (h.fieldJoin hj).accesses hk (h.reached hf)
    obtain ⟨s, hs, seed, -⟩ := h.solverAt hi
    obtain ⟨start, label, target⟩ := t
    obtain rfl : start = .single access.baseFact := by simpa [Subscription.covers] using covers
    rw [hs]
    dsimp only [bind, Except.bind]
    rw [seed]
    split
    · next at_seed =>
      obtain ⟨rfl, rfl⟩ := at_seed
      refine (h.ends_addBase hi hj (hw (h.factsOf_sub.field _ ht)) ⟨hd, hf, fun _ => ht⟩).imp
        fun b added => ?_
      obtain ⟨hb, base⟩ := added
      obtain ⟨y, hy, -⟩ := hb.fieldJoin hj
      exact ⟨hb.toProceeds, hb.toExtends, _, hb.fieldListener hx, access, y, hy, fun _ _ => base⟩
    · next other =>
      exact .ok ⟨h.proceeds_refl, .refl a, _, hx, access, x, hj,
        fun ht hl => absurd ⟨ht, hl⟩ other⟩
  | importAliases j k point points =>
    obtain ⟨access, x, flow, hj, hk, -, hp, hb, hf⟩ := hr
    refine (h.yields_importAlias hi hk hj hp hb hf ht (admits hx hj hk)).ends.imp fun b imported => ?_
    obtain ⟨hb, has⟩ := imported
    obtain ⟨y, hy, -⟩ := hb.fieldJoin hj
    exact ⟨hb.toProceeds, hb.toExtends, _, hb.fieldListener hx, access, y, flow, hy, hb.index hk,
      fun start => (has start).1⟩
  | visit v =>
    obtain ⟨y, state, hv, -, hi', rfl, hs⟩ := hr
    obtain rfl : t.start = state := by simpa [Subscription.covers] using covers
    refine (h.ends_visit hv hi' ht hs).imp fun b visited => ?_
    obtain ⟨hb, he, heard⟩ := visited
    exact ⟨hb, he, _, hb.fieldListener hx, heard⟩

/-! ## Starting other queries -/

/-- A ticket is taken. -/
theorem Within.proceeds_ticket (h : a.Within w) (ticket : Ticket) :
    Proceeds w 1 a { a with tickets := a.tickets.push ticket } := by
  set b : Analysis := { a with tickets := a.tickets.push ticket }
  have size : b.tickets.size = a.tickets.size + 1 := Array.size_push ticket
  have g : Grows a b := { Grows.refl a with ticket := getElem?_push_of_some }
  refine ⟨g, h.keep g Iff.rfl rfl .inl .inl .inl, rfl, rfl, rfl, ?_⟩
  show (b.fieldListeners.size + b.tickets.size - b.credit : Int) ≤
    b.fieldListeners.size + a.tickets.size - b.credit + 1
  omega

theorem Within.yields_requestTicket (h : a.Within w) (hi : a.Index i q) {f : Fact} {ticket : Nat}
    (owes : a.Owes q (f, ticket)) :
    Yields (requestTicket f ticket a i) fun b => Advances w 0 a b ∧ b.Serves q f ticket := by
  obtain ⟨p', e, proceeds, e₀, e₁, he₀, he₁, r⟩ := h.changes hi [.requestTicket f ticket]
    (fun hs => hs.requestTicket f ticket) (by simp [Change.Grants])
    (by simp [Change.fieldSubscriptions])
    (fun he => by simpa [Change.fieldSubscriptions] using h.nodup he)
    (by simpa [Change.tickets] using owes) rfl
  refine ⟨_, e, proceeds.advances id (proceeds.toGrows.extend rfl rfl rfl rfl fun hv _ hs => ?_),
    i, e₁, he₁, r.alters.requested _ (by simp [Change.tickets])⟩
  exact .inl ⟨_, hv, hs⟩

theorem mem_ticketsOf {ticket : Nat} :
    ticket ∈ a.ticketsOf q ↔ ∃ client, a.tickets[ticket]? = some ⟨q, client⟩ := by
  rw [ticketsOf, List.mem_filter, List.mem_range]
  constructor
  · rintro ⟨-, held⟩
    obtain ⟨t, ht, e⟩ := (Option.any_eq_true _ _).1 held
    obtain rfl := of_decide_eq_true e
    exact ⟨t.client, ht⟩
  · rintro ⟨client, ht⟩
    exact ⟨(Array.getElem?_eq_some_iff.1 ht).1, by simp [ht]⟩

/-- A ticket is taken and handed on to the allocations that its query has found. -/
theorem Within.yields_takeTicket (h : a.Within w) (complete : a.Complete) (q : Query)
    (client : Option Nat) :
    Yields ((a.allocations.of q).foldlM
      (fun b x => requestTicket q.fact a.tickets.size (b.getOrCreate x).2 (b.getOrCreate x).1)
      { a with tickets := a.tickets.push ⟨q, client⟩ }) fun b =>
        Advances w 1 a b ∧ b.tickets[a.tickets.size]? = some ⟨q, client⟩ := by
  have first := h.proceeds_ticket ⟨q, client⟩
  set a₁ : Analysis := { a with tickets := a.tickets.push ⟨q, client⟩ }
  have taken : a₁.tickets[a.tickets.size]? = some ⟨q, client⟩ := Array.getElem?_push_size
  obtain ⟨b, result, second, served⟩ := yields_foldlM (k := 0) (a.allocations.of q)
    (f := fun b x => requestTicket q.fact a.tickets.size (b.getOrCreate x).2 (b.getOrCreate x).1)
    (Q := fun x b => b.Serves x q.fact a.tickets.size) first.within
    (fun {b} g hb x hx => by
      obtain ⟨k, hk⟩ := g.knows (complete.allocation hx).1
      have owes : b.Owes x (q.fact, a.tickets.size) :=
        ⟨q, client, g.ticket taken, rfl, g.allocation hx⟩
      rw [hk.getOrCreate]
      exact hb.yields_requestTicket hk owes)
    fun g serves => g.serves serves
  have proceeds : Proceeds w 1 a b := (first.trans second.toProceeds).weaken (by omega)
  refine ⟨b, result, proceeds.advances second.kept { proceeds.toGrows with
    newPair := second.newPair
    newAlias := second.newAlias
    newActivation := second.newActivation
    newAllocation := second.newAllocation
    newVisited := second.newVisited
    newTicket := fun {q' x client' k} hx ht => ?_ }, second.ticket taken⟩
  obtain ⟨hx, ht⟩ | serves := second.newTicket hx ht
  · obtain ht | ⟨rfl, same⟩ := getElem?_push_cases ht
    · exact .inl ⟨hx, ht⟩
    · obtain ⟨rfl, -⟩ := Ticket.mk.inj same
      exact .inr (served x hx)
  · exact .inr serves

/-- A query is started backward, and the listener takes the next ticket. -/
theorem Within.yields_startBackward (h : a.Within w) (complete : a.Complete)
    (hw : w.Starts .backward q) (listener : Option (Option Nat)) :
    Yields (a.startBackward q listener) fun b => Advances w 1 a b ∧ b.Knows q ∧
      ∀ {client}, listener = some client → b.tickets[a.tickets.size]? = some ⟨q, client⟩ := by
  unfold startBackward
  refine (h.yields_startQuery hw).bind fun ⟨i, b⟩ ⟨first, hi, tickets⟩ => ?_
  dsimp only at first hi tickets
  cases listener with
  | none => exact .ok ⟨first.weaken (by omega), ⟨i, hi⟩, nofun⟩
  | some client =>
    obtain ⟨c, result, second, taken⟩ :=
      first.within.yields_takeTicket (complete.extend first.toExtends) q client
    refine ⟨c, result, (first.trans second).weaken (by omega), second.knows ⟨i, hi⟩, ?_⟩
    intro client' same
    obtain rfl := Option.some.inj same
    rw [← tickets]
    exact taken

theorem Within.yields_spawnBackward (h : a.Within w) (complete : a.Complete) (hw : w.started q)
    (hd : q.direction = .backward) :
    Yields (a.spawnBackward q) fun b => Advances w 1 a b ∧ b.Knows q := by
  have start (listener : Option (Option Nat)) :=
    (h.yields_startBackward complete (.inl ⟨hw, hd.symm⟩) listener).imp
      fun b ⟨advances, known, _⟩ => And.intro advances known
  unfold spawnBackward
  cases hi : a.pool.indexOf? q with
  | some i => exact .ok ⟨h.advances_refl.weaken (by omega), i, Pool.indexOf?_eq_some_iff.1 hi⟩
  | none =>
    cases a.config.witnessPolicy with
    | ignore => exact start none
    | record => exact start (some none)

/-! ## Facts that are reached -/

/-- The calling contexts of a query are watched from now on. -/
theorem Within.yields_watch (h : a.Within w) (hi : a.Index i q) (hw : w.watched q) :
    Yields (a.watchContexts i) fun b => Advances w 0 a b ∧ b.Watched q := by
  unfold watchContexts
  cases new : a.watched.insertNew? i with
  | none =>
    obtain ⟨q', e, l, he, hs⟩ := h.watched i (OrderedSet.insertNew?_eq_none_iff.1 new)
    obtain rfl := hi.unique ⟨e, he⟩
    exact .ok ⟨h.advances_refl, i, e, l, he, hs⟩
  | some watched =>
    obtain ⟨absent, rfl⟩ := OrderedSet.insertNew?_eq_some_iff.1 new
    obtain ⟨e, he⟩ := hi
    set l := a.callListeners.size
    set a₁ := (a.addCallListener .unbalancedFlow).2
    have first : Proceeds w 0 a a₁ := h.addCallListener _
    have hears : a₁.callListeners[l]? = some .unbalancedFlow := Array.getElem?_push_size
    have ev := Pool.evolves_modify (f := (·.subscribeCall .any l)) he
      (fun he => (h.host he).resting) ((h.host he).resting.subscribeCall .any l)
    have at_i {j : Nat} : (if j = i then [Change.subscribeCall .any l] else []).flatMap
        (·.callSubscriptions) = if j = i then [(.any, l)] else [] := by
      split <;> rfl
    have second := first.within.evolves ev (a.watched.insert i)
      (fun j hj => OrderedSet.mem_insert.2 (.inl hj))
      (fun {j q'} _ c hc => by
        split at hc
        · obtain rfl := List.mem_singleton.1 hc
          trivial
        · simp at hc)
      (fun {j q'} _ s hs => by split at hs <;> simp [Change.fieldSubscriptions] at hs)
      (fun {j q' e'} he' => by split <;> simpa [Change.fieldSubscriptions] using h.nodup he')
      (fun {j q'} _ t ht => by split at ht <;> simp [Change.tickets] at ht)
      (fun {j q'} hj => by
        rw [at_i]
        by_cases e : j = i
        · subst e
          obtain rfl := hj.unique ⟨_, he⟩
          rw [if_pos rfl]
          exact .inr ⟨l, rfl, hears, hw, OrderedSet.mem_insert.2 (.inr rfl), absent⟩
        · exact .inl (if_neg e))
      (fun j hj => by
        rw [at_i]
        obtain hj | rfl := OrderedSet.mem_insert.1 hj
        · exact .inl hj
        · exact .inr ⟨⟨q, e, he⟩, l, if_pos rfl⟩)
    obtain ⟨e', he', r⟩ := ev.old he
    have both := first.trans second
    refine ⟨_, if_pos (Pool.lt_size_iff.2 ⟨q, e, he⟩),
      both.advances id (both.toGrows.extend rfl rfl rfl rfl fun hv _ hs => .inl ⟨_, hv, hs⟩),
      i, e', l, he', ?_⟩
    rw [r.alters.callSubscriptions, at_i, if_pos rfl]
    exact List.mem_append_right _ List.mem_cons_self

/-- The solver of an allocation gets all tickets of a query that has found it. -/
theorem Within.yields_requestTickets (h : a.Within w) {x : Query} (hi : a.Index i x)
    (found : x ∈ a.allocations.of q) :
    Yields ((a.ticketsOf q).foldlM (fun b ticket => requestTicket q.fact ticket b i) a) fun b =>
      Advances w 0 a b ∧ ∀ {ticket client}, a.tickets[ticket]? = some ⟨q, client⟩ →
        b.Serves x q.fact ticket := by
  obtain ⟨b, result, advances, served⟩ := yields_foldlM (k := 0) (a.ticketsOf q)
    (f := fun b ticket => requestTicket q.fact ticket b i)
    (Q := fun ticket b => b.Serves x q.fact ticket) h
    (fun g hb ticket ht => by
      obtain ⟨client, held⟩ := mem_ticketsOf.1 ht
      exact hb.yields_requestTicket (g.index hi)
        ⟨q, client, g.ticket held, rfl, g.allocation found⟩)
    fun g serves => g.serves serves
  exact ⟨b, result, advances.weaken (by omega),
    fun held => served _ (mem_ticketsOf.2 ⟨_, held⟩)⟩

/-- The forward query for an allocation is started and watched, and gets all tickets of the query
that has found it. -/
theorem Within.yields_foundAllocation (h : a.Within w) {f : Fact} (ha : a.program.Allocates f)
    (reaches : a.Reaches q f)
    (hs : w.started (.allocation a.program f)) (hw : w.watched (.allocation a.program f)) :
    Yields (a.foundAllocation q f) fun b => Advances w 0 a b ∧
      .allocation a.program f ∈ b.allocations.of q ∧
      b.Knows (.allocation a.program f) ∧ b.Watched (.allocation a.program f) := by
  set x := Query.allocation a.program f
  set a₁ : Analysis := { a with allocations := a.allocations.insert q x }
  have g : Grows a a₁ := { Grows.refl a with
    allocation := fun hx => Multimap.mem_of_insert.2 (.inl hx) }
  have found : x ∈ a₁.allocations.of q := Multimap.mem_of_insert.2 (.inr ⟨rfl, rfl⟩)
  have first : Proceeds w 0 a a₁ := ⟨g, h.keep g Iff.rfl rfl .inl .inl .inl, rfl, rfl, rfl, by
    rw [balance_congr (b := a₁) (a := a) rfl rfl rfl rfl rfl]
    omega⟩
  obtain ⟨⟨i, b⟩, e, second, hi, -⟩ := first.within.yields_startQuery (.inl ⟨hs, rfl⟩)
  obtain ⟨c, e', third, watched⟩ := second.within.yields_watch hi hw
  obtain ⟨d, e'', fourth, served⟩ := third.within.yields_requestTickets (third.index hi)
    ((second.trans third).allocation found)
  have rest := (second.trans third).trans fourth
  have proceeds : Proceeds w 0 a d := (first.trans rest.toProceeds).weaken (by omega)
  have knows : d.Knows x := (third.trans fourth).knows ⟨i, hi⟩
  have finds : d.Finds q x := proceeds.finds ⟨f, rfl, ha, reaches⟩
  refine ⟨d, ?_, proceeds.advances rest.kept { proceeds.toGrows with
    newPair := rest.newPair
    newAlias := rest.newAlias
    newActivation := rest.newActivation
    newAllocation := fun {q' x'} hx => (rest.newAllocation hx).elim (fun hx => ?_) .inr
    newTicket := fun {q' x' client k} hx ht => (rest.newTicket hx ht).elim (fun old => ?_) .inr
    newVisited := rest.newVisited }, rest.allocation found, knows, fourth.isWatched watched⟩
  · have e : a₁.startQuery .forward x = .ok (i, b) := e
    unfold foundAllocation
    dsimp only
    rw [e]
    dsimp only at e'
    show (b.watchContexts i).bind _ = _
    rw [e']
    exact e''
  · obtain hx | ⟨rfl, rfl⟩ := Multimap.mem_of_insert.1 hx
    · exact .inl hx
    · exact .inr ⟨knows, finds⟩
  · obtain ⟨hx, ht⟩ := old
    obtain hx | ⟨rfl, rfl⟩ := Multimap.mem_of_insert.1 hx
    · exact .inl ⟨hx, ht⟩
    · exact .inr (served ((second.trans third).ticket ht))

/-- A query that follows a value is a flow of the access. -/
theorem Within.ends_reachedValue (h : a.Within w) (complete : a.Complete)
    (accesses : a.program.Accesses access) (carries : a.Carries q access)
    (hs : w.started (.backward access.baseFact)) (hw : w.flow access q) :
    Ends w.Lax (a.reachedValue q access) fun b => Advances w 1 a b ∧
      b.Knows (.backward access.baseFact) ∧ b.view.flow access q := by
  unfold reachedValue
  refine (h.yields_spawnBackward complete hs rfl).ends.bind fun b ⟨first, known⟩ => ?_
  obtain ⟨second, x, hj⟩ := first.within.fieldJoin_spec (first.program.symm ▸ accesses)
  have joins := second.within.fieldJoin hj
  obtain ⟨answers, mem, flows, bases⟩ := x.addFlow_answers q
  have both := first.trans second
  refine (second.within.ends_changeFieldJoin hj (f := (·.addFlow q)) answers (bases ▸ joins.base)
    (fun q' hq' => ?_)).imp fun c ⟨third, y, hy, sub⟩ => ?_
  · obtain hq' | rfl := flows q' hq'
    · exact joins.flow q' hq'
    · exact ⟨hw, both.carries carries⟩
  · exact ⟨both.trans third, (second.trans third).knows known, _, y, hy, sub.flow q mem⟩

/-- From now on a listener waits for the base of the access to be the seed. -/
theorem Within.yields_watchBase (h : a.Within w) (hi : a.Index i q)
    (hj : a.FieldJoinAt j access x) (hd : q.direction = .forward)
    (hk : access.kind = .write ∨ a.config.readBaseRule = .emptyFieldOnly)
    (hf : a.Reaches q access.baseFact) :
    Yields (a.watchBase i access.baseFact j) fun b => Advances w 1 a b ∧ b.Awaits q access := by
  refine (h.yields_subscribe hi (.baseAllocation j) (.leaving (.single access.baseFact))
    ⟨access, x, hj, rfl, hd, hk, hf⟩).imp fun b ⟨hb, hl, hs⟩ => ⟨hb, ?_⟩
  obtain ⟨y, hy, -⟩ := hb.fieldJoin hj
  exact ⟨i, j, _, y, hb.index hi, hy, hl, hs⟩

/-- What a backward query that reaches a fact leaves behind, by the instruction there. -/
theorem reached_of_backward (hd : q.direction = .backward) {f : Fact}
    (allocation : a.program.Allocates f → .allocation a.program f ∈ a.allocations.of q ∧
      a.Knows (.allocation a.program f) ∧ a.Watched (.allocation a.program f))
    (value : ∀ {base field}, a.program.instruction? f.point = some (.load f.var base field) →
      a.Knows (.backward ⟨f.point, base⟩) ∧ a.view.flow ⟨.read, f.point, base, field, f.var⟩ q) :
    a.Reached q f := by
  have forward {P : Prop} (hd' : q.direction = .forward) : P := by
    rw [hd] at hd'
    cases hd'
  refine ⟨fun _ => allocation, fun {access} hd' ha hf => ?_, forward, forward⟩
  obtain ⟨_ | _, point, base, field, value'⟩ := access
  · exact forward hd'
  · obtain rfl : (⟨point, value'⟩ : Fact) = f := hf
    exact value ha

/-- What a forward query that reaches a fact leaves behind, by the instruction there. -/
theorem reached_of_forward (hd : q.direction = .forward) {f : Fact}
    (value : ∀ {base field}, a.program.instruction? f.point = some (.store base field f.var) →
      a.Knows (.backward ⟨f.point, base⟩) ∧ a.view.flow ⟨.write, f.point, base, field, f.var⟩ q)
    (written : ∀ {field v}, a.program.instruction? f.point = some (.store f.var field v) →
      a.Awaits q ⟨.write, f.point, f.var, field, v⟩)
    (read : ∀ {field v}, a.program.instruction? f.point = some (.load v f.var field) →
      (a.config.readBaseRule = .emptyFieldOnly → a.Awaits q ⟨.read, f.point, f.var, field, v⟩) ∧
        (a.config.readBaseRule = .seedTransition →
          a.view.visits q (.baseAllocation ⟨.read, f.point, f.var, field, v⟩) (.single f))) :
    a.Reached q f := by
  refine ⟨fun hd' => ?_, fun {access} hd' ha hf => ?_, fun {access} _ ha hk hf => ?_,
    fun {access} _ ha hk hr hf => ?_⟩
  · rw [hd] at hd'
    cases hd'
  · obtain ⟨_ | _, point, base, field, value'⟩ := access
    · obtain rfl : (⟨point, value'⟩ : Fact) = f := hf
      exact value ha
    · rw [hd] at hd'
      cases hd'
  · obtain ⟨_ | _, point, base, field, value'⟩ := access
    · obtain rfl : (⟨point, base⟩ : Fact) = f := hf
      exact written ha
    · obtain rfl : (⟨point, base⟩ : Fact) = f := hf
      exact (read ha).1 (hk.resolve_left (by simp))
  · obtain ⟨_ | _, point, base, field, value'⟩ := access
    · cases hk
    · obtain rfl : (⟨point, base⟩ : Fact) = f := hf
      exact (read ha).2 hr

theorem Within.ends_backwardReached (h : a.Within w) (complete : a.Complete)
    (hd : q.direction = .backward) {f : Fact} (reaches : a.Reaches q f) :
    Ends w.Lax (a.backwardReached q f) fun b => Advances w 1 a b ∧ b.Reached q f := by
  have hqw := h.query reaches.knows
  have hf := h.reached reaches
  have nothing (hn : ¬ a.program.Allocates f)
      (hl : ∀ base field, a.program.instruction? f.point ≠ some (.load f.var base field)) :
      Ends w.Lax (.ok a) fun b => Advances w 1 a b ∧ b.Reached q f :=
    .ok ⟨h.advances_refl.weaken (by omega), reached_of_backward hd (fun ha => absurd ha hn) fun e => absurd e (hl _ _)⟩
  have found (ha : a.program.Allocates f)
      (hl : ∀ base field, a.program.instruction? f.point ≠ some (.load f.var base field)) :
      Ends w.Lax (a.foundAllocation q f) fun b => Advances w 1 a b ∧ b.Reached q f := by
    obtain ⟨hs, hw⟩ := h.closed.allocation hqw hd hf ha
    refine (h.yields_foundAllocation ha reaches hs hw).ends.imp fun b ⟨hb, known⟩ =>
      ⟨hb.weaken (by omega), ?_⟩
    rw [← hb.program] at known hl
    exact reached_of_backward hd (fun _ => known) fun e => absurd e (hl _ _)
  unfold backwardReached
  split
  · next dest type hi =>
    split
    · next e => exact found (.inl ⟨type, e ▸ hi⟩) (by simp [hi])
    · next e => exact nothing (by simp [Program.Allocates, hi, e]) (by simp [hi])
  · next dest hi =>
    split
    · next e => exact found (.inr (e ▸ hi)) (by simp [hi])
    · next e => exact nothing (by simp [Program.Allocates, hi, e]) (by simp [hi])
  · next dest base field hi =>
    split
    · next e =>
      obtain rfl := e
      set access : FieldAccess := ⟨.read, f.point, base, field, f.var⟩
      have accesses : a.program.Accesses access := hi
      have direction : q.direction = access.direction := hd
      obtain ⟨hs, hw⟩ := h.closed.value hqw direction accesses hf
      refine (h.ends_reachedValue complete accesses ⟨direction, reaches⟩ hs hw).imp
        fun b ⟨hb, known⟩ => ⟨hb, ?_⟩
      refine reached_of_backward hd (fun ha => ?_) fun e => ?_
      · simp [Program.Allocates, hb.program, hi] at ha
      · rw [hb.program, hi] at e
        obtain ⟨rfl, rfl⟩ : base = _ ∧ field = _ := by simpa using e
        exact known
    · next e => exact nothing (by simp [Program.Allocates, hi]) (by simp [hi, e])
  · next new null load =>
    refine nothing (fun ha => ?_) fun base field e => load _ _ _ e
    obtain ⟨type, e⟩ | e := ha
    · exact new _ _ e
    · exact null _ e

theorem Within.yields_reachedReadBase (h : a.Within w) (hi : a.Index i q)
    (hd : q.direction = .forward) (accesses : a.program.Accesses access)
    (hk : access.kind = .read) (hf : a.Reaches q access.baseFact) :
    Yields (a.reachedReadBase i access.baseFact access) fun b => Advances w 1 a b ∧
      (b.config.readBaseRule = .emptyFieldOnly → b.Awaits q access) ∧
        (b.config.readBaseRule = .seedTransition →
          b.view.visits q (.baseAllocation access) (.single access.baseFact)) := by
  unfold reachedReadBase
  obtain ⟨first, x, hj⟩ := h.fieldJoin_spec accesses
  generalize a.fieldJoin access = join at first hj ⊢
  obtain ⟨j, b⟩ := join
  dsimp only at first hj ⊢
  cases rule : b.config.readBaseRule with
  | emptyFieldOnly =>
    refine (first.within.yields_watchBase (first.index hi) hj hd (.inr rule) (first.reaches hf)).imp
      fun c watched => ?_
    obtain ⟨second, awaits⟩ := watched
    refine ⟨(first.trans second).weaken (by omega), fun _ => awaits, fun e => ?_⟩
    rw [second.config, rule] at e
    cases e
  | seedTransition =>
    have hr : a.config.readBaseRule = .seedTransition := first.config ▸ rule
    have wanted := h.closed.readBase (h.query ⟨i, hi⟩) hd accesses hk hr (h.reached hf)
    have means : Means _ (.baseAllocation j) (.baseAllocation access) := ⟨x, hj⟩
    have sends : Sends _ q (.baseAllocation access) := ⟨hd, hk, rule, first.reaches hf⟩
    refine (first.within.yields_startVisit (first.index hi) means sends wanted).imp fun c visited => ?_
    obtain ⟨second, visits⟩ := visited
    refine ⟨(first.trans second).weaken (by omega), fun e => ?_, fun _ => visits⟩
    rw [second.config, rule] at e
    cases e

/-- The base of a write is waited for. -/
theorem Within.yields_writeBase (h : a.Within w) (hi : a.Index i q) (hd : q.direction = .forward)
    (accesses : a.program.Accesses access) (hk : access.kind = .write)
    (hf : a.Reaches q access.baseFact) :
    Yields ((a.fieldJoin access).2.watchBase i access.baseFact (a.fieldJoin access).1) fun b =>
      Advances w 1 a b ∧ b.Awaits q access := by
  obtain ⟨first, x, hj⟩ := h.fieldJoin_spec accesses
  exact (first.within.yields_watchBase (first.index hi) hj hd (.inl hk) (first.reaches hf)).imp
    fun c ⟨second, awaits⟩ => ⟨(first.trans second).weaken (by omega), awaits⟩

/-- What a forward query that reaches a field write leaves behind. -/
theorem reached_of_store (hd : q.direction = .forward) {f : Fact} {base value : Var} {field : Field}
    (hi : a.program.instruction? f.point = some (.store base field value))
    (known : value = f.var → a.Knows (.backward ⟨f.point, base⟩) ∧
      a.view.flow ⟨.write, f.point, base, field, value⟩ q)
    (awaits : base = f.var → a.Awaits q ⟨.write, f.point, base, field, value⟩) : a.Reached q f := by
  refine reached_of_forward hd (fun e => ?_) (fun e => ?_) fun e => ?_
  · rw [hi] at e
    obtain ⟨rfl, rfl, rfl⟩ : base = _ ∧ field = _ ∧ value = f.var := by simpa using e
    exact known rfl
  · rw [hi] at e
    obtain ⟨rfl, rfl, rfl⟩ : base = f.var ∧ field = _ ∧ value = _ := by simpa using e
    exact awaits rfl
  · rw [hi] at e
    simp at e

theorem Within.ends_forwardReached (h : a.Within w) (complete : a.Complete) (hi : a.Index i q)
    (hd : q.direction = .forward) {f : Fact} (reaches : a.Reaches q f) :
    Ends w.Lax (a.forwardReached i q f) fun b => Advances w 2 a b ∧ b.Reached q f := by
  have hqw := h.query ⟨i, hi⟩
  have hf := h.reached reaches
  unfold forwardReached
  split
  · next base field value hi' =>
    set access : FieldAccess := ⟨.write, f.point, base, field, value⟩
    have accesses : a.program.Accesses access := hi'
    have direction : q.direction = access.direction := hd
    have second : ∀ b, (Advances w 1 a b ∧ (value = f.var →
          b.Knows (.backward access.baseFact) ∧ b.view.flow access q)) →
        Ends w.Lax (if base = f.var then (b.fieldJoin access).2.watchBase i f (b.fieldJoin access).1
          else pure b) fun c => Advances w 2 a c ∧ c.Reached q f := by
      rintro b ⟨hb, known⟩
      have hib : b.program.instruction? f.point = some (.store base field value) := by
        rw [hb.program]
        exact hi'
      split
      · next e =>
        have ef : access.baseFact = f := congrArg (Fact.mk f.point) e
        have watched := hb.within.yields_writeBase (hb.index hi) hd
          (show b.program.Accesses access from hib) rfl (ef.symm ▸ hb.reaches reaches)
        rw [ef] at watched
        refine watched.ends.imp fun c ⟨hc, awaits⟩ => ⟨(hb.trans hc).weaken (by omega), ?_⟩
        exact reached_of_store hd (hc.program.symm ▸ hib)
          (fun e => (known e).imp hc.toGrows.knows hc.toGrows.view.flow) fun _ => awaits
      · next e =>
        exact .ok ⟨hb.weaken (by omega), reached_of_store hd hib known fun e' => absurd e' e⟩
    show Ends w.Lax (if value = f.var then a.reachedValue q access >>= fun b => if base = f.var then
      (b.fieldJoin access).2.watchBase i f (b.fieldJoin access).1 else pure b else pure a >>= _) _
    split
    · next e =>
      have ef : access.fact = f := congrArg (Fact.mk f.point) e
      obtain ⟨hs, hw⟩ := h.closed.value hqw direction accesses (ef.symm ▸ hf)
      exact (h.ends_reachedValue complete accesses ⟨direction, ef.symm ▸ reaches⟩ hs hw).bind
        fun b ⟨hb, known⟩ => second b ⟨hb, fun _ => known⟩
    · next e => exact second a ⟨h.advances_refl.weaken (by omega), fun e' => absurd e' e⟩
  · next dest base field hi' =>
    set access : FieldAccess := ⟨.read, f.point, base, field, dest⟩
    have accesses : a.program.Accesses access := hi'
    split
    · next e =>
      have ef : access.baseFact = f := congrArg (Fact.mk f.point) e
      have watched := h.yields_reachedReadBase hi hd accesses rfl (ef.symm ▸ reaches)
      rw [ef] at watched
      refine watched.ends.imp fun b ⟨hb, awaits, visits⟩ => ⟨hb.weaken (by omega), ?_⟩
      have hib : b.program.instruction? f.point = some (.load dest base field) := by
        rw [hb.program]
        exact hi'
      refine reached_of_forward hd (fun e' => ?_) (fun e' => ?_) fun e' => ?_
      · rw [hib] at e'
        simp at e'
      · rw [hib] at e'
        simp at e'
      · rw [hib] at e'
        obtain ⟨rfl, rfl, rfl⟩ : dest = _ ∧ base = f.var ∧ field = _ := by simpa using e'
        exact ⟨awaits, visits⟩
    · next e =>
      refine .ok ⟨h.advances_refl.weaken (by omega), reached_of_forward hd (fun e' => ?_)
        (fun e' => ?_) fun e' => ?_⟩
      · simp [hi'] at e'
      · simp [hi'] at e'
      · simp [hi', e] at e'
  · next store load =>
    exact .ok ⟨h.advances_refl.weaken (by omega), reached_of_forward hd
      (fun e => absurd e (store _ _ _)) (fun e => absurd e (store _ _ _))
      fun e => absurd e (load _ _ _)⟩

/-! ## All events -/

theorem Within.yields_onCallTransition (h : a.Within w) (hi : a.Index i q) (hw : w.watched q)
    {t : CallTransition} (ht : (a.factsOf q).call t) {l : Nat}
    (hl : a.callListeners[l]? = some .unbalancedFlow) :
    Yields (a.onCallTransition i l t) fun b => Advances w 0 a b ∧
      b.Handled q (.callTransition l t) := by
  obtain ⟨start, label, target⟩ := t
  unfold onCallTransition
  rw [show a.callListenerAt l = .ok .unbalancedFlow from entryAt_eq hl]
  cases target with
  | generated v point =>
    refine (h.yields_perform hi (.addUnbalanced point.method) (h.closed.watched hw
      (h.factsOf_sub.call _ ht) rfl)).imp fun b ⟨hb, opened⟩ => ⟨hb, fun e => ?_⟩
    obtain ⟨rfl, rfl⟩ : v = _ ∧ point = _ := by simpa using e
    exact opened
  | single v => exact .ok ⟨h.advances_refl, fun e => by simp at e⟩
  | initial v => exact .ok ⟨h.advances_refl, fun e => by simp at e⟩

end Analysis

/-- How many listeners and tickets the handler of an event adds that no join pays for. -/
def Event.cost : Event → Nat
  | .reached _ => 2
  | .announced (.witnessed _ _) | .fieldTransition _ _ | .callTransition _ _ => 0
  | .announced _ => 1

namespace Analysis

variable {w : Realm} {a b : Analysis} {i : Nat} {q : Query} {e : PoolEntry} {event : Event}

/-- An event was handled inside a world. A client was told of it if, and as, the event says. -/
structure Handles (w : Realm) (event : Event) (a b : Analysis) : Prop extends Extends a b where
  within : b.Within w
  queue : b.queue = a.queue
  delivered : b.pool.delivered = a.pool.delivered
  told : b.told = a.told ++ ((b.tells? event).map (·.2)).toList
  balance : b.balance ≤ a.balance + event.cost

theorem Proceeds.handles (h : Proceeds w event.cost a b) (extends' : Extends a b)
    (quiet : b.tells? event = none) : Handles w event a b :=
  { h, extends' with
    told := by
      rw [h.told, quiet]
      exact (List.append_nil _).symm }

/-- The holder of a ticket hears of an allocation. -/
theorem Within.yields_onWitness (h : a.Within w) {ticket : Nat} {t : Ticket}
    (ht : a.tickets[ticket]? = some t) (seed : Fact) :
    Yields (a.onWitness ticket seed) (Handles w (.announced (.witnessed ticket seed)) a) := by
  have noted (journal : Feed Entry) (witnesses : OrderedSet (Query × Fact))
      (told : Pool.told { a.pool with journal } = a.told ++ (a.telling? ticket seed).toList) :
      Handles w (.announced (.witnessed ticket seed)) a
        { a with pool := { a.pool with journal }, witnesses } := by
    set b : Analysis := { a with pool := { a.pool with journal }, witnesses }
    have g : Grows a b := { Grows.refl a with }
    refine { g.extend rfl rfl rfl rfl fun hv _ hs => .inl ⟨_, hv, hs⟩ with
      within := h.keep g Iff.rfl rfl .inl .inl .inl
      queue := rfl
      delivered := rfl
      told := ?_
      balance := ?_ }
    · rw [tells?, Option.map_map, show (·.2) ∘ (ticket, ·) = (id : Entry → Entry) from rfl,
        Option.map_id_fun]
      exact told
    · rw [balance_congr (b := b) (a := a) rfl rfl rfl rfl rfl]
      omega
  unfold onWitness
  rw [show a.ticketAt ticket = .ok t from entryAt_eq ht]
  obtain ⟨query, client⟩ := t
  cases client with
  | some client =>
    refine .ok (noted _ _ ((Pool.told_record a.pool (.found client query seed)).trans ?_))
    simp [telling?, ht, told, Entry.isFound]
  | none => exact .ok (noted a.pool.journal _ (by simp [telling?, ht, told]))

/-- The handler of an event of a solver ends and leaves behind what it should. -/
theorem Within.ends_handle (h : a.Within w) (complete : a.Complete) (he : a.pool.Has i q e)
    {event : Event} (hev : event ∈ e.solver.events) (admits : Admits w a q event) :
    Ends w.Lax (a.handle i event) fun b => Handles w event a b ∧ b.Handled q event := by
  have hi : a.Index i q := ⟨e, he⟩
  have host := h.host he
  have told := host.resting.told
  cases event with
  | reached f =>
    have reaches : a.Reaches q f := ⟨i, e, he, told.reached_iff.1 hev⟩
    unfold handle
    rw [hi.queryAt]
    cases hd : q.direction with
    | forward =>
      have forward : q.isForward = true := by simp [Query.isForward, hd]
      dsimp only [bind, Except.bind]
      rw [if_pos forward]
      exact (h.ends_forwardReached complete hi hd reaches).imp fun b ⟨hb, reached⟩ =>
        ⟨hb.toProceeds.handles hb.toExtends rfl, reached⟩
    | backward =>
      have backward : ¬ q.isForward = true := by simp [Query.isForward, hd]
      dsimp only [bind, Except.bind]
      rw [if_neg backward]
      exact (h.ends_backwardReached complete hd reaches).imp fun b ⟨hb, reached⟩ =>
        ⟨(hb.weaken (by simp [Event.cost])).toProceeds.handles hb.toExtends rfl, reached⟩
  | fieldTransition l t =>
    obtain ⟨ht, subscription, hs, covers⟩ := told.field_iff.1 hev
    exact (h.ends_onFieldTransition hi (h.listener he _ hs) covers ⟨i, e, he, ht⟩ admits).imp
      fun b ⟨hb, extends', heard⟩ => ⟨hb.handles extends' rfl, heard⟩
  | callTransition l t =>
    obtain ⟨ht, subscription, hs, -⟩ := told.call_iff.1 hev
    obtain ⟨hl, hw⟩ : a.callListeners[l]? = some .unbalancedFlow ∧ w.watched q := by
      obtain none | ⟨l', one, hl, hw, -⟩ := h.watcher he
      · simp [none] at hs
      · rw [one, List.mem_singleton] at hs
        obtain ⟨-, rfl⟩ := Prod.mk.inj hs
        exact ⟨hl, hw⟩
    exact (h.yields_onCallTransition hi hw ⟨i, e, he, ht⟩ hl).ends.imp fun b ⟨hb, handled⟩ =>
      ⟨hb.toProceeds.handles hb.toExtends rfl, handled⟩
  | announced announcement =>
    have announced := told.announced_iff.1 hev
    have told := host.below.announced announcement announced
    cases announcement with
    | returned site f =>
      obtain ⟨g, hg, tell⟩ := told.resolve_right (by simp)
      obtain ⟨site', visits⟩ := h.closed.returned host.query hg tell
      obtain ⟨first, x, hj⟩ := h.callJoin_spec site'
      refine (first.within.yields_startVisit (first.index hi)
        (show Means _ (.flowAllocation _ f.var) (.flowAllocation site f.point f.var) from
          ⟨⟨x, hj⟩, rfl⟩) trivial visits).ends.imp fun b ⟨second, hb⟩ => ?_
      have both := (first.trans second).weaken (l := 1) (by omega)
      exact ⟨both.toProceeds.handles both.toExtends rfl, hb⟩
    | bypassed site returnSite v =>
      obtain ⟨g, hg, tell⟩ := told.resolve_right (by simp)
      obtain ⟨site', bypassed⟩ := h.closed.bypassed host.query hg tell
      obtain ⟨first, x, hj⟩ := h.callJoin_spec site'
      have joins := first.within.callJoin hj
      obtain ⟨answers, mem, bypasses, flows⟩ := x.addBypass_answers q v
      unfold handle
      dsimp only
      rw [(first.index hi).queryAt]
      refine (first.within.yields_changeCallJoin hj (f := (·.addBypass q v)) answers
        (flows ▸ joins.returned) (fun k hk => ?_)).ends.imp fun b ⟨second, y, hy, sub⟩ => ?_
      · obtain hk | rfl := bypasses k hk
        · exact joins.bypassed k hk
        · exact ⟨bypassed, i, first.index hi⟩
      · have both := (first.trans second).weaken (l := 1) (by omega)
        exact ⟨both.toProceeds.handles both.toExtends rfl, _, y, hy, sub.bypassed _ mem⟩
    | witnessed ticket seed =>
      obtain ⟨-, f, asked, -⟩ := host.resting.witnessed_iff.1 announced
      obtain ⟨holder, client, ht, -⟩ := h.ticket he _ asked
      exact (h.yields_onWitness ht seed).ends.imp fun b hb => ⟨hb, _, hb.ticket ht⟩

/-- Another world lets in the alias if it has let in everything that was imported in the end. -/
theorem Within.admits_of_handle {w' : Realm} (h : a.Within w) (he : a.pool.Has i q e) {event : Event}
    (hev : event ∈ e.solver.events) (all : Admits w a q event)
    (handled : a.handle i event = .ok b) (obeys : b.Obeys w') : Admits w' a q event := by
  cases event with
  | fieldTransition l t =>
    intro j k point points access x flow v hx hj hk start unknown
    have hi : a.Index i q := ⟨e, he⟩
    obtain ⟨ht, subscription, hs, -⟩ := (h.host he).resting.told.field_iff.1 hev
    obtain ⟨y, hy, justified⟩ := h.listener he _ hs
    obtain rfl := Option.some.inj (hx.symm.trans hy)
    obtain ⟨access', x', flow', hj', hk', -, hp, hb, hf⟩ := justified
    obtain ⟨rfl, rfl⟩ := hj.unique hj'
    obtain rfl := hk.unique hk'
    have result : a.importAlias i j k point points t = .ok b := by
      rw [handle, onFieldTransition, show a.listenerAt l = .ok _ from entryAt_eq hx] at handled
      exact handled
    obtain ⟨c, result', -, done⟩ := h.yields_importAlias hi hk hj hp hb hf ⟨i, e, he, ht⟩
      (all hx hj hk)
    obtain rfl := Except.ok.inj (result.symm.trans result')
    exact obeys _ _ _ _ _ ((done start).2.resolve_left unknown)
  | reached f => trivial
  | callTransition l t => trivial
  | announced announcement => trivial

end Analysis

end PointsTo
