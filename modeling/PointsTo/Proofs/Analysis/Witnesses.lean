import PointsTo.Proofs.Analysis.Clients

/-!
# What clients are told

A client that adds a backward query takes a ticket, and each telling goes out under some ticket
(`tellings`). The ticket, the allocation and the empty field stack may come in any order. Whichever
comes last, the solver of the allocation announces the ticket, and a solver announces nothing twice.
So between calls a client was told of an allocation under its ticket once, if the query witnesses it,
and of nothing else (`addBackwardQuery_tells`).
-/

namespace PointsTo

namespace Analysis

/-- The query reaches an allocation, which gets to the query with an empty field stack. -/
structure Witnesses (a : Analysis) (q : Query) (f : Fact) : Prop where
  reached : ∃ s, a.solver? q = some s ∧ f ∈ s.reached
  allocates : a.program.Allocates f
  arrives : ∃ s, a.solver? (.allocation a.program f) = some s ∧ s.reachesWithEmptyStack q.fact

variable {p : Program} {S : Supply p} {n i ticket : Nat} {a b : Analysis} {q : Query} {f : Fact}
  {event event' : Event} {entry : Entry} {client : Option Nat}

/-! ## Tellings -/

theorem tells?_eq_some_iff : a.tells? event = some (ticket, entry) ↔ ∃ q client f,
    event = .announced (.witnessed ticket f) ∧ a.tickets[ticket]? = some ⟨q, some client⟩ ∧
      entry = .found client q f := by
  constructor
  · intro h
    unfold tells? at h
    split at h
    case h_2 => cases h
    next ticket' f =>
    obtain ⟨entry', told, e⟩ := Option.map_eq_some_iff.1 h
    obtain ⟨rfl, rfl⟩ := Prod.mk.inj e
    obtain ⟨⟨q, client⟩, ht, told⟩ := Option.bind_eq_some_iff.1 told
    obtain ⟨client, rfl, told⟩ := Option.bind_eq_some_iff.1 told
    exact ⟨q, client, f, rfl, ht, (Option.some.inj told).symm⟩
  · rintro ⟨q, client, f, rfl, ht, rfl⟩
    simp [tells?, telling?, ht]

/-- No two events tell the same. -/
theorem tells?_inj {x : Nat × Entry} (h : a.tells? event = some x) (h' : a.tells? event' = some x) :
    event = event' := by
  obtain ⟨q, client, f, rfl, -, e⟩ := tells?_eq_some_iff.1 h
  obtain ⟨q', client', f', rfl, -, e'⟩ := tells?_eq_some_iff.1 h'
  obtain ⟨-, -, rfl⟩ := Entry.found.inj (e.symm.trans e')
  rfl

theorem mem_tellings : (ticket, entry) ∈ a.tellings ↔ ∃ i q client f,
    (i, .announced (.witnessed ticket f)) ∈ a.queue.taken ∧
      a.tickets[ticket]? = some ⟨q, some client⟩ ∧ entry = .found client q f := by
  simp only [tellings, List.mem_filterMap, tells?_eq_some_iff, Prod.exists]
  constructor
  · rintro ⟨i, event, taken, q, client, f, rfl, told⟩
    exact ⟨i, q, client, f, taken, told⟩
  · rintro ⟨i, q, client, f, taken, told⟩
    exact ⟨i, _, taken, q, client, f, rfl, told⟩

/-! ## Announcements -/

/-- A solver announces the tickets only of queries that witness its allocation. -/
theorem Working.witnesses_of_posted (h : Working S n a)
    (posted : (i, .announced (.witnessed ticket f)) ∈ a.queue.posted.toList) :
    a.Index i (.allocation a.program f) ∧
      ∃ q client, a.tickets[ticket]? = some ⟨q, client⟩ ∧ a.Witnesses q f := by
  obtain ⟨x, e, he, announced⟩ := h.has_of_posted posted
  have host := h.within.host he
  obtain ⟨rfl, g, asked, arrives⟩ :=
    host.resting.witnessed_iff.1 (host.resting.told.announced_iff.1 announced)
  -- the solver was asked because the holder of the ticket had found the allocation
  obtain ⟨q, client, held, rfl, found⟩ := h.within.ticket he _ asked
  obtain ⟨f, rfl, allocates, j, e', he', reached⟩ := (h.complete.allocation found).2
  rw [show e.solver.seed = f from host.seed]
  refine ⟨⟨e, he⟩, q, client, held, ?_, allocates, ?_⟩
  · exact ⟨_, Pool.find?_eq_some_iff.2 ⟨j, e', he', rfl⟩, reached⟩
  · exact ⟨_, Pool.find?_eq_some_iff.2 ⟨i, e, he, rfl⟩, arrives⟩

/-- Once nothing waits, the holder of a ticket has heard of everything that its query witnesses. -/
theorem Working.taken_of_witnesses (h : Working S n a) (idle : a.Idle)
    (backward : q.direction = .backward) (held : a.tickets[ticket]? = some ⟨q, client⟩)
    (witnesses : a.Witnesses q f) :
    ∃ i, (i, .announced (.witnessed ticket f)) ∈ a.queue.taken := by
  obtain ⟨s, hs, reached⟩ := witnesses.reached
  obtain ⟨i, e, he, rfl⟩ := Pool.find?_eq_some_iff.1 hs
  have event := (h.within.host he).resting.told.reached_iff.2 reached
  obtain ⟨found, -, -⟩ := (h.all_handled idle he event).allocation backward witnesses.allocates
  -- the solver of the allocation has the ticket, whether it was taken before or after
  obtain ⟨j, e', he', asked⟩ := h.complete.ticket found held
  obtain ⟨s', hs', arrives⟩ := witnesses.arrives
  obtain ⟨k, e'', he'', rfl⟩ := Pool.find?_eq_some_iff.1 hs'
  obtain rfl := he'.index_eq he''
  obtain ⟨-, rfl⟩ := he'.unique he''
  have host := h.within.host he'
  refine ⟨j, h.mem_taken idle he' (host.resting.told.announced_iff.2 ?_)⟩
  exact host.resting.witnessed_iff.2 ⟨host.seed.symm, q.fact, asked, arrives⟩

/-- Once nothing waits, what was told under the ticket of a client is what the query witnesses. -/
theorem Working.mem_tellings_iff (h : Working S n a) (idle : a.Idle)
    (backward : q.direction = .backward) {client : Nat}
    (held : a.tickets[ticket]? = some ⟨q, some client⟩) :
    (ticket, entry) ∈ a.tellings ↔ ∃ f, a.Witnesses q f ∧ entry = .found client q f := by
  rw [mem_tellings]
  constructor
  · rintro ⟨i, q', client', f, announced, held', rfl⟩
    obtain ⟨rfl, same⟩ := Ticket.mk.inj (Option.some.inj (held'.symm.trans held))
    obtain rfl := Option.some.inj same
    obtain ⟨-, q'', client'', held'', witnesses⟩ :=
      h.witnesses_of_posted (List.mem_of_mem_take announced)
    obtain ⟨rfl, -⟩ := Ticket.mk.inj (Option.some.inj (held''.symm.trans held))
    exact ⟨f, witnesses, rfl⟩
  · rintro ⟨f, witnesses, rfl⟩
    obtain ⟨i, announced⟩ := h.taken_of_witnesses idle backward held witnesses
    exact ⟨i, q, client, f, announced, held, rfl⟩

/-- Once nothing waits, a client who has a ticket for a query was told of what the query witnesses. -/
theorem Working.mem_told_iff (h : Working S n a) (idle : a.Idle)
    (backward : q.direction = .backward) {client : Nat}
    (held : a.tickets[ticket]? = some ⟨q, some client⟩) :
    .found client q f ∈ a.told ↔ a.Witnesses q f := by
  rw [h.told, List.mem_map]
  constructor
  · rintro ⟨⟨ticket', entry⟩, tells, same⟩
    obtain ⟨_, q', client', f', _, held', e⟩ := mem_tellings.1 tells
    obtain ⟨rfl, rfl, rfl⟩ := Entry.found.inj (same.symm.trans e)
    obtain ⟨f'', witnesses, e'⟩ := (h.mem_tellings_iff idle backward held').1 tells
    obtain ⟨-, -, rfl⟩ := Entry.found.inj (e.symm.trans e')
    exact witnesses
  · exact fun witnesses =>
      ⟨_, (h.mem_tellings_iff idle backward held).2 ⟨f, witnesses, rfl⟩, rfl⟩

/-- No two solvers tell the same. -/
theorem Working.position_unique (h : Working S n a) {j : Nat} {x : Nat × Entry}
    (hi : (i, event) ∈ a.queue.posted.toList) (hj : (j, event') ∈ a.queue.posted.toList)
    (tells : a.tells? event = some x) (tells' : a.tells? event' = some x) : i = j := by
  obtain rfl := tells?_inj tells tells'
  obtain ⟨q, client, f, rfl, -⟩ := tells?_eq_some_iff.1 tells
  obtain ⟨⟨e, he⟩, -⟩ := h.witnesses_of_posted hi
  obtain ⟨⟨e', he'⟩, -⟩ := h.witnesses_of_posted hj
  exact he.index_eq he'

/-- A solver makes each announcement once. -/
theorem nodup_filterMap_tells? {e : PoolEntry} (told : e.solver.Told) :
    (e.solver.outbox.taken.filterMap a.tells?).Nodup := by
  have announced : a.tells? = fun event =>
      event.announcement?.bind fun x => a.tells? (.announced x) := by
    funext event
    cases event <;> rfl
  rw [announced, ← List.filterMap_filterMap]
  have sublist : (e.solver.outbox.taken.filterMap Event.announcement?).Sublist
      (e.solver.events.filterMap Event.announcement?) :=
    (List.take_sublist _ _).filterMap _
  have nodup := e.solver.announced.nodup_toList
  rw [← told.announced] at nodup
  apply (nodup.sublist sublist).filterMap
  intro x y z hx hy
  exact Event.announced.inj (tells?_inj hx hy)

/-- No client is told twice of an allocation under one ticket. -/
theorem Working.nodup_tellings (h : Working S n a) : a.tellings.Nodup := by
  have posted {x : List Event × Nat} (hx : x ∈ a.pool.read.zipIdx) {event : Event}
      (he : event ∈ x.1) : (x.2, event) ∈ a.queue.posted.toList :=
    h.queued.mem_iff.2 (List.mem_flatMap.2 ⟨x, hx, List.mem_map_of_mem he⟩)
  have delivered : (a.pool.delivered.filterMap fun e => a.tells? e.2).Nodup := by
    simp only [Pool.delivered, List.filterMap_flatMap, List.filterMap_map]
    rw [List.nodup_flatMap]
    constructor
    · intro x hx
      obtain ⟨q, e, he, same⟩ := Pool.getElem?_read.1 (List.mem_zipIdx_iff_getElem?.1 hx)
      show (x.1.filterMap a.tells?).Nodup
      rw [← same]
      exact nodup_filterMap_tells? (h.within.host he).resting.told
    · have positions : a.pool.read.zipIdx.Pairwise fun x y => x.2 ≠ y.2 := by
        rw [← List.pairwise_map, List.zipIdx_map_snd]
        exact List.nodup_range'
      apply positions.imp_of_mem
      intro x y hx hy ne z hz hz'
      apply ne
      obtain ⟨event, he, tells⟩ := List.mem_filterMap.1 hz
      obtain ⟨event', he', tells'⟩ := List.mem_filterMap.1 hz'
      exact h.position_unique (posted hx he) (posted hy he') tells tells'
  have tellings : a.tellings.Sublist (a.queue.posted.toList.filterMap fun e => a.tells? e.2) :=
    (List.take_sublist _ _).filterMap _
  exact (((h.queued.filterMap _).nodup_iff).2 delivered).sublist tellings

/-! ## Calls -/

/-- Under the ticket of a call that adds a backward query, the client is told once of each allocation
that the query witnesses, and of nothing else, whatever is called before and after. -/
theorem addBackwardQuery_tells {config : Config} {before after : List ClientCall} {client : Nat}
    (backward : q.direction = .backward)
    (called : (create p config).performAll (before ++ .addBackwardQuery q client :: after) = .ok b) :
    ∃ a₁ a₂, (create p config).performAll before = .ok a₁ ∧
      a₁.perform (.addBackwardQuery q client) = .ok a₂ ∧ a₂.performAll after = .ok b ∧
      a₂.tickets[a₁.tickets.size]? = some ⟨q, some client⟩ ∧
      b.told = b.tellings.map (·.2) ∧
      (∀ f, b.Witnesses q f → b.tellings.count (a₁.tickets.size, .found client q f) = 1) ∧
      ∀ entry, (a₁.tickets.size, entry) ∈ b.tellings →
        ∃ f, b.Witnesses q f ∧ entry = .found client q f := by
  obtain ⟨a₁, a₂, first, second, third⟩ := performAll_append_cons called
  have ready := ready_of_performAll first
  have taken : a₂.tickets[a₁.tickets.size]? = some ⟨q, some client⟩ := by
    obtain ⟨S, n, working, -⟩ := ready.working
    exact ((working.addBackwardQuery q client).of_eq_ok second).2.taken
  obtain ⟨ready₂, -⟩ := (ready.perform _).of_eq_ok second
  obtain ⟨ready₃, grows⟩ := (ready₂.performAll after).of_eq_ok third
  obtain ⟨S, n, working, -⟩ := ready₃.working
  have held := grows.ticket taken
  have tells {entry} : (a₁.tickets.size, entry) ∈ b.tellings ↔
      ∃ f, b.Witnesses q f ∧ entry = .found client q f :=
    working.mem_tellings_iff ready₃.idle backward held
  refine ⟨a₁, a₂, first, second, third, taken, working.told, fun f witnesses => ?_,
    fun entry => tells.1⟩
  exact List.count_eq_one_of_mem working.nodup_tellings (tells.2 ⟨f, witnesses, rfl⟩)

/-- The value that is read from the box is told to a client that asks after the query was solved, and
is not told again when another client asks. -/
theorem unboxed_told : ∃ program b, Source.readProgram sharedBox = .ok program ∧
    (create program default).performAll
      ([.solve unboxed] ++ .addBackwardQuery unboxed 0 :: [.addBackwardQuery unboxed 1]) = .ok b ∧
    b.Witnesses unboxed ⟨.ofIndex ⟨"m"⟩ 3, ⟨"v", ⟨"m"⟩⟩⟩ ∧
    b.tellings.count (0, .found 0 unboxed ⟨.ofIndex ⟨"m"⟩ 3, ⟨"v", ⟨"m"⟩⟩⟩) = 1 := by
  let value : Fact := ⟨.ofIndex ⟨"m"⟩ 3, ⟨"v", ⟨"m"⟩⟩⟩
  have checked : (Source.readProgram sharedBox).toOption.any fun program =>
      ((create program default).performAll [.solve unboxed]).toOption.any fun a =>
        decide (a.tickets.size = 0) &&
          (a.performAll (.addBackwardQuery unboxed 0 :: [.addBackwardQuery unboxed 1])).toOption.any
            fun b => b.tellings.contains (0, .found 0 unboxed value) := by
    decide +kernel
  obtain ⟨program, read, h⟩ := exists_ok_of_any checked
  obtain ⟨a, before, h⟩ := exists_ok_of_any h
  obtain ⟨none, h⟩ := Bool.and_eq_true_iff.1 h
  obtain ⟨b, after, told⟩ := exists_ok_of_any h
  have called : (create program default).performAll
      ([.solve unboxed] ++ .addBackwardQuery unboxed 0 :: [.addBackwardQuery unboxed 1]) = .ok b := by
    rw [performAll, List.foldlM_append]
    exact bind_eq_ok.2 ⟨a, before, after⟩
  obtain ⟨a₁, a₂, before', -, -, -, -, once, only⟩ := addBackwardQuery_tells rfl called
  obtain rfl := Except.ok.inj (before'.symm.trans before)
  rw [of_decide_eq_true none] at once only
  obtain ⟨f, witnesses, e⟩ := only _ (List.contains_iff_mem.1 told)
  obtain ⟨-, -, rfl⟩ := Entry.found.inj e
  exact ⟨program, b, read, called, witnesses, once value witnesses⟩

end Analysis

end PointsTo
