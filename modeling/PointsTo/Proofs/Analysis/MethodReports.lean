import PointsTo.Proofs.Analysis.Ledger
import PointsTo.Proofs.Source.Reader

/-!
# Who hears of the methods that are reached

Each solver tells its listeners of the methods that it reaches, and the pool tells each solver of all
listeners, those that register late included. The journal has what the solvers said, notice by notice
(`Recorded`), so it has the methods that a listener was told of by each solver: those that the
solver has reached, each once and in the order in which it has reached them (`reports_eq_methods`).
-/

namespace PointsTo

/-- What the solver at a position said, if that is what the entry is about. -/
def Entry.noticeOf? (index : Nat) : Entry → Option Notice
  | solver i notice => if i = index then some notice else none
  | _ => none

namespace Pool

variable {program : Program} {p p' : Pool} {i j l : Nat} {q : Query} {e : PoolEntry}
  {calls : List PoolCall} {call : PoolCall}

/-- What the solver at a position said, as the journal has it. -/
def said (p : Pool) (i : Nat) : List Notice := p.journal.posted.toList.filterMap (Entry.noticeOf? i)

/-- The methods that the solver at a position has told a listener of, as the journal has it. -/
def reports (p : Pool) (i listener : Nat) : List MethodName :=
  (p.said i).filterMap (Notice.methodFor? listener)

/-! ## The journal has what the solvers said -/

/-- What was read of the notices of a solver is in the journal, and nothing else is said to be by
it. -/
structure Recorded (p : Pool) : Prop where
  taken : ∀ {i q e}, p.Has i q e → p.said i = e.solver.notices.taken
  silent : ∀ {i}, p.size ≤ i → p.said i = []

theorem Has.noticesOf (he : p.Has i q e) : p.noticesOf i = e.solver.notices.pending := by
  rw [Pool.noticesOf, value?_eq_some_iff.2 ⟨q, he⟩]

theorem noticesOf_of_size_le (hi : p.size ≤ i) : p.noticesOf i = [] := by
  rw [noticesOf, value?_eq_none (Nat.not_lt.2 hi)]

theorem said_collectNotices (p : Pool) (i j : Nat) :
    (p.collectNotices j).said i = p.said i ++ if j = i then p.noticesOf i else [] := by
  have own (ns : List Notice) : (ns.map (Entry.solver j)).filterMap (Entry.noticeOf? i) =
      if j = i then ns else [] := by
    rw [List.filterMap_map]
    split
    · next e => simp [Entry.noticeOf?, e]
    · next ne => simp [Function.comp_def, Entry.noticeOf?, ne]
  simp only [said, collectNotices, Feed.posted_postAll, Array.toList_append,
    List.filterMap_append, own]
  split
  · next e => rw [e]
  · rfl

theorem size_collectNotices (p : Pool) (j : Nat) : (p.collectNotices j).size = p.size :=
  OrderedMap.size_modify _ _ _

namespace Recorded

/-- Solvers that say more, which is not read yet. -/
theorem of_has (h : p.Recorded) (journal : p'.journal = p.journal) (size : p'.size = p.size)
    (old : ∀ {i q e'}, p'.Has i q e' →
      ∃ e, p.Has i q e ∧ ∃ ns, e'.solver.notices = e.solver.notices.postAll ns) : p'.Recorded where
  taken he' := by
    obtain ⟨e, he, ns, said⟩ := old he'
    rw [said, Feed.taken_postAll, ← h.taken he, Pool.said, journal]
    rfl
  silent hi := by
    rw [Pool.said, journal]
    exact h.silent (size ▸ hi)

variable (h : p.Recorded)
include h

theorem collectNotices (j : Nat) : (p.collectNotices j).Recorded where
  taken {i q e'} he' := by
    obtain ⟨e, he, rfl⟩ := has_collectNotices.1 he'
    rw [said_collectNotices, h.taken he, he.noticesOf]
    split
    · exact (Feed.taken_append_pending _).trans (Feed.taken_takeAll _).symm
    · exact List.append_nil _
  silent {i} hi := by
    rw [size_collectNotices] at hi
    rw [said_collectNotices, h.silent hi, noticesOf_of_size_le hi, ite_self]
    rfl

theorem modify {f : Solver → Solver}
    (posts : ∀ {i q e}, p.Has i q e → ∃ ns, (f e.solver).notices = e.solver.notices.postAll ns)
    (j : Nat) : (p.modify j f).Recorded := by
  let p₁ : Pool := { p with
    entries := p.entries.modify j fun e => { e with solver := f e.solver, dirty := true } }
  have changed : p₁.Recorded := by
    refine h.of_has rfl (OrderedMap.size_modify _ _ _) fun he' => ?_
    obtain ⟨e, he, rfl⟩ := has_modifyEntry.1 he'
    refine ⟨e, he, ?_⟩
    split
    · exact posts he
    · exact ⟨[], rfl⟩
  exact changed.collectNotices j

theorem changeAll {f : Solver → Solver}
    (posts : ∀ {i q e}, p.Has i q e → ∃ ns, (f e.solver).notices = e.solver.notices.postAll ns) :
    (p.changeAll f).Recorded := by
  refine changeAll_induction (h.of_has rfl (OrderedMap.size_mapValues _ _) fun he' => ?_)
    fun i changed => changed.collectNotices i
  obtain ⟨e, he, rfl⟩ := has_mapEntries.1 he'
  exact ⟨e, he, posts he⟩

theorem addAllocatedType (type : ClassName) : (p.addAllocatedType type).2.Recorded := by
  unfold Pool.addAllocatedType
  split
  · exact h
  · next allocated _ =>
    have first : ({ p with allocated } : Pool).Recorded := ⟨h.taken, h.silent⟩
    refine first.changeAll (f := fun s => (s.addAllocatedType type).2) fun _ => ⟨[], ?_⟩
    rw [Solver.addAllocatedType_eq]
    rfl

theorem addMethodListener (l : Nat) : (p.addMethodListener l).2.Recorded := by
  unfold Pool.addMethodListener
  split
  · exact h
  · have told : (p.changeAll fun s => s.addMethodListener l).Recorded := by
      refine h.changeAll fun {i q e} _ => ?_
      unfold Solver.addMethodListener
      split
      · exact ⟨[], rfl⟩
      · exact ⟨_, rfl⟩
    exact ⟨told.taken, told.silent⟩

theorem created (new : p.indexOf? q = none) : (p.created q).Recorded := by
  have said (i : Nat) : (p.created q).said i = p.said i := by
    simp [Pool.said, Pool.created, record, Entry.noticeOf?]
  refine ⟨fun he' => ?_, fun {i} hi => ?_⟩
  · rw [said]
    obtain he | ⟨rfl, -, rfl⟩ := (has_created new).1 he'
    · exact h.taken he
    · rw [h.silent (Nat.le_refl _), notices_newSolver, Feed.taken_empty]
  · rw [said]
    refine h.silent (Nat.not_lt.1 fun hi' => ?_)
    obtain ⟨q', e, he⟩ := lt_size_iff.1 hi'
    exact Nat.not_lt.2 hi (lt_size_iff.2 ⟨q', e, (has_created new).2 (.inl he)⟩)

theorem getOrCreate (q : Query) : (p.getOrCreate q).2.Recorded :=
  getOrCreate_induction (fun _ => h) h.created fun type created => created.addAllocatedType type

theorem start {isNew : Bool} (called : p.start i = .ok (isNew, p')) : p'.Recorded := by
  unfold Pool.start at called
  split at called
  · cases called
  · obtain ⟨-, rfl⟩ := Prod.mk.inj (Except.ok.inj called)
    refine h.of_has rfl (OrderedMap.size_modify _ _ _) fun he' => ?_
    obtain ⟨e, he, rfl⟩ := has_modifyEntry.1 he'
    refine ⟨e, he, [], ?_⟩
    split <;> rfl

theorem drain : p.drain.2.Recorded := by
  refine h.of_has rfl (OrderedMap.size_mapValues _ _) fun he' => ?_
  obtain ⟨e, he, rfl⟩ := has_drain.1 he'
  refine ⟨e, he, [], ?_⟩
  split <;> rfl

theorem perform (orderly : p.Orderly) (called : p.perform call = .ok p') : p'.Recorded := by
  refine perform_cases (P := fun _ p' => p'.Recorded) called h.getOrCreate h.start
    h.addAllocatedType h.addMethodListener (fun i cs => ?_) (fun i => ?_) h.drain
  · exact h.modify (fun he => ((orderly.resting he).foldl_apply cs).2) i
  · exact h.modify (fun _ => ⟨[], rfl⟩) i

end Recorded

theorem recorded_of_performAll (called : (create program).performAll calls = .ok p) :
    p.Recorded := by
  have start : (create program).Recorded := ⟨fun he => absurd he not_has_create, fun _ => rfl⟩
  exact ((orderly_create program).history (P := fun _ p => p.Recorded) start
    (fun orderly _ called recorded => recorded.perform orderly called) called).2

/-! ## What listeners hear -/

/-- A listener has heard from each solver what the solver reports to it. -/
theorem reports_eq (called : (create program).performAll calls = .ok p) (he : p.Has i q e) :
    p.reports i l = if l ∈ e.solver.methodListeners then e.solver.methods.toList else [] := by
  have orderly := orderly_of_performAll called
  have all : e.solver.notices.taken = e.solver.notices.posted.toList := by
    rw [← Feed.taken_append_pending, orderly.quiet i q e he, List.append_nil]
  rw [reports, (recorded_of_performAll called).taken he, all]
  exact (orderly.informs he).reports l

/-- Whoever was registered as a listener, at any time and however often, has heard from every solver,
older or newer, of the methods that the solver has reached, of each once and in the order in which
they were reached. These are the methods of the statements that label call transitions from a
variable. -/
theorem reports_eq_methods (called : (create program).performAll calls = .ok p)
    (registered : .addMethodListener l ∈ calls) (he : p.Has i q e) :
    p.reports i l = e.solver.methods.toList ∧ e.solver.methods.toList.Nodup ∧
      ∀ m, m ∈ e.solver.methods ↔
        ∃ v point c, ⟨.single v, point, c⟩ ∈ e.solver.calls ∧ point.method = m := by
  have orderly := orderly_of_performAll called
  have listens := orderly.methodListener he l ((mem_methodListeners_iff called).2 registered)
  refine ⟨?_, OrderedSet.nodup_toList _, fun m => ?_⟩
  · rw [reports_eq called he, if_pos listens]
  · rw [(orderly.resting he).mem_methods_iff]
    constructor
    · rintro ⟨f, ⟨c, hc⟩, rfl⟩
      exact ⟨f.var, f.point, c, hc, rfl⟩
    · rintro ⟨v, point, c, hc, rfl⟩
      exact ⟨⟨point, v⟩, ⟨c, hc⟩, rfl⟩

/-- A method that passes what it makes through another one, twice. -/
def passingTwice : String :=
  "method m() \x7b\n  a = new A\n  x = call pass(a)\n  y = call pass(x)\n\x7d\n" ++
    "method pass(v) \x7b\n  return v\n\x7d"

/-- The object that is passed on. -/
def passedObject : Query := ⟨.forward, ⟨.ofIndex ⟨"m"⟩ 1, ⟨"a", ⟨"m"⟩⟩⟩, some ⟨"A"⟩⟩

/-- What is returned in the end. -/
def passedBack : Query := .backward ⟨.ofIndex ⟨"pass"⟩ 1, ⟨"v", ⟨"pass"⟩⟩⟩

/-- A listener comes after one solver has worked and before another one is there, twice. -/
def listenBetween : List PoolCall :=
  [.getOrCreate passedObject, .change 0 [.perform (.solve ⟨.ofIndex ⟨"m"⟩ 2, ⟨"a", ⟨"m"⟩⟩⟩)],
    .addMethodListener 7, .addMethodListener 7, .getOrCreate passedBack,
    .change 1 [.perform (.solve passedBack.fact)]]

/-- Each solver has told the listener of both methods, in its own order. -/
theorem passingTwice_reports : ∃ program p,
    Source.readProgram passingTwice = .ok program ∧
      (create program).performAll listenBetween = .ok p ∧
      ∃ i j, p.reports i 7 = [⟨"m"⟩, ⟨"pass"⟩] ∧ p.reports j 7 = [⟨"pass"⟩, ⟨"m"⟩] := by
  have checked : (Source.readProgram passingTwice).toOption.any fun program =>
      ((create program).performAll listenBetween).toOption.any fun p =>
        ((p.find? passedObject).any fun s => s.methods.toList = [⟨"m"⟩, ⟨"pass"⟩]) &&
          (p.find? passedBack).any fun s => s.methods.toList = [⟨"pass"⟩, ⟨"m"⟩] := by
    decide +kernel
  obtain ⟨program, read, h⟩ := exists_ok_of_any checked
  obtain ⟨p, called, h⟩ := exists_ok_of_any h
  obtain ⟨old, new⟩ := Bool.and_eq_true_iff.1 h
  obtain ⟨s, hs, first⟩ := (Option.any_eq_true _ _).1 old
  obtain ⟨s', hs', last⟩ := (Option.any_eq_true _ _).1 new
  obtain ⟨i, e, he, rfl⟩ := find?_eq_some_iff.1 hs
  obtain ⟨j, e', he', rfl⟩ := find?_eq_some_iff.1 hs'
  have registered : .addMethodListener 7 ∈ listenBetween := by simp [listenBetween]
  obtain ⟨heard, -, -⟩ := reports_eq_methods called registered he
  obtain ⟨heard', -, -⟩ := reports_eq_methods called registered he'
  exact ⟨program, p, read, called, i, j, heard.trans (of_decide_eq_true first),
    heard'.trans (of_decide_eq_true last)⟩

end Pool

end PointsTo
