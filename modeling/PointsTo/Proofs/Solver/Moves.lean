import PointsTo.Proofs.Paths
import PointsTo.Proofs.Solver.Facts
import Mathlib.Logic.Relation

/-!
# The elementary moves of a solver

Whatever a solver does while it saturates is a sequence of a few elementary moves (`Move`), each of
which adds one entry to one table. A move is justified by a closed set of facts that contains what
the solver knows already (`Below`), so all statements about what a solver may come to know follow
from a set of facts that is closed (`Below.moves`), and all statements about how its tables grow
follow by cases on the moves (`Grows`).
-/

namespace PointsTo

namespace Solver

/-- The transition that a piece of work is about is there. -/
def Records (s : Solver) : Work → Prop
  | .field t => t ∈ s.fields
  | .call t => t ∈ s.calls

variable (W : Ways) (F : Facts)

/-- The flow of every fact keeps to the ways. -/
def Obeys (s : Solver) : Prop :=
  ∀ f, (∀ r ∈ (s.propagation.flow f).rules, W.rule f r) ∧
    ∀ a ∈ (s.propagation.flow f).announcements, W.tell f a

/-- A transition leads from the state to one from which the seed is reached. -/
def Approaches (s : Solver) (q : FieldState) : Prop :=
  ∃ t ∈ s.fields, t.start = q ∧ t.target ∈ s.productive

/-- Everything the solver knows lies in the set of facts. -/
structure Below (s : Solver) : Prop where
  obeys : s.Obeys W
  field : ∀ t ∈ s.fields, F.field t
  call : ∀ t ∈ s.calls, F.call t
  pop : ∀ {q f}, f ∈ s.pops.of q → F.pop q f
  fieldFlow : ∀ {f g}, g ∈ s.fieldFlows.of f → F.fieldFlow f g
  callFlow : ∀ {f g}, g ∈ s.callFlows.of f → F.callFlow f g
  opened : ∀ m ∈ s.unbalanced, F.opened m
  productive : ∀ q ∈ s.productive, F.productive q
  rooted : ∀ q ∈ s.productive, ∃ labels, s.fields.Path s.seedState q labels
  rule : ∀ {f rs}, s.rules[f]? = some rs → F.live f ∧ ∀ r ∈ rs, W.rule f r
  entered : ∀ {f}, s.rules.contains f → s.facts.live f
  exit : ∀ {c site f}, (site, f) ∈ s.exits.of c → c.isGenerated ∧ ∃ m, F.leaves W m c site f
  blocked : ∀ {m f c}, (f, c) ∈ s.blocked.getD m [] →
    (∃ v, c = .initial v) ∧ ∃ site, F.leaves W m c site f
  pendingField : ∀ t, .field t ∈ s.worklist.pending → t ∈ s.fields
  pendingCall : ∀ t, .call t ∈ s.worklist.pending → t ∈ s.calls
  reached : ∀ f ∈ s.reached, F.reached f
  witnessed : ∀ f ∈ s.reached, s.rules.contains f ∧ .single f ∈ s.productive
  visited : ∀ m ∈ s.methods, s.facts.visits m
  announced : ∀ a ∈ s.announced,
    (∃ f, F.live f ∧ W.tell f a) ∨
      ∃ e ∈ s.tickets, a = .witnessed e.2 s.seed ∧ s.reachesWithEmptyStack e.1

/-- One table gets one entry, which lies in the set of facts. -/
inductive Move : Solver → Solver → Prop
  | field {s t} : F.field t → Move s (s.addField t)
  | call {s t} : F.call t → Move s (s.addCall t)
  | pop {s q f pops} : F.pop q f → s.pops.insertNew? q f = some pops → Move s { s with pops }
  | exit {s c site f exits} : c.isGenerated → (∃ m, F.leaves W m c site f) →
    s.exits.insertNew? c (site, f) = some exits → Move s { s with exits }
  | block {s m f v} : (∃ site, F.leaves W m (.initial v) site f) → m ∉ s.unbalanced →
    Move s { s with blocked := s.blocked.insert m (s.blocked.getD m [] ++ [(f, .initial v)]) }
  | opening {s m unbalanced} : F.opened m → s.unbalanced.insertNew? m = some unbalanced →
    Move s { s with unbalanced, blocked := s.blocked.erase m }
  | rules {s f c} : ⟨.single f.var, f.point, c⟩ ∈ s.calls → s.rules.contains f = false →
    Move s { s with rules := s.rules.insert f (s.propagation.flow f).rules }
  | method {s f} : s.rules.contains f → Move s (s.reachMethod f.point.method)
  | mark {s q productive} : F.productive q → s.Approaches q →
    s.productive.insertNew? q = some productive → Move s { s with productive }
  | witness {s f} : s.rules.contains f → .single f ∈ s.productive → Move s (s.witness f)
  | announce {s f a} : F.live f → W.tell f a → Move s (s.announce a)
  | answer {s f ticket} : (f, ticket) ∈ s.tickets → s.reachesWithEmptyStack f →
    Move s (s.announce (.witnessed ticket s.seed))
  | remark {s r} : Move s (s.remark r)

/-- Any number of moves. -/
abbrev Moves : Solver → Solver → Prop := Relation.ReflTransGen (Move W F)

variable {W F} {s s' : Solver}

/-! ## What the recording steps do to the tables -/

/-- What is added is there already, or it waits. -/
theorem addField_cases (s : Solver) (t : FieldTransition) :
    s.addField t = s ∧ t ∈ s.fields ∨
      ∃ outbox new, s.addField t = { s with
        fields := s.fields.push t new, outbox, worklist := s.worklist.post (.field t) } := by
  unfold addField
  split
  · next h => exact .inl ⟨rfl, Automaton.contains_iff.1 h⟩
  · next h => exact .inr ⟨_, Bool.eq_false_iff.2 h, rfl⟩

theorem addCall_cases (s : Solver) (t : CallTransition) :
    s.addCall t = s ∧ t ∈ s.calls ∨
      ∃ outbox new, s.addCall t = { s with
        calls := s.calls.push t new, outbox, worklist := s.worklist.post (.call t) } := by
  unfold addCall
  split
  · next h => exact .inl ⟨rfl, Automaton.contains_iff.1 h⟩
  · next h => exact .inr ⟨_, Bool.eq_false_iff.2 h, rfl⟩

theorem mem_fields_addField {t u : FieldTransition} :
    u ∈ (s.addField t).fields ↔ u ∈ s.fields ∨ u = t := by
  obtain ⟨e, h⟩ | ⟨_, new, e⟩ := s.addField_cases t
  · rw [e]
    exact ⟨.inl, fun h' => h'.elim id (· ▸ h)⟩
  · rw [e]
    exact Automaton.mem_push new

theorem mem_calls_addCall {t u : CallTransition} :
    u ∈ (s.addCall t).calls ↔ u ∈ s.calls ∨ u = t := by
  obtain ⟨e, h⟩ | ⟨_, new, e⟩ := s.addCall_cases t
  · rw [e]
    exact ⟨.inl, fun h' => h'.elim id (· ▸ h)⟩
  · rw [e]
    exact Automaton.mem_push new

theorem announce_cases (s : Solver) (a : Announcement) :
    s.announce a = s ∧ a ∈ s.announced ∨
      ∃ announced, s.announced.insertNew? a = some announced ∧
        s.announce a = { s with announced, outbox := s.outbox.post (.announced a) } := by
  unfold announce
  split
  · next h => exact .inl ⟨rfl, OrderedSet.insertNew?_eq_none_iff.1 h⟩
  · next announced h => exact .inr ⟨announced, h, rfl⟩

theorem witness_cases (s : Solver) (f : Fact) :
    s.witness f = s ∧ f ∈ s.reached ∨
      ∃ reached, s.reached.insertNew? f = some reached ∧
        s.witness f = { s with
          reached
          notices := s.notices.post (.remark (.reaches s.seed f))
          outbox := s.outbox.post (.reached f) } := by
  unfold witness
  split
  · next h => exact .inl ⟨rfl, OrderedSet.insertNew?_eq_none_iff.1 h⟩
  · next reached h => exact .inr ⟨reached, h, rfl⟩

theorem reachMethod_cases (s : Solver) (m : MethodName) :
    s.reachMethod m = s ∧ m ∈ s.methods ∨
      ∃ methods notices, s.methods.insertNew? m = some methods ∧
        s.reachMethod m = { s with methods, notices } := by
  unfold reachMethod
  split
  · next h => exact .inl ⟨rfl, OrderedSet.insertNew?_eq_none_iff.1 h⟩
  · next methods h => exact .inr ⟨methods, _, h, rfl⟩

theorem foldl_announce_eq (s : Solver) (as : List Announcement) :
    ∃ announced outbox, as.foldl announce s = { s with announced, outbox } ∧
      (∀ a ∈ s.announced, a ∈ announced) ∧ ∀ a ∈ as, a ∈ announced := by
  induction as generalizing s with
  | nil => exact ⟨_, _, rfl, fun _ => id, by simp⟩
  | cons a as ih =>
    obtain ⟨announced, outbox, e, old, new⟩ := ih (s.announce a)
    obtain ⟨e', ha⟩ | ⟨_, hn, e'⟩ := s.announce_cases a
    · rw [e'] at e old
      refine ⟨announced, outbox, by rw [List.foldl_cons, e', e], old, fun b hb => ?_⟩
      exact (List.mem_cons.1 hb).elim (fun e => old b (e ▸ ha)) (new b)
    · obtain ⟨-, rfl⟩ := OrderedSet.insertNew?_eq_some_iff.1 hn
      rw [e'] at e old
      refine ⟨announced, outbox, by rw [List.foldl_cons, e', e],
        fun b hb => old b (OrderedSet.mem_insert.2 (.inl hb)), fun b hb => ?_⟩
      exact (List.mem_cons.1 hb).elim (fun e => old b (OrderedSet.mem_insert.2 (.inr e))) (new b)

theorem foldl_remark_eq (s : Solver) (rs : List Remark) :
    ∃ notices, rs.foldl remark s = { s with notices } := by
  induction rs generalizing s with
  | nil => exact ⟨_, rfl⟩
  | cons r rs ih => exact (ih (s.remark r)).imp fun _ e => by rw [List.foldl_cons, e]; rfl

/-- Finding the rules of a fact touches no table but that of the rules. -/
theorem findRules_eq (s : Solver) (f : Fact) :
    ∃ announced outbox notices methods, s.findRules f = { s with
      rules := s.rules.insert f (s.propagation.flow f).rules
      announced, outbox, notices, methods } ∧
      ((∀ a ∈ s.announced, a ∈ announced) ∧
        ∀ a ∈ (s.propagation.flow f).announcements, a ∈ announced) ∧
      (∀ m ∈ s.methods, m ∈ methods) ∧ f.point.method ∈ methods := by
  let flow := s.propagation.flow f
  let s₁ : Solver := { s with rules := s.rules.insert f flow.rules }
  obtain ⟨announced, outbox, e₁, old, new⟩ := s₁.foldl_announce_eq flow.announcements
  obtain ⟨notices, e₂⟩ := foldl_remark_eq (flow.announcements.foldl announce s₁) flow.remarks
  have e : s.findRules f = { s₁ with announced, outbox, notices }.reachMethod f.point.method := by
    rw [e₁] at e₂
    have e := (congrArg (flow.remarks.foldl remark) e₁).trans e₂
    exact congrArg (reachMethod · f.point.method) e
  obtain ⟨e', hm⟩ | ⟨methods, notices', hn, e'⟩ :=
    Solver.reachMethod_cases { s₁ with announced, outbox, notices } f.point.method
  · exact ⟨announced, outbox, notices, s.methods, e.trans e', ⟨old, new⟩, fun _ => id, hm⟩
  · obtain ⟨-, rfl⟩ := OrderedSet.insertNew?_eq_some_iff.1 hn
    exact ⟨announced, outbox, notices', _, e.trans e', ⟨old, new⟩,
      fun m hm => OrderedSet.mem_insert.2 (.inl hm), OrderedSet.mem_insert.2 (.inr rfl)⟩

theorem addAllocatedType_eq (s : Solver) (type : ClassName) : (s.addAllocatedType type).2 =
    { s with propagation := { s.propagation with allocated := s.allocated.insert type } } := by
  unfold addAllocatedType
  split
  · next h =>
    rw [OrderedSet.insert_of_mem (OrderedSet.insertNew?_eq_none_iff.1 h)]
    rfl
  · next h => rw [(OrderedSet.insertNew?_eq_some_iff.1 h).2]

/-- Answering tickets only announces. -/
theorem answerTickets_eq (s : Solver) (f : Fact) :
    ∃ announced outbox, s.answerTickets f = { s with announced, outbox } := by
  have announce_all : ∀ (tickets : List Nat) (s : Solver), ∃ announced outbox,
      tickets.foldl (fun s ticket => s.announce (.witnessed ticket s.seed)) s =
        { s with announced, outbox } := by
    intro tickets
    induction tickets with
    | nil => exact fun s => ⟨_, _, rfl⟩
    | cons ticket tickets ih =>
      intro s
      obtain ⟨announced, outbox, e⟩ := ih (s.announce (.witnessed ticket s.seed))
      rw [List.foldl_cons, e]
      obtain ⟨e', -⟩ | ⟨_, -, e'⟩ := s.announce_cases (.witnessed ticket s.seed)
      · exact ⟨announced, outbox, by rw [e']⟩
      · exact ⟨announced, outbox, by rw [e']⟩
  unfold answerTickets
  split
  · exact announce_all _ s
  · exact ⟨_, _, rfl⟩

theorem reachesWithEmptyStack_iff {f : Fact} : s.reachesWithEmptyStack f ↔
    s.rules.contains f ∧ ⟨.single f, .epsilon, s.seedState⟩ ∈ s.fields := by
  rw [reachesWithEmptyStack, Bool.and_eq_true, Automaton.contains_iff]

/-- What is reached with an empty field stack stays so as long as rules and transitions stay. -/
theorem reachesWithEmptyStack_mono {f : Fact} (seed : s'.seed = s.seed)
    (rule : s.rules.contains f → s'.rules.contains f) (field : ∀ t ∈ s.fields, t ∈ s'.fields)
    (h : s.reachesWithEmptyStack f) : s'.reachesWithEmptyStack f := by
  have seedState : s'.seedState = s.seedState := congrArg FieldState.alloc seed
  rw [reachesWithEmptyStack_iff] at h ⊢
  rw [seedState]
  exact ⟨rule h.1, field _ h.2⟩

/-- A fact whose rules are known is reached in some context. -/
theorem Below.live (h : s.Below W F) {f : Fact} (known : s.rules.contains f) : F.live f := by
  rw [Std.TreeMap.contains_eq_isSome_getElem?] at known
  obtain ⟨rs, hr⟩ := Option.isSome_iff_exists.1 known
  exact (h.rule hr).1

/-! ## What is known stays below a set of facts -/

theorem Below.move (h : s.Below W F) (m : Move W F s s') : s'.Below W F := by
  cases m with
  | @field t ht =>
    obtain ⟨e, -⟩ | ⟨outbox, new, e⟩ := s.addField_cases t
    · rwa [e]
    · rw [e]
      refine { h with
        field := fun u hu => ?_
        rooted := fun q hq => (h.rooted q hq).imp fun _ path =>
          path.mono fun u hu => (Automaton.mem_push new).2 (.inl hu)
        pendingField := fun u hu => ?_
        pendingCall := fun u hu => ?_
        announced := fun a ha => ?_ }
      · exact ((Automaton.mem_push new).1 hu).elim (h.field u) (· ▸ ht)
      · simp only [Feed.pending_post, List.mem_append, List.mem_singleton, Work.field.injEq] at hu
        exact (Automaton.mem_push new).2 (hu.imp_left (h.pendingField u))
      · simp only [Feed.pending_post, List.mem_append, List.mem_singleton, reduceCtorEq, or_false] at hu
        exact h.pendingCall u hu
      · refine (h.announced a ha).imp_right fun ⟨e, he, eq, reaches⟩ => ⟨e, he, eq, ?_⟩
        exact reachesWithEmptyStack_mono (s := s) rfl id
          (fun _ held => (Automaton.mem_push new).2 (.inl held)) reaches
  | @call t ht =>
    obtain ⟨e, -⟩ | ⟨outbox, new, e⟩ := s.addCall_cases t
    · rwa [e]
    · rw [e]
      refine { h with
        call := fun u hu => ?_
        entered := fun known => (h.entered known).imp fun _ hc => (Automaton.mem_push new).2 (.inl hc)
        visited := fun m hm => (h.visited m hm).imp fun _ => .imp_left
          (.imp fun _ hc => (Automaton.mem_push new).2 (.inl hc))
        pendingField := fun u hu => ?_
        pendingCall := fun u hu => ?_ }
      · exact ((Automaton.mem_push new).1 hu).elim (h.call u) (· ▸ ht)
      · simp only [Feed.pending_post, List.mem_append, List.mem_singleton, reduceCtorEq, or_false] at hu
        exact h.pendingField u hu
      · simp only [Feed.pending_post, List.mem_append, List.mem_singleton, Work.call.injEq] at hu
        exact (Automaton.mem_push new).2 (hu.imp_left (h.pendingCall u))
  | @pop q f pops hf hp =>
    obtain ⟨-, rfl⟩ := Multimap.insertNew?_eq_some_iff.1 hp
    refine { h with pop := fun {q' f'} hm => ?_ }
    exact (Multimap.mem_of_insert.1 hm).elim h.pop fun ⟨e, e'⟩ => e ▸ e' ▸ hf
  | @exit c site f exits hc hl he =>
    obtain ⟨-, rfl⟩ := Multimap.insertNew?_eq_some_iff.1 he
    refine { h with exit := fun {c' site' f'} hm => ?_ }
    obtain hm | ⟨rfl, e⟩ := Multimap.mem_of_insert.1 hm
    · exact h.exit hm
    · obtain ⟨rfl, rfl⟩ := Prod.mk.inj e
      exact ⟨hc, hl⟩
  | @block m f v hl hm =>
    refine { h with blocked := fun {m' f' c'} hb => ?_ }
    rw [Std.TreeMap.getD_insert] at hb
    split at hb
    · next e =>
      obtain rfl := Std.LawfulEqCmp.eq_of_compare e
      obtain hb | hb := List.mem_append.1 hb
      · exact h.blocked hb
      · obtain ⟨rfl, rfl⟩ := Prod.mk.inj (List.mem_singleton.1 hb)
        exact ⟨⟨v, rfl⟩, hl⟩
    · exact h.blocked hb
  | @opening m unbalanced hm hu =>
    obtain ⟨-, rfl⟩ := OrderedSet.insertNew?_eq_some_iff.1 hu
    refine { h with opened := fun m' hm' => ?_, blocked := fun {m' f' c'} hb => ?_ }
    · exact (OrderedSet.mem_insert.1 hm').elim (h.opened m') (· ▸ hm)
    · rw [Std.TreeMap.getD_erase] at hb
      split at hb
      · simp at hb
      · exact h.blocked hb
  | @rules f c hc hf =>
    refine { h with
      rule := fun {f' rs} hr => ?_
      entered := fun {g} known => ?_
      witnessed := fun g hg => (h.witnessed g hg).imp_left fun known => by simp [known]
      announced := fun a ha => ?_ }
    · rw [Std.TreeMap.getElem?_insert] at hr
      split at hr
      · next e =>
        obtain rfl := Std.LawfulEqCmp.eq_of_compare e
        obtain rfl := Option.some.inj hr
        exact ⟨⟨c, h.call _ hc⟩, (h.obeys f).1⟩
      · exact h.rule hr
    · rw [Std.TreeMap.contains_insert, Bool.or_eq_true] at known
      obtain e | known := known
      · obtain rfl := Std.LawfulEqCmp.eq_of_compare (beq_iff_eq.1 e)
        exact ⟨c, hc⟩
      · exact h.entered known
    · refine (h.announced a ha).imp_right fun ⟨e, he, eq, reaches⟩ => ⟨e, he, eq, ?_⟩
      exact reachesWithEmptyStack_mono (s := s) rfl (fun known => by simp [known]) (fun _ => id)
        reaches
  | @method f hf =>
    obtain ⟨e, -⟩ | ⟨methods, notices, hn, e⟩ := s.reachMethod_cases f.point.method
    · rwa [e]
    · rw [e]
      obtain ⟨-, rfl⟩ := OrderedSet.insertNew?_eq_some_iff.1 hn
      refine { h with visited := fun m hm => ?_ }
      obtain hm | rfl := OrderedSet.mem_insert.1 hm
      · exact h.visited m hm
      · exact ⟨f, h.entered hf, rfl⟩
  | @mark q productive hq approaches hp =>
    obtain ⟨-, rfl⟩ := OrderedSet.insertNew?_eq_some_iff.1 hp
    refine { h with
      productive := fun q' hq' => ?_
      rooted := fun q' hq' => ?_
      witnessed := fun f hf => (h.witnessed f hf).imp_right fun found =>
        OrderedSet.mem_insert.2 (.inl found) }
    · exact (OrderedSet.mem_insert.1 hq').elim (h.productive q') (· ▸ hq)
    · obtain hq' | rfl := OrderedSet.mem_insert.1 hq'
      · exact h.rooted q' hq'
      · obtain ⟨t, ht, rfl, target⟩ := approaches
        obtain ⟨labels, path⟩ := h.rooted _ target
        exact ⟨_, .cons ht path⟩
  | @witness f known productive =>
    obtain ⟨e, -⟩ | ⟨reached, hr, e⟩ := s.witness_cases f
    · rwa [e]
    · rw [e]
      obtain ⟨-, rfl⟩ := OrderedSet.insertNew?_eq_some_iff.1 hr
      obtain ⟨rs, hrs⟩ := Option.isSome_iff_exists.1
        (Std.TreeMap.contains_eq_isSome_getElem?.symm.trans known)
      refine { h with
        reached := fun g hg => (OrderedSet.mem_insert.1 hg).elim (h.reached g) ?_
        witnessed := fun g hg => (OrderedSet.mem_insert.1 hg).elim (h.witnessed g) ?_ }
      · rintro rfl
        exact ⟨(h.rule hrs).1, h.productive _ productive⟩
      · rintro rfl
        exact ⟨known, productive⟩
  | @announce f a hf ha =>
    obtain ⟨e, -⟩ | ⟨announced, hn, e⟩ := s.announce_cases a
    · rwa [e]
    · rw [e]
      obtain ⟨-, rfl⟩ := OrderedSet.insertNew?_eq_some_iff.1 hn
      refine { h with announced := fun b hb => ?_ }
      obtain hb | rfl := OrderedSet.mem_insert.1 hb
      · exact h.announced b hb
      · exact .inl ⟨f, hf, ha⟩
  | @answer f ticket asked reaches =>
    obtain ⟨e, -⟩ | ⟨announced, hn, e⟩ := s.announce_cases (.witnessed ticket s.seed)
    · rwa [e]
    · rw [e]
      obtain ⟨-, rfl⟩ := OrderedSet.insertNew?_eq_some_iff.1 hn
      refine { h with announced := fun b hb => ?_ }
      obtain hb | rfl := OrderedSet.mem_insert.1 hb
      · exact h.announced b hb
      · exact .inr ⟨_, asked, rfl, reaches⟩
  | remark => exact { h with }

theorem Below.moves (h : s.Below W F) (m : Moves W F s s') : s'.Below W F := by
  induction m with
  | refl => exact h
  | tail _ m ih => exact ih.move m

/-- What lies below a set of facts lies below a larger one. -/
theorem Below.mono {W' : Ways} {G : Facts} (hW : ∀ {f r}, W.rule f r → W'.rule f r)
    (hT : ∀ {f a}, W.tell f a → W'.tell f a) (hF : F.Sub G) (obeys : s.Obeys W')
    (h : s.Below W F) : s.Below W' G := by
  have leaves {m c site f} : F.leaves W m c site f → G.leaves W' m c site f :=
    fun ⟨g, r, hm, he, hr, hc, ht⟩ => ⟨g, r, hm, hF.call _ he, hW hr, hc, ht⟩
  exact { h with
    obeys
    field := fun t ht => hF.field t (h.field t ht)
    call := fun t ht => hF.call t (h.call t ht)
    pop := fun hf => hF.pop _ _ (h.pop hf)
    fieldFlow := fun hg => hF.fieldFlow _ _ (h.fieldFlow hg)
    callFlow := fun hg => hF.callFlow _ _ (h.callFlow hg)
    opened := fun m hm => hF.opened m (h.opened m hm)
    productive := fun q hq => hF.productive q (h.productive q hq)
    rule := fun hr => (h.rule hr).imp hF.live fun H r hm => hW (H r hm)
    exit := fun he => (h.exit he).imp_right fun ⟨m, hm⟩ => ⟨m, leaves hm⟩
    blocked := fun hb => (h.blocked hb).imp_right fun ⟨site, hl⟩ => ⟨site, leaves hl⟩
    reached := fun f hf => hF.reached (h.reached f hf)
    announced := fun a ha => (h.announced a ha).imp_left (.imp fun _ => .imp hF.live hT) }

/-! ## Growth -/

/-- Every table of the one is part of the same table of the other. -/
structure Keeps (s s' : Solver) : Prop where
  seed : s'.seed = s.seed
  propagation : s'.propagation = s.propagation
  tickets : s'.tickets = s.tickets
  field : ∀ t ∈ s.fields, t ∈ s'.fields
  call : ∀ t ∈ s.calls, t ∈ s'.calls
  pop : ∀ {q f}, f ∈ s.pops.of q → f ∈ s'.pops.of q
  fieldFlow : ∀ {f g}, g ∈ s.fieldFlows.of f → g ∈ s'.fieldFlows.of f
  callFlow : ∀ {f g}, g ∈ s.callFlows.of f → g ∈ s'.callFlows.of f
  exit : ∀ {c w}, w ∈ s.exits.of c → w ∈ s'.exits.of c
  opened : ∀ m ∈ s.unbalanced, m ∈ s'.unbalanced
  rule : ∀ {f : Fact} {rs}, s.rules[f]? = some rs → s'.rules[f]? = some rs
  productive : ∀ q ∈ s.productive, q ∈ s'.productive
  reached : ∀ f ∈ s.reached, f ∈ s'.reached
  methods : ∀ m ∈ s.methods, m ∈ s'.methods
  announced : ∀ a ∈ s.announced, a ∈ s'.announced

/-- Growth after which every transition that is new waits in the worklist. -/
structure Grows (s s' : Solver) : Prop extends Keeps s s' where
  fieldFlows : s'.fieldFlows = s.fieldFlows
  callFlows : s'.callFlows = s.callFlows
  foreign : s'.foreign = s.foreign
  pending : ∀ w ∈ s.worklist.pending, w ∈ s'.worklist.pending
  newField : ∀ t ∈ s'.fields, t ∈ s.fields ∨ .field t ∈ s'.worklist.pending
  newCall : ∀ t ∈ s'.calls, t ∈ s.calls ∨ .call t ∈ s'.worklist.pending

namespace Keeps

theorem refl (s : Solver) : Keeps s s where
  seed := rfl
  propagation := rfl
  tickets := rfl
  field := fun _ => id
  call := fun _ => id
  pop := id
  fieldFlow := id
  callFlow := id
  exit := id
  opened := fun _ => id
  rule := id
  productive := fun _ => id
  reached := fun _ => id
  methods := fun _ => id
  announced := fun _ => id

theorem trans {s₁ s₂ s₃ : Solver} (h : Keeps s₁ s₂) (h' : Keeps s₂ s₃) : Keeps s₁ s₃ where
  seed := h'.seed.trans h.seed
  propagation := h'.propagation.trans h.propagation
  tickets := h'.tickets.trans h.tickets
  field := fun t ht => h'.field t (h.field t ht)
  call := fun t ht => h'.call t (h.call t ht)
  pop := fun hf => h'.pop (h.pop hf)
  fieldFlow := fun hg => h'.fieldFlow (h.fieldFlow hg)
  callFlow := fun hg => h'.callFlow (h.callFlow hg)
  exit := fun hw => h'.exit (h.exit hw)
  opened := fun m hm => h'.opened m (h.opened m hm)
  rule := fun hr => h'.rule (h.rule hr)
  productive := fun q hq => h'.productive q (h.productive q hq)
  reached := fun f hf => h'.reached f (h.reached f hf)
  methods := fun m hm => h'.methods m (h.methods m hm)
  announced := fun a ha => h'.announced a (h.announced a ha)

end Keeps

namespace Grows

theorem refl (s : Solver) : Grows s s where
  toKeeps := .refl s
  fieldFlows := rfl
  callFlows := rfl
  foreign := rfl
  pending := fun _ => id
  newField := fun _ => .inl
  newCall := fun _ => .inl

theorem trans {s₁ s₂ s₃ : Solver} (h : Grows s₁ s₂) (h' : Grows s₂ s₃) : Grows s₁ s₃ where
  toKeeps := h.toKeeps.trans h'.toKeeps
  fieldFlows := h'.fieldFlows.trans h.fieldFlows
  callFlows := h'.callFlows.trans h.callFlows
  foreign := h'.foreign.trans h.foreign
  pending := fun w hw => h'.pending w (h.pending w hw)
  newField := fun t ht => (h'.newField t ht).elim
    (fun ht => (h.newField t ht).imp_right (h'.pending _)) .inr
  newCall := fun t ht => (h'.newCall t ht).elim
    (fun ht => (h.newCall t ht).imp_right (h'.pending _)) .inr

theorem contains_rules (h : Grows s s') {f : Fact} (hf : s.rules.contains f) :
    s'.rules.contains f := by
  rw [Std.TreeMap.contains_eq_isSome_getElem?] at hf ⊢
  obtain ⟨rs, hrs⟩ := Option.isSome_iff_exists.1 hf
  rw [h.rule hrs]
  rfl

end Grows

theorem Move.grows (m : Move W F s s') : Grows s s' := by
  cases m with
  | @field t _ =>
    obtain ⟨e, -⟩ | ⟨outbox, new, e⟩ := s.addField_cases t
    · rw [e]
      exact .refl s
    · rw [e]
      refine { Grows.refl s with field := ?_, pending := ?_, newField := ?_, newCall := ?_ }
      · exact fun u hu => (Automaton.mem_push new).2 (.inl hu)
      · exact fun w hw => by simp [Feed.pending_post, hw]
      · intro u hu
        refine ((Automaton.mem_push new).1 hu).imp_right fun e => ?_
        simp [Feed.pending_post, e]
      · exact fun u => .inl
  | @call t _ =>
    obtain ⟨e, -⟩ | ⟨outbox, new, e⟩ := s.addCall_cases t
    · rw [e]
      exact .refl s
    · rw [e]
      refine { Grows.refl s with call := ?_, pending := ?_, newField := ?_, newCall := ?_ }
      · exact fun u hu => (Automaton.mem_push new).2 (.inl hu)
      · exact fun w hw => by simp [Feed.pending_post, hw]
      · exact fun u => .inl
      · intro u hu
        refine ((Automaton.mem_push new).1 hu).imp_right fun e => ?_
        simp [Feed.pending_post, e]
  | @pop q f pops _ hp =>
    obtain ⟨-, rfl⟩ := Multimap.insertNew?_eq_some_iff.1 hp
    exact { Grows.refl s with pop := fun hf => Multimap.mem_of_insert.2 (.inl hf) }
  | @exit c site f exits _ _ he =>
    obtain ⟨-, rfl⟩ := Multimap.insertNew?_eq_some_iff.1 he
    exact { Grows.refl s with exit := fun hf => Multimap.mem_of_insert.2 (.inl hf) }
  | block _ _ => exact { Grows.refl s with }
  | @opening m unbalanced _ hu =>
    obtain ⟨-, rfl⟩ := OrderedSet.insertNew?_eq_some_iff.1 hu
    exact { Grows.refl s with opened := fun m hm => OrderedSet.mem_insert.2 (.inl hm) }
  | @rules f c _ hf =>
    refine { Grows.refl s with rule := fun {g rs} hr => ?_ }
    rw [Std.TreeMap.getElem?_insert]
    split
    · next e =>
      obtain rfl := Std.LawfulEqCmp.eq_of_compare e
      rw [Std.TreeMap.contains_eq_isSome_getElem?, hr] at hf
      cases hf
    · exact hr
  | @method f _ =>
    obtain ⟨e, -⟩ | ⟨methods, notices, hn, e⟩ := s.reachMethod_cases f.point.method
    · rw [e]
      exact .refl s
    · rw [e]
      obtain ⟨-, rfl⟩ := OrderedSet.insertNew?_eq_some_iff.1 hn
      exact { Grows.refl s with methods := fun m hm => OrderedSet.mem_insert.2 (.inl hm) }
  | @mark q productive _ _ hp =>
    obtain ⟨-, rfl⟩ := OrderedSet.insertNew?_eq_some_iff.1 hp
    exact { Grows.refl s with productive := fun q hq => OrderedSet.mem_insert.2 (.inl hq) }
  | @witness f known productive =>
    obtain ⟨e, -⟩ | ⟨reached, hr, e⟩ := s.witness_cases f
    · rw [e]
      exact .refl s
    · rw [e]
      obtain ⟨-, rfl⟩ := OrderedSet.insertNew?_eq_some_iff.1 hr
      exact { Grows.refl s with reached := fun f hf => OrderedSet.mem_insert.2 (.inl hf) }
  | @announce f a _ _ =>
    obtain ⟨e, -⟩ | ⟨announced, hn, e⟩ := s.announce_cases a
    · rw [e]
      exact .refl s
    · rw [e]
      obtain ⟨-, rfl⟩ := OrderedSet.insertNew?_eq_some_iff.1 hn
      exact { Grows.refl s with announced := fun b hb => OrderedSet.mem_insert.2 (.inl hb) }
  | @answer f ticket asked _ =>
    obtain ⟨e, -⟩ | ⟨announced, hn, e⟩ := s.announce_cases (.witnessed ticket s.seed)
    · rw [e]
      exact .refl s
    · rw [e]
      obtain ⟨-, rfl⟩ := OrderedSet.insertNew?_eq_some_iff.1 hn
      exact { Grows.refl s with announced := fun b hb => OrderedSet.mem_insert.2 (.inl hb) }
  | remark => exact { Grows.refl s with }

theorem Moves.grows (m : Moves W F s s') : Grows s s' := by
  induction m with
  | refl => exact .refl s
  | tail _ m ih => exact ih.trans m.grows

/-! ## The worklist and the rules -/

/-- A move adds a transition, or it leaves the automata and the worklist alone and finds at most
one fact its rules. -/
theorem Move.shape (m : Move W F s s') :
    (∃ t, s' = s.addField t) ∨ (∃ t, s' = s.addCall t) ∨
      (s'.fields = s.fields ∧ s'.calls = s.calls ∧ s'.worklist = s.worklist ∧
        s'.propagation = s.propagation ∧
        (s'.rules = s.rules ∨ ∃ f, s'.rules = s.rules.insert f (s.propagation.flow f).rules)) := by
  cases m with
  | @field t _ => exact .inl ⟨t, rfl⟩
  | @call t _ => exact .inr (.inl ⟨t, rfl⟩)
  | pop _ _ => exact .inr (.inr ⟨rfl, rfl, rfl, rfl, .inl rfl⟩)
  | exit _ _ _ => exact .inr (.inr ⟨rfl, rfl, rfl, rfl, .inl rfl⟩)
  | block _ _ => exact .inr (.inr ⟨rfl, rfl, rfl, rfl, .inl rfl⟩)
  | opening _ _ => exact .inr (.inr ⟨rfl, rfl, rfl, rfl, .inl rfl⟩)
  | @rules f _ _ _ => exact .inr (.inr ⟨rfl, rfl, rfl, rfl, .inr ⟨f, rfl⟩⟩)
  | mark _ _ _ => exact .inr (.inr ⟨rfl, rfl, rfl, rfl, .inl rfl⟩)
  | remark => exact .inr (.inr ⟨rfl, rfl, rfl, rfl, .inl rfl⟩)
  | @method f _ =>
    right; right
    obtain ⟨e, -⟩ | ⟨_, _, -, e⟩ := s.reachMethod_cases f.point.method <;>
      (rw [e]; exact ⟨rfl, rfl, rfl, rfl, .inl rfl⟩)
  | @witness f _ _ =>
    right; right
    obtain ⟨e, -⟩ | ⟨_, -, e⟩ := s.witness_cases f <;>
      (rw [e]; exact ⟨rfl, rfl, rfl, rfl, .inl rfl⟩)
  | @announce f a _ _ =>
    right; right
    obtain ⟨e, -⟩ | ⟨_, -, e⟩ := s.announce_cases a <;>
      (rw [e]; exact ⟨rfl, rfl, rfl, rfl, .inl rfl⟩)
  | @answer f ticket asked _ =>
    right; right
    obtain ⟨e, -⟩ | ⟨_, -, e⟩ := s.announce_cases (.witnessed ticket s.seed) <;>
      (rw [e]; exact ⟨rfl, rfl, rfl, rfl, .inl rfl⟩)

/-- The rules that were found are those of the present propagation. -/
def Current (s : Solver) : Prop :=
  ∀ {f : Fact} {rs}, s.rules[f]? = some rs → rs = (s.propagation.flow f).rules

/-- Every transition was posted to the worklist once. -/
def Posted (s : Solver) : Prop := s.worklist.posted.size = s.fields.size + s.calls.size

theorem addField_rules (s : Solver) (t : FieldTransition) :
    (s.addField t).rules = s.rules ∧ (s.addField t).propagation = s.propagation ∧
      (s.addField t).worklist.position = s.worklist.position := by
  obtain ⟨e, -⟩ | ⟨_, _, e⟩ := s.addField_cases t <;> rw [e] <;> exact ⟨rfl, rfl, rfl⟩

theorem addCall_rules (s : Solver) (t : CallTransition) :
    (s.addCall t).rules = s.rules ∧ (s.addCall t).propagation = s.propagation ∧
      (s.addCall t).worklist.position = s.worklist.position := by
  obtain ⟨e, -⟩ | ⟨_, _, e⟩ := s.addCall_cases t <;> rw [e] <;> exact ⟨rfl, rfl, rfl⟩

theorem Posted.addField (h : s.Posted) (t : FieldTransition) : (s.addField t).Posted := by
  unfold Posted at h ⊢
  obtain ⟨e, -⟩ | ⟨_, new, e⟩ := s.addField_cases t
  · rwa [e]
  · rw [e]
    simp only [Feed.posted_post, Array.size_push, Automaton.size_push, h]
    omega

theorem Posted.addCall (h : s.Posted) (t : CallTransition) : (s.addCall t).Posted := by
  unfold Posted at h ⊢
  obtain ⟨e, -⟩ | ⟨_, new, e⟩ := s.addCall_cases t
  · rwa [e]
  · rw [e]
    simp only [Feed.posted_post, Array.size_push, Automaton.size_push, h]
    omega

theorem Move.current (h : s.Current) (m : Move W F s s') : s'.Current := by
  intro g rs hr
  obtain ⟨t, rfl⟩ | ⟨t, rfl⟩ | ⟨-, -, -, hp, e | ⟨f, e⟩⟩ := m.shape
  · obtain ⟨e, e', -⟩ := s.addField_rules t
    rw [e] at hr
    rw [e']
    exact h hr
  · obtain ⟨e, e', -⟩ := s.addCall_rules t
    rw [e] at hr
    rw [e']
    exact h hr
  · rw [e] at hr
    rw [hp]
    exact h hr
  · rw [e, Std.TreeMap.getElem?_insert] at hr
    rw [hp]
    split at hr
    · next e =>
      obtain rfl := Std.LawfulEqCmp.eq_of_compare e
      exact (Option.some.inj hr).symm
    · exact h hr

theorem Moves.current (h : s.Current) (m : Moves W F s s') : s'.Current := by
  induction m with
  | refl => exact h
  | tail _ m ih => exact m.current ih

theorem Move.posted (h : s.Posted) (m : Move W F s s') :
    s'.Posted ∧ s'.worklist.position = s.worklist.position := by
  obtain ⟨t, rfl⟩ | ⟨t, rfl⟩ | ⟨hf, hc, hw, -⟩ := m.shape
  · exact ⟨h.addField t, (s.addField_rules t).2.2⟩
  · exact ⟨h.addCall t, (s.addCall_rules t).2.2⟩
  · unfold Posted
    rw [hf, hc, hw]
    exact ⟨h, rfl⟩

theorem Moves.posted (h : s.Posted) (m : Moves W F s s') :
    s'.Posted ∧ s'.worklist.position = s.worklist.position := by
  induction m with
  | refl => exact ⟨h, rfl⟩
  | tail _ m ih => exact (m.posted ih.1).imp_right (·.trans ih.2)

end Solver

end PointsTo
