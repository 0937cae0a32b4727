import PointsTo.Proofs.Solver.Settled

/-!
# Each piece of work draws its consequences

Every function of the saturation extends the solver, and leaves done what it was called for. The
recording steps only post. A loop over a list extends the solver if each turn does, and what a turn
has done stays done (`foldl_extend`). The two depth-first traversals, of the states that lead to a
productive state and of the methods that a way out opens, are followed by induction on their fuel,
which suffices (`markStack_spec`, `openStack_spec`). The result is `process_extend`.
-/

namespace PointsTo

namespace Solver

variable {s s' : Solver}

/-! ## Loops -/

section Loop

variable {α : Type} {g : Solver → α → Solver} {l : List α}

theorem foldl_spec {R : Solver → Solver → Prop} (P : α → Solver → Prop) (refl : ∀ s, R s s)
    (trans : ∀ {s₁ s₂ s₃}, R s₁ s₂ → R s₂ s₃ → R s₁ s₃)
    (keep : ∀ {a s₁ s₂}, R s₁ s₂ → P a s₁ → P a s₂) (s : Solver)
    (step : ∀ s', R s s' → ∀ a ∈ l, R s' (g s' a) ∧ P a (g s' a)) :
    R s (l.foldl g s) ∧ ∀ a ∈ l, P a (l.foldl g s) := by
  induction l generalizing s with
  | nil => exact ⟨refl s, fun _ h => absurd h List.not_mem_nil⟩
  | cons a l ih =>
    obtain ⟨h₁, done⟩ := step s (refl s) a List.mem_cons_self
    obtain ⟨h₂, rest⟩ :=
      ih (g s a) fun s' h b hb => step s' (trans h₁ h) b (List.mem_cons_of_mem a hb)
    refine ⟨trans h₁ h₂, fun b hb => ?_⟩
    obtain rfl | hb := List.mem_cons.1 hb
    · exact keep h₂ done
    · exact rest b hb

theorem foldl_extend (P : α → Solver → Prop)
    (keep : ∀ {a s₁ s₂}, Extends s₁ s₂ → P a s₁ → P a s₂) (s : Solver)
    (step : ∀ s', Extends s s' → ∀ a ∈ l, Extends s' (g s' a) ∧ P a (g s' a)) :
    Extends s (l.foldl g s) ∧ ∀ a ∈ l, P a (l.foldl g s) :=
  foldl_spec P Extends.refl Extends.trans keep s step

theorem foldl_posts (P : α → Solver → Prop)
    (keep : ∀ {a s₁ s₂}, Grows s₁ s₂ → P a s₁ → P a s₂) (s : Solver)
    (step : ∀ s', ∀ a ∈ l, Posts s' (g s' a) ∧ P a (g s' a)) :
    Posts s (l.foldl g s) ∧ ∀ a ∈ l, P a (l.foldl g s) :=
  foldl_spec P Posts.refl Posts.trans (fun h => keep h.toGrows) s fun s' _ => step s'

end Loop

/-! ## Recording -/

theorem addField_posts (s : Solver) (t : FieldTransition) : Posts s (s.addField t) := by
  have g : Grows s (s.addField t) := (Move.field (W := s.propagation.ways) (F := .all) trivial).grows
  obtain ⟨e, -⟩ | ⟨_, _, e⟩ := s.addField_cases t
  · rw [e]
    exact .refl s
  · rw [e] at g ⊢
    exact { g with
      rules_eq := rfl, pops_eq := rfl, exits_eq := rfl, productive_eq := rfl
      unbalanced_eq := rfl, blocked_eq := rfl }

theorem addCall_posts (s : Solver) (t : CallTransition) : Posts s (s.addCall t) := by
  have g : Grows s (s.addCall t) := (Move.call (W := s.propagation.ways) (F := .all) trivial).grows
  obtain ⟨e, -⟩ | ⟨_, _, e⟩ := s.addCall_cases t
  · rw [e]
    exact .refl s
  · rw [e] at g ⊢
    exact { g with
      rules_eq := rfl, pops_eq := rfl, exits_eq := rfl, productive_eq := rfl
      unbalanced_eq := rfl, blocked_eq := rfl }

theorem mem_addField (s : Solver) (t : FieldTransition) : t ∈ (s.addField t).fields :=
  mem_fields_addField.2 (.inr rfl)

theorem mem_addCall (s : Solver) (t : CallTransition) : t ∈ (s.addCall t).calls :=
  mem_calls_addCall.2 (.inr rfl)

theorem inherit_posts (s : Solver) (f : Fact) (ts : List FieldTransition) :
    Posts s (s.inherit f ts) ∧
      ∀ t ∈ ts, ⟨.single f, t.label, t.target⟩ ∈ (s.inherit f ts).fields :=
  foldl_posts (fun (t : FieldTransition) s => (⟨.single f, t.label, t.target⟩ : FieldTransition) ∈ s.fields)
    (fun g => g.field _) s fun s _ _ => ⟨s.addField_posts _, s.mem_addField _⟩

theorem enterAll_posts (s : Solver) (ways : List (Fact × CallState)) :
    Posts s (s.enterAll ways) ∧ ∀ w ∈ ways, (s.enterAll ways).facts.enters w.1 w.2 :=
  foldl_posts (fun (w : Fact × CallState) s => s.facts.enters w.1 w.2) (fun g => g.call _)
    s fun s _ _ => ⟨s.addCall_posts _, s.mem_addCall _⟩

theorem say_posts (s : Solver) (n : Notice) : Posts s (s.say n) := { Posts.refl s with }

theorem announce_posts (s : Solver) (a : Announcement) : Posts s (s.announce a) := by
  obtain ⟨e, -⟩ | ⟨_, hn, e⟩ := s.announce_cases a
  · rw [e]
    exact .refl s
  · obtain ⟨-, rfl⟩ := OrderedSet.insertNew?_eq_some_iff.1 hn
    rw [e]
    exact { Posts.refl s with announced := fun b hb => OrderedSet.mem_insert.2 (.inl hb) }

theorem witness_posts (s : Solver) (f : Fact) :
    Posts s (s.witness f) ∧ f ∈ (s.witness f).reached := by
  obtain ⟨e, h⟩ | ⟨reached, hr, e⟩ := s.witness_cases f
  · rw [e]
    exact ⟨.refl s, h⟩
  · obtain ⟨-, rfl⟩ := OrderedSet.insertNew?_eq_some_iff.1 hr
    rw [e]
    refine ⟨{ Posts.refl s with reached := fun g hg => ?_ }, ?_⟩
    · exact OrderedSet.mem_insert.2 (.inl hg)
    · exact OrderedSet.mem_insert.2 (.inr rfl)

theorem mem_announce (s : Solver) (a : Announcement) : a ∈ (s.announce a).announced := by
  obtain ⟨e, ha⟩ | ⟨_, hn, e⟩ := s.announce_cases a
  · rwa [e]
  · obtain ⟨-, rfl⟩ := OrderedSet.insertNew?_eq_some_iff.1 hn
    rw [e]
    exact OrderedSet.mem_insert.2 (.inr rfl)

/-- All tickets for a fact that is reached with an empty field stack are answered. -/
theorem answerTickets_posts (s : Solver) (f : Fact) : Posts s (s.answerTickets f) ∧
    ∀ {ticket}, s.reachesWithEmptyStack f → (f, ticket) ∈ s.tickets →
      .witnessed ticket s.seed ∈ (s.answerTickets f).announced := by
  unfold answerTickets
  split
  · obtain ⟨p, answered⟩ := foldl_spec (R := fun s s' => Posts s s')
      (g := fun s ticket => s.announce (.witnessed ticket s.seed))
      (l := (s.tickets.filter fun t => t.1 = f).map (·.2))
      (fun ticket s => .witnessed ticket s.seed ∈ s.announced) Posts.refl Posts.trans
      (fun p h => by rw [p.seed]; exact p.announced _ h) s fun s' _ ticket _ =>
        ⟨s'.announce_posts _, by
          rw [(s'.announce_posts _).seed]
          exact s'.mem_announce _⟩
    refine ⟨p, fun {ticket} _ asked => ?_⟩
    rw [← p.seed]
    exact answered ticket (List.mem_map.2 ⟨_, List.mem_filter.2 ⟨asked, by simp⟩, rfl⟩)
  · next h => exact ⟨.refl s, fun reaches => absurd reaches h⟩

/-! ## Field transitions -/

theorem addPop_extend (s : Solver) (q : FieldState) (f : Fact) :
    Extends s (s.addPop q f) ∧ f ∈ (s.addPop q f).pops.of q := by
  unfold addPop
  split
  · next h => exact ⟨.refl s, Multimap.insertNew?_eq_none_iff.1 h⟩
  · next pops h =>
    have g : Grows s { s with pops } :=
      (Move.pop (W := s.propagation.ways) (F := .all) trivial h).grows
    obtain ⟨-, rfl⟩ := Multimap.insertNew?_eq_some_iff.1 h
    obtain ⟨p, done⟩ := inherit_posts { s with pops := s.pops.insert q f } f (s.fields.outgoingOf q)
    have mem {q' f'} : f' ∈ (({ s with pops := s.pops.insert q f } : Solver).inherit f
        (s.fields.outgoingOf q)).pops.of q' ↔ f' ∈ s.pops.of q' ∨ q' = q ∧ f' = f := by
      rw [p.pops_eq]
      exact Multimap.mem_of_insert
    refine ⟨⟨⟨g.trans p.toGrows, ?_, ?_, ?_, ?_, ?_⟩, ?_, ?_, p.leftBottom⟩,
      mem.2 (.inr ⟨rfl, rfl⟩)⟩
    · exact fun hr => .inl (p.rules_eq ▸ hr)
    · intro q' f' hf
      refine (mem.1 hf).imp_right ?_
      rintro ⟨rfl, rfl⟩ t ht hs
      exact done t (Automaton.mem_outgoingOf.2 ⟨ht, hs⟩)
    · exact fun hw => .inl (p.exits_eq ▸ hw)
    · exact fun hr => .inl (p.rules_eq ▸ hr)
    · exact fun hr _ => .inl (p.rules_eq ▸ hr)
    · exact fun t _ hp => .inl (p.productive_eq ▸ hp)
    · exact fun hr hp => .inr ⟨p.rules_eq ▸ hr, p.productive_eq ▸ hp⟩

theorem applyFieldRule_extend (s : Solver) (t : FieldTransition) (r : Rule) :
    Extends s (s.applyFieldRule t r) ∧ (s.applyFieldRule t r).FieldRuleDone t r := by
  obtain ⟨target, field, call⟩ := r
  unfold applyFieldRule FieldRuleDone
  cases field with
  | keep => exact ⟨(s.addField_posts _).extend, s.mem_addField _⟩
  | push g =>
    have p := (s.addField ⟨.single target, g, .generated target g⟩).addField_posts
      ⟨.generated target g, t.label, t.target⟩
    exact ⟨((s.addField_posts _).trans p).extend, p.field _ (s.mem_addField _), mem_addField _ _⟩
  | pop g =>
    dsimp only
    split
    · next e => exact ⟨(s.addPop_extend _ _).1, fun _ => (s.addPop_extend _ _).2⟩
    · next e => exact ⟨.refl s, fun h => absurd h e⟩

theorem applyFieldRules_extend (s : Solver) (rs : List Rule) (t : FieldTransition) :
    Extends s (s.applyFieldRules rs t) ∧
      ∀ r ∈ rs, (s.applyFieldRules rs t).FieldRuleDone t r :=
  foldl_extend (fun r s => s.FieldRuleDone t r) (fun g h => h.grows g.toGrows) s
    fun s _ r _ => s.applyFieldRule_extend t r

theorem followFieldFlows_posts (s : Solver) (f : Fact) (t : FieldTransition) :
    Posts s (s.followFieldFlows f t) ∧
      ∀ g ∈ s.fieldFlows.of f, ⟨.single g, t.label, t.target⟩ ∈ (s.followFieldFlows f t).fields :=
  foldl_posts (fun g s => (⟨.single g, t.label, t.target⟩ : FieldTransition) ∈ s.fields)
    (fun g => g.field _) s
    fun s g _ => (s.inherit_posts g [t]).imp_right fun h => h t List.mem_cons_self

theorem handOver_posts (s : Solver) (t : FieldTransition) :
    Posts s (s.handOver t) ∧
      ∀ f ∈ s.pops.of t.start, ⟨.single f, t.label, t.target⟩ ∈ (s.handOver t).fields :=
  foldl_posts (fun f s => (⟨.single f, t.label, t.target⟩ : FieldTransition) ∈ s.fields)
    (fun g => g.field _) s
    fun s f _ => (s.inherit_posts f [t]).imp_right fun h => h t List.mem_cons_self

theorem witnessState_posts (s : Solver) (q : FieldState) :
    Posts s (s.witnessState q) ∧
      ∀ {f}, q = .single f → s.rules.contains f → f ∈ (s.witnessState q).reached := by
  unfold witnessState
  split
  · next f =>
    split
    · next hr =>
      refine ⟨(s.witness_posts f).1, fun {g} e _ => ?_⟩
      obtain rfl : f = g := FieldState.single.inj e
      exact (s.witness_posts f).2
    · next hr => exact ⟨.refl s, fun e h => absurd (FieldState.single.inj e ▸ h) hr⟩
  · next h => exact ⟨.refl s, fun e _ => absurd e (h _)⟩

@[simp] theorem fields_witnessState (s : Solver) (q : FieldState) :
    (s.witnessState q).fields = s.fields := by
  unfold witnessState
  split
  · next f =>
    split
    · obtain ⟨e, -⟩ | ⟨_, -, e⟩ := s.witness_cases f <;> rw [e]
    · rfl
  · rfl

/-- The number of transitions that do not lead to a state that is marked. -/
def unmarked (s : Solver) : Nat :=
  s.fields.toList.countP fun t => !s.productive.contains t.target

theorem countP_insert_add_filter {marked : OrderedSet FieldState} {q : FieldState} (hq : q ∉ marked)
    (ts : List FieldTransition) :
    ts.countP (fun t => !(marked.insert q).contains t.target) +
        (ts.filter fun t => t.target = q).length =
      ts.countP fun t => !marked.contains t.target := by
  have marks (p : FieldState) : (marked.insert q).contains p = (marked.contains p || p = q) := by
    rw [Bool.eq_iff_iff]
    simp [OrderedSet.contains_iff, OrderedSet.mem_insert]
  induction ts with
  | nil => rfl
  | cons t ts ih =>
    simp only [marks] at ih
    simp only [List.countP_cons, List.filter_cons, marks]
    by_cases e : t.target = q
    · have new : marked.contains q = false := by
        rw [Bool.eq_false_iff, Ne, OrderedSet.contains_iff]
        exact hq
      simp only [e, new, decide_true, Bool.or_true, Bool.not_true, Bool.false_eq_true, if_false,
        Bool.not_false, if_true, List.length_cons]
      omega
    · simp only [e, decide_false, Bool.or_false, Bool.false_eq_true, if_false]
      omega

/-- Marking a state takes the transitions that lead to it off the count. -/
theorem unmarked_add_incoming {q : FieldState} (hq : q ∉ s.productive) :
    ({ s with productive := s.productive.insert q } : Solver).unmarked +
      (s.fields.incomingOf q).length = s.unmarked := by
  rw [Automaton.incomingOf_eq_filter]
  exact countP_insert_add_filter hq s.fields.toList

theorem markStack_spec (fuel : Nat) (s : Solver) (stack : List FieldState)
    (hf : stack.length + s.unmarked ≤ fuel) :
    Extends s (s.markStack fuel stack) ∧ ∀ q ∈ stack, q ∈ (s.markStack fuel stack).productive := by
  induction fuel generalizing s stack with
  | zero =>
    obtain rfl : stack = [] := List.length_eq_zero_iff.1 (by omega)
    exact ⟨.refl s, fun _ h => absurd h List.not_mem_nil⟩
  | succ fuel ih =>
    cases stack with
    | nil => exact ⟨.refl s, fun _ h => absurd h List.not_mem_nil⟩
    | cons q stack =>
      rw [List.length_cons] at hf
      unfold markStack
      split
      · next h =>
        obtain ⟨g, done⟩ := ih s stack (by omega)
        refine ⟨g, fun q' hq' => ?_⟩
        obtain rfl | hq' := List.mem_cons.1 hq'
        · exact g.productive _ (OrderedSet.insertNew?_eq_none_iff.1 h)
        · exact done q' hq'
      · next productive h =>
        obtain ⟨hq, rfl⟩ := OrderedSet.insertNew?_eq_some_iff.1 h
        have g₀ : Grows s { s with productive := s.productive.insert q } :=
          { Grows.refl s with productive := fun q hq => OrderedSet.mem_insert.2 (.inl hq) }
        set s₀ : Solver := { s with productive := s.productive.insert q } with hs₀
        obtain ⟨p, witnessed⟩ := witnessState_posts s₀ q
        have count : s₀.unmarked + (s₀.fields.incomingOf q).length = s.unmarked :=
          unmarked_add_incoming hq
        have same : (s₀.witnessState q).unmarked = s₀.unmarked := by
          simp only [unmarked, fields_witnessState, p.productive_eq]
        obtain ⟨g, done⟩ := ih (s₀.witnessState q)
          (((s₀.witnessState q).fields.incomingOf q |>.map (·.start)).reverse ++ stack) (by
            simp only [fields_witnessState, List.length_append, List.length_reverse,
              List.length_map, same]
            omega)
        -- the states before `q` are on the stack, so they are marked in the end
        have before : ∀ t ∈ s.fields, t.target = q →
            t.start ∈ ((s₀.witnessState q).markStack fuel
              (((s₀.witnessState q).fields.incomingOf q |>.map (·.start)).reverse ++ stack)).productive := by
          intro t ht e
          refine done _ (List.mem_append_left _ (List.mem_reverse.2 (List.mem_map.2 ⟨t, ?_, rfl⟩)))
          rw [fields_witnessState]
          exact Automaton.mem_incomingOf.2 ⟨ht, e⟩
        have marked {q'} : q' ∈ (s₀.witnessState q).productive ↔ q' ∈ s.productive ∨ q' = q := by
          rw [p.productive_eq]
          exact OrderedSet.mem_insert
        refine ⟨⟨Applies.trans ⟨g₀.trans p.toGrows, ?_, ?_, ?_, ?_, ?_⟩ g.toApplies, ?_, ?_, ?_⟩,
          ?_⟩
        · exact fun hr => .inl (p.rules_eq ▸ hr)
        · exact fun hf => .inl (p.pops_eq ▸ hf)
        · exact fun hw => .inl (p.exits_eq ▸ hw)
        · exact fun hr => .inl (p.rules_eq ▸ hr)
        · exact fun hr _ => .inl (p.rules_eq ▸ hr)
        · intro t ht hp
          obtain hp | hp := g.newProductive t (p.field t ht) hp
          · exact (marked.1 hp).imp_right (before t ht)
          · exact .inr hp
        · intro f hr hp
          obtain h | ⟨hr, hp⟩ := g.newReached hr hp
          · exact .inl h
          · rw [p.rules_eq] at hr
            obtain hp | e := marked.1 hp
            · exact .inr ⟨hr, hp⟩
            · exact .inl (g.toGrows.reached f (witnessed e.symm hr))
        · exact fun hl => g.left (p.leftBottom hl)
        · intro q' hq'
          obtain rfl | hq' := List.mem_cons.1 hq'
          · exact g.productive _ (marked.2 (.inr rfl))
          · exact done q' (List.mem_append_right _ hq')

theorem unmarked_le (s : Solver) : s.unmarked ≤ s.fields.size := by
  have := s.fields.toList.countP_le_length (p := fun t => !s.productive.contains t.target)
  simpa [unmarked, Automaton.size, Automaton.toList] using this

theorem markProductive_extend (s : Solver) (q : FieldState) :
    Extends s (s.markProductive q) ∧ q ∈ (s.markProductive q).productive := by
  have bound := s.unmarked_le
  obtain ⟨g, done⟩ := markStack_spec (s.fields.size + 1) s [q] (by simp; omega)
  exact ⟨g, done q List.mem_cons_self⟩

theorem markStart_extend (s : Solver) {t : FieldTransition} :
    Extends s (s.markStart t) ∧
      (t.target ∈ s.productive → t.start ∈ (s.markStart t).productive) := by
  unfold markStart
  split
  · exact ⟨(s.markProductive_extend _).1, fun _ => (s.markProductive_extend _).2⟩
  · next h => exact ⟨.refl s, fun hp => absurd (OrderedSet.contains_iff.2 hp) h⟩

theorem processFactTransition_extend (f : Fact) {t : FieldTransition} (ht : t ∈ s.fields) :
    Extends s (s.processFactTransition f t) ∧
      (∀ r ∈ s.rules.getD f [], (s.processFactTransition f t).FieldRuleDone t r) ∧
      (∀ g ∈ s.fieldFlows.of f,
        ⟨.single g, t.label, t.target⟩ ∈ (s.processFactTransition f t).fields) ∧
      ∀ {ticket}, t = ⟨.single f, .epsilon, s.seedState⟩ →
        (s.processFactTransition f t).rules.contains f → (f, ticket) ∈ s.tickets →
          .witnessed ticket s.seed ∈ (s.processFactTransition f t).announced := by
  obtain ⟨g₁, rules⟩ := s.applyFieldRules_extend (s.rules.getD f []) t
  obtain ⟨p₂, flows⟩ := (s.applyFieldRules (s.rules.getD f []) t).followFieldFlows_posts f t
  rw [g₁.fieldFlows] at flows
  have g₂ : Extends s ((s.applyFieldRules (s.rules.getD f []) t).followFieldFlows f t) :=
    g₁.trans p₂.extend
  set s₂ := (s.applyFieldRules (s.rules.getD f []) t).followFieldFlows f t with hs₂
  have last : Posts s₂ (s.processFactTransition f t) ∧
      ∀ {ticket}, t = ⟨.single f, .epsilon, s.seedState⟩ → s₂.rules.contains f →
        (f, ticket) ∈ s₂.tickets →
          .witnessed ticket s₂.seed ∈ (s.processFactTransition f t).announced := by
    have seedState : s₂.seedState = s.seedState := congrArg FieldState.alloc g₂.seed
    unfold processFactTransition
    rw [← hs₂]
    dsimp only
    rw [seedState]
    split
    · obtain ⟨p, answered⟩ := s₂.answerTickets_posts f
      refine ⟨p, fun e known asked => answered (reachesWithEmptyStack_iff.2 ⟨known, ?_⟩) asked⟩
      rw [seedState]
      exact g₂.field _ (e ▸ ht)
    · next other => exact ⟨.refl _, fun e => absurd (e ▸ ⟨rfl, rfl⟩) other⟩
  obtain ⟨p₃, answered⟩ := last
  have p := p₂.trans p₃
  refine ⟨g₁.trans p.extend, fun r hr => (rules r hr).grows p.toGrows,
    fun g hg => p₃.field _ (flows g hg), fun e known asked => ?_⟩
  rw [p₃.rules_eq] at known
  rw [← g₂.tickets] at asked
  rw [← g₂.seed]
  exact answered e known asked

theorem processStart_extend {t : FieldTransition} (ht : t ∈ s.fields) :
    Extends s (s.processStart t) ∧
      (∀ {f rs}, t.start = .single f → s.rules[f]? = some rs →
        ∀ r ∈ rs, (s.processStart t).FieldRuleDone t r) ∧
      (∀ {f g}, t.start = .single f → g ∈ s.fieldFlows.of f →
        ⟨.single g, t.label, t.target⟩ ∈ (s.processStart t).fields) ∧
      ∀ {f ticket}, t = ⟨.single f, .epsilon, s.seedState⟩ →
        (s.processStart t).rules.contains f → (f, ticket) ∈ s.tickets →
          .witnessed ticket s.seed ∈ (s.processStart t).announced := by
  unfold processStart
  split
  · next f hs =>
    obtain ⟨g, rules, flows, answered⟩ := processFactTransition_extend f ht
    refine ⟨g, fun {f' rs} e hr r hm => ?_, fun {f' _} e hf => ?_, fun {f' _} e known asked => ?_⟩
    · obtain rfl : f = f' := FieldState.single.inj (hs.symm.trans e)
      exact rules r (by rw [Std.TreeMap.getD_eq_getD_getElem?, hr]; exact hm)
    · obtain rfl : f = f' := FieldState.single.inj (hs.symm.trans e)
      exact flows _ hf
    · obtain rfl : f = f' := FieldState.single.inj (hs.symm.trans (congrArg (·.start) e))
      exact answered e known asked
  · next h =>
    exact ⟨.refl s, fun e => absurd e (h _), fun e => absurd e (h _),
      fun e => absurd (congrArg (·.start) e) (h _)⟩

theorem processField_extend {t : FieldTransition} (ht : t ∈ s.fields) :
    Extends s (s.processField t) ∧ (s.processField t).FieldDone t := by
  obtain ⟨g₁, marks⟩ := s.markStart_extend (t := t)
  obtain ⟨g₂, rules, flows, answered⟩ := processStart_extend (g₁.field t ht)
  obtain ⟨p₃, pops⟩ := ((s.markStart t).processStart t).handOver_posts t
  have g₁₂ := g₁.trans g₂
  have g : Extends s (s.processField t) := g₁₂.trans p₃.extend
  refine ⟨g, fun {f rs} hs hr => ?_, fun hs hf => ?_, fun hf => ?_, fun hp => ?_,
    fun e known asked => ?_⟩
  · -- a rule that is there now was there after the marking, or was found in the meantime
    have h₂ : Extends (s.markStart t) (s.processField t) := g₂.trans p₃.extend
    obtain hr | H := h₂.newRule hr
    · exact fun r hm => (rules hs hr r hm).grows p₃.toGrows
    · exact H t (g₁.field t ht) hs
  · have e : (s.processField t).fieldFlows = (s.markStart t).fieldFlows :=
      g.fieldFlows.trans g₁.fieldFlows.symm
    exact p₃.field _ (flows hs (e ▸ hf))
  · exact pops _ (p₃.pops_eq ▸ hf)
  · obtain hp | hp := (g₂.trans p₃.extend).newProductive t (g₁.field t ht) hp
    · obtain hp | hp := g₁.newProductive t ht hp
      · exact (g₂.trans p₃.extend).productive _ (marks hp)
      · exact (g₂.trans p₃.extend).productive _ hp
    · exact hp
  · rw [seedState, g.seed, ← g₁.seed] at e
    rw [g.tickets, ← g₁.tickets] at asked
    rw [g.seed, ← g₁.seed]
    exact p₃.announced _ (answered e (p₃.rules_eq ▸ known) asked)

/-! ## Call transitions -/

theorem nodup_toList {κ α : Type} [Ord κ] [Std.TransOrd κ] (m : Std.TreeMap κ α) :
    m.toList.Nodup := by
  refine m.distinct_keys_toList.imp fun {a b} h => ?_
  rintro rfl
  exact h Std.ReflCmp.compare_self

/-- Taking a method off what waits takes its ways off the count. -/
theorem blockedCount_erase (s : Solver) (m : MethodName) :
    ({ s with blocked := s.blocked.erase m } : Solver).blockedCount +
      (s.blocked.getD m []).length = s.blockedCount := by
  have count (ws : List (Fact × CallState)) (h : s.blocked[m]? = some ws) :
      s.blocked.toList.Perm ((m, ws) :: (s.blocked.erase m).toList) := by
    refine (List.perm_ext_iff_of_nodup (nodup_toList _) ?_).2 ?_
    · refine List.nodup_cons.2 ⟨fun hm => ?_, nodup_toList _⟩
      rw [Std.TreeMap.mem_toList_iff_getElem?_eq_some, Std.TreeMap.getElem?_erase] at hm
      simp at hm
    · rintro ⟨m', ws'⟩
      simp only [List.mem_cons, Std.TreeMap.mem_toList_iff_getElem?_eq_some,
        Std.TreeMap.getElem?_erase, Std.LawfulEqCmp.compare_eq_iff_eq, Prod.mk.injEq]
      by_cases e : m = m'
      · subst e
        simp [h, eq_comm]
      · simp [e, Ne.symm e]
  rw [Std.TreeMap.getD_eq_getD_getElem?]
  unfold blockedCount
  simp only [← List.sum_eq_foldr]
  cases h : s.blocked[m]? with
  | some ws =>
    rw [((count ws h).map _).sum_nat]
    simp [Nat.add_comm]
  | none =>
    have same : s.blocked.toList.Perm (s.blocked.erase m).toList := by
      refine (List.perm_ext_iff_of_nodup (nodup_toList _) (nodup_toList _)).2 ?_
      rintro ⟨m', ws'⟩
      simp only [Std.TreeMap.mem_toList_iff_getElem?_eq_some, Std.TreeMap.getElem?_erase,
        Std.LawfulEqCmp.compare_eq_iff_eq]
      by_cases e : m = m'
      · subst e
        simp [h]
      · simp [e]
    rw [(same.map _).sum_nat]
    simp

@[simp] theorem blockedCount_enterAll (s : Solver) (ways : List (Fact × CallState)) :
    (s.enterAll ways).blockedCount = s.blockedCount := by
  unfold blockedCount
  rw [(s.enterAll_posts ways).1.blocked_eq]

theorem openStack_spec (fuel : Nat) (s : Solver) (stack : List MethodName)
    (hf : stack.length + s.blockedCount ≤ fuel) :
    Extends s (s.openStack fuel stack) ∧ ∀ m ∈ stack, m ∈ (s.openStack fuel stack).unbalanced := by
  induction fuel generalizing s stack with
  | zero =>
    obtain rfl : stack = [] := List.length_eq_zero_iff.1 (by omega)
    exact ⟨.refl s, fun _ h => absurd h List.not_mem_nil⟩
  | succ fuel ih =>
    cases stack with
    | nil => exact ⟨.refl s, fun _ h => absurd h List.not_mem_nil⟩
    | cons m stack =>
      rw [List.length_cons] at hf
      unfold openStack
      split
      · next h =>
        obtain ⟨g, done⟩ := ih s stack (by omega)
        refine ⟨g, fun m' hm' => ?_⟩
        obtain rfl | hm' := List.mem_cons.1 hm'
        · exact g.opened _ (OrderedSet.insertNew?_eq_none_iff.1 h)
        · exact done m' hm'
      · next unbalanced h =>
        dsimp only
        have g₀ : Grows s { s with unbalanced, blocked := s.blocked.erase m } :=
          (Move.opening (W := s.propagation.ways) (F := .all) trivial h).grows
        obtain ⟨hm, rfl⟩ := OrderedSet.insertNew?_eq_some_iff.1 h
        set s₀ : Solver :=
          { s with unbalanced := s.unbalanced.insert m, blocked := s.blocked.erase m } with hs₀
        set ways := s.blocked.getD m []
        obtain ⟨p₁, entered⟩ := (s₀.remark (.leavesUnbalanced s.seed m)).enterAll_posts ways
        have p : Posts s₀ ((s₀.remark (.leavesUnbalanced s.seed m)).enterAll ways) :=
          (s₀.say_posts _).trans p₁
        have count : s₀.blockedCount + ways.length = s.blockedCount := s.blockedCount_erase m
        have same : (s₀.remark (.leavesUnbalanced s.seed m)).blockedCount = s₀.blockedCount := rfl
        obtain ⟨g, done⟩ := ih ((s₀.remark (.leavesUnbalanced s.seed m)).enterAll ways)
          ((ways.map (·.1.point.method)).reverse ++ stack) (by
            simp only [blockedCount_enterAll, same, List.length_append, List.length_reverse,
              List.length_map]
            omega)
        have opened : m ∈ (((s₀.remark (.leavesUnbalanced s.seed m)).enterAll ways).openStack fuel
            ((ways.map (·.1.point.method)).reverse ++ stack)).unbalanced :=
          g.opened m (p.opened m (OrderedSet.mem_insert.2 (.inr rfl)))
        refine ⟨⟨Applies.trans ⟨g₀.trans p.toGrows, ?_, ?_, ?_, ?_, ?_⟩ g.toApplies, ?_, ?_, ?_⟩,
          ?_⟩
        · exact fun hr => .inl (p.rules_eq ▸ hr)
        · exact fun hf => .inl (p.pops_eq ▸ hf)
        · exact fun hw => .inl (p.exits_eq ▸ hw)
        · exact fun hr => .inl (p.rules_eq ▸ hr)
        · exact fun hr _ => .inl (p.rules_eq ▸ hr)
        · intro t ht hp
          obtain hp | hp := g.newProductive t (p.field t ht) hp
          · exact .inl (p.productive_eq ▸ hp)
          · exact .inr hp
        · exact fun hr hp => (g.newReached hr hp).imp_right fun ⟨hr, hp⟩ =>
            ⟨p.rules_eq ▸ hr, p.productive_eq ▸ hp⟩
        · -- what waited at `m` goes on, and what waits elsewhere goes on waiting
          rintro m' f c (⟨hm', he, ht⟩ | ⟨hm', hw⟩)
          · exact .inl ⟨g.opened _ (p.opened _ (g₀.opened _ hm')), g.call _ (p.call _ he),
              g.opened _ (p.opened _ (g₀.opened _ ht))⟩
          · by_cases e : m' = m
            · subst e
              refine .inl ⟨opened, g.call _ (entered _ hw), done _ (List.mem_append_left _ ?_)⟩
              exact List.mem_reverse.2 (List.mem_map.2 ⟨_, hw, rfl⟩)
            · refine g.left (p.leftBottom (.inr ⟨fun h => ?_, ?_⟩))
              · exact (OrderedSet.mem_insert.1 h).elim hm' e
              · rw [Std.TreeMap.getD_erase]
                simpa [Std.LawfulEqCmp.compare_eq_iff_eq, Ne.symm e] using hw
        · intro m' hm'
          obtain rfl | hm' := List.mem_cons.1 hm'
          · exact opened
          · exact done m' (List.mem_append_right _ hm')

theorem openMethod_extend (s : Solver) (m : MethodName) :
    Extends s (s.openMethod m) ∧ m ∈ (s.openMethod m).unbalanced := by
  obtain ⟨g, done⟩ := openStack_spec (s.blockedCount + 1) s [m] (by simp; omega)
  exact ⟨g, done m List.mem_cons_self⟩

theorem leaveFrame_extend (s : Solver) (site : Point) (target : Fact) (frame : CallState) :
    Extends s (s.leaveFrame site target frame) ∧
      (site, target) ∈ (s.leaveFrame site target frame).exits.of frame := by
  unfold leaveFrame
  split
  · next h => exact ⟨.refl s, Multimap.insertNew?_eq_none_iff.1 h⟩
  · next exits h =>
    obtain ⟨-, rfl⟩ := Multimap.insertNew?_eq_some_iff.1 h
    set s₀ : Solver := { s with exits := s.exits.insert frame (site, target) } with hs₀
    have g₀ : Grows s s₀ :=
      { Grows.refl s with exit := fun hw => Multimap.mem_of_insert.2 (.inl hw) }
    set below := (s.calls.outgoingOf frame).filter fun t => t.label = site
    obtain ⟨p, entered⟩ := s₀.enterAll_posts (below.map fun t => (target, t.target))
    have mem {c w} : w ∈ (s₀.enterAll (below.map fun t => (target, t.target))).exits.of c ↔
        w ∈ s.exits.of c ∨ c = frame ∧ w = (site, target) := by
      rw [p.exits_eq]
      exact Multimap.mem_of_insert
    refine ⟨⟨⟨g₀.trans p.toGrows, ?_, ?_, ?_, ?_, ?_⟩, ?_, ?_, p.leftBottom⟩,
      mem.2 (.inr ⟨rfl, rfl⟩)⟩
    · exact fun hr => .inl (p.rules_eq ▸ hr)
    · exact fun hf => .inl (p.pops_eq ▸ hf)
    · intro c site' f hw
      refine (mem.1 hw).imp_right fun new t ht hs hl => ?_
      obtain ⟨e, e'⟩ := new
      obtain ⟨rfl, rfl⟩ := Prod.mk.inj e'
      refine entered (f, t.target) (List.mem_map.2 ⟨t, List.mem_filter.2 ⟨?_, ?_⟩, rfl⟩)
      · exact Automaton.mem_outgoingOf.2 ⟨ht, hs.trans e⟩
      · exact decide_eq_true hl
    · exact fun hr => .inl (p.rules_eq ▸ hr)
    · exact fun hr _ => .inl (p.rules_eq ▸ hr)
    · exact fun t _ hp => .inl (p.productive_eq ▸ hp)
    · exact fun hr hp => .inr ⟨p.rules_eq ▸ hr, p.productive_eq ▸ hp⟩

theorem leaveBottom_extend (s : Solver) (m : MethodName) (target : Fact) (c : CallState) :
    Extends s (s.leaveBottom m target c) ∧ (s.leaveBottom m target c).LeftBottom m target c := by
  unfold leaveBottom
  split
  · next hm =>
    have p := s.addCall_posts ⟨.single target.var, target.point, c⟩
    obtain ⟨g, opened⟩ := (s.enter target c).openMethod_extend target.point.method
    have hm' : m ∈ (s.enter target c).unbalanced := p.opened m (OrderedSet.contains_iff.1 hm)
    refine ⟨p.extend.trans g, .inl ⟨g.opened m hm', g.call _ (s.mem_addCall _), opened⟩⟩
  · next hm =>
    have closed : m ∉ s.unbalanced := fun h => hm (OrderedSet.contains_iff.2 h)
    refine ⟨⟨⟨{ Grows.refl s with }, .inl, .inl, .inl, .inl, fun hr _ => .inl hr⟩, fun _ _ => .inl,
      fun hr hp => .inr ⟨hr, hp⟩, ?_⟩, .inr ⟨closed, ?_⟩⟩
    · rintro m' f' c' (⟨hm', he, ht⟩ | ⟨hm', hw⟩)
      · exact .inl ⟨hm', he, ht⟩
      · refine .inr ⟨hm', ?_⟩
        rw [Std.TreeMap.getD_insert]
        split
        · next e =>
          obtain rfl := Std.LawfulEqCmp.eq_of_compare e
          exact List.mem_append_left _ hw
        · exact hw
    · simp

theorem applyCallRule_extend (s : Solver) (f : Fact) (c : CallState) (r : Rule) :
    Extends s (s.applyCallRule f c r) ∧ (s.applyCallRule f c r).CallRuleDone f c r := by
  obtain ⟨target, field, call⟩ := r
  unfold applyCallRule CallRuleDone
  cases call with
  | stay => exact ⟨(s.addCall_posts _).extend, s.mem_addCall _⟩
  | enter site =>
    set frame := CallState.generated target.var target.point
    have p := (s.enter target frame).addCall_posts ⟨frame, site, c⟩
    exact ⟨((s.addCall_posts _).trans p).extend, p.call _ (s.mem_addCall _), mem_addCall _ _⟩
  | leave site =>
    cases c with
    | generated v p => exact s.leaveFrame_extend site target (.generated v p)
    | initial v => exact s.leaveBottom_extend f.point.method target (.initial v)
    | single v => exact ⟨.refl s, trivial⟩

theorem applyCallRules_extend (s : Solver) (rs : List Rule) (f : Fact) (c : CallState) :
    Extends s (s.applyCallRules rs f c) ∧
      ∀ r ∈ rs, (s.applyCallRules rs f c).CallRuleDone f c r :=
  foldl_extend (fun r s => s.CallRuleDone f c r) (fun g h => h.extend g) s
    fun s _ r _ => s.applyCallRule_extend f c r

theorem catchUp_extend {f : Fact} {rs : List Rule} (hr : s.rules[f]? = some rs) :
    Extends s (s.catchUp f) ∧
      ∀ t ∈ s.fields, t.start = .single f → ∀ r ∈ rs, (s.catchUp f).FieldRuleDone t r := by
  obtain ⟨g, done⟩ := foldl_extend
    (g := fun s t => s.applyFieldRules (s.rules.getD f []) t) (l := s.fields.outgoingOf (.single f))
    (fun t s => ∀ r ∈ rs, s.FieldRuleDone t r)
    (fun g h r hm => (h r hm).grows g.toGrows) s fun s' g t _ => by
      -- the turns of the loop look the rules up anew, and find the same rules
      have e : s'.rules.getD f [] = rs := by rw [Std.TreeMap.getD_eq_getD_getElem?, g.rule hr]; rfl
      simp only [e]
      exact s'.applyFieldRules_extend rs t
  exact ⟨g, fun t ht hs => done t (Automaton.mem_outgoingOf.2 ⟨ht, hs⟩)⟩

theorem reach_extend {f : Fact} (hf : s.rules.contains f = false) :
    Extends s (s.reach f) ∧ (s.reach f).rules.contains f := by
  obtain ⟨announced, outbox, notices, methods, e, ⟨old, new⟩, kept, visited⟩ := s.findRules_eq f
  set rs := (s.propagation.flow f).rules
  have found {g : Fact} {rs'} : (s.findRules f).rules[g]? = some rs' ↔
      g = f ∧ rs' = rs ∨ g ≠ f ∧ s.rules[g]? = some rs' := by
    rw [e, Std.TreeMap.getElem?_insert]
    simp only [Std.LawfulEqCmp.compare_eq_iff_eq, eq_comm (a := f)]
    split
    · next e => simp [e, eq_comm]
    · next e => simp [e]
  have unknown {rs'} : s.rules[f]? ≠ some rs' := by
    intro h
    rw [Std.TreeMap.contains_eq_isSome_getElem?, h] at hf
    cases hf
  have g₀ : Grows s (s.findRules f) := by
    have keep {g : Fact} {rs'} (hg : s.rules[g]? = some rs') :
        (s.findRules f).rules[g]? = some rs' :=
      found.2 (.inr ⟨fun e => unknown (e ▸ hg), hg⟩)
    rw [e] at keep ⊢
    exact { Grows.refl s with rule := keep, announced := old, methods := kept }
  have same : (s.findRules f).pops = s.pops ∧ (s.findRules f).exits = s.exits ∧
      (s.findRules f).productive = s.productive ∧ (s.findRules f).unbalanced = s.unbalanced ∧
      (s.findRules f).blocked = s.blocked ∧ (s.findRules f).calls = s.calls := by
    simp [e]
  obtain ⟨samePops, sameExits, sameProductive, sameUnbalanced, sameBlocked, sameCalls⟩ := same
  obtain ⟨g₁, done⟩ := catchUp_extend (found.2 (.inl ⟨rfl, rfl⟩))
  -- the fact itself is a witness if its state is productive by now
  have last : Posts ((s.findRules f).catchUp f) (s.reach f) ∧
      (.single f ∈ ((s.findRules f).catchUp f).productive → f ∈ (s.reach f).reached) ∧
      ∀ {ticket}, ((s.findRules f).catchUp f).reachesWithEmptyStack f →
        (f, ticket) ∈ ((s.findRules f).catchUp f).tickets →
          .witnessed ticket ((s.findRules f).catchUp f).seed ∈ (s.reach f).announced := by
    unfold reach
    dsimp only
    split
    · obtain ⟨p, hw⟩ := witness_posts ((s.findRules f).catchUp f) f
      obtain ⟨p', answered⟩ := answerTickets_posts (((s.findRules f).catchUp f).witness f) f
      refine ⟨p.trans p', fun _ => p'.toGrows.reached f hw, fun reaches asked => ?_⟩
      rw [← p.tickets] at asked
      rw [← p.seed]
      exact answered (reachesWithEmptyStack_of_grows p.toGrows reaches) asked
    · next h =>
      obtain ⟨p', answered⟩ := answerTickets_posts ((s.findRules f).catchUp f) f
      exact ⟨p', fun hp => absurd (OrderedSet.contains_iff.2 hp) h, answered⟩
  obtain ⟨p, witnessed, answered⟩ := last
  have g := g₁.trans p.extend
  have known : (s.reach f).rules[f]? = some rs := g.rule (found.2 (.inl ⟨rfl, rfl⟩))
  refine ⟨⟨⟨g₀.trans g.toGrows, ?_, ?_, ?_, ?_, ?_⟩, ?_, ?_, ?_⟩, ?_⟩
  · intro h rs' hr
    obtain hr | H := g.newRule hr
    · obtain ⟨rfl, rfl⟩ | ⟨-, hr⟩ := found.1 hr
      · exact .inr fun t ht hs r hm => (done t (g₀.field t ht) hs r hm).grows p.toGrows
      · exact .inl hr
    · exact .inr fun t ht => H t (g₀.field t ht)
  · exact fun hf => (g.newPop hf).imp (samePops ▸ ·) fun H t ht => H t (g₀.field t ht)
  · exact fun hw => (g.newExit hw).imp (sameExits ▸ ·) fun H t ht => H t (g₀.call t ht)
  · intro h rs' hr
    obtain hr | H := g.newFound hr
    · obtain ⟨rfl, rfl⟩ | ⟨-, hr⟩ := found.1 hr
      · refine .inr (Found.keeps g.toKeeps ?_)
        rw [e]
        exact ⟨⟨s.propagation.allocated, rfl, new⟩, visited⟩
      · exact .inl hr
    · exact .inr H
  · intro h ticket hr asked
    have asked₀ : (h, ticket) ∈ (s.findRules f).tickets := g₀.tickets.symm ▸ asked
    obtain hr | H := g.newAnswer hr asked₀
    · rw [Std.TreeMap.contains_eq_isSome_getElem?] at hr ⊢
      obtain ⟨rs', hr⟩ := Option.isSome_iff_exists.1 hr
      obtain ⟨rfl, -⟩ | ⟨-, hr⟩ := found.1 hr
      · refine .inr fun held => ?_
        have seed := g₁.seed.trans g₀.seed
        rw [← seed]
        refine answered (reachesWithEmptyStack_iff.2 ⟨?_, ?_⟩) (g₁.tickets.symm ▸ asked₀)
        · exact g₁.contains_rules (Std.TreeMap.contains_eq_isSome_getElem?.trans (by simp [hr]))
        · rw [seedState, seed]
          exact g₁.field _ (g₀.field _ held)
      · exact .inl (by simp [hr])
    · rw [seedState, g₀.seed] at H
      exact .inr fun held => H (g₀.field _ held)
  · exact fun t ht hp => (g.newProductive t (g₀.field t ht) hp).imp_left (sameProductive ▸ ·)
  · intro h hr hp
    obtain hw | ⟨hr, hp'⟩ := g.newReached hr hp
    · exact .inl hw
    · by_cases e : h = f
      · subst e
        exact .inl (witnessed (g₁.productive _ hp'))
      · refine .inr ⟨?_, sameProductive ▸ hp'⟩
        rw [Std.TreeMap.contains_eq_isSome_getElem?] at hr ⊢
        obtain ⟨rs', hr⟩ := Option.isSome_iff_exists.1 hr
        obtain ⟨e', -⟩ | ⟨-, hr⟩ := found.1 hr
        · exact absurd e' e
        · simp [hr]
  · intro m t c hl
    refine g.left ?_
    unfold LeftBottom at hl ⊢
    rw [sameUnbalanced, sameBlocked]
    refine hl.imp_left ?_
    rintro ⟨hm, he, ht⟩
    exact ⟨hm, g₀.call _ he, ht⟩
  · rw [Std.TreeMap.contains_eq_isSome_getElem?, known]
    rfl

theorem processFact_extend {f : Fact} {c : CallState} :
    Extends s (s.processFact f c) ∧ (∃ rs, (s.processFact f c).rules[f]? = some rs ∧
      ∀ r ∈ rs, (s.processFact f c).CallRuleDone f c r) ∧
      ∀ g ∈ s.callFlows.of f, (s.processFact f c).facts.enters g c := by
  have first : Extends s (if s.rules.contains f then s else s.reach f) ∧
      (if s.rules.contains f then s else s.reach f).rules.contains f := by
    split
    · next h => exact ⟨.refl s, h⟩
    · next h => exact reach_extend (Bool.eq_false_iff.2 h)
  unfold processFact
  dsimp only
  generalize (if s.rules.contains f then s else s.reach f) = s₁ at first ⊢
  obtain ⟨g₁, known⟩ := first
  rw [Std.TreeMap.contains_eq_isSome_getElem?] at known
  obtain ⟨rs, hr⟩ := Option.isSome_iff_exists.1 known
  have e : s₁.rules.getD f [] = rs := by rw [Std.TreeMap.getD_eq_getD_getElem?, hr]; rfl
  rw [e]
  obtain ⟨g₂, done⟩ := s₁.applyCallRules_extend rs f c
  obtain ⟨p₃, flows⟩ := (s₁.applyCallRules rs f c).enterAll_posts
    (((s₁.applyCallRules rs f c).callFlows.of f).map (·, c))
  have g₂₃ := g₂.trans p₃.extend
  refine ⟨g₁.trans g₂₃, ⟨rs, g₂₃.rule hr, fun r hm => (done r hm).extend p₃.extend⟩, ?_⟩
  intro h hh
  have e' : (s₁.applyCallRules rs f c).callFlows = s.callFlows := g₂.callFlows.trans g₁.callFlows
  exact flows (h, c) (List.mem_map.2 ⟨h, e' ▸ hh, rfl⟩)

theorem processFrame_posts (s : Solver) (frame : CallState) (site : Point) (c : CallState) :
    Posts s (s.processFrame frame site c) ∧
      ∀ {f}, (site, f) ∈ s.exits.of frame → (s.processFrame frame site c).facts.enters f c := by
  unfold processFrame
  refine ⟨(s.enterAll_posts _).1, fun {f} hf => (s.enterAll_posts _).2 (f, c) ?_⟩
  refine List.mem_map.2 ⟨(site, f), List.mem_filter.2 ⟨hf, ?_⟩, rfl⟩
  exact decide_eq_true rfl

theorem processCall_extend (s : Solver) (t : CallTransition) :
    Extends s (s.processCall t) ∧ (s.processCall t).CallDone t := by
  obtain ⟨start, l, c⟩ := t
  unfold processCall
  cases start with
  | single v =>
    obtain ⟨g, rules, flows⟩ := s.processFact_extend (f := ⟨l, v⟩) (c := c)
    refine ⟨g, fun {v'} e => ?_, fun {v' h} e hh => ?_, fun h => nomatch h⟩
    · obtain rfl := CallState.single.inj e
      exact rules
    · obtain rfl := CallState.single.inj e
      have same : (s.processFact ⟨l, v⟩ c).callFlows = s.callFlows := g.callFlows
      exact flows h (same ▸ hh)
  | generated v p =>
    obtain ⟨g, exits⟩ := s.processFrame_posts (.generated v p) l c
    exact ⟨g.extend, fun e => (nomatch e), fun e => (nomatch e), fun _ hf => exits (g.exits_eq ▸ hf)⟩
  | initial v => exact ⟨.refl s, fun e => (nomatch e), fun e => (nomatch e), fun h => (nomatch h)⟩

/-- Processing a piece of work keeps drawn what was drawn, and draws its own consequences. -/
theorem process_extend {w : Work} (h : s.Records w) :
    Extends s (s.process w) ∧ (s.process w).Done w := by
  cases w with
  | field t => exact processField_extend h
  | call t => exact s.processCall_extend t

end Solver

end PointsTo
