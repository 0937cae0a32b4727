import PointsTo.Proofs.Solver.Bound
import PointsTo.Proofs.Solver.Consequences
import PointsTo.Proofs.Solver.Told

/-!
# Saturation reaches the least closed set of facts

Between operations a solver is `Regular`: all consequences are drawn of what does not wait, its
worklist counts its transitions, and its facts keep to a supply of names that fits its capacity.
Saturating a regular solver empties the worklist, so its facts are closed (`Settled.closed`), and
they stay below every closed set that they were below (`saturate_spec`).
-/

namespace PointsTo

namespace Solver

variable {W : Ways} {F : Facts} {s s' : Solver}

/-! ## Nothing waits -/

/-- Once nothing waits, all consequences are drawn. -/
theorem Settled.done (h : s.Settled fun _ => False) (idle : s.worklist.pending = []) {w : Work}
    (hw : s.Records w) : s.Done w :=
  ((h.work w hw).resolve_left id).resolve_left (by simp [idle])

/-- Once nothing waits, the facts are closed under all the rules that were found. -/
theorem Settled.closed (h : s.Settled fun _ => False) (idle : s.worklist.pending = [])
    (found : ∀ {f rs}, s.rules[f]? = some rs → ∀ {r}, W.rule f r → r ∈ rs) :
    s.facts.Closed W := by
  have field {t} (ht : t ∈ s.fields) : s.FieldDone t := h.done idle (w := .field t) ht
  have call {t} (ht : t ∈ s.calls) : s.CallDone t := h.done idle (w := .call t) ht
  have fieldRule {f r t} (hf : s.facts.live f) (hr : W.rule f r) (ht : t ∈ s.fields)
      (hs : t.start = .single f) : s.FieldRuleDone t r := by
    obtain ⟨c, hc⟩ := hf
    obtain ⟨rs, hrs, -⟩ := (call hc).rule rfl
    exact (field ht).rule hs hrs r (found hrs hr)
  have callRule {f r c} (hf : s.facts.enters f c) (hr : W.rule f r) : s.CallRuleDone f c r := by
    obtain ⟨rs, hrs, H⟩ := (call hf).rule rfl
    exact H r (found hrs hr)
  refine {
    keep := fun hf hr e ht => ?_
    push := fun hf hr e ht => ?_
    pop := fun hf hr e ht => ?_
    takeOver := fun hf ht => (field ht).pop hf
    fieldFlow := fun hg ht => (field ht).flow rfl hg
    stay := fun hf hr e => ?_
    enter := fun hf hr e => ?_
    leave := fun hf hr e hc => ?_
    leaveBottom := fun hf hr e hm => ?_
    callFlow := fun hg hc => (call hc).flow rfl hg
    productive := fun ht hp => (field ht).productive hp }
  · have done := fieldRule hf hr ht rfl
    rw [FieldRuleDone, e] at done
    exact done
  · have done := fieldRule hf hr ht rfl
    rw [FieldRuleDone, e] at done
    exact done
  · have done := fieldRule hf hr ht rfl
    rw [FieldRuleDone, e] at done
    exact done rfl
  · have done := callRule hf hr
    rw [CallRuleDone, e] at done
    exact done
  · have done := callRule hf hr
    rw [CallRuleDone, e] at done
    exact done
  · have done := callRule hf hr
    rw [CallRuleDone, e] at done
    exact (call hc).exit rfl done
  · have done := callRule hf hr
    rw [CallRuleDone, e] at done
    obtain ⟨-, he, ht⟩ | ⟨hn, -⟩ := done
    · exact ⟨he, ht⟩
    · exact absurd hm hn

/-! ## Steps -/

theorem step?_eq_some (e : s.step? = some s') : ∃ w worklist,
    s.worklist.next? = some (w, worklist) ∧ s' = { s with worklist }.process w := by
  unfold step? at e
  split at e
  · next w worklist h => exact ⟨w, worklist, h, (Option.some.inj e).symm⟩
  · cases e

theorem step?_eq_none_iff : s.step? = none ↔ s.worklist.pending = [] := by
  rw [← Feed.next?_eq_none_iff]
  unfold step?
  split <;> simp_all

/-- Reading from the worklist keeps what is known below a set of facts. -/
theorem Below.read (h : s.Below W F) {w : Work} {worklist : Feed Work}
    (hn : s.worklist.next? = some (w, worklist)) :
    ({ s with worklist } : Solver).Below W F ∧ ({ s with worklist } : Solver).Records w := by
  have hp := Feed.pending_of_next?_eq_some hn
  refine ⟨{ h with
    pendingField := fun t ht => h.pendingField t (hp ▸ List.mem_cons_of_mem w ht)
    pendingCall := fun t ht => h.pendingCall t (hp ▸ List.mem_cons_of_mem w ht) }, ?_⟩
  cases w with
  | field t => exact h.pendingField t (hp ▸ List.mem_cons_self)
  | call t => exact h.pendingCall t (hp ▸ List.mem_cons_self)

theorem step_moves (hF : F.Closed W) (h : s.Below W F) (e : s.step? = some s') :
    ∃ w worklist, s.worklist.next? = some (w, worklist) ∧ Moves W F { s with worklist } s' ∧
      ({ s with worklist } : Solver).Below W F := by
  obtain ⟨w, worklist, hn, rfl⟩ := step?_eq_some e
  obtain ⟨h', hw⟩ := h.read hn
  exact ⟨w, worklist, hn, process_moves hF h' hw, h'⟩

theorem Below.step (hF : F.Closed W) (h : s.Below W F) (e : s.step? = some s') :
    s'.Below W F := by
  obtain ⟨_, _, _, m, h'⟩ := step_moves hF h e
  exact h'.moves m

/-- A step does the work that it reads, and keeps drawn what was drawn. -/
theorem Settled.step (h : s.Settled fun _ => False) (hb : s.Below W F)
    (e : s.step? = some s') : s'.Settled fun _ => False := by
  obtain ⟨w, worklist, hn, rfl⟩ := step?_eq_some e
  have read : ({ s with worklist } : Solver).Settled (· = w) := by
    refine ⟨fun w' hw' => ?_, h.reached, h.found⟩
    have hw' : s.Records w' := by cases w' <;> exact hw'
    obtain h | h | h := h.work w' hw'
    · exact h.elim
    · rw [Feed.pending_of_next?_eq_some hn, List.mem_cons] at h
      exact h.imp id .inl
    · refine .inr (.inr ?_)
      cases w' with
      | field t => exact { (show s.FieldDone t from h) with }
      | call t => exact { (show s.CallDone t from h) with }
  obtain ⟨g, done⟩ := process_extend (hb.read hn).2
  refine ⟨fun w' hw' => ?_, (read.extend g).reached, (read.extend g).found⟩
  obtain rfl | h := (read.extend g).work w' hw'
  · exact .inr (.inr done)
  · exact .inr h

/-! ## Runs -/

/-- What holds of a solver before and after each step. -/
structure Regular (s : Solver) : Prop where
  settled : s.Settled fun _ => False
  posted : s.Posted
  named : ∃ N : Names, s.graph.program.names ≤ N ∧ N.Has s.seed ∧ s.Below N.ways N.facts ∧
    N.AtMost (s.graph.program.extent + s.foreign)

/-- What a run of steps leads to. -/
structure Run (s s' : Solver) : Prop extends Keeps s s' where
  foreign : s'.foreign = s.foreign
  regular : s'.Regular
  below : ∀ {W F}, F.Closed W → s.Below W F → s'.Below W F
  current : s.Current → s'.Current
  tells : Tells s s'

theorem Run.trans {s₁ s₂ s₃ : Solver} (h : Run s₁ s₂) (h' : Run s₂ s₃) : Run s₁ s₃ where
  toKeeps := h.toKeeps.trans h'.toKeeps
  foreign := h'.foreign.trans h.foreign
  regular := h'.regular
  below hF hb := h'.below hF (h.below hF hb)
  current hc := h'.current (h.current hc)
  tells := h.tells.trans h'.tells

theorem Regular.refl (h : s.Regular) : Run s s where
  toKeeps := .refl s
  foreign := rfl
  regular := h
  below _ := id
  current := id
  tells := .refl s

theorem Regular.step (h : s.Regular) (e : s.step? = some s') :
    Run s s' ∧ s'.worklist.position = s.worklist.position + 1 := by
  obtain ⟨N, hp, hs, hb, hN⟩ := h.named
  obtain ⟨w, worklist, hn, m, hb'⟩ := step_moves Names.closed hb e
  obtain ⟨sameSize, position⟩ := Feed.posted_of_next?_eq_some hn
  have keeps₀ : Keeps s { s with worklist } := { Keeps.refl s with }
  have keeps : Keeps s s' := keeps₀.trans m.grows.toKeeps
  have foreign : s'.foreign = s.foreign := m.grows.foreign
  obtain ⟨posted, position'⟩ := m.posted (by
    unfold Posted
    rw [sameSize]
    exact h.posted)
  have graph : s'.graph = s.graph := congrArg Propagation.graph keeps.propagation
  have tells : Tells s { s with worklist } :=
    .of_eq rfl rfl rfl rfl rfl rfl ⟨[], rfl⟩ fun hi => { hi with }
  refine ⟨⟨keeps, foreign, ⟨h.settled.step hb e, posted, N, ?_⟩, ?_, ?_, tells.trans m.tells⟩,
    position'.trans position⟩
  · rw [graph, keeps.seed, foreign]
    exact ⟨hp, hs, hb.step Names.closed e, hN⟩
  · exact fun hF hb => hb.step hF e
  · exact fun hc => Moves.current (s := { s with worklist }) hc m

/-- A run that is never larger than `bound` comes to rest within `bound` steps, as each step reads a
transition. -/
theorem Regular.saturateFor_idle (h : s.Regular) {bound : Nat}
    (room : ∀ {s'}, Run s s' → s'.fields.size + s'.calls.size ≤ bound) (fuel : Nat)
    (enough : bound ≤ s.worklist.position + fuel) :
    Run s (s.saturateFor fuel) ∧ (s.saturateFor fuel).worklist.pending = [] := by
  induction fuel generalizing s with
  | zero =>
    have size : s.worklist.posted.size ≤ bound := h.posted ▸ room h.refl
    refine ⟨h.refl, List.length_eq_zero_iff.1 ?_⟩
    rw [saturateFor, Feed.length_pending]
    omega
  | succ fuel ih =>
    unfold saturateFor
    cases e : s.step? with
    | none => exact ⟨h.refl, step?_eq_none_iff.1 e⟩
    | some s' =>
      obtain ⟨run, position⟩ := h.step e
      obtain ⟨run', idle⟩ := ih run.regular (fun later => room (run.trans later)) (by omega)
      exact ⟨run.trans run', idle⟩

/-- The number of transitions that the names of a solver allow. -/
def room (s : Solver) : Nat := transitionBound (s.graph.program.extent + s.foreign)

theorem room_lt_capacity (s : Solver) : s.room < s.capacity :=
  Nat.lt_succ_of_le (transitionBound_mono (Nat.le_succ _))

/-- A regular solver saturates: nothing waits any more, and what it knows still lies below every
closed set of facts that it was below. -/
theorem saturate_spec (h : s.Regular) : Run s s.saturate ∧ s.saturate.worklist.pending = [] := by
  have room {s'} (run : Run s s') : s'.fields.size + s'.calls.size ≤ s.room := by
    obtain ⟨N, -, -, below, few⟩ := run.regular.named
    have same : s'.graph = s.graph := congrArg Propagation.graph run.propagation
    rw [same, run.foreign] at few
    exact below.size_le few
  have := s.room_lt_capacity
  exact h.saturateFor_idle room s.capacity (by omega)

/-! ## More steps make no difference -/

theorem saturateFor_of_idle (idle : s.worklist.pending = []) (fuel : Nat) :
    s.saturateFor fuel = s := by
  cases fuel with
  | zero => rfl
  | succ fuel => rw [saturateFor, step?_eq_none_iff.2 idle]

theorem saturateFor_add (s : Solver) (m n : Nat) :
    s.saturateFor (m + n) = (s.saturateFor m).saturateFor n := by
  induction m generalizing s with
  | zero => rw [Nat.zero_add, saturateFor]
  | succ m ih =>
    rw [Nat.succ_add, saturateFor, saturateFor]
    cases e : s.step? with
    | none => exact (saturateFor_of_idle (step?_eq_none_iff.1 e) n).symm
    | some s' => exact ih s'

/-- Steps that empty the worklist are all the steps there are. -/
theorem saturateFor_eq_of_idle {m n : Nat} (idle : (s.saturateFor m).worklist.pending = [])
    (enough : m ≤ n) : s.saturateFor n = s.saturateFor m := by
  obtain ⟨k, rfl⟩ := Nat.exists_eq_add_of_le enough
  rw [saturateFor_add, saturateFor_of_idle idle]

end Solver

end PointsTo
