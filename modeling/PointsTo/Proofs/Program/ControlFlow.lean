import Mathlib.Data.List.Induction
import PointsTo.Proofs.Source.Reader

/-!
# The control flow of a body

Lines make a body unless a label is given twice or a jump goes astray. If they do, the body `Charts`
the lines: it has their instructions between an entry and, where control would run off the end, a
`return`, and its edges are those of the jumps (`ofLines_charts`). Labels are resolved through a table
(`placed`) in which every label stands once, so looking a label up is the same as finding the line that
bears it.
-/

namespace PointsTo

namespace Jump

/-- The label that the jump names. -/
def label? : Jump → Option String
  | next => none
  | goto label | branch label => some label

def isGoto : Jump → Bool
  | goto _ => true
  | _ => false

end Jump

namespace Body

variable {method : MethodName} {parameters : List Var} {lines : List Line} {line : Line}
  {label : String} {i j t : Nat} {labels known : List (String × Nat)} {b : Body}

/-! ## Lines -/

/-- The lines behind the line that every body begins with. -/
def withEntry (lines : List Line) : List Line := ⟨some entryLabel, .nop, .next⟩ :: lines

/-- The labels of the body, in order, that of the entry first. -/
def labelsOf (lines : List Line) : List String := (withEntry lines).filterMap (·.label)

/-- The line at the position carries the label. -/
def Bears (lines : List Line) (label : String) (t : Nat) : Prop :=
  ∃ line, (withEntry lines)[t]? = some line ∧ line.label = some label

/-- Some line that is no `return` jumps to a label that no line carries. -/
def GoesAstray (lines : List Line) : Prop :=
  ∃ line ∈ lines, line.instruction.isReturn = false ∧
    ∃ label, line.jump.label? = some label ∧ label ∉ labelsOf lines

/-- The last line neither returns nor jumps away. -/
def RunsOff (lines : List Line) : Prop :=
  ∀ line ∈ lines.getLast?, line.instruction.isReturn = false ∧ line.jump.isGoto = false

/-- What a line says about its successors, if it is the one at the position. -/
def Leads (lines : List Line) (i : Nat) (line : Line) (successors : List Nat) : Prop :=
  match line.jump with
  | .next => successors = [i + 1]
  | .goto label => ∃ t, Bears lines label t ∧ successors = [t]
  | .branch label => ∃ t, Bears lines label t ∧ ∀ j, j ∈ successors ↔ j = i + 1 ∨ j = t

/-- The body has the code and the edges that the lines describe. -/
structure Charts (method : MethodName) (parameters : List Var) (lines : List Line) (b : Body) :
    Prop where
  method : b.method = method
  parameters : b.parameters = parameters
  entry : b.instruction? 0 = some .nop
  /-- A `return` is added if and only if control would run off the end. -/
  code : RunsOff lines ∧
      b.instructions.toList = .nop :: lines.map (·.instruction) ++ [.ret none] ∨
    ¬ RunsOff lines ∧ b.instructions.toList = .nop :: lines.map (·.instruction)
  labels : ∀ label t, b.labelIndex? label = some t ↔ Bears lines label t
  successor_lt : ∀ i, ∀ j ∈ b.successorsOf i, j < b.size
  ends : ∀ i instruction, b.instruction? i = some instruction →
    (b.successorsOf i = [] ↔ instruction.isReturn = true)
  nodup : ∀ i, (b.successorsOf i).Nodup
  leads : ∀ i line, (withEntry lines)[i]? = some line → line.instruction.isReturn = false →
    Leads lines i line (b.successorsOf i)
  predecessors : ∀ i j, j ∈ b.successorsOf i ↔ (b.predecessorsOf j).count i = 1

/-! ## The table of labels -/

/-- The labels of the lines with their positions, counted from `i`. -/
def placed (i : Nat) : List Line → List (String × Nat)
  | [] => []
  | line :: rest => (line.label.map (·, i)).toList ++ placed (i + 1) rest

theorem map_fst_placed : (placed i lines).map (·.1) = lines.filterMap (·.label) := by
  induction lines generalizing i with
  | nil => rfl
  | cons line rest ih => cases h : line.label <;> simp [placed, h, ih]

theorem mem_placed : (label, t) ∈ placed i lines ↔
    ∃ k line, lines[k]? = some line ∧ line.label = some label ∧ t = i + k := by
  induction lines generalizing i with
  | nil => simp [placed]
  | cons line rest ih =>
    rw [placed, List.mem_append, ih]
    constructor
    · rintro (h | ⟨k, line', hk, hl, rfl⟩)
      · obtain ⟨_, hl, e⟩ := Option.map_eq_some_iff.1 (Option.mem_toList.1 h)
        obtain ⟨rfl, rfl⟩ := Prod.mk.inj e
        exact ⟨0, line, rfl, hl, rfl⟩
      · exact ⟨k + 1, line', hk, hl, by omega⟩
    · rintro ⟨k, line', hk, hl, rfl⟩
      cases k with
      | zero =>
        obtain rfl := Option.some.inj hk
        exact .inl (by simp [hl])
      | succ k => exact .inr ⟨k, line', hk, hl, by omega⟩

theorem isSome_lookup_iff : (known.lookup label).isSome ↔ label ∈ known.map (·.1) := by
  rw [List.lookup_isSome_iff, List.mem_map]
  exact exists_congr fun e => and_congr_right fun _ => beq_iff_eq.trans eq_comm

/-- In a table that has every label once, looking a label up finds its entry. -/
theorem lookup_eq_some_iff (nodup : (labels.map (·.1)).Nodup) :
    labels.lookup label = some t ↔ (label, t) ∈ labels := by
  constructor
  · intro h
    obtain ⟨front, back, rfl, -⟩ := List.lookup_eq_some_iff.1 h
    simp
  · intro h
    obtain ⟨front, back, rfl⟩ := List.append_of_mem h
    refine List.lookup_eq_some_iff.2 ⟨front, back, rfl, fun e he => bne_iff_ne.2 ?_⟩
    rintro rfl
    rw [List.map_append, List.map_cons] at nodup
    exact (List.nodup_append.1 nodup).2.2 _ (List.mem_map_of_mem he) _ List.mem_cons_self rfl

variable (method i lines) in
/-- The labels are collected into one table, unless one of them is known already. -/
theorem collectLabels_spec (hk : (known.map (·.1)).Nodup) :
    match collectLabels method known i lines with
    | .error _ => ¬ ((known ++ placed i lines).map (·.1)).Nodup
    | .ok labels => labels = known ++ placed i lines ∧ (labels.map (·.1)).Nodup := by
  induction lines generalizing known i with
  | nil => simpa [collectLabels, placed] using hk
  | cons line rest ih =>
    rw [collectLabels, placed]
    cases line.label with
    | none => simpa using ih (i + 1) hk
    | some label =>
      dsimp only
      by_cases old : label ∈ known.map (·.1)
      · rw [if_pos (isSome_lookup_iff.2 old)]
        intro nodup
        rw [List.map_append] at nodup
        exact (List.nodup_append.1 nodup).2.2 _ old _ (by simp) rfl
      · rw [if_neg (mt isSome_lookup_iff.1 old)]
        have nodup : ((known ++ [(label, i)]).map (·.1)).Nodup := by
          rw [List.map_append]
          exact List.nodup_append.2 ⟨hk, by simp, fun a ha c hc => by
            rw [List.mem_singleton.1 hc]
            rintro rfl
            exact old ha⟩
        simpa using ih (i + 1) nodup

theorem nodup_entry : ([(entryLabel, 0)].map (·.1)).Nodup := List.nodup_singleton _

/-- The table of a body: the entry, and then the lines. -/
theorem placed_withEntry : placed 0 (withEntry lines) = [(entryLabel, 0)] ++ placed 1 lines := rfl

theorem mem_placed_withEntry : (label, t) ∈ placed 0 (withEntry lines) ↔ Bears lines label t := by
  rw [mem_placed]
  constructor
  · rintro ⟨k, line, hk, hl, rfl⟩
    rw [Nat.zero_add]
    exact ⟨line, hk, hl⟩
  · rintro ⟨line, hk, hl⟩
    exact ⟨t, line, hk, hl, (Nat.zero_add t).symm⟩

/-! ## The edges of a line -/

theorem isReturn_eq_false {instruction : Instruction}
    (h : ∀ value, instruction = .ret value → False) : instruction.isReturn = false := by
  cases instruction with
  | ret value => exact (h value rfl).elim
  | _ => rfl

theorem target_eq_ok_iff : target method labels label = .ok t ↔ labels.lookup label = some t := by
  unfold target
  split <;> simp [*]

/-- The successors of a line, with labels looked up in a table. -/
theorem eq_of_successorsOfLine {js : List Nat}
    (h : successorsOfLine method labels line i = .ok js) :
    line.instruction.isReturn = true ∧ js = [] ∨
      line.instruction.isReturn = false ∧ match line.jump with
        | .next => js = [i + 1]
        | .goto label => ∃ t, labels.lookup label = some t ∧ js = [t]
        | .branch label => ∃ t, labels.lookup label = some t ∧
            js = if t = i + 1 then [i + 1] else [i + 1, t] := by
  unfold successorsOfLine at h
  split at h
  · next value hr => exact .inl ⟨by rw [hr]; rfl, (Except.ok.inj h).symm⟩
  · next hj hr =>
    rw [hj]
    exact .inr ⟨isReturn_eq_false hr, (Except.ok.inj h).symm⟩
  · next label hj hr =>
    rw [hj]
    obtain ⟨t, ht, h⟩ := bind_eq_ok.1 h
    exact .inr ⟨isReturn_eq_false hr, t, target_eq_ok_iff.1 ht, (Except.ok.inj h).symm⟩
  · next label hj hr =>
    rw [hj]
    obtain ⟨t, ht, h⟩ := bind_eq_ok.1 h
    exact .inr ⟨isReturn_eq_false hr, t, target_eq_ok_iff.1 ht, (Except.ok.inj h).symm⟩

/-- A line has successors, unless it goes on at a label that is not in the table. -/
theorem unknown_of_successorsOfLine {e : BodyError}
    (h : successorsOfLine method labels line i = .error e) :
    line.instruction.isReturn = false ∧
      ∃ label, line.jump.label? = some label ∧ labels.lookup label = none := by
  have unknown {label : String} (ht : target method labels label = .error e) :
      labels.lookup label = none := by
    cases known : labels.lookup label with
    | none => rfl
    | some t => rw [target_eq_ok_iff.2 known] at ht; cases ht
  unfold successorsOfLine at h
  split at h
  · cases h
  · cases h
  · next label hj hr =>
    cases ht : target method labels label with
    | error e' =>
      rw [ht] at h
      obtain rfl := Except.error.inj h
      exact ⟨isReturn_eq_false hr, label, by rw [hj]; rfl, unknown ht⟩
    | ok t => rw [ht] at h; cases h
  · next label hj hr =>
    cases ht : target method labels label with
    | error e' =>
      rw [ht] at h
      obtain rfl := Except.error.inj h
      exact ⟨isReturn_eq_false hr, label, by rw [hj]; rfl, unknown ht⟩
    | ok t => rw [ht] at h; cases h

/-! ## Bodies -/

/-- The lines of a body are those given behind the entry, and a `return` where control would run off
the end. -/
theorem close_eq (lines : List Line) : RunsOff lines ∧
      close lines = withEntry lines ++ [⟨none, .ret none, .next⟩] ∨
    ¬ RunsOff lines ∧ close lines = withEntry lines := by
  have falls (line : Line) : fallsThrough line = true ↔
      line.instruction.isReturn = false ∧ line.jump.isGoto = false := by
    obtain ⟨_, instruction, jump⟩ := line
    cases instruction <;> cases jump <;> simp [fallsThrough, Instruction.isReturn, Jump.isGoto]
  have runsOff : (withEntry lines).getLast?.any fallsThrough = true ↔ RunsOff lines := by
    cases lines using List.reverseRecOn with
    | nil => simp [withEntry, RunsOff, fallsThrough]
    | append_singleton front last =>
      rw [withEntry, ← List.cons_append, List.getLast?_concat]
      simp [RunsOff, falls]
  by_cases h : RunsOff lines
  · exact .inl ⟨h, if_pos (runsOff.2 h)⟩
  · exact .inr ⟨h, if_neg (mt runsOff.1 h)⟩

theorem getElem?_close (h : (withEntry lines)[i]? = some line) : (close lines)[i]? = some line := by
  obtain ⟨-, e⟩ | ⟨-, e⟩ := close_eq lines <;> rw [e]
  · exact List.getElem?_append_left (List.getElem?_eq_some_iff.1 h).1 ▸ h
  · exact h

/-- The labels of a body are in one table, its code is that of the closed lines, and its edges are
those of each line. -/
theorem exists_table (h : ofLines method parameters lines = .ok b) :
    collectLabels method [(entryLabel, 0)] 1 lines = .ok b.labels ∧
      ∀ {i line}, (close lines)[i]? = some line →
        successorsOfLine method b.labels line i = .ok (b.successorsOf i) := by
  unfold ofLines at h
  split at h
  · cases h
  · next labels hl =>
    split at h
    · cases h
    · next successors hs =>
      obtain rfl := Except.ok.inj h
      refine ⟨hl, fun {i line} hline => ?_⟩
      have hi : i < successors.length := by
        rw [length_of_mapM_eq_ok hs, List.length_zipIdx]
        exact (List.getElem?_eq_some_iff.1 hline).1
      have hjs : successors.toArray[i]? = some successors[i] := by simp [hi]
      obtain ⟨line', hline', e⟩ := successorsOfLine_of_mapM hs hjs
      obtain rfl := Option.some.inj (hline.symm.trans hline')
      simpa [successorsOf, hi] using e

/-- Lines make no body for one of two reasons. -/
theorem cause_of_error {e : BodyError} (h : ofLines method parameters lines = .error e) :
    collectLabels method [(entryLabel, 0)] 1 lines = .error e ∨
      ∃ labels, collectLabels method [(entryLabel, 0)] 1 lines = .ok labels ∧
        ∃ line ∈ close lines, ∃ i, successorsOfLine method labels line i = .error e := by
  unfold ofLines at h
  split at h
  · next hl =>
    obtain rfl := Except.error.inj h
    exact .inl hl
  · next labels hl =>
    split at h
    · next hs =>
      obtain rfl := Except.error.inj h
      obtain ⟨⟨line, i⟩, hm, hline⟩ := exists_error_of_mapM hs
      exact .inr ⟨labels, hl, line, List.fst_mem_of_mem_zipIdx hm, i, hline⟩
    · cases h

/-- The table of a body has the labels that its lines bear. -/
theorem table_spec (h : collectLabels method [(entryLabel, 0)] 1 lines = .ok labels) :
    (labelsOf lines).Nodup ∧
      ∀ {label t}, labels.lookup label = some t ↔ Bears lines label t := by
  have spec := collectLabels_spec method lines 1 nodup_entry
  rw [h, ← placed_withEntry] at spec
  obtain ⟨rfl, nodup⟩ := spec
  refine ⟨?_, (lookup_eq_some_iff nodup).trans mem_placed_withEntry⟩
  rwa [map_fst_placed] at nodup

theorem not_nodup_of_error {e : BodyError}
    (h : collectLabels method [(entryLabel, 0)] 1 lines = .error e) : ¬ (labelsOf lines).Nodup := by
  have spec := collectLabels_spec method lines 1 nodup_entry
  rw [h, ← placed_withEntry, map_fst_placed] at spec
  exact spec

theorem mem_labelsOf : label ∈ labelsOf lines ↔ ∃ t, Bears lines label t := by
  rw [labelsOf, List.mem_filterMap]
  constructor
  · rintro ⟨line, hm, hl⟩
    obtain ⟨t, ht⟩ := List.mem_iff_getElem?.1 hm
    exact ⟨t, line, ht, hl⟩
  · rintro ⟨t, line, ht, hl⟩
    exact ⟨line, List.mem_of_getElem? ht, hl⟩

/-- A line that needs a label which is not in the table goes astray. -/
theorem goesAstray_of_error {e : BodyError}
    (table : ∀ {label t}, labels.lookup label = some t ↔ Bears lines label t)
    (hm : line ∈ close lines) (h : successorsOfLine method labels line i = .error e) :
    GoesAstray lines := by
  obtain ⟨goes, label, hj, unknown⟩ := unknown_of_successorsOfLine h
  have given : line ∈ lines := by
    obtain hm | ⟨-, next⟩ | ⟨-, next⟩ := mem_close hm
    · exact hm
    all_goals rw [next] at hj; cases hj
  refine ⟨line, given, goes, label, hj, fun known => ?_⟩
  obtain ⟨t, ht⟩ := mem_labelsOf.1 known
  rw [table.2 ht] at unknown
  cases unknown

section Made

variable (h : ofLines method parameters lines = .ok b)
include h

/-- Every line leads to its successors. -/
theorem leads_of_ofLines (hl : (withEntry lines)[i]? = some line)
    (goes : line.instruction.isReturn = false) : Leads lines i line (b.successorsOf i) := by
  obtain ⟨collected, edges⟩ := exists_table h
  obtain ⟨-, table⟩ := table_spec collected
  obtain ⟨returns, -⟩ | ⟨-, leads⟩ := eq_of_successorsOfLine (edges (getElem?_close hl))
  · rw [goes] at returns
    cases returns
  · unfold Leads
    split at leads
    · exact leads
    · obtain ⟨t, ht, e⟩ := leads
      exact ⟨t, table.1 ht, e⟩
    · obtain ⟨t, ht, e⟩ := leads
      refine ⟨t, table.1 ht, fun j => ?_⟩
      rw [e]
      split <;> simp [*]

/-- No line of a body goes astray. -/
theorem not_goesAstray : ¬ GoesAstray lines := by
  rintro ⟨line, hm, goes, label, hj, unknown⟩
  obtain ⟨i, hi⟩ := List.mem_iff_getElem?.1 hm
  have hi : (withEntry lines)[i + 1]? = some line := hi
  have leads := leads_of_ofLines h hi goes
  unfold Leads at leads
  cases jump : line.jump with
  | next => rw [jump] at hj; cases hj
  | goto _ | branch _ =>
    rw [jump] at hj leads
    obtain rfl := Option.some.inj hj
    obtain ⟨t, ht, -⟩ := leads
    exact unknown (mem_labelsOf.2 ⟨t, ht⟩)

/-- Control ends at a `return` and nowhere else. -/
theorem successorsOf_eq_nil_iff {instruction : Instruction}
    (hi : b.instruction? i = some instruction) :
    b.successorsOf i = [] ↔ instruction.isReturn = true := by
  constructor
  · intro none
    by_contra goes
    exact b.goes_on hi goes none
  · intro returns
    have code := (of_ofLines h).2.2
    have hl : ((close lines).map (·.instruction))[i]? = some instruction := by
      rw [← code, Array.getElem?_toList]
      exact hi
    rw [List.getElem?_map] at hl
    obtain ⟨line, hline, rfl⟩ := Option.map_eq_some_iff.1 hl
    obtain ⟨-, e⟩ | ⟨goes, -⟩ := eq_of_successorsOfLine ((exists_table h).2 hline)
    · exact e
    · rw [returns] at goes
      cases goes

theorem charts_of_ofLines : Charts method parameters lines b where
  method := (of_ofLines h).1
  parameters := (of_ofLines h).2.1
  entry := b.entry_nop
  code := by
    rw [(of_ofLines h).2.2]
    obtain ⟨off, e⟩ | ⟨on, e⟩ := close_eq lines
    · exact .inl ⟨off, by rw [e]; simp [withEntry]⟩
    · exact .inr ⟨on, by rw [e]; simp [withEntry]⟩
  labels _ _ := (table_spec (exists_table h).1).2
  successor_lt := b.successor_lt
  ends _ _ := successorsOf_eq_nil_iff h
  nodup := b.nodup_successors
  leads _ _ := leads_of_ofLines h
  predecessors i j := by
    rw [(b.nodup_predecessorsOf j).count, ← mem_predecessorsOf]
    split <;> simp [*]

end Made

/-- Lines make a body if and only if no label is given twice and no jump goes astray, and the body
charts the lines. -/
theorem ofLines_charts (method : MethodName) (parameters : List Var) (lines : List Line) :
    match ofLines method parameters lines with
    | .error _ => ¬ (labelsOf lines).Nodup ∨ GoesAstray lines
    | .ok b => (labelsOf lines).Nodup ∧ ¬ GoesAstray lines ∧ Charts method parameters lines b := by
  split
  · next h =>
    obtain twice | ⟨labels, collected, line, hm, i, hl⟩ := cause_of_error h
    · exact .inl (not_nodup_of_error twice)
    · exact .inr (goesAstray_of_error (table_spec collected).2 hm hl)
  · next h =>
    exact ⟨(table_spec (exists_table h).1).1, not_goesAstray h, charts_of_ofLines h⟩

end Body

end PointsTo
