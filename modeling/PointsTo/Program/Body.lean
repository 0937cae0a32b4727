import PointsTo.Program.Instruction

/-!
# Method bodies and their control flow

A body is read from a list of lines, each an instruction with an optional label and a jump.
`Body.ofLines` puts an entry `nop` with the label `entry` in front, closes the body with a `return`
where control could otherwise run off its end, and turns jumps into edges. It fails only for a
label given twice or a jump to a label that does not exist (`BodyError`). That edges lead to
instructions is part of the type.
-/

namespace PointsTo

/-- How control leaves a line. -/
inductive Jump where
  | next
  | goto (label : String)
  /-- To the next line or to the label -/
  | branch (label : String)
deriving DecidableEq

structure Line where
  label : Option String
  instruction : Instruction
  jump : Jump
deriving DecidableEq

/-- Why lines make no body. -/
inductive BodyError where
  | duplicateLabel (label : String) (method : MethodName)
  | unknownLabel (label : String) (method : MethodName)
deriving DecidableEq

def BodyError.message : BodyError → String
  | duplicateLabel label method => s!"Duplicate label '{label}' in method {method.text}"
  | unknownLabel label method => s!"Unknown label '{label}' in method {method.text}"

/-- The positions from which there is an edge to `j`, in ascending order. -/
def Body.sourcesOf (successors : Array (List Nat)) (j : Nat) : List Nat :=
  (List.range successors.size).filter fun i => (successors.getD i []).contains j

/-- The code of a method with the edges between its instructions, which are named by position. -/
structure Body where
  method : MethodName
  parameters : List Var
  instructions : Array Instruction
  successors : Array (List Nat)
  predecessors : Array (List Nat)
  /-- Labels with the positions they stand for, in the order of their appearance -/
  labels : List (String × Nat)
  entry_nop : instructions[0]? = some .nop
  size_successors : successors.size = instructions.size
  successor_lt : ∀ i, ∀ j ∈ successors.getD i [], j < instructions.size
  nodup_successors : ∀ i, (successors.getD i []).Nodup
  /-- Control goes on after every instruction but a `return`. -/
  goes_on : ∀ {i instruction}, instructions[i]? = some instruction →
    ¬ instruction.isReturn → successors.getD i [] ≠ []
  predecessors_eq : predecessors = (Array.range successors.size).map (Body.sourcesOf successors)

namespace Body

def entryLabel : String := "entry"

/-- Adds the labels of the lines to those known so far, counting positions from `i`. -/
def collectLabels (method : MethodName) (known : List (String × Nat)) (i : Nat) :
    List Line → Except BodyError (List (String × Nat))
  | [] => .ok known
  | line :: rest =>
    match line.label with
    | none => collectLabels method known (i + 1) rest
    | some label =>
      if (known.lookup label).isSome then .error (.duplicateLabel label method)
      else collectLabels method (known ++ [(label, i)]) (i + 1) rest

/-- Whether control would run off the end after this last line. -/
def fallsThrough (line : Line) : Bool :=
  match line.instruction, line.jump with
  | .ret _, _ => false
  | _, .goto _ => false
  | _, _ => true

/-- The lines with the entry in front and, if control would run off the end, a `return` behind. -/
def close (lines : List Line) : List Line :=
  let lines := ⟨some entryLabel, .nop, .next⟩ :: lines
  if lines.getLast?.any fallsThrough then lines ++ [⟨none, .ret none, .next⟩] else lines

def target (method : MethodName) (labels : List (String × Nat)) (label : String) :
    Except BodyError Nat :=
  match labels.lookup label with
  | some i => .ok i
  | none => .error (.unknownLabel label method)

/-- Where control goes from a line at position `i`. -/
def successorsOfLine (method : MethodName) (labels : List (String × Nat)) (line : Line) (i : Nat) :
    Except BodyError (List Nat) :=
  match line.instruction, line.jump with
  | .ret _, _ => .ok []
  | _, .next => .ok [i + 1]
  | _, .goto label => do return [← target method labels label]
  | _, .branch label => do
    let t ← target method labels label
    return if t = i + 1 then [i + 1] else [i + 1, t]

theorem collectLabels_lt {method : MethodName} {known labels : List (String × Nat)} {i : Nat}
    {lines : List Line} (h : collectLabels method known i lines = .ok labels)
    (hk : ∀ e ∈ known, e.2 < i) : ∀ e ∈ labels, e.2 < i + lines.length := by
  induction lines generalizing known i with
  | nil =>
    obtain rfl := Except.ok.inj h
    exact hk
  | cons line lines ih =>
    rw [List.length_cons, ← Nat.add_assoc, Nat.add_right_comm]
    unfold collectLabels at h
    split at h
    · exact ih h fun e he => Nat.lt_succ_of_lt (hk e he)
    · split at h
      · cases h
      · refine ih h fun e he => ?_
        obtain he | he := List.mem_append.1 he
        · exact Nat.lt_succ_of_lt (hk e he)
        · rw [List.mem_singleton.1 he]
          exact Nat.lt_succ_self i

theorem length_lt_length_close (lines : List Line) : lines.length < (close lines).length := by
  unfold close
  dsimp only
  split <;> simp only [List.length_append, List.length_cons] <;> omega

/-- Control does not run off the end of a closed list of lines. -/
theorem close_falls {lines : List Line} {i : Nat} {line : Line}
    (h : (close lines)[i]? = some line) : i + 1 < (close lines).length ∨ ¬ fallsThrough line := by
  obtain ⟨hi, -⟩ := List.getElem?_eq_some_iff.1 h
  refine (Nat.lt_or_ge (i + 1) (close lines).length).imp_right fun hl => ?_
  obtain rfl : i = (close lines).length - 1 := by omega
  rw [← List.getLast?_eq_getElem?] at h
  unfold close at h
  dsimp only at h
  split at h
  · rw [List.getLast?_append] at h
    obtain rfl := Option.some.inj h
    simp [fallsThrough]
  · next hf =>
    rw [h] at hf
    simpa using hf

theorem target_lt {method : MethodName} {labels : List (String × Nat)} {n j : Nat} {label : String}
    (hl : ∀ e ∈ labels, e.2 < n) (h : target method labels label = .ok j) : j < n := by
  unfold target at h
  split at h
  · next e =>
    obtain rfl := Except.ok.inj h
    obtain ⟨_, _, rfl, -⟩ := List.lookup_eq_some_iff.1 e
    exact hl (label, _) (by simp)
  · cases h

theorem successorsOfLine_lt {method : MethodName} {labels : List (String × Nat)} {line : Line}
    {n i : Nat} {js : List Nat} (hl : ∀ e ∈ labels, e.2 < n)
    (hf : i + 1 < n ∨ ¬ fallsThrough line)
    (h : successorsOfLine method labels line i = .ok js) : ∀ j ∈ js, j < n := by
  have falls (hi : fallsThrough line) : i + 1 < n := hf.resolve_right (not_not_intro hi)
  unfold successorsOfLine at h
  split at h
  · obtain rfl := Except.ok.inj h
    simp
  · next hr hj =>
    obtain rfl := Except.ok.inj h
    simpa using falls (by unfold fallsThrough; split <;> simp_all)
  · cases ht : target method labels _ with
    | error e => rw [ht] at h; cases h
    | ok t =>
      rw [ht] at h
      obtain rfl := Except.ok.inj h
      simpa using target_lt hl ht
  · next hr hj =>
    have hi := falls (by unfold fallsThrough; split <;> simp_all)
    cases ht : target method labels _ with
    | error e => rw [ht] at h; cases h
    | ok t =>
      rw [ht] at h
      have := target_lt hl ht
      obtain rfl := Except.ok.inj h
      split <;> simp_all

theorem successorsOfLine_nodup {method : MethodName} {labels : List (String × Nat)} {line : Line}
    {i : Nat} {js : List Nat} (h : successorsOfLine method labels line i = .ok js) : js.Nodup := by
  unfold successorsOfLine at h
  split at h
  · obtain rfl := Except.ok.inj h
    exact .nil
  · obtain rfl := Except.ok.inj h
    simp
  · cases ht : target method labels _ with
    | error e => rw [ht] at h; cases h
    | ok t =>
      rw [ht] at h
      obtain rfl := Except.ok.inj h
      simp
  · cases ht : target method labels _ with
    | error e => rw [ht] at h; cases h
    | ok t =>
      rw [ht] at h
      obtain rfl := Except.ok.inj h
      split <;> simp_all [eq_comm]

theorem successorsOfLine_ne_nil {method : MethodName} {labels : List (String × Nat)} {line : Line}
    {i : Nat} {js : List Nat} (hr : ¬ line.instruction.isReturn)
    (h : successorsOfLine method labels line i = .ok js) : js ≠ [] := by
  unfold successorsOfLine at h
  split at h
  · next e => simp [e, Instruction.isReturn] at hr
  · obtain rfl := Except.ok.inj h
    simp
  · cases ht : target method labels _ with
    | error e => rw [ht] at h; cases h
    | ok t =>
      rw [ht] at h
      obtain rfl := Except.ok.inj h
      simp
  · cases ht : target method labels _ with
    | error e => rw [ht] at h; cases h
    | ok t =>
      rw [ht] at h
      obtain rfl := Except.ok.inj h
      split <;> simp

/-- What a function answers for the elements of a list one after another, it answers for each. -/
theorem getElem?_of_mapM_eq_ok {α β ε : Type} {f : α → Except ε β} {as : List α} {bs : List β}
    (h : as.mapM f = .ok bs) {i : Nat} {b : β} (hb : bs[i]? = some b) :
    ∃ a, as[i]? = some a ∧ f a = .ok b := by
  induction as generalizing bs i with
  | nil =>
    rw [List.mapM_nil] at h
    obtain rfl := Except.ok.inj h
    simp at hb
  | cons a as ih =>
    rw [List.mapM_cons] at h
    cases ha : f a with
    | error e => rw [ha] at h; cases h
    | ok b' =>
      cases has : as.mapM f with
      | error e => rw [ha, has] at h; cases h
      | ok bs' =>
        rw [ha, has] at h
        obtain rfl := Except.ok.inj h
        cases i with
        | zero =>
          obtain rfl := Option.some.inj hb
          exact ⟨a, rfl, ha⟩
        | succ i => exact ih has hb

theorem length_of_mapM_eq_ok {α β ε : Type} {f : α → Except ε β} {as : List α} {bs : List β}
    (h : as.mapM f = .ok bs) : bs.length = as.length := by
  induction as generalizing bs with
  | nil =>
    rw [List.mapM_nil] at h
    obtain rfl := Except.ok.inj h
    rfl
  | cons a as ih =>
    rw [List.mapM_cons] at h
    cases ha : f a with
    | error e => rw [ha] at h; cases h
    | ok b =>
      cases has : as.mapM f with
      | error e => rw [ha, has] at h; cases h
      | ok bs' =>
        rw [ha, has] at h
        obtain rfl := Except.ok.inj h
        rw [List.length_cons, List.length_cons, ih has]

/-- A function that fails for a list fails for one of its elements. -/
theorem exists_error_of_mapM {α β ε : Type} {f : α → Except ε β} {as : List α} {e : ε}
    (h : as.mapM f = .error e) : ∃ a ∈ as, f a = .error e := by
  induction as with
  | nil => cases h
  | cons a as ih =>
    rw [List.mapM_cons] at h
    cases ha : f a with
    | error e' =>
      rw [ha] at h
      obtain rfl := Except.error.inj h
      exact ⟨a, List.mem_cons_self, ha⟩
    | ok b =>
      cases has : as.mapM f with
      | error e' =>
        rw [ha, has] at h
        obtain rfl := Except.error.inj h
        obtain ⟨a', ha', e⟩ := ih has
        exact ⟨a', List.mem_cons_of_mem a ha', e⟩
      | ok bs => rw [ha, has] at h; cases h

theorem successorsOfLine_of_mapM {method : MethodName} {labels : List (String × Nat)}
    {lines : List Line} {successors : List (List Nat)}
    (h : lines.zipIdx.mapM (fun (line, i) => successorsOfLine method labels line i) = .ok successors)
    {i : Nat} {js : List Nat} (hjs : successors.toArray[i]? = some js) :
    ∃ line, lines[i]? = some line ∧ successorsOfLine method labels line i = .ok js := by
  obtain ⟨⟨line, i'⟩, hline, e⟩ := getElem?_of_mapM_eq_ok h (by simpa using hjs)
  simp only [List.getElem?_zipIdx, Option.map_eq_some_iff, Prod.mk.injEq, Nat.zero_add] at hline
  obtain ⟨_, hline, rfl, rfl⟩ := hline
  exact ⟨_, hline, e⟩

theorem exists_of_mem_getD {α : Type} {lists : Array (List α)} {i : Nat} {a : α}
    (h : a ∈ lists.getD i []) : ∃ l, lists[i]? = some l ∧ a ∈ l := by
  rw [Array.getD_eq_getD_getElem?] at h
  cases e : lists[i]? with
  | none => simp [e] at h
  | some l => exact ⟨l, rfl, by simpa [e] using h⟩

def ofLines (method : MethodName) (parameters : List Var) (lines : List Line) :
    Except BodyError Body :=
  match hl : collectLabels method [(entryLabel, 0)] 1 lines with
  | .error e => .error e
  | .ok labels =>
    match hs : (close lines).zipIdx.mapM fun (line, i) => successorsOfLine method labels line i with
    | .error e => .error e
    | .ok successors => .ok {
        method, parameters, labels
        instructions := ((close lines).map (·.instruction)).toArray
        successors := successors.toArray
        predecessors := (Array.range successors.toArray.size).map (sourcesOf successors.toArray)
        entry_nop := by
          unfold close
          dsimp only
          split <;> rfl
        size_successors := by simp [length_of_mapM_eq_ok hs]
        successor_lt := by
          intro i j hj
          obtain ⟨js, e, hj⟩ := exists_of_mem_getD hj
          obtain ⟨line, hline, hjs⟩ := successorsOfLine_of_mapM hs e
          have labels_lt := collectLabels_lt hl (by simp)
          have := length_lt_length_close lines
          rw [List.size_toArray, List.length_map]
          refine successorsOfLine_lt (fun e he => ?_) (close_falls hline) hjs j hj
          exact Nat.lt_of_lt_of_le (labels_lt e he) (by omega)
        nodup_successors := by
          intro i
          rw [Array.getD_eq_getD_getElem?]
          cases e : successors.toArray[i]? with
          | none => exact .nil
          | some js =>
            obtain ⟨line, -, hjs⟩ := successorsOfLine_of_mapM hs e
            exact successorsOfLine_nodup hjs
        goes_on := by
          intro i instruction hi hr
          simp only [List.getElem?_toArray, List.getElem?_map, Option.map_eq_some_iff] at hi
          obtain ⟨line, hline, rfl⟩ := hi
          have hlt : i < successors.length := by
            rw [length_of_mapM_eq_ok hs, List.length_zipIdx]
            exact (List.getElem?_eq_some_iff.1 hline).1
          have e : successors.toArray[i]? = some successors[i] := by simp [hlt]
          obtain ⟨line', hline', hjs⟩ := successorsOfLine_of_mapM hs e
          obtain rfl := Option.some.inj (hline.symm.trans hline')
          rw [Array.getD_eq_getD_getElem?, e]
          exact successorsOfLine_ne_nil hr hjs
        predecessors_eq := rfl }

/-- The number of instructions. -/
def size (b : Body) : Nat := b.instructions.size

def isEmpty (b : Body) : Bool := b.instructions.isEmpty

/-- A bound on the number of points, of variables and of fields of the body. -/
def extent (b : Body) : Nat :=
  b.parameters.length + (b.instructions.toList.map (·.mentions)).foldr (· + ·) 0

def instruction? (b : Body) (i : Nat) : Option Instruction := b.instructions[i]?

def successorsOf (b : Body) (i : Nat) : List Nat := b.successors.getD i []

def predecessorsOf (b : Body) (i : Nat) : List Nat := b.predecessors.getD i []

def labelIndex? (b : Body) (label : String) : Option Nat := b.labels.lookup label

/-- The label of a position: of those that stand for it, the one that appears last. -/
def labelOf? (b : Body) (i : Nat) : Option String :=
  (b.labels.reverse.find? fun (_, j) => j = i).map (·.1)

/-- The predecessors of a position are the positions it is a successor of. -/
theorem mem_predecessorsOf {b : Body} {i j : Nat} :
    i ∈ b.predecessorsOf j ↔ j ∈ b.successorsOf i := by
  have bound (h : j ∈ b.successorsOf i) : i < b.successors.size ∧ j < b.successors.size := by
    refine ⟨?_, b.size_successors ▸ b.successor_lt i j h⟩
    obtain ⟨js, e, -⟩ := exists_of_mem_getD h
    exact (Array.getElem?_eq_some_iff.1 e).1
  rw [predecessorsOf, b.predecessors_eq, Array.getD_eq_getD_getElem?, Array.getElem?_map]
  by_cases hj : j < b.successors.size
  · simp only [Array.getElem?_range, hj, ↓reduceIte, Option.map_some, Option.getD_some, sourcesOf,
      List.mem_filter, List.mem_range, List.contains_iff_mem]
    exact ⟨And.right, fun h => ⟨(bound h).1, h⟩⟩
  · simp only [Array.getElem?_range, hj, ↓reduceIte, Option.map_none, Option.getD_none,
      List.not_mem_nil, false_iff]
    exact fun h => hj (bound h).2

theorem nodup_predecessorsOf (b : Body) (j : Nat) : (b.predecessorsOf j).Nodup := by
  rw [predecessorsOf, b.predecessors_eq, Array.getD_eq_getD_getElem?, Array.getElem?_map]
  cases (Array.range b.successors.size)[j]? with
  | none => exact .nil
  | some k => exact List.nodup_range.filter _

theorem predecessor_lt {b : Body} {i j : Nat} (h : i ∈ b.predecessorsOf j) :
    i < b.instructions.size := by
  obtain ⟨js, e, -⟩ := exists_of_mem_getD (mem_predecessorsOf.1 h)
  exact b.size_successors ▸ (Array.getElem?_eq_some_iff.1 e).1

/-- The positions of the `return` instructions, in ascending order. -/
def returns (b : Body) : List Nat :=
  (List.range b.size).filter fun i => b.instruction? i |>.any (·.isReturn)

end Body

end PointsTo
