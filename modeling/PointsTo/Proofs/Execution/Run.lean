import PointsTo.Proofs.Program.Calls
import PointsTo.Proofs.Program.Shape

/-!
# Runs of a program

What a program does when it is executed. A value remembers the point at which it was made. Each frame
has locals of its own; a call suspends its frame at the call site until the callee returns. The
fields of all objects are in a heap. Branches are free: control may go along any edge. A run stops at
a load or a store whose base is no object, at a load of a field that was never written, at a call that
enters nothing and at the end of the method it began with.
-/

namespace PointsTo

/-- A value, known by the point at which it was made. Objects that were made at the same point are
told apart. -/
inductive Value where
  | null (origin : Point)
  | object (origin : Point) (serial : Nat)
deriving DecidableEq

def Value.origin : Value → Point
  | null origin | object origin _ => origin

/-- What the variables of a frame hold. A variable may be unset. -/
abbrev Locals := Var → Option Value

namespace Locals

def unset : Locals := fun _ => none

def set (l : Locals) (v : Var) (x : Option Value) : Locals := fun w => if w = v then x else l w

@[simp] theorem set_same (l : Locals) (v : Var) (x : Option Value) : l.set v x v = x :=
  if_pos rfl

@[simp] theorem set_of_ne (l : Locals) {v w : Var} (x : Option Value) (h : w ≠ v) :
    l.set v x w = l w :=
  if_neg h

/-- The object that a variable holds. -/
def object? (l : Locals) (v : Var) : Option Value :=
  match l v with
  | some (.object origin serial) => some (.object origin serial)
  | _ => none

theorem object?_eq_some {l : Locals} {v : Var} {x : Value} (h : l.object? v = some x) :
    l v = some x := by
  unfold object? at h
  split at h
  · next e => exact e.trans h
  · cases h

/-- What a callee starts with: its parameters hold the arguments by position, and a parameter
without an argument is unset. -/
def bind (l : Locals) (parameters args : List Var) : Locals := fun w => do
  let i ← parameters.findIdx? (· = w)
  l (← args[i]?)

/-- The destination of a call, if there is one, gets what was returned. -/
def receive (l : Locals) (dest : Option Var) (x : Option Value) : Locals :=
  match dest with
  | some v => l.set v x
  | none => l

end Locals

/-- The objects that were made, and what their fields hold. A field that was never written holds
nothing, and one that an unset variable was written to is unset. -/
structure Heap where
  size : Nat
  field? : Value → Field → Option (Option Value)

namespace Heap

def empty : Heap := ⟨0, fun _ _ => none⟩

/-- The next object. -/
def fresh (h : Heap) (origin : Point) : Value := .object origin h.size

def grow (h : Heap) : Heap := { h with size := h.size + 1 }

def set (h : Heap) (object : Value) (field : Field) (x : Option Value) : Heap :=
  { h with field? := fun o g => if o = object ∧ g = field then some x else h.field? o g }

end Heap

namespace Instruction

/-- What an instruction that stays in its frame makes of the locals and the fields. -/
def act? (point : Point) (l : Locals) (h : Heap) : Instruction → Option (Locals × Heap)
  | new dest _ => some (l.set dest (some (h.fresh point)), h.grow)
  | null dest => some (l.set dest (some (.null point)), h)
  | assign dest value => some (l.set dest (l value), h)
  | store base field value => (l.object? base).map fun object => (l, h.set object field (l value))
  | load dest base field => do
    let object ← l.object? base
    let x ← h.field? object field
    return (l.set dest x, h)
  | nop => some (l, h)
  | call .. | ret _ => none

/-- What an instruction reads from a field. -/
def read? (l : Locals) (h : Heap) : Instruction → Option Value
  | load _ base field => do
    let object ← l.object? base
    let x ← h.field? object field
    x
  | _ => none

end Instruction

structure Frame where
  point : Point
  locals : Locals

/-- The frame in control, the frames that wait for a callee at a call site, and the heap. -/
structure State where
  top : Frame
  callers : List Frame
  heap : Heap

namespace State

def frames (s : State) : List Frame := s.top :: s.callers

/-- A method begins with unset locals. -/
def initial (entry : Point) : State := ⟨⟨entry, .unset⟩, [], .empty⟩

/-- What the next step reads from a field. -/
def read? (s : State) (p : Program) : Option Value :=
  (p.instruction? s.top.point).bind (·.read? s.top.locals s.heap)

end State

/-- One step of a run. A `return` without a value leaves the destination of the call unset. -/
inductive Step (p : Program) : State → State → Prop
  | act {f callers h i l h' next} : p.instruction? f.point = some i →
      i.act? f.point f.locals h = some (l, h') → next ∈ p.successors f.point →
        Step p ⟨f, callers, h⟩ ⟨⟨next, l⟩, callers, h'⟩
  | call {f callers h dest callee args m entry} :
      p.instruction? f.point = some (.call dest callee args) → m ∈ p.callees f.point →
      entry ∈ p.entries m →
        Step p ⟨f, callers, h⟩ ⟨⟨entry, f.locals.bind (p.parameters m) args⟩, f :: callers, h⟩
  | ret {f caller callers h value dest callee args next} :
      p.instruction? f.point = some (.ret value) →
      p.instruction? caller.point = some (.call dest callee args) →
      next ∈ p.successors caller.point → Step p ⟨f, caller :: callers, h⟩
        ⟨⟨next, caller.locals.receive dest (value.bind f.locals)⟩, callers, h⟩

namespace Program

/-- A state that some run arrives at which makes steps only from states of which `P` holds. Runs begin
at the entry of any method. -/
inductive RunsWhile (p : Program) (P : State → Prop) : State → Prop
  | initial {m entry} : entry ∈ p.entries m → RunsWhile p P (.initial entry)
  | tail {s t} : RunsWhile p P s → P s → Step p s t → RunsWhile p P t

/-- A state that some run arrives at. -/
def Runs (p : Program) (s : State) : Prop := p.RunsWhile (fun _ => True) s

/-- A state that some run arrives at that never reads the value from a field. -/
def RunsUnread (p : Program) (x : Value) (s : State) : Prop :=
  p.RunsWhile (fun s => s.read? p ≠ some x) s

variable {p : Program} {P Q : State → Prop} {s : State} {x : Value} {m : MethodName} {point : Point}

theorem RunsWhile.mono (h : p.RunsWhile P s) (hPQ : ∀ s, P s → Q s) : p.RunsWhile Q s := by
  induction h with
  | initial he => exact .initial he
  | tail _ hs step ih => exact ih.tail (hPQ _ hs) step

/-- Without loads nothing is read. -/
theorem Runs.unread (h : p.Runs s) (fieldless : p.Fieldless) (x : Value) : p.RunsUnread x s := by
  refine RunsWhile.mono h fun s _ read => ?_
  obtain ⟨i, hi, read⟩ := Option.bind_eq_some_iff.1 read
  cases i with
  | load => cases fieldless.instruction hi
  | _ => cases read

/-! ## Frames and call sites -/

theorem method_of_mem_entries (h : point ∈ p.entries m) : point.method = m := by
  unfold entries at h
  split at h
  · split at h
    · simp at h
    · rw [List.mem_singleton.1 h]
      rfl
  · simp at h

theorem not_mem_entries (h : point ∉ p.entries point.method) (m : MethodName) :
    point ∉ p.entries m :=
  fun he => h ((method_of_mem_entries he).symm ▸ he)

variable (p) in
/-- Each frame is in a method that the frame below it may call. -/
def Linked : List Frame → Prop
  | f :: caller :: callers => f.point.method ∈ p.callees caller.point ∧ Linked (caller :: callers)
  | _ => True

theorem Linked.move {f f' : Frame} {callers : List Frame} (h : p.Linked (f :: callers))
    (same : f'.point.method = f.point.method) : p.Linked (f' :: callers) := by
  cases callers with
  | nil => trivial
  | cons caller callers => exact ⟨same ▸ h.1, h.2⟩

/-- The frames of every run are linked. -/
theorem RunsWhile.linked (h : p.RunsWhile P s) : p.Linked s.frames := by
  induction h with
  | initial => trivial
  | tail _ _ step ih =>
    cases step with
    | act _ _ hn => exact ih.move (method_of_mem_successors hn)
    | call _ hm he => exact ⟨(method_of_mem_entries he).symm ▸ hm, ih⟩
    | ret _ _ hn => exact ih.2.move (method_of_mem_successors hn)

end Program

/-! ## Running a program along a path -/

/-- The step by which control goes to the point, if there is one. -/
def State.step? (s : State) (p : Program) (next : Point) : Option State :=
  match p.instruction? s.top.point, s.callers with
  | some (.call _ _ args), callers =>
    if next.method ∈ p.callees s.top.point ∧ next ∈ p.entries next.method then
      some ⟨⟨next, s.top.locals.bind (p.parameters next.method) args⟩, s.top :: callers, s.heap⟩
    else none
  | some (.ret value), caller :: callers =>
    match p.instruction? caller.point with
    | some (.call dest _ _) =>
      if next ∈ p.successors caller.point then
        some ⟨⟨next, caller.locals.receive dest (value.bind s.top.locals)⟩, callers, s.heap⟩
      else none
    | _ => none
  | some i, callers => do
    let (l, h) ← i.act? s.top.point s.top.locals s.heap
    if next ∈ p.successors s.top.point then some ⟨⟨next, l⟩, callers, h⟩ else none
  | none, _ => none

theorem step_of_step? {p : Program} {s t : State} {next : Point} (h : s.step? p next = some t) :
    Step p s t := by
  obtain ⟨⟨point, l⟩, callers, heap⟩ := s
  unfold State.step? at h
  dsimp only at h
  split at h
  · next hi =>
    obtain ⟨⟨hm, he⟩, h⟩ := Option.ite_none_right_eq_some.1 h
    obtain rfl := Option.some.inj h
    exact .call hi hm he
  · next hi =>
    split at h
    · next hs =>
      obtain ⟨hn, h⟩ := Option.ite_none_right_eq_some.1 h
      obtain rfl := Option.some.inj h
      exact .ret hi hs hn
    · cases h
  · next hi _ => -- neither a call nor a return
    obtain ⟨⟨l', h'⟩, ha, h⟩ := Option.bind_eq_some_iff.1 h
    obtain ⟨hn, h⟩ := Option.ite_none_right_eq_some.1 h
    obtain rfl := Option.some.inj h
    exact .act hi ha hn
  · cases h

/-- Every step, and nothing else, can be computed from the point to which it goes. -/
theorem step_iff_step? {p : Program} {s t : State} :
    Step p s t ↔ ∃ next, s.step? p next = some t := by
  refine ⟨fun h => ⟨t.top.point, ?_⟩, fun ⟨_, h⟩ => step_of_step? h⟩
  cases h with
  | @act _ _ _ i _ _ _ hi hl hn =>
    cases i with
    | call | ret => cases hl
    | _ => simp [State.step?, hi, hl, hn]
  | call hi hm he =>
    obtain rfl := Program.method_of_mem_entries he
    simp [State.step?, hi, hm, he]
  | ret hi hs hn => simp [State.step?, hi, hs, hn]

/-- The state after a run along the points, if `P` holds of every state before. -/
def State.follow? (P : State → Prop) [DecidablePred P] (p : Program) (s : State) :
    List Point → Option State
  | [] => some s
  | next :: points => if P s then (s.step? p next).bind fun t => t.follow? P p points else none

namespace Program

variable {p : Program} {P : State → Prop} [DecidablePred P] {s t : State} {points : List Point}

theorem RunsWhile.follow (h : p.RunsWhile P s) (ht : s.follow? P p points = some t) :
    p.RunsWhile P t := by
  induction points generalizing s with
  | nil => exact Option.some.inj ht ▸ h
  | cons next points ih =>
    obtain ⟨hs, ht⟩ := Option.ite_none_right_eq_some.1 ht
    obtain ⟨s', step, ht⟩ := Option.bind_eq_some_iff.1 ht
    exact ih (h.tail hs (step_of_step? step)) ht

/-- What is checked of the state after a path from an entry is true of a run. -/
theorem exists_runsWhile {Q : State → Bool} {entry : Point} (he : entry ∈ p.entries entry.method)
    (h : ((State.initial entry).follow? P p points).any Q) : ∃ s, p.RunsWhile P s ∧ Q s := by
  obtain ⟨s, hs, checked⟩ := (Option.any_eq_true _ _).1 h
  exact ⟨s, (RunsWhile.initial he).follow hs, checked⟩

end Program

end PointsTo
