import PointsTo.Proofs.Program.Names

/-!
# Kinds of programs

Programs without loads and stores move values between variables only, programs whose calls are
static have one callee at each call site, if any, and programs without calls never leave a method.
A field that no instruction writes holds nothing. All are decidable, and say the same of every
instruction at a point.
-/

namespace PointsTo

namespace Instruction

/-- Whether the instruction reads or writes a field. -/
def accessesField : Instruction → Bool
  | store .. | load .. => true
  | _ => false

/-- Whether the instruction calls by dispatch. -/
def isVirtualCall : Instruction → Bool
  | call _ (.virtual _) _ => true
  | _ => false

def isCall : Instruction → Bool
  | call .. => true
  | _ => false

/-- The field that the instruction writes, if it is a store. -/
def written? : Instruction → Option Field
  | store _ field _ => some field
  | _ => none

end Instruction

namespace Program

variable (p : Program)

/-- No instruction reads or writes a field. -/
def Fieldless : Prop :=
  ∀ b ∈ p.bodies, ∀ i ∈ b.instructions.toList, i.accessesField = false

/-- Every call names its callee. -/
def Static : Prop := ∀ b ∈ p.bodies, ∀ i ∈ b.instructions.toList, i.isVirtualCall = false

/-- No instruction is a call. -/
def CallFree : Prop := ∀ b ∈ p.bodies, ∀ i ∈ b.instructions.toList, i.isCall = false

/-- Some instruction writes the field. -/
def Writes (field : Field) : Prop :=
  ∃ b ∈ p.bodies, ∃ i ∈ b.instructions.toList, i.written? = some field

instance (field : Field) : Decidable (p.Writes field) :=
  inferInstanceAs (Decidable (∃ b ∈ p.bodies, ∃ i ∈ b.instructions.toList, _))

instance : Decidable p.Fieldless :=
  inferInstanceAs (Decidable (∀ b ∈ p.bodies, ∀ i ∈ b.instructions.toList, _))

instance : Decidable p.Static :=
  inferInstanceAs (Decidable (∀ b ∈ p.bodies, ∀ i ∈ b.instructions.toList, _))

instance : Decidable p.CallFree :=
  inferInstanceAs (Decidable (∀ b ∈ p.bodies, ∀ i ∈ b.instructions.toList, _))

variable {p} {point : Point} {i : Instruction}

theorem exists_body_of_instruction? (h : p.instruction? point = some i) :
    ∃ b ∈ p.bodies, i ∈ b.instructions.toList := by
  simp only [instruction?, Option.bind_eq_bind, Option.bind_eq_some_iff] at h
  obtain ⟨⟨b, k⟩, hl, hi⟩ := h
  exact ⟨b, (body?_eq_some (locate?_eq_some hl).1).1,
    Array.mem_toList_iff.2 (Array.mem_of_getElem? hi)⟩

/-- A store writes its field. -/
theorem writes_of_store {base value : Var} {field : Field}
    (h : p.instruction? point = some (.store base field value)) : p.Writes field := by
  obtain ⟨b, hb, hi⟩ := exists_body_of_instruction? h
  exact ⟨b, hb, _, hi, rfl⟩

theorem Fieldless.instruction (hp : p.Fieldless) (h : p.instruction? point = some i) :
    i.accessesField = false := by
  obtain ⟨b, hb, hi⟩ := exists_body_of_instruction? h
  exact hp b hb i hi

theorem Static.instruction (hp : p.Static) (h : p.instruction? point = some i) :
    i.isVirtualCall = false := by
  obtain ⟨b, hb, hi⟩ := exists_body_of_instruction? h
  exact hp b hb i hi

theorem CallFree.instruction (hp : p.CallFree) (h : p.instruction? point = some i) :
    i.isCall = false := by
  obtain ⟨b, hb, hi⟩ := exists_body_of_instruction? h
  exact hp b hb i hi

theorem CallFree.static (hp : p.CallFree) : p.Static := by
  intro b hb i hi
  have callFree := hp b hb i hi
  cases i <;> first | rfl | cases callFree

end Program

end PointsTo
