import PointsTo.Proofs.Program.Scope
import PointsTo.Source.Reader

/-!
# What a program that was read is made of

The bodies of a program that was read are made of lines that read like statements of their method,
or that do nothing (`readProgram_lines`). So every instruction is the `nop` at an entry, a `return`
that was added, or was read (`readProgram_read`), and whatever holds of statements holds of programs:
what was read could be written down (`Writable`), so all names are identifiers (`readProgram_names`),
methods mention no variables but their own (`readProgram_local`), and no jump leads back to the entry of
a method (`readProgram_entry`), because `entry` is no label that a statement may name.
-/

namespace PointsTo

theorem bind_eq_ok {ε α β : Type} {x : Except ε α} {g : α → Except ε β} {b : β} :
    (x >>= g) = .ok b ↔ ∃ a, x = .ok a ∧ g a = .ok b := by
  cases x <;> simp [bind, Except.bind]

/-- What is checked of a result is true of it. -/
theorem exists_ok_of_any {ε α : Type} {x : Except ε α} {P : α → Bool} (h : x.toOption.any P) :
    ∃ a, x = .ok a ∧ P a := by
  cases x with
  | error e => simp [Except.toOption] at h
  | ok a => exact ⟨a, rfl, h⟩

/-! ## Bodies and programs -/

theorem Body.mem_close {lines : List Line} {line : Line} (h : line ∈ close lines) :
    line ∈ lines ∨ line.instruction = .nop ∧ line.jump = .next ∨
      line.instruction = .ret none ∧ line.jump = .next := by
  unfold close at h
  dsimp only at h
  split at h <;> simp only [List.mem_append, List.mem_cons, List.not_mem_nil, or_false] at h
  · obtain (rfl | h) | rfl := h
    · exact .inr (.inl ⟨rfl, rfl⟩)
    · exact .inl h
    · exact .inr (.inr ⟨rfl, rfl⟩)
  · obtain rfl | h := h
    · exact .inr (.inl ⟨rfl, rfl⟩)
    · exact .inl h

/-- The edges of a body are those of its lines. -/
theorem Body.successors_of_ofLines {method : MethodName} {parameters : List Var} {lines : List Line}
    {b : Body} (h : ofLines method parameters lines = .ok b) :
    ∃ labels, collectLabels method [(entryLabel, 0)] 1 lines = .ok labels ∧
      ∀ {i j}, j ∈ b.successorsOf i → ∃ line js, (close lines)[i]? = some line ∧
        successorsOfLine method labels line i = .ok js ∧ j ∈ js := by
  unfold ofLines at h
  split at h
  · cases h
  · next labels hl =>
    split at h
    · cases h
    · next successors hs =>
      obtain rfl := Except.ok.inj h
      refine ⟨labels, hl, fun {i j} hj => ?_⟩
      obtain ⟨js, e, hj⟩ := exists_of_mem_getD hj
      obtain ⟨line, hline, hjs⟩ := successorsOfLine_of_mapM hs e
      exact ⟨line, js, hline, hjs, hj⟩

/-- A body has the instructions of its lines, and those that close it. -/
theorem Body.of_ofLines {method : MethodName} {parameters : List Var} {lines : List Line} {b : Body}
    (h : ofLines method parameters lines = .ok b) : b.method = method ∧ b.parameters = parameters ∧
      b.instructions.toList = (close lines).map (·.instruction) := by
  unfold ofLines at h
  split at h
  · cases h
  · split at h
    · cases h
    · obtain rfl := Except.ok.inj h
      exact ⟨rfl, rfl, rfl⟩

theorem Program.mem_of_collectMethods {known methods : OrderedMap MethodName Body}
    {bodies : List Body} (h : collectMethods known bodies = .ok methods) :
    ∀ e ∈ methods.toList, e ∈ known.toList ∨ e.2 ∈ bodies := by
  induction bodies generalizing known with
  | nil =>
    obtain rfl := Except.ok.inj h
    exact fun _ => .inl
  | cons body bodies ih =>
    unfold collectMethods at h
    split at h
    · cases h
    · intro e he
      obtain he | he := ih h e he
      · rw [OrderedMap.toList_insert] at he
        split at he
        · exact .inl he
        · obtain he | he := List.mem_append.1 he
          · exact .inl he
          · rw [List.mem_singleton.1 he]
            exact .inr List.mem_cons_self
      · exact .inr (List.mem_cons_of_mem body he)

theorem Program.mem_of_ofBodies {bodies : List Body} {p : Program} (h : ofBodies bodies = .ok p)
    {b : Body} (hb : b ∈ p.bodies) : b ∈ bodies := by
  unfold ofBodies at h
  split at h
  · cases h
  · next methods hm =>
    obtain rfl := Except.ok.inj h
    rw [Program.bodies, ← OrderedMap.map_snd_toList] at hb
    obtain ⟨e, he, rfl⟩ := List.mem_map.1 hb
    exact (mem_of_collectMethods hm e he).resolve_left (by simp)

namespace Source

/-! ## What can be written down -/

/-- A variable of the method, with a name that a statement may use. -/
def IsVarOf (method : MethodName) (v : Var) : Prop :=
  v.method = method ∧ isFreeIdent v.name.toList = true

instance (method : MethodName) : DecidablePred (IsVarOf method) :=
  fun _ => inferInstanceAs (Decidable (_ ∧ _))

/-- The field has a name, and the name is an identifier. -/
def isFieldName : Field → Bool
  | .named name => isIdent name.toList
  | .epsilon => false

/-- The call names a method, or a receiver and a method of its class. -/
def isCallable : Callee → List Var → Bool
  | .static method, _ => isMethodName method.name.toList
  | .virtual name, args => isIdent name.toList && !args.isEmpty

/-- The instruction mentions variables of the method only, and what it names can be named. -/
def Writable (method : MethodName) : Instruction → Prop
  | .new dest type => IsVarOf method dest ∧ isIdent type.name.toList = true
  | .null dest => IsVarOf method dest
  | .assign dest value => IsVarOf method dest ∧ IsVarOf method value
  | .store base field value =>
    IsVarOf method base ∧ isFieldName field = true ∧ IsVarOf method value
  | .load dest base field => IsVarOf method dest ∧ IsVarOf method base ∧ isFieldName field = true
  | .call dest callee args =>
    (∀ v ∈ dest, IsVarOf method v) ∧ isCallable callee args = true ∧ ∀ v ∈ args, IsVarOf method v
  | .ret value => ∀ v ∈ value, IsVarOf method v
  | .nop => True

instance (method : MethodName) : DecidablePred (Writable method)
  | .new .. | .assign .. => inferInstanceAs (Decidable (_ ∧ _))
  | .null dest => inferInstanceAs (Decidable (IsVarOf method dest))
  | .store .. | .load .. | .call .. => inferInstanceAs (Decidable (_ ∧ _ ∧ _))
  | .ret value => inferInstanceAs (Decidable (∀ v ∈ value, IsVarOf method v))
  | .nop => inferInstanceAs (Decidable True)

/-! ## Reading -/

/-- The line does nothing, or a statement of the method reads like this. -/
def LineRead (method : MethodName) (line : Line) : Prop :=
  line.instruction = .nop ∧ line.jump = .next ∨
    ∃ text, readStatement method text = .ok (line.instruction, line.jump)

/-- The body is made of lines that were read, and its parameters are variables of its method. -/
structure BodyRead (b : Body) : Prop where
  name : isMethodName b.method.name.toList = true
  parameters : ∀ v ∈ b.parameters, IsVarOf b.method v
  lines : ∃ lines, Body.ofLines b.method b.parameters lines = .ok b ∧
    ∀ line ∈ lines, LineRead b.method line

/-- The lines of the method so far were read, and its parameters are its variables. -/
structure OpenMethod.AllRead (m : OpenMethod) : Prop where
  name : isMethodName m.method.name.toList = true
  parameters : ∀ v ∈ m.parameters, IsVarOf m.method v
  lines : ∀ line ∈ m.lines, LineRead m.method line

/-- Everything that the reader has is read. -/
structure Reader.AllRead (r : Reader) : Prop where
  bodies : ∀ b ∈ r.bodies, BodyRead b
  current : ∀ m, r.current = some m → m.AllRead

theorem mem_of_mapM_eq_ok {α β ε : Type} {f : α → Except ε β} {as : List α} {bs : List β}
    (h : as.mapM f = .ok bs) {b : β} (hb : b ∈ bs) : ∃ a ∈ as, f a = .ok b := by
  obtain ⟨i, hi⟩ := List.mem_iff_getElem?.1 hb
  obtain ⟨a, ha, e⟩ := Body.getElem?_of_mapM_eq_ok h hi
  exact ⟨a, List.mem_of_getElem? ha, e⟩

theorem isVarOf_of_readVar {method : MethodName} {text : List Char} {v : Var}
    (h : readVar method text = .ok v) : IsVarOf method v := by
  unfold readVar at h
  dsimp only at h
  split at h
  · next free =>
    obtain rfl := Except.ok.inj h
    exact ⟨rfl, by rw [String.toList_ofList, free]⟩
  · cases h

theorem isVarOf_of_readVars {method : MethodName} {texts : List (List Char)} {vs : List Var}
    (h : texts.mapM (readVar method) = .ok vs) : ∀ v ∈ vs, IsVarOf method v := by
  intro v hv
  obtain ⟨_, -, h⟩ := mem_of_mapM_eq_ok h hv
  exact isVarOf_of_readVar h

theorem names_of_readHeader {text : List Char} {method : MethodName} {parameters : List Var}
    (h : readHeader text = .ok (method, parameters)) :
    isMethodName method.name.toList = true ∧ ∀ v ∈ parameters, IsVarOf method v := by
  unfold readHeader at h
  dsimp only at h
  split at h
  · cases h
  · obtain ⟨⟨name, texts⟩, -, h⟩ := bind_eq_ok.1 h
    dsimp only at h
    split at h
    · next hn =>
      obtain ⟨vs, hv, h⟩ := bind_eq_ok.1 h
      obtain ⟨rfl, rfl⟩ := Prod.mk.inj (Except.ok.inj h)
      exact ⟨by rw [String.toList_ofList, hn], isVarOf_of_readVars hv⟩
    · cases h

theorem OpenMethod.close_read {m : OpenMethod} {b : Body} (h : m.close = .ok b)
    (hm : m.AllRead) : BodyRead b := by
  obtain ⟨hb, hp, -⟩ := Body.of_ofLines h
  refine ⟨by rw [hb]; exact hm.name, by rw [hb, hp]; exact hm.parameters, _,
    by rw [hb, hp]; exact h, fun line hl => ?_⟩
  rw [hb]
  obtain hl | hl := List.mem_append.1 hl
  · exact hm.lines line hl
  · obtain ⟨_, -, rfl⟩ := List.mem_map.1 hl
    exact .inl ⟨rfl, rfl⟩

theorem OpenMethod.statement_read {m n : OpenMethod} {text : List Char}
    (h : m.statement text = .ok n) (hm : m.AllRead) : n.AllRead := by
  obtain ⟨⟨i, jump⟩, hs, h⟩ := bind_eq_ok.1 h
  obtain rfl := Except.ok.inj h
  refine ⟨hm.name, hm.parameters, fun line hl => ?_⟩
  obtain hl | hl := List.mem_append.1 hl
  · exact hm.lines line hl
  · rw [List.mem_singleton.1 hl]
    exact .inr ⟨text, hs⟩

theorem OpenMethod.line_read {m n : OpenMethod} {text : List Char} (h : m.line text = .ok n)
    (hm : m.AllRead) : n.AllRead := by
  unfold OpenMethod.line at h
  split at h
  · exact statement_read h hm
  · split at h
    · cases h
    · obtain ⟨label, -, h⟩ := bind_eq_ok.1 h
      dsimp only at h
      split at h
      · obtain rfl := Except.ok.inj h
        exact { hm with }
      · exact statement_read (m := { m with pending := some label }) h { hm with }

theorem Reader.line_read {r r' : Reader} {raw : List Char} (h : r.line raw = .ok r')
    (hr : r.AllRead) : r'.AllRead := by
  unfold Reader.line at h
  dsimp only at h
  split at h
  · obtain rfl := Except.ok.inj h
    exact hr
  · split at h
    · obtain ⟨⟨method, parameters⟩, header, h⟩ := bind_eq_ok.1 h
      obtain rfl := Except.ok.inj h
      refine ⟨hr.bodies, fun m e => ?_⟩
      obtain rfl := Option.some.inj e
      obtain ⟨name, parameters⟩ := names_of_readHeader header
      exact ⟨name, parameters, fun _ hl => absurd hl List.not_mem_nil⟩
    · next m hm =>
      split at h
      · split at h
        · next body hb =>
          obtain rfl := Except.ok.inj h
          refine ⟨fun b hmem => ?_, fun _ e => nomatch e⟩
          obtain hmem | hmem := List.mem_append.1 hmem
          · exact hr.bodies b hmem
          · rw [List.mem_singleton.1 hmem]
            exact OpenMethod.close_read hb (hr.current m hm)
        · cases h
      · obtain ⟨n, hn, h⟩ := bind_eq_ok.1 h
        obtain rfl := Except.ok.inj h
        refine ⟨hr.bodies, fun n' e => ?_⟩
        obtain rfl := Option.some.inj e
        exact OpenMethod.line_read hn (hr.current m hm)

theorem Reader.lines_read {r r' : Reader} {number : Nat} {raws : List (List Char)}
    (h : r.lines number raws = .ok r') (hr : r.AllRead) : r'.AllRead := by
  induction raws generalizing r number with
  | nil =>
    obtain rfl := Except.ok.inj h
    exact hr
  | cons raw raws ih =>
    unfold Reader.lines at h
    split at h
    · next r₁ h₁ => exact ih h (Reader.line_read h₁ hr)
    · cases h

/-- The bodies of a program that was read are made of lines that were read. -/
theorem readProgram_lines {source : String} {p : Program} (h : readProgram source = .ok p)
    {b : Body} (hb : b ∈ p.bodies) : BodyRead b := by
  obtain ⟨r, hl, hf⟩ := bind_eq_ok.1 h
  have hr := Reader.lines_read hl ⟨fun _ h => absurd h List.not_mem_nil, fun _ e => nomatch e⟩
  unfold Reader.finish at hf
  split at hf
  · cases hf
  · split at hf
    · next p' hp =>
      obtain rfl := Except.ok.inj hf
      exact hr.bodies b (Program.mem_of_ofBodies hp hb)
    · cases hf

/-- Every instruction of a program that was read closes a body or is read. -/
theorem readProgram_read {source : String} {p : Program} (h : readProgram source = .ok p) {b : Body}
    (hb : b ∈ p.bodies) {i : Instruction} (hi : i ∈ b.instructions.toList) :
    i = .nop ∨ i = .ret none ∨ ∃ text jump, readStatement b.method text = .ok (i, jump) := by
  obtain ⟨lines, hl, read⟩ := (readProgram_lines h hb).lines
  rw [(Body.of_ofLines hl).2.2] at hi
  obtain ⟨line, hline, rfl⟩ := List.mem_map.1 hi
  obtain hline | hline | hline := Body.mem_close hline
  · obtain ⟨hn, -⟩ | ⟨text, ht⟩ := read line hline
    · exact .inl hn
    · exact .inr (.inr ⟨text, line.jump, ht⟩)
  · exact .inl hline.1
  · exact .inr (.inl hline.1)

/-! ## Names -/

theorem Writable.vars {method : MethodName} {i : Instruction} (h : Writable method i) :
    ∀ v ∈ i.vars, IsVarOf method v := by
  cases i with
  | new dest type => simpa [Instruction.vars] using h.1
  | null dest => exact List.forall_mem_singleton.2 h
  | assign dest value => simpa [Instruction.vars] using And.intro h.1 h.2
  | store base field value => simpa [Instruction.vars] using ⟨h.1, h.2.2⟩
  | load dest base field => simpa [Instruction.vars] using ⟨h.1, h.2.1⟩
  | call dest callee args =>
    obtain ⟨hd, -, ha⟩ := h
    exact fun v hv => (List.mem_append.1 hv).elim (fun hv => hd v (Option.mem_toList.1 hv)) (ha v)
  | ret value => exact fun v hv => h v (Option.mem_toList.1 hv)
  | nop => exact fun _ hv => absurd hv List.not_mem_nil

theorem Writable.fields {method : MethodName} {i : Instruction} (h : Writable method i) :
    ∀ g ∈ i.fields, isFieldName g = true := by
  cases i with
  | store base field value => simpa [Instruction.fields] using h.2.1
  | load dest base field => simpa [Instruction.fields] using h.2.2
  | _ => exact fun _ hg => absurd hg List.not_mem_nil

section Statements

variable {method : MethodName} {dest : Option Var} {text : List Char} {i : Instruction}

theorem isIdent_of_readType {type : ClassName} (h : readType text = .ok type) :
    isIdent type.name.toList = true := by
  unfold readType at h
  dsimp only at h
  split at h
  · next word =>
    obtain rfl := Except.ok.inj h
    rw [String.toList_ofList, word]
  · cases h

theorem isIdent_of_dotted? {left right : List Char} (h : dotted? text = some (left, right)) :
    isIdent left = true ∧ isIdent right = true := by
  obtain ⟨⟨l, r⟩, -, h⟩ := Option.bind_eq_some_iff.1 h
  dsimp only at h
  split at h
  · next words =>
    obtain ⟨rfl, rfl⟩ := Prod.mk.inj (Option.some.inj h)
    exact (Bool.and_eq_true _ _).mp words
  · cases h

theorem readVirtualCall_writable (hd : ∀ v ∈ dest, IsVarOf method v)
    (h : readVirtualCall method dest text = .ok i) : Writable method i := by
  obtain ⟨⟨target, args⟩, -, h⟩ := bind_eq_ok.1 h
  dsimp only at h
  split at h
  · cases h
  · next receiver name parts =>
    obtain ⟨v, hr, h⟩ := bind_eq_ok.1 h
    obtain ⟨vs, hv, h⟩ := bind_eq_ok.1 h
    obtain rfl := Except.ok.inj h
    have named := (isIdent_of_dotted? parts).2
    exact ⟨hd, by simpa [isCallable] using named,
      List.forall_mem_cons.2 ⟨isVarOf_of_readVar hr, isVarOf_of_readVars hv⟩⟩

theorem readStaticCall_writable (hd : ∀ v ∈ dest, IsVarOf method v)
    (h : readStaticCall method dest text = .ok i) : Writable method i := by
  obtain ⟨⟨name, args⟩, -, h⟩ := bind_eq_ok.1 h
  dsimp only at h
  split at h
  · next named =>
    obtain ⟨vs, hv, h⟩ := bind_eq_ok.1 h
    obtain rfl := Except.ok.inj h
    exact ⟨hd, by simpa [isCallable] using named, isVarOf_of_readVars hv⟩
  · cases h

theorem readCall?_writable (hd : ∀ v ∈ dest, IsVarOf method v)
    (h : readCall? method dest text = some (.ok i)) : Writable method i := by
  unfold readCall? at h
  split at h
  · exact readVirtualCall_writable hd (Option.some.inj h)
  · obtain ⟨_, -, h⟩ := Option.map_eq_some_iff.1 h
    exact readStaticCall_writable hd h

theorem readRight_writable {dest : Var} {right : List Char} (hd : IsVarOf method dest)
    (h : readRight method dest right = .ok i) : Writable method i := by
  unfold readRight at h
  split at h
  · obtain ⟨_, ht, h⟩ := bind_eq_ok.1 h
    obtain rfl := Except.ok.inj h
    exact ⟨hd, isIdent_of_readType ht⟩
  · split at h
    · obtain rfl := Except.ok.inj h
      exact hd
    · split at h
      · next call hc => exact readCall?_writable (by simpa using hd) (h ▸ hc)
      · split at h
        · next parts =>
          obtain ⟨base, hb, h⟩ := bind_eq_ok.1 h
          obtain rfl := Except.ok.inj h
          have named := (isIdent_of_dotted? parts).2
          exact ⟨hd, isVarOf_of_readVar hb, by simpa [isFieldName] using named⟩
        · obtain ⟨value, hv, h⟩ := bind_eq_ok.1 h
          obtain rfl := Except.ok.inj h
          exact ⟨hd, isVarOf_of_readVar hv⟩

theorem readAssignment_writable {left right : List Char}
    (h : readAssignment method left right = .ok i) : Writable method i := by
  unfold readAssignment at h
  split at h
  · next parts =>
    obtain ⟨base, hb, h⟩ := bind_eq_ok.1 h
    obtain ⟨value, hv, h⟩ := bind_eq_ok.1 h
    obtain rfl := Except.ok.inj h
    have named := (isIdent_of_dotted? parts).2
    exact ⟨isVarOf_of_readVar hb, by simpa [isFieldName] using named, isVarOf_of_readVar hv⟩
  · obtain ⟨dest, hd, h⟩ := bind_eq_ok.1 h
    exact readRight_writable (isVarOf_of_readVar hd) h

theorem writable_nop : Writable method .nop := trivial

theorem writable_ret_none : Writable method (.ret none) := fun _ hv => nomatch hv

theorem readStatement_writable {jump : Jump} (h : readStatement method text = .ok (i, jump)) :
    Writable method i := by
  unfold readStatement at h
  split at h
  · obtain ⟨rfl, -⟩ := Prod.mk.inj (Except.ok.inj h)
    exact writable_nop
  split at h
  · obtain ⟨rfl, -⟩ := Prod.mk.inj (Except.ok.inj h)
    exact writable_ret_none
  split at h
  · obtain ⟨value, hv, h⟩ := bind_eq_ok.1 h
    obtain ⟨rfl, -⟩ := Prod.mk.inj (Except.ok.inj h)
    rintro _ ⟨⟩
    exact isVarOf_of_readVar hv
  split at h
  · obtain ⟨_, -, h⟩ := bind_eq_ok.1 h
    obtain ⟨rfl, -⟩ := Prod.mk.inj (Except.ok.inj h)
    exact writable_nop
  split at h
  · split at h
    · obtain ⟨_, -, h⟩ := bind_eq_ok.1 h
      obtain ⟨rfl, -⟩ := Prod.mk.inj (Except.ok.inj h)
      exact writable_nop
    · cases h
  split at h
  · next call hc =>
    obtain ⟨_, hcall, h⟩ := bind_eq_ok.1 h
    obtain ⟨rfl, -⟩ := Prod.mk.inj (Except.ok.inj h)
    exact readCall?_writable (by simp) (hcall ▸ hc)
  split at h
  · obtain ⟨_, ha, h⟩ := bind_eq_ok.1 h
    obtain ⟨rfl, -⟩ := Prod.mk.inj (Except.ok.inj h)
    exact readAssignment_writable ha
  · cases h

end Statements

section Programs

variable {source : String} {p : Program} (h : readProgram source = .ok p)
include h

/-- The instructions of a program that was read can be written down in their methods. -/
theorem readProgram_writable {b : Body} (hb : b ∈ p.bodies) {i : Instruction}
    (hi : i ∈ b.instructions.toList) : Writable b.method i := by
  obtain rfl | rfl | ⟨_, _, h⟩ := readProgram_read h hb hi
  · exact writable_nop
  · exact writable_ret_none
  · exact readStatement_writable h

theorem readProgram_instruction {point : Point} {i : Instruction}
    (hi : p.instruction? point = some i) : Writable point.method i := by
  obtain ⟨b, k, hl, hi⟩ := Program.locate?_of_instruction? hi
  obtain ⟨hb, hm⟩ := Program.body?_eq_some (Program.locate?_eq_some hl).1
  exact hm ▸ readProgram_writable h hb (Array.mem_toList_iff.2 (Array.mem_of_getElem? hi))

theorem readProgram_vars {b : Body} (hb : b ∈ p.bodies) {v : Var} (hv : v ∈ b.vars) :
    IsVarOf b.method v := by
  obtain hv | hv := List.mem_append.1 hv
  · exact (readProgram_lines h hb).parameters v hv
  · obtain ⟨i, hi, hv⟩ := List.mem_flatMap.1 hv
    exact (readProgram_writable h hb hi).vars v hv

theorem readProgram_fields {b : Body} (hb : b ∈ p.bodies) {g : Field} (hg : g ∈ b.fields) :
    isFieldName g = true := by
  obtain ⟨i, hi, hg⟩ := List.mem_flatMap.1 hg
  exact (readProgram_writable h hb hi).fields g hg

/-- All names in a program that was read are identifiers, except that those of methods have dots. -/
theorem readProgram_names :
    (∀ point ∈ p.names.points, isMethodName point.method.name.toList = true) ∧
    (∀ v ∈ p.names.vars, isIdent v.name.toList = true) ∧
    ∀ g ∈ p.names.fields, isFieldName g = true := by
  simp only [Program.names, List.mem_toFinset, List.mem_flatMap]
  refine ⟨?_, ?_, ?_⟩
  · rintro point ⟨b, hb, hp⟩
    obtain ⟨i, -, rfl⟩ := List.mem_map.1 hp
    exact (readProgram_lines h hb).name
  · rintro v ⟨b, hb, hv⟩
    exact ((Bool.and_eq_true _ _).mp (readProgram_vars h hb hv).2).1
  · rintro g ⟨b, hb, hg⟩
    exact readProgram_fields h hb hg

/-- The methods of a program that was read mention no variables but their own. -/
theorem readProgram_local : p.Local := fun _ hb _ hv => (readProgram_vars h hb hv).1

/-- The fields of a program that was read have names. -/
theorem readProgram_named : p.Named := by
  intro b hb i hi g hg
  have name := readProgram_fields h hb (List.mem_flatMap.2 ⟨i, hi, hg⟩)
  cases g with
  | named name => rfl
  | epsilon => cases name

end Programs

/-! ## Jumps -/

theorem readLabel_ne_entry {text : List Char} {label : String} (h : readLabel text = .ok label) :
    label ≠ Body.entryLabel := by
  unfold readLabel at h
  dsimp only at h
  split at h
  · next free =>
    obtain rfl := Except.ok.inj h
    intro e
    have e : Text.trim text = "entry".toList := by
      rw [← String.toList_ofList (l := Text.trim text), e]
      rfl
    rw [e] at free
    exact absurd free (by decide)
  · cases h

theorem readStatement_jump {method : MethodName} {text : List Char} {i : Instruction} {jump : Jump}
    (h : readStatement method text = .ok (i, jump)) :
    jump ≠ .goto Body.entryLabel ∧ jump ≠ .branch Body.entryLabel := by
  unfold readStatement at h
  split at h
  · obtain ⟨-, rfl⟩ := Prod.mk.inj (Except.ok.inj h)
    simp
  split at h
  · obtain ⟨-, rfl⟩ := Prod.mk.inj (Except.ok.inj h)
    simp
  split at h
  · obtain ⟨_, -, h⟩ := bind_eq_ok.1 h
    obtain ⟨-, rfl⟩ := Prod.mk.inj (Except.ok.inj h)
    simp
  split at h
  · obtain ⟨label, hl, h⟩ := bind_eq_ok.1 h
    obtain ⟨-, rfl⟩ := Prod.mk.inj (Except.ok.inj h)
    simpa using readLabel_ne_entry hl
  split at h
  · split at h
    · obtain ⟨label, hl, h⟩ := bind_eq_ok.1 h
      obtain ⟨-, rfl⟩ := Prod.mk.inj (Except.ok.inj h)
      simpa using readLabel_ne_entry hl
    · cases h
  split at h
  · obtain ⟨_, -, h⟩ := bind_eq_ok.1 h
    obtain ⟨-, rfl⟩ := Prod.mk.inj (Except.ok.inj h)
    simp
  split at h
  · obtain ⟨_, -, h⟩ := bind_eq_ok.1 h
    obtain ⟨-, rfl⟩ := Prod.mk.inj (Except.ok.inj h)
    simp
  · cases h

end Source

/-- Only the label of the entry stands for the entry. -/
theorem Body.collectLabels_entry {method : MethodName} {known labels : List (String × Nat)} {i : Nat}
    {lines : List Line} (h : collectLabels method known i lines = .ok labels) (hi : 0 < i)
    (hk : ∀ e ∈ known, e.2 = 0 → e.1 = entryLabel) : ∀ e ∈ labels, e.2 = 0 → e.1 = entryLabel := by
  induction lines generalizing known i with
  | nil =>
    obtain rfl := Except.ok.inj h
    exact hk
  | cons line lines ih =>
    unfold collectLabels at h
    split at h
    · exact ih h (Nat.succ_pos i) hk
    · split at h
      · cases h
      · refine ih h (Nat.succ_pos i) fun e he h0 => ?_
        obtain he | he := List.mem_append.1 he
        · exact hk e he h0
        · rw [List.mem_singleton.1 he] at h0
          omega

/-- Control goes to the entry only from a line that jumps there. -/
theorem Body.jump_of_successorsOfLine {method : MethodName} {labels : List (String × Nat)}
    {line : Line} {i : Nat} {js : List Nat} (hl : ∀ e ∈ labels, e.2 = 0 → e.1 = entryLabel)
    (h : successorsOfLine method labels line i = .ok js) (h0 : 0 ∈ js) :
    line.jump = .goto entryLabel ∨ line.jump = .branch entryLabel := by
  have label {l : String} (ht : target method labels l = .ok 0) : l = entryLabel := by
    unfold target at ht
    split at ht
    · next e =>
      obtain rfl := Except.ok.inj ht
      obtain ⟨_, _, rfl, -⟩ := List.lookup_eq_some_iff.1 e
      exact hl (l, 0) (by simp) rfl
    · cases ht
  unfold successorsOfLine at h
  split at h
  · obtain rfl := Except.ok.inj h
    simp at h0
  · obtain rfl := Except.ok.inj h
    simp at h0
  · next l hj _ =>
    obtain ⟨t, ht, h⟩ := bind_eq_ok.1 h
    obtain rfl := Except.ok.inj h
    obtain rfl := List.mem_singleton.1 h0
    exact .inl (hj.trans (by rw [label ht]))
  · next l hj _ =>
    obtain ⟨t, ht, h⟩ := bind_eq_ok.1 h
    obtain rfl := Except.ok.inj h
    obtain rfl : t = 0 := by split at h0 <;> simp_all [eq_comm]
    exact .inr (hj.trans (by rw [label ht]))

namespace Source

/-- In a program that was read, no edge leads back to the entry of a method. -/
theorem readProgram_entry {source : String} {p : Program} (h : readProgram source = .ok p)
    {point next : Point} (hn : next ∈ p.successors point) (m : MethodName) : next ∉ p.entries m := by
  obtain ⟨b, k, j, hl, hj, rfl⟩ := Program.mem_successors_iff.1 hn
  intro he
  obtain rfl : j = 0 := by
    unfold Program.entries at he
    split at he
    · split at he
      · simp at he
      · simpa [Point.ofIndex] using (congrArg Point.index (List.mem_singleton.1 he))
    · simp at he
  have located := Program.body?_eq_some (Program.locate?_eq_some hl).1
  obtain ⟨lines, hb, read⟩ := (readProgram_lines h located.1).lines
  obtain ⟨labels, hc, edges⟩ := Body.successors_of_ofLines hb
  obtain ⟨line, js, hline, hjs, h0⟩ := edges hj
  have known := Body.collectLabels_entry hc Nat.one_pos (by simp)
  have jump := Body.jump_of_successorsOfLine known hjs h0
  obtain hm | ⟨-, hm⟩ | ⟨-, hm⟩ := Body.mem_close (List.mem_of_getElem? hline)
  · obtain ⟨-, hj⟩ | ⟨text, ht⟩ := read line hm
    · simp [hj] at jump
    · have := readStatement_jump ht
      tauto
  · simp [hm] at jump
  · simp [hm] at jump

/-- In a program that was read, control does not go on after a `return`. -/
theorem readProgram_return {source : String} {p : Program} (h : readProgram source = .ok p)
    {point next : Point} (hn : next ∈ p.successors point) (value : Option Var) :
    p.instruction? point ≠ some (.ret value) := by
  intro hi
  obtain ⟨b, k, j, hl, hj, rfl⟩ := Program.mem_successors_iff.1 hn
  obtain ⟨b', k', hl', hi⟩ := Program.locate?_of_instruction? hi
  obtain ⟨rfl, rfl⟩ : b = b' ∧ k = k' := by simpa using hl.symm.trans hl'
  have located := Program.body?_eq_some (Program.locate?_eq_some hl).1
  obtain ⟨lines, hb, -⟩ := (readProgram_lines h located.1).lines
  obtain ⟨labels, -, edges⟩ := Body.successors_of_ofLines hb
  obtain ⟨line, js, hline, hjs, hj⟩ := edges hj
  have returns : line.instruction = .ret value := by
    have e := (Body.of_ofLines hb).2.2
    have hk : b.instructions.toList[k]? = some (.ret value) := by
      rw [Array.getElem?_toList]
      exact hi
    rw [e, List.getElem?_map, hline] at hk
    exact Option.some.inj hk
  rw [Body.successorsOfLine, returns] at hjs
  obtain rfl := Except.ok.inj hjs
  exact List.not_mem_nil hj

end Source

end PointsTo
