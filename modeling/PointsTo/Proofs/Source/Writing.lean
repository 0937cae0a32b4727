import PointsTo.Proofs.Program.ControlFlow
import PointsTo.Proofs.Source.Words

/-!
# Writing programs down

`programText` writes methods down: a header, a line for each instruction with its label in front, and
a closing brace. `WritableDraft` says of which methods the reader can make sense: names are identifiers,
variables and labels are no keywords, and variables are those of the method. The text of a statement
`Stands` in its line as it is: no blanks around it count, and neither the mark of comments nor that of
labels is in it (`stands_text`).
-/

namespace PointsTo

/-- A method as a list of lines, before its control flow is laid out. -/
structure Draft where
  method : MethodName
  parameters : List Var
  lines : List Line

/-- What a line does: the jump stands for the instruction, if there is one. -/
def Line.statementText (line : Line) : String :=
  match line.jump with
  | .next => line.instruction.text
  | .goto label => "goto " ++ label
  | .branch label => "if * goto " ++ label

def Line.text (line : Line) : String :=
  match line.label with
  | some label => label ++ ": " ++ line.statementText
  | none => line.statementText

namespace Draft

def header (d : Draft) : String :=
  "method " ++ d.method.text ++ "(" ++ Instruction.listText d.parameters ++ ") \x7b"

/-- The lines of text that the method takes. -/
def texts (d : Draft) : List String := d.header :: d.lines.map Line.text ++ ["\x7d"]

def body (d : Draft) : Except BodyError Body := Body.ofLines d.method d.parameters d.lines

end Draft

/-- The text of methods, with a line feed at the end of each line. -/
def programText (ds : List Draft) : String :=
  String.ofList ((ds.flatMap Draft.texts).flatMap fun text => text.toList ++ ['\n'])

namespace Source

open Text

/-! ## What can be written down -/

/-- The line can be written down: only a line that does nothing may jump. -/
def WritableLine (method : MethodName) (line : Line) : Prop :=
  (∀ l ∈ line.label, isFreeIdent l.toList = true) ∧ Writable method line.instruction ∧
    ∀ l ∈ line.jump.label?, line.instruction = .nop ∧ isFreeIdent l.toList = true

instance (method : MethodName) : DecidablePred (WritableLine method) :=
  fun _ => inferInstanceAs (Decidable (_ ∧ _ ∧ _))

/-- The method can be written down. -/
def WritableDraft (d : Draft) : Prop :=
  isMethodName d.method.name.toList = true ∧ (∀ v ∈ d.parameters, IsVarOf d.method v) ∧
    ∀ line ∈ d.lines, WritableLine d.method line

instance : DecidablePred WritableDraft := fun _ => inferInstanceAs (Decidable (_ ∧ _ ∧ _))

variable {method : MethodName} {v : Var} {vars : List Var} {w a b m text : List Char}
  {i : Instruction} {line : Line} {d : Draft}

theorem IsVarOf.isIdent (h : IsVarOf method v) : isIdent v.name.toList = true :=
  isIdent_of_isFreeIdent h.2

/-! ## Texts that stand in a line -/

/-- The characters of statements: neither the mark of comments nor that of labels, and no brace. -/
def isStatementChar (c : Char) : Bool :=
  isIdentRest c || [' ', '=', '.', ',', '(', ')', '*'].contains c

/-- The text can be part of a statement. -/
def Fits (text : List Char) : Prop := ∀ c ∈ text, isStatementChar c = true

theorem fits_append : Fits (a ++ b) ↔ Fits a ∧ Fits b := List.forall_mem_append

theorem fits_cons {c : Char} : Fits (c :: a) ↔ isStatementChar c = true ∧ Fits a :=
  List.forall_mem_cons

instance : Decidable (Fits text) := List.decidableBAll (isStatementChar · = true) text

/-- The text is found in a line as it was put there. -/
structure Stands (text : List Char) : Prop where
  ne_nil : text ≠ []
  tight : Tight text
  fits : Fits text

theorem Stands.around (ha : Stands a) (hm : Fits m) (hb : Stands b) : Stands (a ++ m ++ b) :=
  ⟨by simp [ha.ne_nil], .between ha.ne_nil ha.tight hb.ne_nil hb.tight,
    fits_append.2 ⟨fits_append.2 ⟨ha.fits, hm⟩, hb.fits⟩⟩

/-- Whatever has no blanks stands in a line. -/
theorem stands_of_forall (hne : text ≠ [])
    (h : ∀ c ∈ text, isStatementChar c = true ∧ isBlank c = false) : Stands text :=
  ⟨hne, tight_of_forall fun c hc => (h c hc).2, fun c hc => (h c hc).1⟩

theorem stands_word (h : isIdent w = true) : Stands w :=
  stands_of_forall (ne_nil_of_isIdent h) fun c hc => by
    have rest := isIdentRest_of_mem h c hc
    exact ⟨by simp [isStatementChar, rest], isBlank_of_isIdentRest rest⟩

theorem mem_methodName {c : Char} (h : isMethodName w = true) (hc : c ∈ w) :
    isIdentRest c = true ∨ c = '.' := by
  rw [← join_pieces '.' w] at hc
  obtain rfl | ⟨p, hp, hc⟩ := mem_join hc
  · exact .inr rfl
  · exact .inl (isIdentRest_of_mem (List.all_eq_true.1 h p hp) c hc)

theorem stands_methodName (h : isMethodName w = true) : Stands w := by
  refine stands_of_forall ?_ fun c hc => ?_
  · rintro rfl
    cases h
  · obtain rest | rfl := mem_methodName h hc
    · exact ⟨by simp [isStatementChar, rest], isBlank_of_isIdentRest rest⟩
    · decide

/-! ## The parts of statements -/

/-- The names between commas. -/
def names (vars : List Var) : List Char := (Instruction.listText vars).toList

/-- Names in brackets behind another name. -/
def invocation (name : List Char) (vars : List Var) : List Char :=
  name ++ '(' :: (names vars ++ [')'])

/-- Two names around a dot. -/
def dotted (left right : List Char) : List Char := left ++ '.' :: right

def assignment (left right : List Char) : List Char := left ++ ' ' :: '=' :: ' ' :: right

theorem names_singleton : names [v] = v.name.toList := by
  simp [names, Instruction.listText]

theorem names_cons_cons {u : Var} :
    names (v :: u :: vars) = v.name.toList ++ ',' :: ' ' :: names (u :: vars) := by
  simp [names, Instruction.listText]

theorem stands_names (hne : vars ≠ []) (h : ∀ v ∈ vars, IsVarOf method v) : Stands (names vars) := by
  induction vars with
  | nil => exact absurd rfl hne
  | cons v vars ih =>
    have first := stands_word (h v List.mem_cons_self).isIdent
    cases vars with
    | nil => exact names_singleton ▸ first
    | cons u vars =>
      have rest := ih (List.cons_ne_nil u vars) fun u hu => h u (List.mem_cons_of_mem v hu)
      have e : names (v :: u :: vars) = v.name.toList ++ [',', ' '] ++ names (u :: vars) := by
        rw [names_cons_cons]
        simp
      exact e ▸ first.around (by decide) rest

theorem fits_names (h : ∀ v ∈ vars, IsVarOf method v) : Fits (names vars) := by
  cases vars with
  | nil => decide
  | cons v vars => exact (stands_names (List.cons_ne_nil v vars) h).fits

theorem stands_invocation {name : List Char} (hn : Stands name) (h : ∀ v ∈ vars, IsVarOf method v) :
    Stands (invocation name vars) := by
  have e : invocation name vars = name ++ ('(' :: names vars) ++ [')'] := by simp [invocation]
  exact e ▸ hn.around (fits_cons.2 ⟨by decide, fits_names h⟩)
    (stands_of_forall (by decide) (List.forall_mem_singleton.2 (by decide)))

theorem stands_dotted (ha : isIdent a = true) (hb : isIdent b = true) : Stands (dotted a b) := by
  have e : dotted a b = a ++ ['.'] ++ b := by simp [dotted]
  exact e ▸ (stands_word ha).around (by decide) (stands_word hb)

theorem Stands.assignment (ha : Stands a) (hb : Stands b) : Stands (assignment a b) := by
  have e : Source.assignment a b = a ++ [' ', '=', ' '] ++ b := by simp [Source.assignment]
  exact e ▸ ha.around (by decide) hb

/-- A text behind a word and a blank. -/
theorem Stands.behind (hb : Stands b) (hw : isIdent w = true) : Stands (w ++ [' '] ++ b) :=
  (stands_word hw).around (by decide) hb

theorem callText_static {m : MethodName} :
    (Instruction.callText (.static m) vars).toList =
      "call ".toList ++ invocation m.name.toList vars := by
  show (s!"call {m.text}({Instruction.listText vars})").toList = _
  simp [invocation, names, MethodName.text, toString]

theorem callText_virtual {name : String} :
    (Instruction.callText (.virtual name) (v :: vars)).toList =
      "vcall ".toList ++ invocation (dotted v.name.toList name.toList) vars := by
  show (s!"vcall {v.name}.{name}({Instruction.listText vars})").toList = _
  simp [invocation, dotted, names, toString]

theorem stands_callText {callee : Callee} (hc : isCallable callee vars = true)
    (hv : ∀ v ∈ vars, IsVarOf method v) : Stands (Instruction.callText callee vars).toList := by
  cases callee with
  | static m =>
    have call := stands_invocation (stands_methodName hc) hv
    exact callText_static ▸ show Stands ("call".toList ++ [' '] ++ _) from call.behind (by decide)
  | virtual name =>
    cases vars with
    | nil => simp [isCallable] at hc
    | cons v vars =>
      have hn : isIdent name.toList = true := by simpa [isCallable] using hc
      have receiver := (hv v List.mem_cons_self).isIdent
      have call := stands_invocation (stands_dotted receiver hn) fun u hu =>
        hv u (List.mem_cons_of_mem v hu)
      exact callText_virtual ▸ show Stands ("vcall".toList ++ [' '] ++ _) from call.behind (by decide)

/-! ## Statements -/

section Shapes

variable {dest base value : Var} {field : String} {callee : Callee} {args : List Var}

theorem text_new {type : ClassName} : (Instruction.new dest type).text.toList =
    assignment dest.name.toList ("new ".toList ++ type.name.toList) := by
  show (s!"{dest.name} = new {type.text}").toList = _
  simp [assignment, toString, ClassName.text]

theorem text_null :
    (Instruction.null dest).text.toList = assignment dest.name.toList "null".toList := by
  show (s!"{dest.name} = null").toList = _
  simp [assignment, toString]

theorem text_assign : (Instruction.assign dest value).text.toList =
    assignment dest.name.toList value.name.toList := by
  show (s!"{dest.name} = {value.name}").toList = _
  simp [assignment, toString]

theorem text_store : (Instruction.store base (.named field) value).text.toList =
    assignment (dotted base.name.toList field.toList) value.name.toList := by
  show (s!"{base.name}.{field} = {value.name}").toList = _
  simp [assignment, dotted, toString]

theorem text_load : (Instruction.load dest base (.named field)).text.toList =
    assignment dest.name.toList (dotted base.name.toList field.toList) := by
  show (s!"{dest.name} = {base.name}.{field}").toList = _
  simp [assignment, dotted, toString]

theorem text_call : (Instruction.call (some dest) callee args).text.toList =
    assignment dest.name.toList (Instruction.callText callee args).toList := by
  show (s!"{dest.name} = " ++ Instruction.callText callee args).toList = _
  simp [assignment, toString]

theorem text_ret :
    (Instruction.ret (some value)).text.toList = "return ".toList ++ value.name.toList := by
  show (s!"return {value.name}").toList = _
  simp [toString]

end Shapes

theorem stands_new {type : List Char} (h : isIdent type = true) : Stands ("new ".toList ++ type) :=
  show Stands ("new".toList ++ [' '] ++ type) from (stands_word h).behind (by decide)

/-- The text of an instruction stands in a line as it is. -/
theorem stands_text (h : Writable method i) : Stands i.text.toList := by
  cases i with
  | new dest type => exact text_new ▸ (stands_word h.1.isIdent).assignment (stands_new h.2)
  | null dest =>
    exact text_null ▸ (stands_word (IsVarOf.isIdent h)).assignment (stands_word (by decide))
  | assign dest value =>
    exact text_assign ▸ (stands_word h.1.isIdent).assignment (stands_word h.2.isIdent)
  | store base field value =>
    obtain ⟨hb, hf, hv⟩ := h
    cases field with
    | epsilon => cases hf
    | named field =>
      exact text_store ▸ (stands_dotted hb.isIdent hf).assignment (stands_word hv.isIdent)
  | load dest base field =>
    obtain ⟨hd, hb, hf⟩ := h
    cases field with
    | epsilon => cases hf
    | named field =>
      exact text_load ▸ (stands_word hd.isIdent).assignment (stands_dotted hb.isIdent hf)
  | call dest callee args =>
    obtain ⟨hd, hc, ha⟩ := h
    cases dest with
    | none => exact stands_callText hc ha
    | some dest =>
      exact text_call ▸ (stands_word (hd dest rfl).isIdent).assignment (stands_callText hc ha)
  | ret value =>
    cases value with
    | none => exact stands_word (w := "return".toList) (by decide)
    | some value =>
      exact text_ret ▸ show Stands ("return".toList ++ [' '] ++ _) from
        (stands_word (h value rfl).isIdent).behind (by decide)
  | nop => exact stands_word (w := "nop".toList) (by decide)

theorem stands_statementText (h : WritableLine method line) : Stands line.statementText.toList := by
  obtain ⟨-, hi, hj⟩ := h
  unfold Line.statementText
  split
  · exact stands_text hi
  · next label jump =>
    have word := isIdent_of_isFreeIdent (hj label (by rw [jump]; rfl)).2
    rw [String.toList_append]
    exact show Stands ("goto".toList ++ [' '] ++ _) from (stands_word word).behind (by decide)
  · next label jump =>
    have word := isIdent_of_isFreeIdent (hj label (by rw [jump]; rfl)).2
    rw [String.toList_append]
    exact show Stands ("if".toList ++ " * goto ".toList ++ _) from
      (stands_word (by decide)).around (by decide) (stands_word word)

end Source

end PointsTo
