import PointsTo.Proofs.Source.Writing

/-!
# Programs that were written down are read back

The reader accepts the text of a list of methods exactly if the methods make a program, and answers that
program (`readProgram_programText`). A statement is not lost among the forms a line may have: variables
are no keywords, so a text begins like a keyword only if it is meant to (`readStatement_assignment`),
and `Stands` keeps the marks of comments and labels out of it. One lemma says of each form of line what
it does to a `Reader` (`line_header`, `line_statement`, `line_close`); from them, by induction over the
lines and then over the methods, what a whole text does.
-/

namespace PointsTo

namespace Source

open Text

variable {method : MethodName} {dest : Option Var} {v : Var} {vars : List Var}
  {w a b left right text : List Char} {i : Instruction} {line : Line} {d : Draft} {ds : List Draft}

/-! ## Variables and lists of them -/

theorem IsVarOf.readVar (h : IsVarOf method v) : readVar method v.name.toList = .ok v := by
  unfold Source.readVar
  dsimp only
  rw [(stands_word h.isIdent).tight.trim_eq, if_pos h.2, String.ofList_toList, ← h.1]

theorem readVars_names (h : ∀ v ∈ vars, IsVarOf method v) :
    (vars.map fun v => v.name.toList).mapM (readVar method) = .ok vars := by
  induction vars with
  | nil => rfl
  | cons v vars ih =>
    rw [List.map_cons, List.mapM_cons, (h v List.mem_cons_self).readVar,
      ih fun u hu => h u (List.mem_cons_of_mem v hu)]
    rfl

theorem map_trim_pieces_blank_cons (text : List Char) :
    (pieces ',' (' ' :: text)).map trim = (pieces ',' text).map trim := by
  rw [pieces, if_neg (by decide)]
  cases e : pieces ',' text with
  | nil => exact absurd e (pieces_ne_nil ',' text)
  | cons p ps => simp [trim_blank_cons (c := ' ') (by decide)]

/-- The pieces between commas are the names. -/
theorem pieces_names (hne : vars ≠ []) (h : ∀ v ∈ vars, IsVarOf method v) :
    (pieces ',' (names vars)).map trim = vars.map fun v => v.name.toList := by
  induction vars with
  | nil => exact absurd rfl hne
  | cons v vars ih =>
    have word := (h v List.mem_cons_self).isIdent
    have no_comma : ',' ∉ v.name.toList := not_mem_of_isIdent word (by decide)
    have tight := (stands_word word).tight.trim_eq
    cases vars with
    | nil => rw [names_singleton, pieces_of_not_mem no_comma]; simp [tight]
    | cons u vars =>
      rw [names_cons_cons, pieces_append no_comma, List.map_cons, map_trim_pieces_blank_cons,
        ih (List.cons_ne_nil u vars) fun u hu => h u (List.mem_cons_of_mem v hu), tight]
      rfl

/-! ## Calls -/

/-- A name and, in brackets, the names of variables. -/
theorem readInvocation_names {name : List Char} (hn : Stands name) (no_bracket : '(' ∉ name)
    (h : ∀ v ∈ vars, IsVarOf method v) (ht : trim text = invocation name vars) :
    readInvocation text = .ok (name, vars.map fun v => v.name.toList) := by
  unfold readInvocation
  dsimp only
  rw [ht, invocation, cut_append no_bracket]
  dsimp only
  rw [show before? [')'] (names vars ++ [')']) = some (names vars) from
    List.isSuffixOf?_eq_some_iff_append_eq.2 rfl, hn.tight.trim_eq]
  dsimp only
  cases vars with
  | nil => rfl
  | cons v vars =>
    have stands := stands_names (List.cons_ne_nil v vars) h
    rw [stands.tight.trim_eq, if_neg (by simpa using stands.ne_nil),
      pieces_names (List.cons_ne_nil v vars) h]

theorem dotted?_dotted (ha : isIdent a = true) (hb : isIdent b = true) :
    dotted? (dotted a b) = some (a, b) := by
  rw [dotted?, (stands_dotted ha hb).tight.trim_eq, dotted,
    cut_append (not_mem_of_isIdent ha (by decide))]
  simp [(stands_word ha).tight.trim_eq, (stands_word hb).tight.trim_eq, ha, hb]

theorem dotted?_of_word (h : isIdent a = true) : dotted? a = none := by
  rw [dotted?, (stands_word h).tight.trim_eq, cut_eq_none (not_mem_of_isIdent h (by decide))]
  rfl

theorem not_mem_dotted {c : Char} (ha : isIdent a = true) (hb : isIdent b = true)
    (hc : isIdentRest c = false) (hd : c ≠ '.') : c ∉ dotted a b := by
  simp [dotted, not_mem_of_isIdent ha hc, not_mem_of_isIdent hb hc, hd]

theorem not_mem_methodName {c : Char} (h : isMethodName w = true) (hc : isIdentRest c = false)
    (hd : c ≠ '.') : c ∉ w :=
  fun hw => (mem_methodName h hw).elim (by simp [hc]) hd

theorem readStaticCall_invocation {m : MethodName} (hm : isMethodName m.name.toList = true)
    (hv : ∀ v ∈ vars, IsVarOf method v) :
    readStaticCall method dest (invocation m.name.toList vars) = .ok (.call dest (.static m) vars) := by
  have name := stands_methodName hm
  rw [readStaticCall, readInvocation_names name (not_mem_methodName hm (by decide) (by decide)) hv
    (stands_invocation name hv).tight.trim_eq]
  simp [bind, Except.bind, hm, readVars_names hv, pure, Except.pure]

theorem readVirtualCall_invocation {name : String} (hn : isIdent name.toList = true)
    (hv : ∀ u ∈ v :: vars, IsVarOf method u) :
    readVirtualCall method dest (invocation (dotted v.name.toList name.toList) vars) =
      .ok (.call dest (.virtual name) (v :: vars)) := by
  have receiver := hv v List.mem_cons_self
  have args : ∀ u ∈ vars, IsVarOf method u := fun u hu => hv u (List.mem_cons_of_mem v hu)
  have target := stands_dotted receiver.isIdent hn
  rw [readVirtualCall, readInvocation_names target
    (not_mem_dotted receiver.isIdent hn (by decide) (by decide)) args
    (stands_invocation target args).tight.trim_eq]
  simp [bind, Except.bind, dotted?_dotted receiver.isIdent hn, receiver.readVar,
    readVars_names args, pure, Except.pure]

/-- What follows the beginning of a text. -/
theorem after?_append (start text : List Char) : after? start (start ++ text) = some text :=
  List.isPrefixOf?_eq_some_iff_append_eq.2 rfl

/-- Calls are read back. -/
theorem readCall?_callText {callee : Callee} (hc : isCallable callee vars = true)
    (hv : ∀ v ∈ vars, IsVarOf method v) :
    readCall? method dest (Instruction.callText callee vars).toList =
      some (.ok (.call dest callee vars)) := by
  cases callee with
  | static m =>
    have other : after? "vcall ".toList ("call ".toList ++ invocation m.name.toList vars) = none := rfl
    rw [callText_static, readCall?, other]
    dsimp only
    rw [after?_append, Option.map_some, readStaticCall_invocation hc hv]
  | virtual name =>
    cases vars with
    | nil => simp [isCallable] at hc
    | cons v vars =>
      have hn : isIdent name.toList = true := by simpa [isCallable] using hc
      rw [callText_virtual, readCall?, after?_append]
      dsimp only
      rw [readVirtualCall_invocation hn hv]

/-- The first letter of a call tells it from all other statements. -/
theorem exists_callText {callee : Callee} (hc : isCallable callee vars = true) :
    ∃ r, (Instruction.callText callee vars).toList = 'c' :: r ∨
      (Instruction.callText callee vars).toList = 'v' :: r := by
  cases callee with
  | static m => exact ⟨_, .inl callText_static⟩
  | virtual name =>
    cases vars with
    | nil => simp [isCallable] at hc
    | cons v vars => exact ⟨_, .inr callText_virtual⟩

/-! ## Assignments -/

theorem readCall?_eq_none (h : firstWord text ∉ keywords) : readCall? method dest text = none := by
  have hv : after? "vcall ".toList text = none := after?_keyword (k := "vcall".toList) (by decide) h
  have hc : after? "call ".toList text = none := after?_keyword (k := "call".toList) (by decide) h
  rw [readCall?, hv]
  dsimp only
  rw [hc]
  rfl

/-- What is assigned is read by its form if it does not begin with a keyword. -/
theorem readRight_of_free {dest : Var} (h : firstWord right ∉ keywords) :
    readRight method dest right = match dotted? right with
      | some (base, field) => do
        return .load dest (← readVar method base) (.named (String.ofList field))
      | none => do return .assign dest (← readVar method right) := by
  have hn : after? "new ".toList right = none := after?_keyword (k := "new".toList) (by decide) h
  rw [readRight, hn]
  dsimp only
  rw [if_neg (ne_keyword (by decide) h), readCall?_eq_none h]
  dsimp only
  cases dotted? right <;> rfl

/-- A text with a sign of assignment is an assignment if it does not begin with a keyword. -/
theorem readStatement_assignment (h : firstWord left ∉ keywords) (no_sign : '=' ∉ left)
    (hl : Stands left) (hr : Stands right) :
    readStatement method (assignment left right) =
      (readAssignment method left right).map (·, .next) := by
  have free : firstWord (assignment left right) ∉ keywords := by
    rwa [assignment, firstWord_append (by decide)]
  have hret : after? "return ".toList (assignment left right) = none :=
    after?_keyword (k := "return".toList) (by decide) free
  have hgoto : after? "goto ".toList (assignment left right) = none :=
    after?_keyword (k := "goto".toList) (by decide) free
  have hif : after? "if ".toList (assignment left right) = none :=
    after?_keyword (k := "if".toList) (by decide) free
  have hcut : cut '=' (assignment left right) = some (left ++ [' '], ' ' :: right) :=
    cut_eq_some_iff.2 ⟨by simp [assignment], by simp [no_sign]⟩
  rw [readStatement, if_neg (ne_keyword (by decide) free), if_neg (ne_keyword (by decide) free), hret]
  dsimp only
  rw [hgoto]
  dsimp only
  rw [hif]
  dsimp only
  rw [readCall?_eq_none free]
  dsimp only
  rw [hcut]
  dsimp only
  rw [trim_append_blank hl.tight (by decide), trim_blank_cons (by decide), hr.tight.trim_eq]
  cases readAssignment method left right <;> rfl

theorem IsVarOf.not_keyword (h : IsVarOf method v) : firstWord v.name.toList ∉ keywords := by
  rw [firstWord_of_isIdent h.isIdent]
  exact not_mem_keywords h.2

theorem IsVarOf.not_keyword_dot (h : IsVarOf method v) :
    firstWord (dotted v.name.toList w) ∉ keywords := by
  rw [dotted, firstWord_append (by decide)]
  exact h.not_keyword

/-- What is assigned to a variable is read back with the variable. -/
theorem readStatement_dest (h : IsVarOf method v) (stands : Stands right)
    (hr : readRight method v right = .ok i) :
    readStatement method (assignment v.name.toList right) = .ok (i, .next) := by
  have word := h.isIdent
  rw [readStatement_assignment h.not_keyword (not_mem_of_isIdent word (by decide))
    (stands_word word) stands, readAssignment, dotted?_of_word word]
  dsimp only
  rw [h.readVar]
  simp [bind, Except.bind, hr, Except.map]

theorem readStatement_field {base value : Var} {field : String} (hb : IsVarOf method base)
    (hf : isIdent field.toList = true) (hv : IsVarOf method value) :
    readStatement method (assignment (dotted base.name.toList field.toList) value.name.toList) =
      .ok (.store base (.named field) value, .next) := by
  rw [readStatement_assignment hb.not_keyword_dot
    (not_mem_dotted hb.isIdent hf (by decide) (by decide)) (stands_dotted hb.isIdent hf)
    (stands_word hv.isIdent), readAssignment, dotted?_dotted hb.isIdent hf]
  dsimp only
  rw [hb.readVar, hv.readVar]
  simp [bind, Except.bind, pure, Except.pure, Except.map]

theorem readRight_new {type : ClassName} (h : isIdent type.name.toList = true) :
    readRight method v ("new ".toList ++ type.name.toList) = .ok (.new v type) := by
  rw [readRight, after?_append]
  dsimp only
  rw [readType]
  simp [(stands_word h).tight.trim_eq, h, bind, Except.bind, pure, Except.pure]

theorem readRight_call {callee : Callee} (hc : isCallable callee vars = true)
    (hv : ∀ v ∈ vars, IsVarOf method v) :
    readRight method v (Instruction.callText callee vars).toList =
      .ok (.call (some v) callee vars) := by
  have read : readCall? method (some v) _ = _ := readCall?_callText hc hv
  obtain ⟨r, e | e⟩ := exists_callText hc <;> rw [e] at read ⊢ <;>
    rw [readRight, show after? "new ".toList _ = none from rfl] <;> dsimp only <;>
    rw [if_neg (by simp), read]

theorem readRight_load {base : Var} {field : String} (hb : IsVarOf method base)
    (hf : isIdent field.toList = true) :
    readRight method v (dotted base.name.toList field.toList) =
      .ok (.load v base (.named field)) := by
  rw [readRight_of_free hb.not_keyword_dot, dotted?_dotted hb.isIdent hf]
  dsimp only
  rw [hb.readVar]
  simp [bind, Except.bind, pure, Except.pure]

theorem readRight_assign {value : Var} (h : IsVarOf method value) :
    readRight method v value.name.toList = .ok (.assign v value) := by
  rw [readRight_of_free h.not_keyword, dotted?_of_word h.isIdent]
  dsimp only
  rw [h.readVar]
  rfl

/-! ## Statements -/

theorem readStatement_call {callee : Callee} (hc : isCallable callee vars = true)
    (hv : ∀ v ∈ vars, IsVarOf method v) :
    readStatement method (Instruction.callText callee vars).toList =
      .ok (.call none callee vars, .next) := by
  have read : readCall? method none _ = _ := readCall?_callText hc hv
  obtain ⟨r, e | e⟩ := exists_callText hc <;> rw [e] at read ⊢ <;>
    rw [readStatement, if_neg (by simp), if_neg (by simp),
      show after? "return ".toList _ = none from rfl] <;> dsimp only <;>
    rw [show after? "goto ".toList _ = none from rfl] <;> dsimp only <;>
    rw [show after? "if ".toList _ = none from rfl] <;> dsimp only <;> rw [read] <;> rfl

/-- Every instruction is read back from its text. -/
theorem readStatement_text (h : Writable method i) :
    readStatement method i.text.toList = .ok (i, .next) := by
  cases i with
  | new dest type =>
    rw [text_new, readStatement_dest h.1 (stands_new h.2) (readRight_new h.2)]
  | null dest => rw [text_null, readStatement_dest h (stands_word (by decide)) rfl]
  | assign dest value =>
    rw [text_assign, readStatement_dest h.1 (stands_word h.2.isIdent) (readRight_assign h.2)]
  | store base field value =>
    obtain ⟨hb, hf, hv⟩ := h
    cases field with
    | epsilon => cases hf
    | named field => rw [text_store, readStatement_field hb hf hv]
  | load dest base field =>
    obtain ⟨hd, hb, hf⟩ := h
    cases field with
    | epsilon => cases hf
    | named field =>
      rw [text_load, readStatement_dest hd (stands_dotted hb.isIdent hf) (readRight_load hb hf)]
  | call dest callee args =>
    obtain ⟨hd, hc, ha⟩ := h
    cases dest with
    | none => exact readStatement_call hc ha
    | some dest =>
      rw [text_call, readStatement_dest (hd dest rfl) (stands_callText hc ha) (readRight_call hc ha)]
  | ret value =>
    cases value with
    | none => rfl
    | some value =>
      rw [text_ret, readStatement, if_neg (by simp), if_neg (by simp), after?_append]
      dsimp only
      rw [(h value rfl).readVar]
      rfl
  | nop => rfl

theorem readLabel_of_free {label : String} (h : isFreeIdent label.toList = true) :
    readLabel label.toList = .ok label := by
  unfold readLabel
  dsimp only
  rw [(stands_word (isIdent_of_isFreeIdent h)).tight.trim_eq, if_pos h, String.ofList_toList]

theorem readStatement_goto {label : String} (h : isFreeIdent label.toList = true) :
    readStatement method ("goto ".toList ++ label.toList) = .ok (.nop, .goto label) := by
  rw [readStatement, if_neg (by simp), if_neg (by simp), show after? "return ".toList _ = none from rfl]
  dsimp only
  rw [after?_append]
  dsimp only
  rw [readLabel_of_free h]
  rfl

theorem branchTarget?_eq (h : Stands w) : branchTarget? ("* goto ".toList ++ w) = some w := by
  have outer : Stands ("* goto ".toList ++ w) :=
    show Stands (['*'] ++ " goto ".toList ++ w) from
      (stands_of_forall (by decide) (List.forall_mem_singleton.2 (by decide))).around (by decide) h
  have inner : trim (" goto ".toList ++ w) = "goto ".toList ++ w :=
    (trim_blank_cons (by decide)).trans
      (show Stands ("goto".toList ++ [' '] ++ w) from h.behind (by decide)).tight.trim_eq
  rw [branchTarget?, outer.tight.trim_eq,
    show after? ['*'] ("* goto ".toList ++ w) = some (" goto ".toList ++ w) from
      after?_append ['*'] (" goto ".toList ++ w), Option.bind_eq_bind, Option.bind_some, inner,
    after?_append]

theorem readStatement_branch {label : String} (h : isFreeIdent label.toList = true) :
    readStatement method ("if * goto ".toList ++ label.toList) = .ok (.nop, .branch label) := by
  have word := stands_word (isIdent_of_isFreeIdent h)
  rw [readStatement, if_neg (by simp), if_neg (by simp), show after? "return ".toList _ = none from rfl]
  dsimp only
  rw [show after? "goto ".toList _ = none from rfl]
  dsimp only
  rw [show after? "if ".toList ("if * goto ".toList ++ label.toList) =
    some ("* goto ".toList ++ label.toList) from after?_append "if ".toList _]
  dsimp only
  rw [branchTarget?_eq word]
  dsimp only
  rw [readLabel_of_free h]
  rfl

/-- Every line is read back from the text of its statement. -/
theorem readStatement_statementText (h : WritableLine method line) :
    readStatement method line.statementText.toList = .ok (line.instruction, line.jump) := by
  obtain ⟨-, hi, hj⟩ := h
  unfold Line.statementText
  split
  · next jump => rw [readStatement_text hi, jump]
  · next label jump =>
    obtain ⟨nop, free⟩ := hj label (by rw [jump]; rfl)
    rw [String.toList_append, readStatement_goto free, nop, jump]
  · next label jump =>
    obtain ⟨nop, free⟩ := hj label (by rw [jump]; rfl)
    rw [String.toList_append, readStatement_branch free, nop, jump]

/-! ## Lines -/

/-- A line that is neither cut nor trimmed when it is read. -/
structure Whole (raw : List Char) : Prop where
  ne_nil : raw ≠ []
  tight : Tight raw
  no_comment : '#' ∉ raw
  no_feed : '\n' ∉ raw

theorem Whole.content_eq (h : Whole text) : Reader.content text = text := by
  have uncut : text.takeWhile (· ≠ '#') = text :=
    List.takeWhile_eq_self_iff.2 fun c hc => by simpa using ne_of_mem_of_not_mem hc h.no_comment
  rw [Reader.content, uncut, h.tight.trim_eq]

theorem Stands.not_mem {c : Char} (h : Stands text) (hc : isStatementChar c = false) : c ∉ text := by
  intro hm
  rw [h.fits c hm] at hc
  cases hc

theorem Stands.whole (h : Stands text) : Whole text :=
  ⟨h.ne_nil, h.tight, h.not_mem (by decide), h.not_mem (by decide)⟩

/-- Something else between two texts that stand. -/
theorem Stands.whole_around {m : List Char} (ha : Stands a) (hm : '#' ∉ m ∧ '\n' ∉ m)
    (hb : Whole b) : Whole (a ++ m ++ b) where
  ne_nil := by simp [ha.ne_nil]
  tight := .between ha.ne_nil ha.tight hb.ne_nil hb.tight
  no_comment := by simp [ha.whole.no_comment, hm.1, hb.no_comment]
  no_feed := by simp [ha.whole.no_feed, hm.2, hb.no_feed]

theorem text_labelled {label : String} (h : line.label = some label) :
    line.text.toList = label.toList ++ [':', ' '] ++ line.statementText.toList := by
  simp [Line.text, h]

theorem text_unlabelled (h : line.label = none) : line.text = line.statementText := by
  simp [Line.text, h]

theorem whole_text (h : WritableLine method line) : Whole line.text.toList := by
  have statement := (stands_statementText h).whole
  cases hl : line.label with
  | none => exact text_unlabelled hl ▸ statement
  | some label =>
    have word := stands_word (isIdent_of_isFreeIdent (h.1 label hl))
    exact text_labelled hl ▸ word.whole_around (by decide) statement

theorem whole_opening : Whole ['\x7b'] :=
  ⟨by decide, tight_of_forall (List.forall_mem_singleton.2 (by decide)), by decide, by decide⟩

theorem whole_closing : Whole ['\x7d'] :=
  ⟨by decide, tight_of_forall (List.forall_mem_singleton.2 (by decide)), by decide, by decide⟩

/-- The header is a signature before the brace that opens the method. -/
theorem header_eq : d.header.toList =
    "method ".toList ++ (invocation d.method.name.toList d.parameters ++ [' ', '\x7b']) := by
  simp [Draft.header, invocation, names, MethodName.text]

theorem stands_signature (h : WritableDraft d) :
    Stands (invocation d.method.name.toList d.parameters) :=
  stands_invocation (stands_methodName h.1) h.2.1

theorem whole_header (h : WritableDraft d) : Whole d.header.toList := by
  have signature : Stands ("method".toList ++ [' '] ++ invocation d.method.name.toList d.parameters) :=
    (stands_signature h).behind (by decide)
  have e : d.header.toList = "method".toList ++ [' '] ++
      invocation d.method.name.toList d.parameters ++ [' '] ++ ['\x7b'] := by
    rw [header_eq]
    simp
  exact e ▸ signature.whole_around (by decide) whole_opening

theorem whole_texts (h : WritableDraft d) : ∀ text ∈ d.texts, Whole text.toList := by
  intro text ht
  obtain ht | ht := List.mem_append.1 ht
  · obtain rfl | ht := List.mem_cons.1 ht
    · exact whole_header h
    · obtain ⟨line, hl, rfl⟩ := List.mem_map.1 ht
      exact whole_text (h.2.2 line hl)
  · rw [List.mem_singleton.1 ht]
    exact whole_closing

theorem text_ne_brace (h : WritableLine method line) : line.text.toList ≠ ['\x7d'] := by
  intro e
  have no_brace : '\x7d' ∉ line.statementText.toList := (stands_statementText h).not_mem (by decide)
  cases hl : line.label with
  | none => simp [← text_unlabelled hl, e] at no_brace
  | some label =>
    have short := congrArg List.length e
    simp [text_labelled hl] at short
    omega

namespace OpenMethod

variable {parameters : List Var} {earlier : List Line}

theorem statement_statementText (h : WritableLine method line) :
    OpenMethod.statement ⟨method, parameters, earlier, line.label⟩ line.statementText.toList =
      .ok ⟨method, parameters, earlier ++ [line], none⟩ := by
  rw [OpenMethod.statement, readStatement_statementText h]
  rfl

/-- A line is added to an open method, with its label if it has one. -/
theorem line_text (h : WritableLine method line) :
    OpenMethod.line ⟨method, parameters, earlier, none⟩ line.text.toList =
      .ok ⟨method, parameters, earlier ++ [line], none⟩ := by
  have stands := stands_statementText h
  rw [← statement_statementText h, OpenMethod.line]
  cases hl : line.label with
  | none =>
    have unlabelled : labelled? line.statementText.toList = none := by
      rw [labelled?, cut_eq_none (stands.not_mem (by decide))]
      rfl
    rw [text_unlabelled hl, unlabelled]
  | some label =>
    have free := h.1 label hl
    have word := isIdent_of_isFreeIdent free
    have cutting : cut ':' line.text.toList =
        some (label.toList, ' ' :: line.statementText.toList) := by
      rw [text_labelled hl, List.append_assoc, List.cons_append]
      exact cut_append (not_mem_of_isIdent word (by decide))
    have labelled : labelled? line.text.toList =
        some (label.toList, line.statementText.toList) := by
      rw [labelled?, cutting]
      simp [(stands_word word).tight.trim_eq, word, trim_blank_cons (c := ' ') (by decide),
        stands.tight.trim_eq]
    rw [labelled]
    dsimp only
    rw [if_neg (by decide), readLabel_of_free free]
    simp [bind, Except.bind, stands.ne_nil]

end OpenMethod

theorem readHeader_header (h : WritableDraft d) :
    readHeader d.header.toList = .ok (d.method, d.parameters) := by
  have signature := stands_signature h
  have whole := signature.whole_around (m := [' ']) (by decide) whole_opening
  rw [List.append_assoc, List.singleton_append] at whole
  have opened : before? ['\x7b'] (invocation d.method.name.toList d.parameters ++ [' ', '\x7b']) =
      some (invocation d.method.name.toList d.parameters ++ [' ']) :=
    List.isSuffixOf?_eq_some_iff_append_eq.2 (by simp)
  have name := stands_methodName h.1
  rw [readHeader, header_eq, after?_append, Option.bind_eq_bind, Option.bind_some,
    whole.tight.trim_eq, opened]
  dsimp only
  rw [readInvocation_names name (not_mem_methodName h.1 (by decide) (by decide)) h.2.1
    (trim_append_blank signature.tight (by decide))]
  simp [bind, Except.bind, h.1, readVars_names h.2.1, pure, Except.pure]

/-! ## Programs -/

namespace Reader

variable {bodies : List Body} {r : Reader} {m : OpenMethod} {number : Nat} {parameters : List Var}
  {earlier : List Line} {ls : List Line} {raws rest : List (List Char)}

/-- The header opens a method. -/
theorem line_header (h : WritableDraft d) :
    Reader.line ⟨bodies, none⟩ d.header.toList =
      .ok ⟨bodies, some ⟨d.method, d.parameters, [], none⟩⟩ := by
  have whole := whole_header h
  rw [Reader.line]
  dsimp only
  rw [whole.content_eq, if_neg (by simpa using whole.ne_nil), readHeader_header h]
  rfl

/-- A line between the braces is added to the open method. -/
theorem line_statement (h : WritableLine method line) :
    Reader.line ⟨bodies, some ⟨method, parameters, earlier, none⟩⟩ line.text.toList =
      .ok ⟨bodies, some ⟨method, parameters, earlier ++ [line], none⟩⟩ := by
  have whole := whole_text h
  rw [Reader.line]
  dsimp only
  rw [whole.content_eq, if_neg (by simpa using whole.ne_nil), if_neg (text_ne_brace h),
    OpenMethod.line_text h]
  rfl

/-- The closing brace lays out the body of the open method. -/
theorem line_close :
    Reader.line ⟨bodies, some ⟨method, parameters, ls, none⟩⟩ ['\x7d'] =
      match Body.ofLines method parameters ls with
      | .ok body => .ok ⟨bodies ++ [body], none⟩
      | .error cause => .error (.body cause) := by
  rw [Reader.line]
  dsimp only
  have unlabelled : OpenMethod.close ⟨method, parameters, ls, none⟩ =
      Body.ofLines method parameters ls :=
    congrArg (Body.ofLines method parameters) (List.append_nil ls)
  rw [whole_closing.content_eq, if_neg (by decide), if_pos rfl]
  let read : Except BodyError Body → Except LineError Reader
    | .ok body => .ok ⟨bodies ++ [body], none⟩
    | .error cause => .error (.body cause)
  exact congrArg read unlabelled

/-- The lines between the braces are added one by one. -/
theorem lines_statements (h : ∀ line ∈ ls, WritableLine method line) :
    Reader.lines ⟨bodies, some ⟨method, parameters, earlier, none⟩⟩ number
        (ls.map (·.text.toList) ++ rest) =
      Reader.lines ⟨bodies, some ⟨method, parameters, earlier ++ ls, none⟩⟩ (number + ls.length)
        rest := by
  induction ls generalizing earlier number with
  | nil => simp
  | cons line ls ih =>
    rw [List.map_cons, List.cons_append, Reader.lines, line_statement (h line List.mem_cons_self)]
    dsimp only
    rw [ih fun l hl => h l (List.mem_cons_of_mem line hl), List.append_assoc,
      List.length_cons, Nat.add_assoc, Nat.add_comm 1]
    rfl

/-- A method is read as its body, or its closing brace is where reading fails. -/
theorem lines_texts (h : WritableDraft d) :
    Reader.lines ⟨bodies, none⟩ number (d.texts.map String.toList ++ rest) =
      match d.body with
      | .ok body => Reader.lines ⟨bodies ++ [body], none⟩ (number + d.lines.length + 2) rest
      | .error cause => .error (.inLine (number + d.lines.length + 1) (.body cause)) := by
  have e : d.texts.map String.toList ++ rest =
      d.header.toList :: (d.lines.map (·.text.toList) ++ ['\x7d'] :: rest) := by
    simp [Draft.texts, Function.comp_def]
  rw [e, Reader.lines, line_header h]
  dsimp only
  rw [lines_statements h.2.2, List.nil_append, Reader.lines, line_close, Draft.body]
  cases Body.ofLines d.method d.parameters d.lines with
  | ok body => dsimp only; congr 1; omega
  | error cause => dsimp only; congr 2; omega

/-- Methods are read one after another, as long as they have bodies. -/
theorem lines_programs (h : ∀ d ∈ ds, WritableDraft d) :
    Reader.lines ⟨bodies, none⟩ number ((ds.flatMap Draft.texts).map String.toList) = .ok r ↔
      ∃ bs, ds.mapM Draft.body = .ok bs ∧ r = ⟨bodies ++ bs, none⟩ := by
  induction ds generalizing bodies number with
  | nil => simp [Reader.lines, pure, Except.pure, eq_comm]
  | cons d ds ih =>
    rw [List.flatMap_cons, List.map_append, lines_texts (h d List.mem_cons_self), List.mapM_cons]
    cases d.body with
    | error cause => simp [bind, Except.bind]
    | ok body =>
      dsimp only
      rw [ih fun e he => h e (List.mem_cons_of_mem d he)]
      cases List.mapM Draft.body ds <;> simp [bind, Except.bind, pure, Except.pure]

end Reader

/-- The text of methods is read exactly if the methods make a program, and then as that program. -/
theorem readProgram_programText (h : ∀ d ∈ ds, WritableDraft d) {p : Program} :
    readProgram (programText ds) = .ok p ↔
      ∃ bodies, ds.mapM Draft.body = .ok bodies ∧ Program.ofBodies bodies = .ok p := by
  have split : Text.lines (programText ds).toList = (ds.flatMap Draft.texts).map String.toList := by
    have ended : (ds.flatMap Draft.texts).flatMap (fun text => text.toList ++ ['\n']) =
        ((ds.flatMap Draft.texts).map String.toList).flatMap (· ++ ['\n']) :=
      (List.flatMap_map String.toList (· ++ ['\n']) (ds.flatMap Draft.texts)).symm
    rw [programText, String.toList_ofList, ended, lines_flatMap]
    intro raw hr
    obtain ⟨text, ht, rfl⟩ := List.mem_map.1 hr
    obtain ⟨d, hd, ht⟩ := List.mem_flatMap.1 ht
    exact (whole_texts (h d hd) text ht).no_feed
  rw [readProgram, split, bind_eq_ok]
  constructor
  · rintro ⟨r, hr, hp⟩
    obtain ⟨bodies, hb, rfl⟩ := (Reader.lines_programs h).1 hr
    refine ⟨bodies, hb, ?_⟩
    simp only [Reader.finish] at hp
    split at hp
    · next e => exact e.trans (congrArg Except.ok (Except.ok.inj hp))
    · cases hp
  · rintro ⟨bodies, hb, hp⟩
    refine ⟨_, (Reader.lines_programs h).2 ⟨bodies, hb, rfl⟩, ?_⟩
    simp [Reader.finish, hp]

/-- Two methods with names, fields, types and callees that are keywords. -/
def wordyDrafts : List Draft :=
  let m : MethodName := ⟨"new.call"⟩
  let f : MethodName := ⟨"nop"⟩
  let x : Var := ⟨"x", m⟩
  let y : Var := ⟨"y", m⟩
  let p : Var := ⟨"p", f⟩
  [⟨m, [x, y],
    [⟨some "L", .load x y (.named "null"), .next⟩,
      ⟨none, .call (some x) (.static f) [y], .next⟩,
      ⟨none, .call none (.virtual "goto") [x, y], .next⟩,
      ⟨some "M", .nop, .branch "L"⟩,
      ⟨none, .new y ⟨"method"⟩, .next⟩,
      ⟨none, .nop, .goto "M"⟩]⟩,
    ⟨f, [p], [⟨some "exit", .store p (.named "return") p, .next⟩, ⟨none, .ret (some p), .next⟩]⟩]

theorem readProgram_wordyDrafts : (∀ d ∈ wordyDrafts, WritableDraft d) ∧
    ∃ p, readProgram (programText wordyDrafts) = .ok p := by
  have writable : ∀ d ∈ wordyDrafts, WritableDraft d := by decide +kernel
  have made : ((wordyDrafts.mapM Draft.body).toOption.any fun bodies =>
      (Program.ofBodies bodies).toOption.isSome) = true := by
    decide +kernel
  obtain ⟨bodies, hb, hp⟩ := exists_ok_of_any made
  obtain ⟨p, hp, -⟩ := exists_ok_of_any (x := Program.ofBodies bodies) (P := fun _ => true)
    (by simpa [Option.isSome_iff_exists] using hp)
  exact ⟨writable, p, (readProgram_programText writable).2 ⟨bodies, hb, hp⟩⟩

end Source

end PointsTo
