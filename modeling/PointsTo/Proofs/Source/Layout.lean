import PointsTo.Proofs.Source.Characters

/-!
# The layout of a text

A reader goes through a text line by line, and takes from each what stands there before a comment and
between blanks. Lines in which nothing stands leave it as it is, so it reads of a text what its lines
say, without the empty ones (`saidBy`, `readProgram_eq_ok_iff`). Blank lines, blanks around a line and
comments behind it do not change what a text says. A line break behind a label does, and there the
argument is about the reader: it holds the label until the next statement, and a statement that can be
read has neither a colon nor a closing brace in it, so that the rest of the line is read alone as it was
read behind its label (`Reader.line_broken`).
-/

namespace PointsTo

namespace Text

variable {front back : List Char}

/-! ## Lines -/

/-- The text is empty or its last line has ended, so that what follows begins a line. -/
def EndsLine (front : List Char) : Prop := ∀ c ∈ front.getLast?, c = '\n'

instance (front : List Char) : Decidable (EndsLine front) :=
  Option.decidableForallMem front.getLast?

/-- A line ends before the text: it is over, or begins with a line break. -/
def AtBreak (back : List Char) : Prop :=
  back = [] ∨ ∃ rest, back = '\n' :: rest ∨ back = '\r' :: '\n' :: rest

/-- Lines end where a line ends. -/
theorem lines_append (h : EndsLine front) : lines (front ++ back) = lines front ++ lines back := by
  obtain rfl | ⟨r, c, rfl⟩ := List.eq_nil_or_concat' front
  · rfl
  · obtain rfl : c = '\n' := h c (by simp)
    rw [List.append_assoc, List.singleton_append, lines_append_feed, lines_append_feed]
    simp [lines, pieces]

end Text

namespace Source

open Text

/-! ## What lines say -/

section Contents

variable {front back line before after comment : List Char} {raws raws' : List (List Char)}

theorem content_blanks_append (h : ∀ c ∈ before, isBlank c = true) :
    Reader.content (before ++ line) = Reader.content line := by
  have uncut : ∀ c ∈ before, decide (c ≠ '#') = true := fun c hc => by
    have blank := h c hc
    rw [decide_eq_true_eq]
    rintro rfl
    exact absurd blank (by decide)
  rw [Reader.content, List.takeWhile_append_of_pos uncut, trim_blanks_append h]
  rfl

theorem content_append_blanks (h : ∀ c ∈ after, isBlank c = true) :
    Reader.content (line ++ after) = Reader.content line := by
  rw [Reader.content, Reader.content, List.takeWhile_append]
  split
  · next all =>
    rw [(List.takeWhile_prefix _).eq_of_length all]
    exact trim_append_blanks fun c hc => h c ((List.takeWhile_prefix _).subset hc)
  · rfl

theorem content_comment (line comment : List Char) :
    Reader.content (line ++ '#' :: comment) = Reader.content line := by
  rw [Reader.content, Reader.content, List.takeWhile_append]
  split
  · next all =>
    rw [(List.takeWhile_prefix _).eq_of_length all, List.takeWhile_cons_of_neg (by simp),
      List.append_nil]
  · rfl

/-- What a line says is read as it is. -/
theorem content_content (line : List Char) :
    Reader.content (Reader.content line) = Reader.content line := by
  have uncut : (Reader.content line).takeWhile (· ≠ '#') = Reader.content line :=
    List.takeWhile_eq_self_iff.2 fun c hc =>
      List.mem_takeWhile_imp (p := fun c => decide (c ≠ '#')) (mem_of_mem_trim hc)
  rw [Reader.content, uncut]
  exact trim_trim _

/-- What the lines say that are not blank. -/
def said (raws : List (List Char)) : List (List Char) :=
  (raws.map Reader.content).filter (!·.isEmpty)

theorem said_append : said (raws ++ raws') = said raws ++ said raws' := by simp [said]

theorem said_blank (h : Reader.content line = []) : said [line] = [] := by simp [said, h]

theorem said_congr (h : Reader.content line = Reader.content before) :
    said [line] = said [before] := by simp [said, h]

/-- What the lines of a text say. -/
def saidBy (text : List Char) : List (List Char) := said (lines text)

theorem saidBy_append (h : EndsLine front) : saidBy (front ++ back) = saidBy front ++ saidBy back := by
  rw [saidBy, lines_append h, said_append]
  rfl

theorem saidBy_feed (h : '\n' ∉ line) (back : List Char) :
    saidBy (line ++ '\n' :: back) = said [line] ++ saidBy back := by
  rw [saidBy, lines_append_feed, said_append, pieces_of_not_mem h]
  rfl

/-- A text says what its first line says, and what the rest says. -/
theorem saidBy_line (h : '\n' ∉ line) (hb : AtBreak back) :
    saidBy (line ++ back) = said [line] ++ saidBy back := by
  have nothing : said [([] : List Char)] = [] := said_blank rfl
  obtain rfl | ⟨rest, rfl | rfl⟩ := hb
  · rw [List.append_nil, saidBy, lines, pieces_of_not_mem h]
    by_cases e : line = []
    · subst e
      rfl
    · simp [e]
      rfl
  · rw [saidBy_feed h, ← List.nil_append ('\n' :: rest), saidBy_feed List.not_mem_nil, nothing]
    rfl
  · -- the carriage return is a blank at the end of the line
    have blank : ∀ c ∈ ['\r'], isBlank c = true := List.forall_mem_singleton.2 (by decide)
    have empty : Reader.content ['\r'] = [] := by decide
    rw [show line ++ '\r' :: '\n' :: rest = (line ++ ['\r']) ++ '\n' :: rest by simp,
      show '\r' :: '\n' :: rest = ['\r'] ++ '\n' :: rest from rfl,
      saidBy_feed (by simp [h]), saidBy_feed (by simp),
      said_congr (content_append_blanks blank), said_blank empty]
    rfl

end Contents

/-! ## Reading what lines say -/

namespace Reader

variable {r : Reader} {raw : List Char} {raws raws' : List (List Char)} {number : Nat}

theorem line_congr {raw' : List Char} (h : content raw = content raw') : r.line raw = r.line raw' := by
  rw [Reader.line, Reader.line, h]

theorem line_blank (h : content raw = []) : r.line raw = .ok r := by
  rw [Reader.line, h]
  rfl

/-- The reader after lines, if it can read them all. -/
def readAll? (r : Reader) (raws : List (List Char)) : Option Reader :=
  raws.foldlM (fun r raw => (r.line raw).toOption) r

theorem readAll?_append (r : Reader) (raws raws' : List (List Char)) :
    r.readAll? (raws ++ raws') = (r.readAll? raws).bind (·.readAll? raws') :=
  List.foldlM_append

theorem readAll?_cons (r : Reader) (raw : List Char) (raws : List (List Char)) :
    r.readAll? (raw :: raws) = (r.line raw).toOption.bind (·.readAll? raws) := rfl

/-- The numbers of lines matter to errors only. -/
theorem toOption_lines (r : Reader) (number : Nat) (raws : List (List Char)) :
    (r.lines number raws).toOption = r.readAll? raws := by
  induction raws generalizing r number with
  | nil => rfl
  | cons raw raws ih =>
    rw [Reader.lines, readAll?_cons]
    cases r.line raw with
    | ok r' => exact ih r' (number + 1)
    | error cause => rfl

/-- Lines are read for what they say. -/
theorem readAll?_said (r : Reader) (raws : List (List Char)) :
    r.readAll? (said raws) = r.readAll? raws := by
  induction raws generalizing r with
  | nil => rfl
  | cons raw raws ih =>
    rw [readAll?_cons, show raw :: raws = [raw] ++ raws from rfl, said_append]
    by_cases blank : content raw = []
    · rw [said_blank blank, line_blank blank]
      exact ih r
    · have e : said [raw] = [content raw] := by simp [said, blank]
      rw [e, List.singleton_append, readAll?_cons, line_congr (content_content raw)]
      exact Option.bind_congr fun r' _ => ih r'

/-! ## Labels -/

variable {m n : OpenMethod} {head rest : List Char} {r' : Reader}

theorem content_labelled (word : isIdent (trim head) = true) :
    content (head ++ ':' :: rest) = trimStart head ++ ':' :: trimEnd (rest.takeWhile (· ≠ '#')) := by
  have uncut : ∀ c ∈ head, decide (c ≠ '#') = true := fun c hc =>
    decide_eq_true (ne_of_mem_of_not_mem hc ((loose_of_isIdent word).not_mem (by decide) (by decide)))
  have started : trimStart head ≠ [] := fun none => by
    rw [trim, none] at word
    cases word
  rw [content, List.takeWhile_append_of_pos uncut, List.takeWhile_cons_of_pos (by decide), trim,
    trimStart_append started, trimEnd_append_cons (by decide)]

/-- The label in front of a line, and what the rest of the line says. -/
theorem labelled?_content (word : isIdent (trim head) = true) :
    OpenMethod.labelled? (content (head ++ ':' :: rest)) = some (trimStart head, content rest) := by
  have no_mark : ':' ∉ trimStart head := by
    refine (loose_of_isIdent ?_).not_mem (by decide) (by decide)
    rwa [trim_trimStart]
  rw [content_labelled word, OpenMethod.labelled?, cut_append no_mark]
  simp [trim_trimStart, word, trim_trimEnd, content]

/-- What a line says goes to the open method, unless it is the closing brace. -/
theorem line_open (hm : r.current = some m) (something : content raw ≠ [])
    (no_brace : content raw ≠ ['\x7d']) :
    r.line raw = m.line (content raw) >>= fun n => .ok { r with current := some n } := by
  rw [Reader.line, hm]
  dsimp only
  rw [if_neg (by simpa using something), if_neg no_brace]
  rfl

/-- A line with a label gives the label to the open method, and then what the rest of it says. -/
theorem line_labelled (hm : r.current = some m) (word : isIdent (trim head) = true) :
    r.line (head ++ ':' :: rest) = .ok r' ↔ m.pending = none ∧ ∃ label n,
      readLabel (trimStart head) = .ok label ∧
        (if (content rest).isEmpty then .ok { m with pending := some label }
          else { m with pending := some label }.statement (content rest)) = .ok n ∧
        r' = { r with current := some n } := by
  have something : content (head ++ ':' :: rest) ≠ [] := by simp [content_labelled word]
  have no_brace : content (head ++ ':' :: rest) ≠ ['\x7d'] := fun e => by
    have mark : ':' ∈ content (head ++ ':' :: rest) := by simp [content_labelled word]
    rw [e] at mark
    exact absurd mark (by decide)
  rw [line_open hm something no_brace, OpenMethod.line, labelled?_content word, bind_eq_ok]
  dsimp only
  constructor
  · rintro ⟨n, hn, h⟩
    obtain rfl := Except.ok.inj h
    split at hn
    · cases hn
    · next idle =>
      obtain ⟨label, hl, hn⟩ := bind_eq_ok.1 hn
      exact ⟨by simpa using idle, label, n, hl, hn, rfl⟩
  · rintro ⟨idle, label, n, hl, hn, rfl⟩
    refine ⟨n, ?_, rfl⟩
    rw [if_neg (by simp [idle])]
    exact bind_eq_ok.2 ⟨label, hl, hn⟩

/-- A line without a label is a statement of the open method, if it can be read as one. -/
theorem line_of_statement (hm : r.current = some m) (something : content raw ≠ [])
    (hn : m.statement (content raw) = .ok n) : r.line raw = .ok { r with current := some n } := by
  obtain ⟨⟨i, jump⟩, read, -⟩ := bind_eq_ok.1 hn
  have loose := readStatement_loose read
  have no_brace : content raw ≠ ['\x7d'] := fun e =>
    loose.not_mem (c := '\x7d') (by decide) (by decide) (by simp [e])
  have unlabelled : OpenMethod.labelled? (content raw) = none := by
    rw [OpenMethod.labelled?, cut_eq_none (loose.not_mem (by decide) (by decide))]
    rfl
  rw [line_open hm something no_brace, OpenMethod.line, unlabelled]
  dsimp only
  rw [hn]
  rfl

/-- A line with a label that can be read may be broken behind the label. -/
theorem line_broken (hm : r.current = some m) (word : isIdent (trim head) = true)
    (h : r.line (head ++ ':' :: rest) = .ok r') :
    ∃ r₁, r.line (head ++ [':']) = .ok r₁ ∧ r₁.line rest = .ok r' := by
  obtain ⟨idle, label, n, hl, hn, rfl⟩ := (line_labelled hm word).1 h
  refine ⟨{ r with current := some { m with pending := some label } },
    (line_labelled hm word).2 ⟨idle, label, _, hl, rfl, rfl⟩, ?_⟩
  split at hn
  · next none =>
    obtain rfl := Except.ok.inj hn
    exact line_blank (List.isEmpty_iff.1 none)
  · next something => exact line_of_statement rfl (by simpa using something) hn

end Reader

/-- A text is read for what its lines say. -/
theorem readProgram_eq_ok_iff {source : String} {p : Program} : readProgram source = .ok p ↔
    ∃ r, Reader.empty.readAll? (saidBy source.toList) = some r ∧ r.finish = .ok p := by
  rw [readProgram, bind_eq_ok, saidBy, Reader.readAll?_said, ← Reader.toOption_lines _ 1]
  cases Reader.empty.lines 1 (lines source.toList) <;> simp [Except.toOption]

/-! ## Changes of the layout -/

/-- Blanks within a line. -/
def IsSpace (cs : List Char) : Prop := ∀ c ∈ cs, isBlank c = true ∧ c ≠ '\n'

instance (cs : List Char) : Decidable (IsSpace cs) :=
  List.decidableBAll _ cs

theorem IsSpace.blank {cs : List Char} (h : IsSpace cs) : ∀ c ∈ cs, isBlank c = true :=
  fun c hc => (h c hc).1

theorem IsSpace.no_feed {cs : List Char} (h : IsSpace cs) : '\n' ∉ cs := fun hc => (h _ hc).2 rfl

/-- The second text is the first with one change of its layout. -/
inductive Relaid : List Char → List Char → Prop where
  /-- A line is put in that is blank up to its comment, if it has one. -/
  | blankLine {front line back : List Char} : EndsLine front → '\n' ∉ line →
      (∀ c ∈ line.takeWhile (· ≠ '#'), isBlank c = true) →
      Relaid (front ++ back) (front ++ (line ++ '\n' :: back))
  /-- A line is put between blanks. -/
  | spaces {front line back before after : List Char} : EndsLine front → '\n' ∉ line → AtBreak back →
      IsSpace before → IsSpace after →
      Relaid (front ++ (line ++ back)) (front ++ (before ++ line ++ after ++ back))
  /-- A comment is put behind a line. -/
  | comment {front line back comment : List Char} : EndsLine front → '\n' ∉ line → AtBreak back →
      '\n' ∉ comment → Relaid (front ++ (line ++ back)) (front ++ (line ++ '#' :: comment ++ back))
  /-- A line of an open method is broken behind its label, if it can be read. -/
  | label {front head gap rest back after : List Char} {r r' : Reader} {m : OpenMethod} :
      EndsLine front → '\n' ∉ head → IsSpace gap → '\n' ∉ rest → AtBreak back → IsSpace after →
      Reader.empty.lines 1 (lines front) = .ok r → r.current = some m →
      isIdent (trim head) = true → r.line (head ++ ':' :: (gap ++ rest)) = .ok r' →
      Relaid (front ++ (head ++ ':' :: (gap ++ rest) ++ back))
        (front ++ (head ++ ':' :: after ++ '\n' :: (rest ++ back)))

theorem saidBy_line_congr {line line' back : List Char} (h : '\n' ∉ line) (h' : '\n' ∉ line')
    (hb : AtBreak back) (e : Reader.content line' = Reader.content line) :
    saidBy (line' ++ back) = saidBy (line ++ back) := by
  rw [saidBy_line h hb, saidBy_line h' hb, said_congr e]

namespace Reader

variable {head gap rest after : List Char} {r r' : Reader} {m : OpenMethod}

/-- The two lines of a broken one, with other blanks where it is broken, are read like the one. -/
theorem readAll?_broken (hm : r.current = some m) (word : isIdent (trim head) = true)
    (blank : IsSpace gap) (blank' : IsSpace after)
    (h : r.line (head ++ ':' :: (gap ++ rest)) = .ok r') :
    r.readAll? ([head ++ ':' :: after] ++ [rest]) = r.readAll? [head ++ ':' :: (gap ++ rest)] := by
  obtain ⟨r₁, first, second⟩ := line_broken hm word h
  have first' : r.line (head ++ ':' :: after) = .ok r₁ := by
    rw [← first, show head ++ ':' :: after = head ++ [':'] ++ after by simp]
    exact line_congr (content_append_blanks blank'.blank)
  have second' : r₁.line rest = .ok r' := by
    rw [← second]
    exact line_congr (content_blanks_append blank.blank).symm
  simp [readAll?, first', second', h, Except.toOption]

end Reader

/-- Texts that differ in their layout are read alike. -/
theorem Relaid.readAll?_eq {source target : List Char} (h : Relaid source target) :
    Reader.empty.readAll? (saidBy source) = Reader.empty.readAll? (saidBy target) := by
  cases h with
  | blankLine hf hl blank =>
    rw [saidBy_append hf, saidBy_append hf, saidBy_feed hl, said_blank (trim_of_blank blank)]
    rfl
  | @spaces front line back before after hf hl hb blank blank' =>
    have whole : '\n' ∉ before ++ line ++ after := by simp [hl, blank.no_feed, blank'.no_feed]
    have same : Reader.content (before ++ line ++ after) = Reader.content line := by
      rw [content_append_blanks blank'.blank, content_blanks_append blank.blank]
    rw [saidBy_append hf, saidBy_append hf, saidBy_line_congr hl whole hb same]
  | @comment front line back comment hf hl hb hc =>
    have whole : '\n' ∉ line ++ '#' :: comment := by simp [hl, hc]
    rw [saidBy_append hf, saidBy_append hf, saidBy_line_congr hl whole hb (content_comment ..)]
  | @label front head gap rest back after r r' m hf hh hg hr hb ha read current word accepted =>
    have opened : Reader.empty.readAll? (saidBy front) = some r := by
      rw [saidBy, Reader.readAll?_said, ← Reader.toOption_lines _ 1, read]
      rfl
    have line : '\n' ∉ head ++ ':' :: (gap ++ rest) := by simp [hh, hg.no_feed, hr]
    have labelled : '\n' ∉ head ++ ':' :: after := by simp [hh, ha.no_feed]
    rw [saidBy_append hf, saidBy_append hf, saidBy_line line hb, saidBy_feed labelled,
      saidBy_line hr hb, ← List.append_assoc (said [_]), ← said_append, Reader.readAll?_append,
      Reader.readAll?_append, opened, Option.bind_some, Option.bind_some, Reader.readAll?_append,
      Reader.readAll?_append, Reader.readAll?_said, Reader.readAll?_said,
      Reader.readAll?_broken current word hg ha accepted]

/-- A change of the layout of a text neither makes it a program nor keeps it from being one, and makes
no difference to the program: lines may be put in that are blank up to a comment, any line may be put
between blanks and have a comment put behind it, and a label may be given a line of its own. -/
theorem readProgram_relaid {source target : String} (h : Relaid source.toList target.toList)
    {p : Program} : readProgram source = .ok p ↔ readProgram target = .ok p := by
  rw [readProgram_eq_ok_iff, readProgram_eq_ok_iff, h.readAll?_eq]

/-- A method with a label. -/
def plainText : String := "method m() \x7b\nL: x = null\n\x7d"

/-- The method with a comment above, and a line that is put between blanks, followed by a comment and
broken behind its label. -/
def looseText : String := "method m() \x7b\n # start\n  L:\nx = null\t# end\n\x7d"

theorem readProgram_looseText :
    ∃ p, readProgram plainText = .ok p ∧ readProgram looseText = .ok p := by
  let front := "method m() \x7b\n".toList
  let front' := "method m() \x7b\n # start\n".toList
  let back := "\n\x7d".toList
  have atBreak : AtBreak back := .inr ⟨_, .inl rfl⟩
  have above : Relaid plainText.toList
      "method m() \x7b\n # start\nL: x = null\n\x7d".toList :=
    @Relaid.blankLine front " # start".toList ("L: x = null".toList ++ back) (by decide) (by decide)
      (List.all_eq_true.1 rfl)
  have between : Relaid "method m() \x7b\n # start\nL: x = null\n\x7d".toList
      "method m() \x7b\n # start\n  L: x = null\t\n\x7d".toList :=
    @Relaid.spaces front' "L: x = null".toList back "  ".toList "\t".toList (by decide) (by decide)
      atBreak (by decide) (by decide)
  have behind : Relaid "method m() \x7b\n # start\n  L: x = null\t\n\x7d".toList
      "method m() \x7b\n # start\n  L: x = null\t# end\n\x7d".toList :=
    @Relaid.comment front' "  L: x = null\t".toList back " end".toList (by decide) (by decide)
      atBreak (by decide)
  have accepted : (Reader.empty.lines 1 (lines front')).toOption.any fun r =>
      r.current.isSome && (r.line "  L: x = null\t# end".toList).toOption.any fun _ => true := by
    decide +kernel
  obtain ⟨r, opened, h⟩ := exists_ok_of_any accepted
  obtain ⟨current, line⟩ := Bool.and_eq_true_iff.1 h
  obtain ⟨m, current⟩ := Option.isSome_iff_exists.1 current
  obtain ⟨r', line, -⟩ := exists_ok_of_any line
  have broken : Relaid "method m() \x7b\n # start\n  L: x = null\t# end\n\x7d".toList
      looseText.toList :=
    @Relaid.label front' "  L".toList " ".toList "x = null\t# end".toList back [] r r' m (by decide)
      (by decide) (by decide) (by decide) atBreak (by decide) opened current (by decide) line
  have read : (readProgram plainText).toOption.any fun _ => true := by decide +kernel
  obtain ⟨p, read, -⟩ := exists_ok_of_any read
  exact ⟨p, read, (readProgram_relaid broken).1 ((readProgram_relaid behind).1
    ((readProgram_relaid between).1 ((readProgram_relaid above).1 read)))⟩

end Source

end PointsTo
