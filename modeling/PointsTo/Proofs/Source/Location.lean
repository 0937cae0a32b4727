import PointsTo.Proofs.Source.Layout

/-!
# Where an error is

A text that is no program because of one of its lines is reported with the number of that line. The
reader takes one line after the other and stops at the first that is wrong (`Reader.stops_of_error`), so
the error is the same whatever follows the line, and there is none of this kind without it
(`readProgram_located`). Jumps are looked up when their method is closed, which makes the line of the
closing brace the wrong one.
-/

namespace PointsTo.Source

open Text

/-! ## The number in an error -/

section Number

variable {m n : Nat} {e : Error}

theorem toDigits_inj (h : Nat.toDigits 10 m = Nat.toDigits 10 n) : m = n := by
  rw [← Nat.ofDigitChars_ten_toDigits (n := m), h, Nat.ofDigitChars_ten_toDigits]

theorem toList_lineNumber (n : Nat) (rest : String) : s!"line {n}: {rest}".toList =
    "line ".toList ++ (Nat.toDigits 10 n ++ ':' :: (" " ++ rest).toList) := by
  show ("line " ++ toString n ++ ": " ++ rest).toList = _
  simp

/-- The wording of the error begins with the number of a line. -/
def Error.Locates (e : Error) (n : Nat) : Prop := ∃ rest : String, e.message = s!"line {n}: {rest}"

/-- A number is given exactly in the errors about a line, and is that of the line. -/
theorem Error.locates_iff : e.Locates n ↔ ∃ cause, e = .inLine n cause := by
  constructor
  · rintro ⟨rest, h⟩
    have text := congrArg String.toList h
    rw [toList_lineNumber] at text
    cases e with
    | inLine m cause =>
      rw [Error.message, toList_lineNumber, List.append_cancel_left_eq] at text
      have halves := congrArg (cut ':') text
      rw [cut_append (not_mem_digits rfl m), cut_append (not_mem_digits rfl n)] at halves
      obtain rfl := toDigits_inj (congrArg Prod.fst (Option.some.inj halves))
      exact ⟨cause, rfl⟩
    | unclosed method =>
      change ("Method " ++ method.text ++ " is not closed").toList = "line ".toList ++ _ at text
      simp at text
    | program cause =>
      obtain ⟨method⟩ := cause
      change ("Duplicate method " ++ method.text).toList = "line ".toList ++ _ at text
      simp at text
  · rintro ⟨cause, rfl⟩
    exact ⟨cause.message, rfl⟩

end Number

/-! ## The first line that is wrong -/

namespace Reader

variable {r : Reader} {number n : Nat} {raws raws' : List (List Char)} {e : Error}

theorem lines_append : r.lines number (raws ++ raws') =
    r.lines number raws >>= fun r' => r'.lines (number + raws.length) raws' := by
  induction raws generalizing r number with
  | nil => rfl
  | cons raw raws ih =>
    rw [List.cons_append, Reader.lines, Reader.lines]
    cases r.line raw with
    | error cause => rfl
    | ok r' =>
      rw [List.length_cons, Nat.add_comm raws.length, ← Nat.add_assoc]
      exact ih

/-- An error stays what it is, whatever lines follow. -/
theorem lines_append_error (h : r.lines number raws = .error e) :
    r.lines number (raws ++ raws') = .error e := by
  rw [lines_append, h]
  rfl

/-- Lines are read for what they say. -/
theorem lines_contents (r : Reader) (number : Nat) (raws : List (List Char)) :
    r.lines number (raws.map content) = r.lines number raws := by
  induction raws generalizing r number with
  | nil => rfl
  | cons raw raws ih =>
    rw [List.map_cons, Reader.lines, Reader.lines, line_congr (content_content raw)]
    cases r.line raw with
    | error cause => rfl
    | ok r' => exact ih r' (number + 1)

/-- Where reading fails, one line cannot be read after the lines before it, which can, and the error is
about this line. -/
theorem stops_of_error (h : r.lines number raws = .error e) :
    ∃ before raw after r' cause, raws = before ++ raw :: after ∧
      r.lines number before = .ok r' ∧ r'.line raw = .error cause ∧
      e = .inLine (number + before.length) cause := by
  induction raws generalizing r number with
  | nil => cases h
  | cons raw raws ih =>
    rw [Reader.lines] at h
    cases read : r.line raw with
    | error cause =>
      rw [read] at h
      obtain rfl := Except.error.inj h
      exact ⟨[], raw, raws, r, cause, rfl, rfl, read, rfl⟩
    | ok r₁ =>
      rw [read] at h
      obtain ⟨before, wrong, after, r', cause, rfl, h', hc, rfl⟩ := ih h
      refine ⟨raw :: before, wrong, after, r', cause, rfl, ?_, hc, ?_⟩
      · rw [Reader.lines, read]
        exact h'
      · rw [List.length_cons, Nat.add_comm before.length, ← Nat.add_assoc]

/-- At the end of the text no line is to blame. -/
theorem not_locates_of_finish (h : r.finish = .error e) : ¬ e.Locates n := by
  rintro located
  obtain ⟨cause, rfl⟩ := Error.locates_iff.1 located
  rw [finish] at h
  split at h
  · cases h
  · split at h
    · cases h
    · cases h

end Reader

/-- What each line of a text says, if anything. -/
def contents (source : String) : List (List Char) := (lines source.toList).map Reader.content

theorem readProgram_eq (source : String) :
    readProgram source = Reader.empty.lines 1 (contents source) >>= Reader.finish := by
  rw [contents, Reader.lines_contents]
  rfl

section

variable {source target : String} {e : Error} {n : Nat}

/-- An error that gives the number of a line is from the reading of the lines. -/
theorem lines_of_readProgram_error (failed : readProgram source = .error e) (located : e.Locates n) :
    Reader.empty.lines 1 (contents source) = .error e := by
  rw [readProgram_eq] at failed
  cases read : Reader.empty.lines 1 (contents source) with
  | error e' =>
    rw [read] at failed
    exact congrArg Except.error (Except.error.inj failed)
  | ok r =>
    rw [read] at failed
    exact absurd located (Reader.not_locates_of_finish failed)

/-- A text whose lines begin with wrong ones has the error of these. -/
theorem readProgram_error_of_prefix {raws : List (List Char)} (prefixed : raws <+: contents target)
    (h : Reader.empty.lines 1 raws = .error e) : readProgram target = .error e := by
  obtain ⟨raws', h'⟩ := prefixed
  rw [readProgram_eq, ← h', Reader.lines_append_error h]
  rfl

/-- A text all of whose lines can be read has no error with the number of a line. -/
theorem not_locates_of_prefix {raws : List (List Char)} {r : Reader}
    (prefixed : contents target <+: raws) (h : Reader.empty.lines 1 raws = .ok r)
    (failed : readProgram target = .error e) : ¬ e.Locates n := by
  intro located
  obtain ⟨raws', rfl⟩ := prefixed
  rw [Reader.lines_append_error (lines_of_readProgram_error failed located)] at h
  cases h

/-- An error that gives the number of a line is about a line of the text, and depends on nothing behind
it: every text whose lines up to that one say the same has the same error, and a text that consists of
fewer of the lines has no error with the number of a line at all. -/
theorem readProgram_located (failed : readProgram source = .error e) (located : e.Locates n) :
    (1 ≤ n ∧ n ≤ (lines source.toList).length) ∧
      (∀ target, (contents target).take n = (contents source).take n →
        readProgram target = .error e) ∧
      ∀ target k, k < n → contents target = (contents source).take k →
        ∀ e' m, readProgram target = .error e' → ¬ e'.Locates m := by
  obtain ⟨before, wrong, after, r, cause, whole, readable, hc, rfl⟩ :=
    Reader.stops_of_error (lines_of_readProgram_error failed located)
  obtain ⟨cause', same⟩ := Error.locates_iff.1 located
  obtain rfl := (Error.inLine.inj same).1
  have length := congrArg List.length whole
  rw [contents, List.length_map, List.length_append, List.length_cons] at length
  refine ⟨⟨by omega, by omega⟩, fun target agree => ?_, fun target k hk shorter e' m h => ?_⟩
  · have upTo : (contents source).take (1 + before.length) = before ++ [wrong] := by
      rw [whole, ← List.singleton_append, ← List.append_assoc]
      exact List.take_left' (by simp [Nat.add_comm])
    have prefixed : before ++ [wrong] <+: contents target := by
      rw [← upTo, ← agree]
      exact List.take_prefix ..
    refine readProgram_error_of_prefix prefixed ?_
    rw [Reader.lines_append, readable]
    show r.lines (1 + before.length) [wrong] = _
    rw [Reader.lines, hc]
  · have short : k ≤ before.length := by omega
    refine not_locates_of_prefix ?_ readable h
    rw [shorter, whole, List.take_append_of_le_length short]
    exact List.take_prefix ..

end

/-- A label stands twice in a method, which its closing brace brings out, and another brace follows. -/
def twiceLabelled : String := "method m() \x7b\nL: nop\nL: nop\n\x7d\n\x7d"

/-- With a method in the place of the other brace the error is the same, and it is of no line as long as
the method is open. -/
theorem readProgram_twiceLabelled :
    readProgram "method m() \x7b\nL: nop # first\r\nL: nop\n\x7d\nmethod n() \x7b\n\x7d" =
        .error (.inLine 4 (.body (.duplicateLabel "L" ⟨"m"⟩))) ∧
      ∀ e m, readProgram "method m() \x7b\nL: nop\nL: nop\n" = .error e → ¬ e.Locates m := by
  have failed : readProgram twiceLabelled =
      .error (.inLine 4 (.body (.duplicateLabel "L" ⟨"m"⟩))) := rfl
  obtain ⟨-, same, before⟩ := readProgram_located failed (Error.locates_iff.2 ⟨_, rfl⟩)
  refine ⟨same _ ?_, before _ 3 (by omega) ?_⟩
  · decide +kernel
  · decide +kernel

end PointsTo.Source
