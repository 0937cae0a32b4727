/-!
# Text without control sequences

A text for a terminal may hold control sequences, which choose colours and the like and show
nothing themselves. `plain` is what such a text shows: the sequences are taken out, and so are the
control characters between them, but for tabs and breaks. What is left shows itself
(`isShown_of_mem_plain`), and a text that shows itself is left alone (`plain_eq_self`).
-/

namespace PointsTo.Text

/-- A tab or a break, which a terminal obeys also in the middle of most sequences. -/
def isBreak (c : Char) : Bool := c = '\t' || c = '\n' || c = '\x0c' || c = '\r'

/-- What the characters read so far have begun. -/
inductive Sequence where
  /-- No sequence: characters show themselves. -/
  | none
  | escape
  /-- An escape sequence that chooses among many, such as a set of characters -/
  | selection
  /-- The parameters of a control function -/
  | control
  /-- The head of a string for a device, which may hold parameters and then marks -/
  | device
  | deviceParameters
  | deviceMarks
  /-- A string for the system, which ends with a bell -/
  | system
  /-- Any other string -/
  | string
deriving DecidableEq

namespace Sequence

/-- The character after an escape character tells the kind of the sequence. -/
def afterEscape : Char → Sequence
  | '[' => control
  | ']' => system
  | 'P' => device
  | 'X' => string
  | '^' => string
  | '_' => string
  | c =>
    if ' ' ≤ c ∧ c ≤ '/' then selection
    else if '0' ≤ c ∧ c ≤ '~' then none
    else escape

/-- Whether the encoding of `c` holds the byte that ends a string. -/
def holdsTerminator (c : Char) : Bool := (String.utf8EncodeChar c).contains 0x9C

/-- What goes on after a character that neither begins a sequence, breaks it off nor is shown. -/
def continued (c : Char) : Sequence → Sequence
  | none => none
  | escape => afterEscape c
  | selection => if '0' ≤ c ∧ c ≤ '~' then none else selection
  | control => if '@' ≤ c ∧ c ≤ '~' then none else control
  | device =>
    if ' ' ≤ c ∧ c ≤ '/' then deviceMarks
    else if '0' ≤ c ∧ c ≤ '?' then deviceParameters
    else if '@' ≤ c ∧ c ≤ '~' then string
    else device
  | deviceParameters =>
    if ' ' ≤ c ∧ c ≤ '/' then deviceMarks
    else if '<' ≤ c ∧ c ≤ '~' then string
    else deviceParameters
  | deviceMarks => if '0' ≤ c ∧ c ≤ '~' then string else deviceMarks
  | system => if c = '\x07' then none else system
  | string => if holdsTerminator c then none else string

/-- Whether a character is shown: a visible one outside of sequences, a break also in sequences
other than strings. -/
def isShown (c : Char) : Sequence → Bool
  | none => isBreak c || (' ' ≤ c && c ≠ '\x7f')
  | escape => isBreak c
  | selection => isBreak c
  | control => isBreak c
  | _ => false

/-- What goes on after a character. Escape begins a sequence anywhere, and two control characters
break any sequence off, as does whatever is shown. -/
def next (s : Sequence) (c : Char) : Sequence :=
  if c = '\x1b' then escape
  else if c = '\x18' ∨ c = '\x1a' ∨ s.isShown c then none
  else s.continued c

/-- What is shown of a text in the middle of a sequence. -/
def shown : Sequence → List Char → List Char
  | _, [] => []
  | s, c :: r => if s.isShown c then c :: (s.next c).shown r else (s.next c).shown r

theorem isShown_none_of_isShown {s : Sequence} {c : Char} (h : s.isShown c = true) :
    none.isShown c = true := by
  cases s <;> simp_all [isShown]

theorem next_none_of_isShown {c : Char} (h : none.isShown c = true) : none.next c = none := by
  have : c ≠ '\x1b' := by
    rintro rfl
    exact absurd h (by decide)
  simp [next, this, h]

end Sequence

/-- What a text shows, without its control sequences. -/
def plain (cs : List Char) : List Char := Sequence.none.shown cs

theorem isShown_of_mem_shown {s : Sequence} {cs : List Char} {c : Char} (h : c ∈ s.shown cs) :
    Sequence.none.isShown c = true := by
  induction cs generalizing s with
  | nil => simp [Sequence.shown] at h
  | cons d r ih =>
    rw [Sequence.shown] at h
    split at h
    · next hd =>
      rcases List.mem_cons.1 h with rfl | h
      · exact Sequence.isShown_none_of_isShown hd
      · exact ih h
    · exact ih h

/-- What is left of a text shows itself. -/
theorem isShown_of_mem_plain {cs : List Char} {c : Char} (h : c ∈ plain cs) :
    Sequence.none.isShown c = true :=
  isShown_of_mem_shown h

theorem plain_eq_self {cs : List Char} (h : ∀ c ∈ cs, Sequence.none.isShown c = true) :
    plain cs = cs := by
  induction cs with
  | nil => rfl
  | cons c r ih =>
    have hc := h c List.mem_cons_self
    rw [plain, Sequence.shown, if_pos hc, Sequence.next_none_of_isShown hc]
    exact congrArg (c :: ·) (ih fun d hd => h d (List.mem_cons_of_mem c hd))

end PointsTo.Text
