/-!
# Blank characters

A character is blank if it has the property White_Space of Unicode. `isBlank_of_isWhitespace` says
that the ASCII characters which the core library calls white space are among them; `trim` takes
blanks off both ends of a text and nothing else (`trim_eq_self`).
-/

namespace PointsTo.Text

/-- The characters of Unicode with the property White_Space, as ranges of code points. -/
def blankRanges : List (Nat × Nat) :=
  [(0x09, 0x0D), (0x20, 0x20), (0x85, 0x85), (0xA0, 0xA0), (0x1680, 0x1680), (0x2000, 0x200A),
    (0x2028, 0x2029), (0x202F, 0x202F), (0x205F, 0x205F), (0x3000, 0x3000)]

/-- Whether the code point of `c` lies in one of the ranges. -/
def inRanges (ranges : List (Nat × Nat)) (c : Char) : Bool :=
  ranges.any fun (low, high) => low ≤ c.toNat && c.toNat ≤ high

def isBlank (c : Char) : Bool := inRanges blankRanges c

def trimStart (cs : List Char) : List Char := cs.dropWhile isBlank

def trimEnd (cs : List Char) : List Char := (cs.reverse.dropWhile isBlank).reverse

def trim (cs : List Char) : List Char := trimEnd (trimStart cs)

theorem isBlank_of_isWhitespace {c : Char} (h : c.isWhitespace = true) : isBlank c = true := by
  simp only [Char.isWhitespace, Bool.or_eq_true, decide_eq_true_eq] at h
  rcases h with ((rfl | rfl) | rfl) | rfl <;> decide

/-- A text that neither starts nor ends with a blank is left alone. -/
theorem trim_eq_self {cs : List Char} (first : ∀ c, cs.head? = some c → isBlank c = false)
    (last : ∀ c, cs.getLast? = some c → isBlank c = false) : trim cs = cs := by
  have start : trimStart cs = cs := by
    cases cs with
    | nil => rfl
    | cons c r => simp [trimStart, first c rfl]
  rw [trim, start, trimEnd]
  have : cs.reverse.dropWhile isBlank = cs.reverse := by
    cases h : cs.reverse with
    | nil => rfl
    | cons c r =>
      have : isBlank c = false := last c (by rw [← List.head?_reverse, h]; rfl)
      simp [this]
  rw [this, List.reverse_reverse]

end PointsTo.Text
