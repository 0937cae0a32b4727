import PointsTo.Text.Printable

/-!
# Escaped text

Two ways to write a text so that nothing in it can be mistaken for the marks around it. `ascii`
writes it in visible ASCII characters only (`isVisible_of_mem_ascii`), `quoted` keeps every
printable character and puts quotation marks around the whole. Both write a character that has no
mark of its own by the number of its code point, in hexadecimal digits.
-/

namespace PointsTo.Text.Escape

/-- The character by its number: a backslash, `u`, and the digits in braces. -/
def byNumber (c : Char) : List Char :=
  '\\' :: 'u' :: '\x7b' :: Nat.toDigits 16 c.toNat ++ ['\x7d']

/-- The characters that are written as a backslash with a letter or with themselves, everywhere. -/
def marked? : Char → Option Char
  | '\t' => some 't'
  | '\r' => some 'r'
  | '\n' => some 'n'
  | '"' => some '"'
  | '\\' => some '\\'
  | _ => none

/-- From the space to the tilde. -/
def isVisible (c : Char) : Bool := 0x20 ≤ c.toNat && c.toNat ≤ 0x7E

def asciiChar (c : Char) : List Char :=
  match marked? c with
  | some m => ['\\', m]
  | none =>
    if c = '\'' then ['\\', c] else if isVisible c then [c] else byNumber c

/-- The text in visible ASCII characters, with a backslash before both kinds of quotation mark. -/
def ascii (cs : List Char) : List Char := cs.flatMap asciiChar

def quotedChar (c : Char) : List Char :=
  match marked? c with
  | some m => ['\\', m]
  | none =>
    if c = '\x00' then ['\\', '0']
    else if isPrintable c && !isExtending c then [c] else byNumber c

/-- The text between quotation marks, with a backslash before the marks inside it. -/
def quoted (cs : List Char) : List Char := '"' :: cs.flatMap quotedChar ++ ['"']

theorem exists_digitChar_of_mem_toDigits {n : Nat} {d : Char} (h : d ∈ Nat.toDigits 16 n) :
    ∃ m, m < 16 ∧ d = Nat.digitChar m := by
  revert h
  rw [Nat.toDigits]
  have core : ∀ (fuel n : Nat) (ds : List Char),
      (∀ x ∈ ds, ∃ m, m < 16 ∧ x = Nat.digitChar m) →
      ∀ x ∈ Nat.toDigitsCore 16 fuel n ds, ∃ m, m < 16 ∧ x = Nat.digitChar m := by
    intro fuel
    induction fuel with
    | zero => intro n ds h x hx; exact h x (by simpa [Nat.toDigitsCore] using hx)
    | succ fuel ih =>
      intro n ds h x hx
      have cons : ∀ y ∈ Nat.digitChar (n % 16) :: ds, ∃ m, m < 16 ∧ y = Nat.digitChar m := by
        intro y hy
        rcases List.mem_cons.1 hy with rfl | hy
        · exact ⟨n % 16, Nat.mod_lt _ (by decide), rfl⟩
        · exact h y hy
      rw [Nat.toDigitsCore] at hx
      split at hx
      · exact cons x hx
      · exact ih _ _ cons x hx
  exact core _ _ [] (by simp) d

theorem isVisible_of_mem_byNumber {c d : Char} (h : d ∈ byNumber c) : isVisible d = true := by
  simp only [byNumber, List.cons_append, List.mem_cons, List.mem_append, List.not_mem_nil,
    or_false] at h
  rcases h with rfl | rfl | rfl | h | rfl
  · decide
  · decide
  · decide
  · have digit : ∀ n : Fin 16, isVisible (Nat.digitChar n.val) = true := by decide
    obtain ⟨n, hn, rfl⟩ := exists_digitChar_of_mem_toDigits h
    exact digit ⟨n, hn⟩
  · decide

theorem isVisible_of_mem_ascii {cs : List Char} {d : Char} (h : d ∈ ascii cs) :
    isVisible d = true := by
  obtain ⟨c, -, hd⟩ := List.mem_flatMap.1 h
  unfold asciiChar marked? at hd
  split at hd
  · next m hm =>
    simp only [List.mem_cons, List.not_mem_nil, or_false] at hd
    rcases hd with rfl | rfl
    · decide
    · split at hm <;> simp at hm <;> subst hm <;> decide
  · split at hd
    · next hc =>
      subst hc
      simp only [List.mem_cons, List.not_mem_nil, or_false] at hd
      rcases hd with rfl | rfl <;> decide
    · split at hd
      · next hc =>
        obtain rfl := List.mem_singleton.1 hd
        exact hc
      · exact isVisible_of_mem_byNumber hd

end PointsTo.Text.Escape
