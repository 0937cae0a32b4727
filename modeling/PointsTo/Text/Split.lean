/-!
# Cutting a text at separators

`cut` cuts at the first separator, `pieces` at every one, and `lines` at the ends of lines, of which
`firstLine` sees only the first.
`join_pieces` says that cutting at every separator loses nothing else, and
`cut_eq_some_iff` that the first half of a cut holds no separator.
-/

namespace PointsTo.Text

/-- What stands before and after the first `separator`. -/
def cut (separator : Char) : List Char → Option (List Char × List Char)
  | [] => none
  | c :: r =>
    if c = separator then some ([], r)
    else (cut separator r).map fun (before, after) => (c :: before, after)

/-- The stretches between separators: one more than there are separators. -/
def pieces (separator : Char) : List Char → List (List Char)
  | [] => [[]]
  | c :: r =>
    if c = separator then [] :: pieces separator r
    else
      match pieces separator r with
      | p :: ps => (c :: p) :: ps
      | [] => [[c]]

/-- The texts one after the other, with a separator between two of them. -/
def join (separator : Char) : List (List Char) → List Char
  | [] => []
  | [p] => p
  | p :: ps => p ++ separator :: join separator ps

/-- The lines of a text, without their ends. What follows the last end of line is a line of its
own only if it is not empty. -/
def lines (cs : List Char) : List (List Char) :=
  let ps := pieces '\n' cs
  if ps.getLast? = some [] then ps.dropLast else ps

/-- The text up to the first end of line, which may be written as a carriage return and a line
feed. -/
def firstLine (cs : List Char) : List Char :=
  match cut '\n' cs with
  | some (line, _) => if line.getLast? = some '\r' then line.dropLast else line
  | none => cs

/-- What follows `start` in a text that begins with it. -/
def after? (start text : List Char) : Option (List Char) := List.isPrefixOf? start text

/-- What precedes `ending` in a text that ends with it. -/
def before? (ending text : List Char) : Option (List Char) := List.isSuffixOf? ending text

theorem pieces_ne_nil (separator : Char) (cs : List Char) : pieces separator cs ≠ [] := by
  cases cs with
  | nil => simp [pieces]
  | cons c r => rw [pieces]; split; · simp
                split <;> simp

theorem join_pieces (separator : Char) (cs : List Char) :
    join separator (pieces separator cs) = cs := by
  induction cs with
  | nil => rfl
  | cons c r ih =>
    have hne := pieces_ne_nil separator r
    rw [pieces]
    split
    · next h =>
      subst h
      cases hp : pieces c r with
      | nil => exact absurd hp hne
      | cons p ps => rw [hp] at ih; simp [join, ih]
    · cases hp : pieces separator r with
      | nil => exact absurd hp hne
      | cons p ps => rw [hp] at ih; cases ps <;> simp_all [join]

theorem cut_eq_some_iff {separator : Char} {cs before after : List Char} :
    cut separator cs = some (before, after) ↔
      cs = before ++ separator :: after ∧ separator ∉ before := by
  induction cs generalizing before with
  | nil => simp [cut]
  | cons c r ih =>
    rw [cut]
    split
    · next h =>
      subst h
      cases before <;> simp_all
    · next h =>
      cases before with
      | nil => simp [h]
      | cons b bs =>
        simp only [Option.map_eq_some_iff, Prod.exists, Prod.mk.injEq, List.cons.injEq,
          List.cons_append, List.mem_cons, not_or]
        constructor
        · rintro ⟨x, y, hxy, ⟨rfl, rfl⟩, rfl⟩
          exact ⟨⟨rfl, (ih.1 hxy).1⟩, fun e => h e.symm, (ih.1 hxy).2⟩
        · rintro ⟨⟨rfl, hr⟩, _, hn⟩
          exact ⟨bs, after, ih.2 ⟨hr, hn⟩, ⟨rfl, rfl⟩, rfl⟩

/-- A number holds no separator. -/
theorem not_mem_digits {separator : Char} (h : separator.isDigit = false) (n : Nat) :
    separator ∉ Nat.toDigits 10 n := by
  intro hm
  rw [Nat.isDigit_of_mem_toDigits (by decide) (by decide) hm] at h
  cases h

end PointsTo.Text
