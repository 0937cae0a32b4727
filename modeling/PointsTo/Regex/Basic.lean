/-!
# Regular expressions

Expressions over an alphabet, with constructors that keep them small: `union`, `concat` and `star`
never build a union with an empty side or of equal sides, a concatenation with the empty word or
the empty language, or a star of one of those. Equality of expressions (`same`) does not see the
order of the two sides of a union.
-/

namespace PointsTo

inductive Regex (α : Type) where
  | letter (a : α)
  | alt (r s : Regex α)
  | seq (r s : Regex α)
  | many (r : Regex α)
  | epsilon
  | empty
deriving DecidableEq, Inhabited

namespace Regex

variable {α : Type}

def isEpsilon : Regex α → Bool
  | epsilon => true
  | _ => false

def isEmpty : Regex α → Bool
  | empty => true
  | _ => false

/-- Equality up to the order of the sides of unions, at every depth. -/
def same [BEq α] : Regex α → Regex α → Bool
  | letter a, letter b => a == b
  | alt r₁ s₁, alt r₂ s₂ => (same r₁ r₂ && same s₁ s₂) || (same r₁ s₂ && same s₁ r₂)
  | seq r₁ s₁, seq r₂ s₂ => same r₁ r₂ && same s₁ s₂
  | many r, many s => same r s
  | epsilon, epsilon => true
  | empty, empty => true
  | _, _ => false

/-- Collapses the outermost node of an expression whose parts are as small as they get. -/
def simplify [BEq α] : Regex α → Regex α
  | alt r s => if r.isEmpty then s else if s.isEmpty || same r s then r else alt r s
  | seq r s =>
    if r.isEmpty || s.isEmpty then empty
    else if r.isEpsilon then s
    else if s.isEpsilon then r
    else seq r s
  | many r => if r.isEmpty || r.isEpsilon then epsilon else many r
  | r => r

def union [BEq α] (r s : Regex α) : Regex α := simplify (alt r s)

def concat [BEq α] (r s : Regex α) : Regex α := simplify (seq r s)

def star [BEq α] (r : Regex α) : Regex α := simplify (many r)

/-- Whether `branch` is among the alternatives of an expression: the leaves of the tree of unions
at its top. -/
def hasBranch [BEq α] : Regex α → Regex α → Bool
  | alt r s, branch => hasBranch r branch || hasBranch s branch
  | r, branch => same r branch

/-- One expression of each class of equal ones, the first of it. -/
def distinct [BEq α] (rs : List (Regex α)) : List (Regex α) :=
  rs.foldl (fun known r => if known.any (same r) then known else known ++ [r]) []

/-- Unions stand in braces, concatenations in parentheses and starred expressions in brackets. -/
def text (letterText : α → String) : Regex α → String
  | letter a => letterText a
  | alt r s => "\x7b" ++ r.text letterText ++ " U " ++ s.text letterText ++ "\x7d"
  | seq r s => "(" ++ r.text letterText ++ " . " ++ s.text letterText ++ ")"
  | many r => "[" ++ r.text letterText ++ "]* "
  | epsilon => "EPSILON"
  | empty => "EMPTY"

section Laws

theorem isEmpty_iff {r : Regex α} : r.isEmpty ↔ r = empty := by
  cases r <;> simp [isEmpty]

theorem isEpsilon_iff {r : Regex α} : r.isEpsilon ↔ r = epsilon := by
  cases r <;> simp [isEpsilon]

variable [BEq α]

@[simp] theorem same_refl [ReflBEq α] (r : Regex α) : same r r = true := by
  induction r <;> simp_all [same]

@[simp] theorem union_empty_left (r : Regex α) : union empty r = r := rfl

@[simp] theorem union_empty_right (r : Regex α) : union r empty = r := by
  cases r <;> rfl

@[simp] theorem union_self [ReflBEq α] (r : Regex α) : union r r = r := by
  cases r <;> simp [union, simplify]

@[simp] theorem concat_empty_left (r : Regex α) : concat empty r = empty := rfl

@[simp] theorem concat_empty_right (r : Regex α) : concat r empty = empty := by
  cases r <;> rfl

@[simp] theorem concat_epsilon_right (r : Regex α) : concat r epsilon = r := by
  cases r <;> rfl

@[simp] theorem star_empty : star (empty : Regex α) = epsilon := rfl

end Laws

end Regex

end PointsTo
