/-!
# Orders read off a key

Every type that serves as a key of an ordered collection is compared through an injective map into
a type whose order is known: products compare lexicographically, an absent value comes before a
present one, and the alternatives of an inductive type come in the order of their ranks.
`transOrd_of_key` and `lawfulEqOrd_of_key` turn such a map into the two laws that search trees ask
for.
-/

namespace PointsTo

/-- The order of `α` in which two values compare as their keys do. -/
@[reducible] def ordByKey {α κ : Type} [Ord κ] (key : α → κ) : Ord α := ⟨compareOn key⟩

theorem transOrd_of_key {α κ : Type} [Ord κ] [Std.TransOrd κ] (key : α → κ) :
    letI := ordByKey key
    Std.TransOrd α :=
  inferInstanceAs (Std.TransCmp (compareOn key))

/-- Two values with different keys never compare equal, so nothing is lost by comparing keys. -/
theorem lawfulEqOrd_of_key {α κ : Type} [Ord κ] [Std.LawfulEqOrd κ] {key : α → κ}
    (injective : ∀ a b, key a = key b → a = b) :
    letI := ordByKey key
    Std.LawfulEqOrd α :=
  letI := ordByKey key
  { compare_self := fun {a} => Std.ReflOrd.compare_self (a := key a)
    eq_of_compare := fun {a b} h => injective a b (Std.LawfulEqOrd.eq_of_compare h) }

/-- Pairs compare by their first components, and by the second ones if those are equal. -/
instance ordProd {α β : Type} [Ord α] [Ord β] : Ord (α × β) := lexOrd

instance transOrdProd {α β : Type} [Ord α] [Ord β] [Std.TransOrd α] [Std.TransOrd β] :
    Std.TransOrd (α × β) :=
  inferInstanceAs (Std.TransCmp (compareLex _ _))

instance lawfulEqOrdProd {α β : Type} [Ord α] [Ord β] [Std.LawfulEqOrd α]
    [Std.LawfulEqOrd β] : Std.LawfulEqOrd (α × β) where
  compare_self := fun {a} => by
    simp [compare, compareLex, compareOn, Std.ReflOrd.compare_self]
  eq_of_compare := fun {a b} h => by
    simp only [compare, compareLex_eq_eq, compareOn] at h
    exact Prod.ext (Std.LawfulEqOrd.eq_of_compare h.1) (Std.LawfulEqOrd.eq_of_compare h.2)

end PointsTo
