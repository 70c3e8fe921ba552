/-!
# Ordered types

States and symbols are compared only through a total order. `Ordered α` packs a
comparison with the two facts that make it one, so that a sorted list without
repeats is a faithful picture of a finite set. The order of lists is the
lexicographic one, a shorter list before its extensions, so sets of states are
ordered as well and can be states again.
-/

namespace Acceptor

/-- A type with a total order whose equality is equality. -/
class Ordered (α : Type) extends Ord α where
  transOrd : Std.TransOrd α
  lawfulEqOrd : Std.LawfulEqOrd α
  decidableEq : DecidableEq α

namespace Ordered

variable {α : Type} [Ordered α]

instance : Std.TransOrd α := transOrd

instance : Std.LawfulEqOrd α := lawfulEqOrd

instance (priority := low) : DecidableEq α := decidableEq

instance : LawfulBEq α := inferInstance

instance : Ordered Nat where
  toOrd := instOrdNat
  transOrd := inferInstance
  lawfulEqOrd := inferInstance
  decidableEq := instDecidableEqNat

instance : Ordered Int where
  toOrd := instOrdInt
  transOrd := inferInstance
  lawfulEqOrd := inferInstance
  decidableEq := Int.instDecidableEq

instance : Ordered Char where
  toOrd := instOrdChar
  transOrd := Char.instTransOrd
  lawfulEqOrd := Char.instLawfulEqOrd
  decidableEq := instDecidableEqChar

instance : Ordered String where
  toOrd := String.instOrd
  transOrd := String.instTransOrd
  lawfulEqOrd := String.instLawfulEqOrd
  decidableEq := instDecidableEqString

instance : Ordered (List α) where
  toOrd := List.instOrd
  transOrd := List.instTransOrd
  lawfulEqOrd := List.instLawfulEqOrd
  decidableEq := instDecidableEqList

/-- The order of a disjoint union: the left part before the right part. -/
def compareSum {β : Type} [Ordered β] : α ⊕ β → α ⊕ β → Ordering
  | .inl a, .inl b => compare a b
  | .inl _, .inr _ => .lt
  | .inr _, .inl _ => .gt
  | .inr a, .inr b => compare a b

instance {β : Type} [Ordered β] : Ordered (α ⊕ β) where
  compare := compareSum
  transOrd :=
    { eq_swap := by
        rintro (a | a) (b | b)
        · exact Std.OrientedOrd.eq_swap (α := α)
        · rfl
        · rfl
        · exact Std.OrientedOrd.eq_swap (α := β)
      isLE_trans := by
        rintro (a | a) (b | b) (c | c) hab hbc
        · exact Std.TransOrd.isLE_trans (α := α) hab hbc
        · rfl
        · cases hbc
        · rfl
        · cases hab
        · cases hab
        · cases hbc
        · exact Std.TransOrd.isLE_trans (α := β) hab hbc }
  lawfulEqOrd :=
    { compare_self := by
        rintro (a | a)
        · exact Std.ReflOrd.compare_self (α := α)
        · exact Std.ReflOrd.compare_self (α := β)
      eq_of_compare := by
        rintro (a | a) (b | b) h
        · exact congrArg Sum.inl (Std.LawfulEqOrd.eq_of_compare (α := α) h)
        · cases h
        · cases h
        · exact congrArg Sum.inr (Std.LawfulEqOrd.eq_of_compare (α := β) h) }
  decidableEq := instDecidableEqSum

/-- The order that a type inherits along an injective map into an ordered type. -/
@[reducible]
def ofInjective {β : Type} [DecidableEq β] (key : β → α)
    (injective : ∀ a b, key a = key b → a = b) : Ordered β where
  compare := compareOn key
  transOrd := (inferInstance : Std.TransCmp (compareOn key))
  lawfulEqOrd :=
    { compare_self := Std.ReflOrd.compare_self (α := α)
      eq_of_compare := fun h => injective _ _ (Std.LawfulEqOrd.eq_of_compare (α := α) h) }
  decidableEq := inferInstance

end Ordered

end Acceptor
