import Acceptor.Ordered

/-!
# Finite sets as sorted lists

A `SortedSet α` is a list in strictly increasing order. The order makes the list
the only picture of the set: two sets with the same members are equal
(`SortedSet.ext`), so a set of states can itself serve as a state, and listing a
set never shows how it came about.
-/

namespace Acceptor

/-- A finite set, kept as the list of its members in increasing order. -/
structure SortedSet (α : Type) [Ordered α] where
  toList : List α
  sorted : toList.Pairwise fun a b => compare a b = .lt

namespace SortedSet

variable {α : Type} [Ordered α]

/-- Puts `a` at its place in an increasing list, unless it is there already. -/
def place (a : α) : List α → List α
  | [] => [a]
  | b :: l =>
    match compare a b with
    | .lt => a :: b :: l
    | .eq => b :: l
    | .gt => b :: place a l

theorem mem_place {a x : α} {l : List α} : x ∈ place a l ↔ x = a ∨ x ∈ l := by
  induction l with
  | nil => simp [place]
  | cons b l ih =>
    simp only [place]
    split
    · simp
    · rename_i h
      have hab : a = b := Std.LawfulEqOrd.eq_of_compare h
      subst hab
      simp
    · simp only [List.mem_cons, ih]
      constructor
      · rintro (h | h | h) <;> simp [h]
      · rintro (h | h | h) <;> simp [h]

theorem sorted_place (a : α) {l : List α} (h : l.Pairwise fun a b => compare a b = .lt) :
    (place a l).Pairwise fun a b => compare a b = .lt := by
  induction l with
  | nil => simp [place]
  | cons b l ih =>
    obtain ⟨hb, hl⟩ := List.pairwise_cons.1 h
    simp only [place]
    split
    · rename_i hab
      refine List.pairwise_cons.2 ⟨fun x hx => ?_, h⟩
      rcases List.mem_cons.1 hx with rfl | hx
      · exact hab
      · exact Std.TransCmp.lt_trans hab (hb x hx)
    · exact h
    · rename_i hab
      refine List.pairwise_cons.2 ⟨fun x hx => ?_, ih hl⟩
      rcases mem_place.1 hx with rfl | hx
      · exact Std.OrientedCmp.lt_of_gt hab
      · exact hb x hx

def empty : SortedSet α := ⟨[], .nil⟩

def insert (a : α) (s : SortedSet α) : SortedSet α :=
  ⟨place a s.toList, sorted_place a s.sorted⟩

/-- The set of the members of a list, whose order and repetitions are forgotten. -/
def ofList (l : List α) : SortedSet α := l.foldr insert empty

def singleton (a : α) : SortedSet α := ⟨[a], by simp⟩

/-- The members of `s` together with those of `t`. -/
def union (s t : SortedSet α) : SortedSet α := t.toList.foldr insert s

/-- The members of `s` that pass the test `p`. -/
def filter (p : α → Bool) (s : SortedSet α) : SortedSet α :=
  ⟨s.toList.filter p, s.sorted.filter p⟩

def size (s : SortedSet α) : Nat := s.toList.length

instance : Membership α (SortedSet α) where
  mem s a := a ∈ s.toList

instance (a : α) (s : SortedSet α) : Decidable (a ∈ s) :=
  inferInstanceAs (Decidable (a ∈ s.toList))

def meets (s t : SortedSet α) : Bool := s.toList.any (· ∈ t)

theorem toList_injective : ∀ s t : SortedSet α, s.toList = t.toList → s = t
  | ⟨_, _⟩, ⟨_, _⟩, rfl => rfl

instance : DecidableEq (SortedSet α) := fun s t =>
  decidable_of_iff (s.toList = t.toList) ⟨toList_injective s t, congrArg toList⟩

/-- Sets are ordered by their lists: element by element, a shorter one first. -/
instance : Ordered (SortedSet α) := .ofInjective toList toList_injective

end SortedSet

end Acceptor
