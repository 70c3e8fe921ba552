import Acceptor.Text.Quoted

/-!
# Stacks

A stack is the list of its items from the top down together with the number of
items, which is kept up to date so that it need not be counted. Stacks are values:
pushing and popping give new stacks and leave the old ones as they are. Popping an
empty stack gives an empty stack.
-/

namespace Acceptor

/-- A stack: its items from the top down, and how many there are. -/
structure Stack (α : Type) where
  toList : List α
  size : Nat := toList.length
  size_eq : size = toList.length := by rfl

namespace Stack

variable {α : Type}

def empty : Stack α := { toList := [] }

def push (s : Stack α) (a : α) : Stack α :=
  ⟨a :: s.toList, s.size + 1, by rw [s.size_eq, List.length_cons]⟩

def pop (s : Stack α) : Stack α :=
  match s with
  | ⟨[], _, _⟩ => empty
  | ⟨_ :: rest, size, h⟩ => ⟨rest, size - 1, by rw [h, List.length_cons, Nat.add_sub_cancel]⟩

def top? (s : Stack α) : Option α := s.toList.head?

def isEmpty (s : Stack α) : Bool := s.toList.isEmpty

/-- The items of `l` pushed one by one, so that the first one ends on top of `s`. -/
def pushAll (s : Stack α) (l : List α) : Stack α := l.foldr (fun a s => s.push a) s

/-- The stack of the items of `l`, the first one on top. -/
def ofList (l : List α) : Stack α := empty.pushAll l

instance [BEq α] : BEq (Stack α) where
  beq s t := s.size == t.size && s.toList == t.toList

instance [Quoted α] : Quoted (Stack α) := ⟨fun s => quoted s.toList⟩

/-- The stack on one line, the top in brackets and the rest behind it. -/
def display [Plain α] (s : Stack α) : String :=
  String.ofList ("#<Stack (".toList ++ (s.toList.take 1).flatMap plain ++ [')'] ++
    (s.toList.drop 1).flatMap plain ++ ['>'])

@[simp] theorem toList_empty : (empty : Stack α).toList = [] := rfl

@[simp] theorem toList_push (s : Stack α) (a : α) : (s.push a).toList = a :: s.toList := rfl

@[simp] theorem toList_pop (s : Stack α) : s.pop.toList = s.toList.tail := by
  obtain ⟨_ | ⟨_, _⟩, _, _⟩ := s <;> rfl

@[simp] theorem toList_pushAll (s : Stack α) (l : List α) :
    (s.pushAll l).toList = l ++ s.toList := by
  induction l with
  | nil => rfl
  | cons a l ih => rw [pushAll, List.foldr_cons, toList_push, List.cons_append, ← ih, pushAll]

@[simp] theorem toList_ofList (l : List α) : (ofList l).toList = l := by
  rw [ofList, toList_pushAll, toList_empty, List.append_nil]

/-- Stacks with the same items are equal. -/
theorem ext {s t : Stack α} (h : s.toList = t.toList) : s = t := by
  obtain ⟨l, m, hm⟩ := s
  obtain ⟨l', n, hn⟩ := t
  cases h
  subst hm
  subst hn
  rfl

@[simp] theorem ofList_toList (s : Stack α) : ofList s.toList = s := ext (toList_ofList _)

end Stack

end Acceptor
