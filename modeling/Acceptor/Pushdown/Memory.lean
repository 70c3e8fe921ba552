import Acceptor.Pushdown.Stack

/-!
# Stacks in memory

How stacks share their items. The memory holds nodes, each with one item and the place of the
node below it, and a stack is the place of its top node together with the number of its items,
which is kept up to date so that it need not be counted. Pushing makes one new node above the
old ones and popping makes none, so a stack and those that are made from it have their nodes in
common. A history makes one stack after another, each from any of those that were made before.
-/

namespace Acceptor.Stack

/-- An item, and the place of the node below it if there is one. -/
structure Node (α : Type) where
  value : α
  next : Option Nat

/-- The nodes in the order in which they were made. -/
structure Memory (α : Type) where
  nodes : Array (Node α) := #[]

/-- A stack in memory: the place of its top node, and how many items it has. -/
structure Linked where
  head : Option Nat := none
  size : Nat := 0

def Linked.isEmpty (s : Linked) : Bool := s.head.isNone

namespace Memory

variable {α : Type}

/-- The top node of a stack. -/
def topNode? (m : Memory α) (s : Linked) : Option (Node α) := s.head.bind fun i => m.nodes[i]?

def push (m : Memory α) (s : Linked) (a : α) : Memory α × Linked :=
  (⟨m.nodes.push ⟨a, s.head⟩⟩, ⟨some m.nodes.size, s.size + 1⟩)

/-- Popping an empty stack gives an empty stack. -/
def pop (m : Memory α) (s : Linked) : Linked :=
  match m.topNode? s with
  | some node => ⟨node.next, s.size - 1⟩
  | none => {}

def top? (m : Memory α) (s : Linked) : Option α := (m.topNode? s).map Node.value

/-- A stack of the items of `l`, which are pushed one by one so that the first one ends on top. -/
def ofList (m : Memory α) (l : List α) : Memory α × Linked :=
  l.foldr (fun a made => made.1.push made.2 a) (m, {})

/-- The items of the nodes from a place down to the end. A node refers to an older one, so the
places become smaller. -/
def itemsFrom (m : Memory α) : Option Nat → List α
  | none => []
  | some i =>
    match m.nodes[i]? with
    | none => []
    | some node => node.value :: m.itemsFrom (node.next.filter (· < i))
termination_by place => place.elim 0 (· + 1)
decreasing_by
  cases hnext : node.next.filter (· < i) with
  | none => exact Nat.succ_pos i
  | some j => exact Nat.succ_lt_succ (by simpa using (Option.filter_eq_some_iff.1 hnext).2)

/-- The items of a stack from the top down. -/
def items (m : Memory α) (s : Linked) : List α := m.itemsFrom s.head

/-- Whether two stacks have the same items. Stacks of different sizes are told apart without
looking at their nodes. -/
def same [BEq α] (m : Memory α) (s t : Linked) : Bool :=
  s.size == t.size && m.items s == m.items t

end Memory

/-- What is done to make one more stack. The others are known by the order in which they were
made. -/
inductive Call (α : Type) where
  | new (items : List α)
  | empty
  | default
  | push (i : Nat) (a : α)
  | pop (i : Nat)
  | clone (i : Nat)

/-- The memory and the stacks made so far, in the order in which they were made. -/
structure History (α : Type) where
  memory : Memory α := {}
  made : List Linked := []

namespace History

variable {α : Type}

/-- One more stack. There is no answer if the call names a stack that was not made yet. -/
def perform? (h : History α) : Call α → Option (History α)
  | .new l =>
    let (memory, s) := h.memory.ofList l
    some ⟨memory, h.made ++ [s]⟩
  | .empty | .default => some ⟨h.memory, h.made ++ [{}]⟩
  | .push i a => h.made[i]?.map fun s =>
    let (memory, t) := h.memory.push s a
    ⟨memory, h.made ++ [t]⟩
  | .pop i => h.made[i]?.map fun s => ⟨h.memory, h.made ++ [h.memory.pop s]⟩
  | .clone i => h.made[i]?.map fun s => ⟨h.memory, h.made ++ [s]⟩

def performAll? (h : History α) (calls : List (Call α)) : Option (History α) :=
  calls.foldlM perform? h

end History

end Acceptor.Stack
