import Mathlib.Data.List.Forall2
import Acceptor.Pushdown.Memory

/-!
# What stacks in memory stand for

A stack in memory stands for the list that its chain of nodes spells (`Memory.Chain`), and its
size is the length of that list (`Memory.Shows`). No node changes once it is made, so what a
stack stands for is not touched by the calls that come later (`Memory.Within.shows`). Each call
makes a stack that stands for what the same call makes of lists (`History.Denotes.perform?`), and
with it a whole history does.
-/

namespace Acceptor.Stack

section

variable {α β γ : Type}

/-- The stack that a call makes where stacks are values of any kind `β`, with a way to make one
of a list, to push and to pop. -/
def Call.make? (ofList : List α → β) (push : β → α → β) (pop : β → β) (made : List β) :
    Call α → Option β
  | .new l => some (ofList l)
  | .empty | .default => some (ofList [])
  | .push i a => made[i]?.map fun s => push s a
  | .pop i => made[i]?.map pop
  | .clone i => made[i]?

/-- The calls of a history where stacks are lists with their top in front: pushing puts an item
in front, and popping takes it away if there is one. -/
def onLists? (made : List (List α)) (calls : List (Call α)) : Option (List (List α)) :=
  calls.foldlM (fun made call =>
    (call.make? id (fun l a => a :: l) List.tail made).map fun l => made ++ [l]) made

/-- The calls of a history on stacks as values. -/
def onValues? (made : List (Stack α)) (calls : List (Call α)) : Option (List (Stack α)) :=
  calls.foldlM (fun made call =>
    (call.make? Stack.ofList Stack.push Stack.pop made).map fun s => made ++ [s]) made

theorem Call.map_make? (f : β → γ) {ofList : List α → β} {push : β → α → β} {pop : β → β}
    {ofList' : List α → γ} {push' : γ → α → γ} {pop' : γ → γ}
    (hofList : ∀ l, f (ofList l) = ofList' l) (hpush : ∀ s a, f (push s a) = push' (f s) a)
    (hpop : ∀ s, f (pop s) = pop' (f s)) (made : List β) (call : Call α) :
    (call.make? ofList push pop made).map f = call.make? ofList' push' pop' (made.map f) := by
  cases call with
  | new l => exact congrArg some (hofList l)
  | empty => exact congrArg some (hofList [])
  | default => exact congrArg some (hofList [])
  | push i a => cases h : made[i]? <;> simp [make?, h, hpush]
  | pop i => cases h : made[i]? <;> simp [make?, h, hpop]
  | clone i => simp [make?]

/-- Stacks as values stand for their lists of items throughout a history. -/
theorem map_toList_onValues? (made : List (Stack α)) (calls : List (Call α)) :
    (onValues? made calls).map (List.map toList) = onLists? (made.map toList) calls := by
  induction calls generalizing made with
  | nil => rfl
  | cons call calls ih =>
    have hmake : (call.make? Stack.ofList Stack.push Stack.pop made).map toList =
        call.make? id (fun l a => a :: l) List.tail (made.map toList) :=
      call.map_make? toList toList_ofList toList_push toList_pop made
    rw [onValues?, onLists?, List.foldlM_cons, List.foldlM_cons, ← hmake]
    cases call.make? Stack.ofList Stack.push Stack.pop made with
    | none => rfl
    | some s => exact (ih _).trans (by simp [onLists?])

end

namespace Memory

variable {α : Type} {m n : Memory α} {s t : Linked} {place : Option Nat} {l xs ys : List α}

/-- The nodes from a place down to the end hold the items of a list. Each is older than the one
above it. -/
inductive Chain (m : Memory α) : Option Nat → List α → Prop
  | nil : m.Chain none []
  | cons {i : Nat} {node : Node α} {xs : List α} (hnode : m.nodes[i]? = some node)
      (hnext : ∀ j, node.next = some j → j < i) (hrest : m.Chain node.next xs) :
      m.Chain (some i) (node.value :: xs)

/-- A stack stands for a list. -/
structure Shows (m : Memory α) (s : Linked) (xs : List α) : Prop where
  chain : m.Chain s.head xs
  size_eq : s.size = xs.length

/-- All nodes of `m` are in `n` as well, at the same places. -/
def Within (m n : Memory α) : Prop :=
  ∀ (i : Nat) (node : Node α), m.nodes[i]? = some node → n.nodes[i]? = some node

theorem within_push (m : Memory α) (s : Linked) (a : α) : m.Within (m.push s a).1 := by
  intro i node hnode
  have hlt : i < m.nodes.size := (Array.getElem?_eq_some_iff.1 hnode).1
  rw [push, Array.getElem?_push_lt hlt, ← hnode, Array.getElem?_eq_getElem hlt]

theorem within_ofList (m : Memory α) (l : List α) : m.Within (m.ofList l).1 := by
  induction l with
  | nil => exact fun _ _ h => h
  | cons a l ih => exact fun i node h => within_push _ _ _ i node (ih i node h)

theorem Within.chain (h : m.Within n) (hchain : m.Chain place xs) : n.Chain place xs := by
  induction hchain with
  | nil => exact .nil
  | cons hnode hnext _ ih => exact .cons (h _ _ hnode) hnext ih

/-- Nodes that are made later do not change what a stack stands for. -/
theorem Within.shows (h : m.Within n) (hs : m.Shows s xs) : n.Shows s xs :=
  ⟨h.chain hs.chain, hs.size_eq⟩

theorem Chain.lt_size {i : Nat} (h : m.Chain (some i) xs) : i < m.nodes.size := by
  cases h with
  | cons hnode _ _ => exact (Array.getElem?_eq_some_iff.1 hnode).1

theorem Chain.itemsFrom (h : m.Chain place xs) : m.itemsFrom place = xs := by
  induction h with
  | nil => rw [Memory.itemsFrom]
  | @cons i node _ hnode hnext _ ih =>
    have hbelow : node.next.filter (· < i) = node.next := by
      cases hj : node.next with
      | none => rfl
      | some j => simp [hnext j hj]
    rw [Memory.itemsFrom, hnode]
    simp only [hbelow, ih]

theorem shows_empty (m : Memory α) : m.Shows {} [] := ⟨.nil, rfl⟩

theorem shows_push (hs : m.Shows s xs) (a : α) : (m.push s a).1.Shows (m.push s a).2 (a :: xs) := by
  have hrest : (m.push s a).1.Chain s.head xs := (within_push m s a).chain hs.chain
  refine ⟨.cons (Array.getElem?_push_size ..) ?_ hrest, congrArg (· + 1) hs.size_eq⟩
  intro j (hj : s.head = some j)
  exact Chain.lt_size (hj ▸ hs.chain)

theorem shows_ofList (m : Memory α) (l : List α) : (m.ofList l).1.Shows (m.ofList l).2 l := by
  induction l with
  | nil => exact shows_empty m
  | cons a l ih => exact shows_push ih a

namespace Shows

theorem topNode? (hs : m.Shows s xs) :
    (m.topNode? s = none ∧ s.head = none ∧ xs = []) ∨
      ∃ node rest, m.topNode? s = some node ∧ m.Chain node.next rest ∧ xs = node.value :: rest := by
  obtain ⟨hchain, _⟩ := hs
  obtain ⟨head, size⟩ := s
  cases hchain with
  | nil => exact .inl ⟨rfl, rfl, rfl⟩
  | cons hnode _ hrest => exact .inr ⟨_, _, hnode, hrest, rfl⟩

theorem pop (hs : m.Shows s xs) : m.Shows (m.pop s) xs.tail := by
  rcases hs.topNode? with ⟨hnone, _, rfl⟩ | ⟨node, rest, hsome, hrest, rfl⟩
  · rw [Memory.pop, hnone]
    exact shows_empty m
  · rw [Memory.pop, hsome]
    refine ⟨hrest, ?_⟩
    rw [hs.size_eq, List.length_cons, List.tail_cons]
    exact Nat.add_sub_cancel _ 1

theorem top? (hs : m.Shows s xs) : m.top? s = xs.head? := by
  rcases hs.topNode? with ⟨hnone, _, rfl⟩ | ⟨node, rest, hsome, _, rfl⟩
  · rw [Memory.top?, hnone]
    rfl
  · rw [Memory.top?, hsome]
    rfl

theorem isEmpty (hs : m.Shows s xs) : s.isEmpty = xs.isEmpty := by
  obtain ⟨hchain, _⟩ := hs
  obtain ⟨head, size⟩ := s
  cases hchain <;> rfl

/-- A stack with a top node has a size that one can be taken from. -/
theorem size_pos (hs : m.Shows s xs) : s.head = none ∨ 0 < s.size := by
  rcases hs.topNode? with ⟨_, hhead, _⟩ | ⟨node, rest, _, _, rfl⟩
  · exact .inl hhead
  · refine .inr ?_
    rw [hs.size_eq]
    exact Nat.succ_pos _

theorem items (hs : m.Shows s xs) : m.items s = xs := hs.chain.itemsFrom

/-- Lists of different lengths are different, so the look at the sizes changes nothing. -/
theorem same [BEq α] (hs : m.Shows s xs) (ht : m.Shows t ys) : m.same s t = (xs == ys) := by
  rw [Memory.same, hs.items, ht.items, hs.size_eq, ht.size_eq]
  cases hxs : xs == ys with
  | false => simp
  | true => simp [List.length_eq_of_beq hxs]

end Shows

end Memory

namespace History

open Memory

variable {α : Type} {h : History α} {lists : List (List α)}

/-- The stacks made so far stand for the lists, one by one. -/
def Denotes (h : History α) (lists : List (List α)) : Prop :=
  List.Forall₂ h.memory.Shows h.made lists

namespace Denotes

/-- What is done to a stack and to the list that it stands for keeps the histories together. -/
theorem map_getElem? (hd : h.Denotes lists) (i : Nat) {f : Linked → History α}
    {g : List α → List (List α)} (hfg : ∀ s xs, h.memory.Shows s xs → (f s).Denotes (g xs)) :
    Option.Rel Denotes (h.made[i]?.map f) (lists[i]?.map g) := by
  obtain ⟨memory, made⟩ := h
  change List.Forall₂ memory.Shows made lists at hd
  induction hd generalizing i with
  | nil => exact .none
  | cons hs _ ih =>
    cases i with
    | zero => exact .some (hfg _ _ hs)
    | succ i => exact ih i hfg

/-- One more stack, perhaps with new nodes, leaves all others as they are. -/
theorem append (hd : h.Denotes lists) {m : Memory α} (hm : h.memory.Within m) {s : Linked}
    {xs : List α} (hs : m.Shows s xs) : Denotes ⟨m, h.made ++ [s]⟩ (lists ++ [xs]) :=
  List.rel_append (hd.imp fun _ _ => hm.shows) (.cons hs .nil)

/-- One call on stacks in memory and on lists. Either both name a stack that was not made yet, or
both make one, and these belong together. -/
theorem perform? (hd : h.Denotes lists) (call : Call α) :
    Option.Rel Denotes (h.perform? call)
      ((call.make? id (fun l a => a :: l) List.tail lists).map fun l => lists ++ [l]) := by
  cases call with
  | new l => exact .some (hd.append (within_ofList _ l) (shows_ofList _ l))
  | empty => exact .some (hd.append (fun _ _ h => h) (shows_empty _))
  | default => exact .some (hd.append (fun _ _ h => h) (shows_empty _))
  | push i a =>
    rw [Call.make?, Option.map_map]
    exact hd.map_getElem? i fun s _ hs => hd.append (within_push _ s a) (shows_push hs a)
  | pop i =>
    rw [Call.make?, Option.map_map]
    exact hd.map_getElem? i fun _ _ hs => hd.append (fun _ _ h => h) hs.pop
  | clone i => exact hd.map_getElem? i fun _ _ hs => hd.append (fun _ _ h => h) hs

theorem performAll? (hd : h.Denotes lists) (calls : List (Call α)) :
    Option.Rel Denotes (h.performAll? calls) (onLists? lists calls) := by
  induction calls generalizing h lists with
  | nil => exact .some hd
  | cons call calls ih =>
    rw [History.performAll?, onLists?, List.foldlM_cons, List.foldlM_cons]
    have hstep := hd.perform? call
    generalize h.perform? call = next at hstep ⊢
    generalize (call.make? _ _ _ lists).map _ = nextLists at hstep ⊢
    cases hstep with
    | none => exact .none
    | some hnext => exact ih hnext

end Denotes

theorem denotes_start : Denotes ({} : History α) [] := .nil

end History

/-- Two lists are equal, item by item. -/
theorem beq_iff_forall₂ [BEq α] {xs ys : List α} :
    (xs == ys) = true ↔ List.Forall₂ (fun a b => (a == b) = true) xs ys := by
  induction xs generalizing ys with
  | nil => cases ys <;> simp
  | cons a xs ih => cases ys <;> simp [ih]

/-- Stacks refine lists under any history. Whatever stacks are made of whatever stacks were made
before, each of them stands for the list that the same calls make of lists: its nodes hold the
items from the top down, its size is their number, from which one can be taken where there is a
top, and looks at it or comparisons with any other stack answer as the lists do. A call that names
a stack that was not made is the only one without an answer, in both. Stacks as values, with
their items at hand, stand for the same lists. -/
theorem history_refines_lists [BEq α] (calls : List (Call α)) :
    Option.Rel (fun h lists => List.Forall₂ (fun s xs =>
        h.memory.Chain s.head xs ∧ h.memory.items s = xs ∧ s.size = xs.length ∧
        (s.head = none ∨ 0 < s.size) ∧ s.isEmpty = xs.isEmpty ∧ h.memory.top? s = xs.head? ∧
        List.Forall₂ (fun t ys =>
          (h.memory.same s t = true ↔ List.Forall₂ (fun a b => (a == b) = true) xs ys) ∧
          (LawfulBEq α → (h.memory.same s t = true ↔ xs = ys))) h.made lists) h.made lists)
      (History.performAll? {} calls) (onLists? [] calls) ∧
    (onValues? [] calls).map (List.map toList) = onLists? [] calls := by
  refine ⟨?_, map_toList_onValues? [] calls⟩
  have hrun := History.denotes_start.performAll? calls
  generalize History.performAll? {} calls = made at hrun ⊢
  generalize onLists? [] calls = lists at hrun ⊢
  cases hrun with
  | none => exact .none
  | @some h lists hd =>
    refine .some (hd.imp fun s xs hs => ⟨hs.chain, hs.items, hs.size_eq, hs.size_pos, hs.isEmpty,
      hs.top?, hd.imp fun t ys ht => ?_⟩)
    rw [hs.same ht]
    exact ⟨beq_iff_forall₂, fun _ => beq_iff_eq⟩

/-- Two stacks get different items on the same node, and one of them has then the items of the
first stack but not its nodes. An empty stack is popped in between. -/
theorem history_refines_lists_of_sharing :
    let calls : List (Call Char) :=
      [.new ['a', 'b'], .pop 0, .push 1 'c', .push 1 'a', .default, .pop 4, .push 5 'a', .clone 6]
    let memory : Memory Char :=
      ⟨#[⟨'b', none⟩, ⟨'a', some 0⟩, ⟨'c', some 0⟩, ⟨'a', some 0⟩, ⟨'a', none⟩]⟩
    let made : List Linked := [⟨some 1, 2⟩, ⟨some 0, 1⟩, ⟨some 2, 2⟩, ⟨some 3, 2⟩, {}, {},
      ⟨some 4, 1⟩, ⟨some 4, 1⟩]
    LawfulBEq Char ∧ History.performAll? {} calls = some ⟨memory, made⟩ ∧
      memory.same ⟨some 1, 2⟩ ⟨some 3, 2⟩ = true ∧ memory.same ⟨some 1, 2⟩ ⟨some 2, 2⟩ = false ∧
      memory.items ⟨some 2, 2⟩ = ['c', 'b'] := by
  intro calls memory made
  have hrun : History.performAll? {} calls = some ⟨memory, made⟩ := rfl
  have hlists : onLists? [] calls = some [['a', 'b'], ['b'], ['c', 'b'], ['a', 'b'], [], [],
    ['a'], ['a']] := rfl
  obtain ⟨hrel, _⟩ := history_refines_lists calls
  rw [hrun, hlists] at hrel
  cases hrel with
  | some hd =>
    simp only [made, List.forall₂_cons] at hd
    obtain ⟨⟨_, _, _, _, _, _, _, _, ⟨_, hdifferent⟩, ⟨_, hsame⟩, _⟩, _, ⟨_, hitems, _⟩, _⟩ := hd
    refine ⟨inferInstance, hrun, (hsame inferInstance).2 trivial, ?_, hitems⟩
    exact Bool.eq_false_iff.2 fun h => absurd ((hdifferent inferInstance).1 h) (by decide)

end Acceptor.Stack
