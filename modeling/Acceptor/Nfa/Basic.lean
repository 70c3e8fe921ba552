import Acceptor.Diagram
import Acceptor.Search
import Acceptor.SortedSet.Lemmas

/-!
# Nondeterministic automata

A nondeterministic automaton is in several states at once: in all those that its
rules allow after the word read so far. Free moves cost nothing, so the set of
current states is always closed under them. The order and the repetitions of the
rules do not matter to a run.
-/

namespace Acceptor

/-- A diagram all of whose applicable rules count. -/
structure Nfa (σ α : Type) [Ordered σ] extends Diagram σ α

namespace Nfa

variable {σ α : Type} [Ordered σ] [DecidableEq α]

/-- The states that one rule with the label `a` leads to from a state of `S`. -/
def next (m : Nfa σ α) (S : SortedSet σ) (a : Option α) : SortedSet σ :=
  .ofList (S.toList.flatMap fun q => m.follow q a)

theorem finitelyMany_follow (m : Nfa σ α) (a : Option α) (q : σ) :
    ∀ r ∈ m.follow q a, r ∈ m.rules.map Rule.target := by
  intro r hr
  obtain ⟨rule, hrule, rfl⟩ := List.mem_map.1 hr
  exact List.mem_map_of_mem (List.mem_filter.1 hrule).1

/-- The states that free moves reach from `S`, those of `S` included. -/
def closure (m : Nfa σ α) (S : SortedSet σ) : SortedSet σ :=
  .ofList (search (fun q => m.follow q none) ⟨_, m.finitelyMany_follow none⟩ S.toList)

/-- The states after reading `a` in the states `S`, with all free moves before and
after it. -/
def advance (m : Nfa σ α) (S : SortedSet σ) (a : α) : SortedSet σ :=
  m.closure (m.next (m.closure S) (some a))

/-- The current states after reading a word from the states `S`. -/
def run (m : Nfa σ α) (S : SortedSet σ) (w : List α) : SortedSet σ :=
  w.foldl m.advance (m.closure S)

/-- What a running automaton keeps when it reads `a`: the free moves before the symbol
are followed, those behind it wait until somebody looks at the states. -/
def read (m : Nfa σ α) (S : SortedSet σ) (a : α) : SortedSet σ :=
  m.next (m.closure S) (some a)

/-- The states that are kept after reading a word. Their closure is what is current. -/
def kept (m : Nfa σ α) (S : SortedSet σ) (w : List α) : SortedSet σ := w.foldl m.read S

def initial (m : Nfa σ α) : SortedSet σ := m.closure (.singleton m.start)

/-- Whether one of the states `S` or of those that free moves reach from them is an
accept state. -/
def accepting (m : Nfa σ α) (S : SortedSet σ) : Bool := (m.closure S).meets m.accept

def accepts (m : Nfa σ α) (w : List α) : Bool :=
  m.accepting (m.run (.singleton m.start) w)

theorem mem_next {m : Nfa σ α} {S : SortedSet σ} {a : Option α} {r : σ} :
    r ∈ m.next S a ↔ ∃ q, q ∈ S ∧ ⟨q, a, r⟩ ∈ m.rules := by
  simp only [next, SortedSet.mem_ofList, List.mem_flatMap, Diagram.follow, List.mem_map,
    Diagram.rulesFor, List.mem_filter, decide_eq_true_eq, SortedSet.mem_toList]
  constructor
  · rintro ⟨q, hq, ⟨source, label, target⟩, ⟨hrule, rfl, rfl⟩, rfl⟩
    exact ⟨source, hq, hrule⟩
  · rintro ⟨q, hq, hrule⟩
    exact ⟨q, hq, ⟨q, a, r⟩, ⟨hrule, rfl, rfl⟩, rfl⟩

theorem mem_closure {m : Nfa σ α} {S : SortedSet σ} {q : σ} :
    q ∈ m.closure S ↔ Reachable (fun q => m.follow q none) S.toList q := by
  rw [closure, SortedSet.mem_ofList, mem_search]

/-- What lies in a closure lay in the set already or is the target of a rule. -/
theorem mem_or_mem_targets_of_mem_closure {m : Nfa σ α} {S : SortedSet σ} {q : σ}
    (h : q ∈ m.closure S) : q ∈ S ∨ q ∈ m.targets := by
  cases mem_closure.1 h with
  | seed hq => exact .inl hq
  | step _ hq => exact .inr (SortedSet.mem_ofList.2 (m.finitelyMany_follow none _ _ hq))

/-- Reading a symbol leads to targets of rules only. -/
theorem mem_targets_of_mem_advance {m : Nfa σ α} {S : SortedSet σ} {a : α} {q : σ}
    (h : q ∈ m.advance S a) : q ∈ m.targets := by
  rcases mem_or_mem_targets_of_mem_closure h with h | h
  · obtain ⟨_, _, hrule⟩ := mem_next.1 h
    exact SortedSet.mem_ofList.2 (List.mem_map.2 ⟨_, hrule, rfl⟩)
  · exact h

@[simp] theorem run_nil (m : Nfa σ α) (S : SortedSet σ) : m.run S [] = m.closure S := rfl

@[simp] theorem kept_nil (m : Nfa σ α) (S : SortedSet σ) : m.kept S [] = S := rfl

@[simp] theorem kept_cons (m : Nfa σ α) (S : SortedSet σ) (a : α) (w : List α) :
    m.kept S (a :: w) = m.kept (m.read S a) w := rfl

end Nfa

end Acceptor
