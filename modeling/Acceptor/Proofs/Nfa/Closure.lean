import Mathlib.Logic.Relation
import Mathlib.Order.Bounds.Basic
import Acceptor.Nfa.FreeMoves
import Acceptor.Nfa.Path

/-!
# Closures under free moves

The loop over the list of waiting states finds exactly what free moves reach (`mem_close`). Its
invariant is `Underway`: what is found is reachable, and a state that was found waits or has
been followed. One round keeps it, and when nothing waits any more the states that were found
are closed under free moves. All that is known of closures comes from this: they are least
closed sets, and the order of the rules leaves no trace in them.
-/

namespace Acceptor.Nfa

variable {σ α : Type} [Ordered σ] {m n : Nfa σ α} {S T : SortedSet σ} {q r : σ}

/-- A free rule leads from `q` to `r`. -/
def FreeMove (m : Nfa σ α) (q r : σ) : Prop := ⟨q, none, r⟩ ∈ m.rules

/-- Free moves lead to `q` from a state of `S`. -/
def FreelyReached (m : Nfa σ α) (S : SortedSet σ) (q : σ) : Prop :=
  ∃ p, p ∈ S ∧ Relation.ReflTransGen m.FreeMove p q

namespace FreelyReached

theorem of_mem (h : q ∈ S) : m.FreelyReached S q := ⟨q, h, .refl⟩

theorem move (h : m.FreelyReached S q) (hmove : m.FreeMove q r) : m.FreelyReached S r := by
  obtain ⟨p, hp, hmoves⟩ := h
  exact ⟨p, hp, hmoves.tail hmove⟩

/-- Only the states from which the moves start and the free rules matter. -/
theorem mono (hS : ∀ p, p ∈ S → p ∈ T) (hrules : ∀ p q, m.FreeMove p q → n.FreeMove p q)
    (h : m.FreelyReached S q) : n.FreelyReached T q := by
  obtain ⟨p, hp, hmoves⟩ := h
  exact ⟨p, hS p hp, Relation.ReflTransGen.mono hrules p q hmoves⟩

/-- What holds of the states of `S` and is kept by free moves holds of all that they reach. -/
theorem induction {P : σ → Prop} (hS : ∀ p, p ∈ S → P p)
    (hmove : ∀ q r, P q → m.FreeMove q r → P r) (h : m.FreelyReached S q) : P q := by
  obtain ⟨p, hp, hmoves⟩ := h
  induction hmoves with
  | refl => exact hS p hp
  | tail _ hlast ih => exact hmove _ _ ih hlast

end FreelyReached

/-- What the loop keeps. A state that was found and does not wait has been followed. -/
structure Underway (m : Nfa σ α) (S : SortedSet σ) (c : Closing σ) : Prop where
  contains : ∀ q, q ∈ S → q ∈ c.found
  reached : ∀ q, q ∈ c.found → m.FreelyReached S q
  waits_found : ∀ q ∈ c.waiting, q ∈ c.found
  followed : ∀ q, q ∈ c.found → q ∉ c.waiting → ∀ r, m.FreeMove q r → r ∈ c.found

theorem underway_start (m : Nfa σ α) (S : SortedSet σ) :
    m.Underway S ⟨S, S.toList.reverse⟩ where
  contains _ hq := hq
  reached _ hq := .of_mem hq
  waits_found _ hq := List.mem_reverse.1 hq
  followed _ hq hwaits := absurd (List.mem_reverse.2 hq) hwaits

/-- When nothing waits, exactly what is reachable was found. -/
theorem Underway.mem_found_iff {found : SortedSet σ} (h : m.Underway S ⟨found, []⟩) :
    q ∈ found ↔ m.FreelyReached S q := by
  constructor
  · exact h.reached q
  · exact FreelyReached.induction h.contains
      fun q r hq hmove => h.followed q hq List.not_mem_nil r hmove

section

variable [DecidableEq α]

/-- A round keeps the invariant: the state that is taken from the list is followed, and what is
found through it waits. -/
theorem Underway.round {found : SortedSet σ} {waiting : List σ}
    (h : m.Underway S ⟨found, q :: waiting⟩) :
    m.Underway S ((m.follow q none).foldl .note ⟨found, waiting⟩) := by
  have hq : q ∈ found := h.waits_found q List.mem_cons_self
  constructor
  · intro p hp
    exact Closing.mem_found_foldl_note.2 (.inl (h.contains p hp))
  · intro r hr
    rcases Closing.mem_found_foldl_note.1 hr with hr | hr
    · exact h.reached r hr
    · exact (h.reached q hq).move (mem_follow.1 hr)
  · intro r hr
    rw [Closing.mem_waiting_foldl_note] at hr
    rw [Closing.mem_found_foldl_note]
    rcases hr with hr | ⟨hr, _⟩
    · exact .inl (h.waits_found r (List.mem_cons_of_mem q hr))
    · exact .inr hr
  · intro p hp hwaits r hmove
    rw [Closing.mem_waiting_foldl_note, not_or] at hwaits
    rw [Closing.mem_found_foldl_note]
    obtain ⟨hold, hnew⟩ := hwaits
    have hknown : p ∈ found := by
      rcases Closing.mem_found_foldl_note.1 hp with hp | hp
      · exact hp
      · exact Decidable.of_not_not fun hunknown => hnew ⟨hp, hunknown⟩
    by_cases hpq : p = q
    · subst hpq
      exact .inr (mem_follow.2 hmove)
    · exact .inl (h.followed p hknown (List.not_mem_cons_of_ne_of_not_mem hpq hold) r hmove)

/-- So does the whole loop, and it goes on until nothing waits. -/
theorem Underway.closeFrom {c : Closing σ} (h : m.Underway S c) :
    m.Underway S ⟨m.closeFrom c, []⟩ := by
  fun_induction Nfa.closeFrom m c with
  | case1 c hwaiting =>
    obtain ⟨found, waiting⟩ := c
    obtain rfl : waiting = [] := hwaiting
    exact h
  | case2 c q waiting hwaiting ih =>
    obtain ⟨found, _⟩ := c
    cases hwaiting
    exact ih h.round

/-- The loop finds what free moves reach. -/
theorem mem_close : q ∈ m.close S ↔ m.FreelyReached S q :=
  (m.underway_start S).closeFrom.mem_found_iff

/-- The order in which the states are found makes no difference. -/
theorem close_eq_closure (m : Nfa σ α) (S : SortedSet σ) : m.close S = m.closure S := by
  refine SortedSet.ext fun q => ?_
  rw [mem_close, mem_closure]
  constructor
  · exact FreelyReached.induction (fun _ hp => .seed hp)
      fun _ _ hq hmove => hq.step (mem_follow.2 hmove)
  · intro h
    induction h with
    | seed hq => exact .of_mem hq
    | step _ hr ih => exact ih.move (mem_follow.1 hr)

/-- The closure is the least set that holds `S` and is closed under free moves. -/
theorem isLeast_close (m : Nfa σ α) (S : SortedSet σ) :
    IsLeast {P : Set σ | (∀ q, q ∈ S → q ∈ P) ∧ ∀ q ∈ P, ∀ r, m.FreeMove q r → r ∈ P}
      {q | q ∈ m.close S} := by
  constructor
  · constructor
    · intro q hq
      exact mem_close.2 (.of_mem hq)
    · intro q hq r hmove
      exact mem_close.2 ((mem_close.1 hq).move hmove)
  · intro P hP q hq
    exact (mem_close.1 hq).induction hP.1 fun q r hq hmove => hP.2 q hq r hmove

theorem close_mono (hS : ∀ q, q ∈ S → q ∈ T) : ∀ q, q ∈ m.close S → q ∈ m.close T := by
  intro q hq
  exact mem_close.2 ((mem_close.1 hq).mono hS fun _ _ => id)

theorem close_close (m : Nfa σ α) (S : SortedSet σ) : m.close (m.close S) = m.close S := by
  refine SortedSet.ext fun q => ?_
  constructor
  · intro hq
    exact (mem_close.1 hq).induction (fun _ => id)
      fun q r hq hmove => mem_close.2 ((mem_close.1 hq).move hmove)
  · intro hq
    exact mem_close.2 (.of_mem hq)

theorem close_union (m : Nfa σ α) (S T : SortedSet σ) :
    m.close (S.union T) = (m.close S).union (m.close T) := by
  refine SortedSet.ext fun q => ?_
  simp only [SortedSet.mem_union, mem_close, FreelyReached, or_and_right, exists_or]

theorem close_empty (m : Nfa σ α) : m.close .empty = .empty := by
  refine SortedSet.ext fun q => ?_
  simp [mem_close, FreelyReached]

theorem close_congr (h : ∀ q r, n.FreeMove q r ↔ m.FreeMove q r) (S : SortedSet σ) :
    n.close S = m.close S := by
  refine SortedSet.ext fun q => ?_
  rw [mem_close, mem_close]
  constructor
  · exact FreelyReached.mono (fun _ => id) fun p q => (h p q).1
  · exact FreelyReached.mono (fun _ => id) fun p q => (h p q).2

/-- The loop computes the closure under free moves, whatever cycles and repetitions the rules
have. It finds the states that free moves reach from `S`, and they are the least set that holds
`S` and is closed under free moves. Nothing but the set of free rules matters, and closing is
idempotent, monotone, and distributes over unions. -/
theorem close_computes_closure (m : Nfa σ α) (S : SortedSet σ) :
    (∀ q, q ∈ m.close S ↔ ∃ p, p ∈ S ∧ Relation.ReflTransGen m.FreeMove p q) ∧
    IsLeast {P : Set σ | (∀ q, q ∈ S → q ∈ P) ∧ ∀ q ∈ P, ∀ r, m.FreeMove q r → r ∈ P}
      {q | q ∈ m.close S} ∧
    m.close S = m.closure S ∧
    (∀ n : Nfa σ α, (∀ q r, n.FreeMove q r ↔ m.FreeMove q r) → n.close S = m.close S) ∧
    m.close (m.close S) = m.close S ∧
    (∀ T, (∀ q, q ∈ S → q ∈ T) → ∀ q, q ∈ m.close S → q ∈ m.close T) ∧
    m.close .empty = .empty ∧ ∀ T, m.close (S.union T) = (m.close S).union (m.close T) :=
  ⟨fun _ => mem_close, m.isLeast_close S, m.close_eq_closure S, fun _ h => close_congr h S,
    m.close_close S, fun _ => close_mono, m.close_empty, m.close_union S⟩

/-- A cycle, a loop and a rule that stands there twice; `9` is mentioned by no rule. The other
automaton has the same free rules in another order and reads another symbol. -/
theorem close_computes_closure_of_cycle :
    let m : Nfa Nat Char :=
      { start := 0
        accept := .empty
        rules := [.free 0 1, .free 1 1, .free 1 2, ⟨2, some 'a', 5⟩, .free 2 0, .free 0 1] }
    let n : Nfa Nat Char :=
      { start := 4
        accept := .singleton 2
        rules := [.free 2 0, .free 1 2, .free 0 1, ⟨0, some 'b', 6⟩, .free 1 1] }
    let S : SortedSet Nat := .ofList [1, 9]
    let T : SortedSet Nat := .ofList [1, 7, 9]
    (∀ q r, n.FreeMove q r ↔ m.FreeMove q r) ∧ n.close S = m.close S ∧
      (∀ q, q ∈ S → q ∈ T) ∧ (∀ q, q ∈ m.close S → q ∈ m.close T) ∧
      m.close S = .ofList [0, 1, 2, 9] := by
  intro m n S T
  have hrules : ∀ q r, n.FreeMove q r ↔ m.FreeMove q r := by
    intro q r
    simp [FreeMove, m, n, Rule.free]
    omega
  have hlist : [1, 9] ⊆ [1, 7, 9] := by decide
  have hS : ∀ q, q ∈ S → q ∈ T := by
    intro q hq
    exact SortedSet.mem_ofList.2 (hlist (SortedSet.mem_ofList.1 hq))
  have hvalue : m.close S = .ofList [0, 1, 2, 9] := by cbv
  obtain ⟨_, _, _, hcongr, _, hmono, _⟩ := close_computes_closure m S
  exact ⟨hrules, hcongr n hrules, hS, hmono T hS, hvalue⟩

end

end Acceptor.Nfa
