import Acceptor.Nfa.Basic

/-!
# The work list of the closure

Closing a set under free moves as one loop. A state that was found last is the first one whose
free moves are followed, and where they lead is found and joins the list unless it was found
before. So a state is put on the list once, when it is found. The loop ends because all that it
finds are targets of rules; each round finds a new one or shortens the list.
-/

namespace Acceptor

/-- What the loop knows: the states that were found, and those of them whose free moves were not
followed yet, the last one first. -/
structure Closing (σ : Type) [Ordered σ] where
  found : SortedSet σ
  waiting : List σ

namespace Closing

variable {σ : Type} [Ordered σ] {c : Closing σ} {l : List σ} {q r : σ}

/-- A state that was not found before is found now and waits. -/
def note (c : Closing σ) (q : σ) : Closing σ :=
  if q ∈ c.found then c else ⟨c.found.insert q, q :: c.waiting⟩

theorem note_of_mem (h : q ∈ c.found) : c.note q = c := if_pos h

theorem note_of_not_mem (h : q ∉ c.found) :
    c.note q = ⟨c.found.insert q, q :: c.waiting⟩ := if_neg h

theorem mem_found_note : r ∈ (c.note q).found ↔ r ∈ c.found ∨ r = q := by
  by_cases h : q ∈ c.found
  · rw [note_of_mem h, iff_self_or]
    rintro rfl
    exact h
  · rw [note_of_not_mem h, SortedSet.mem_insert, or_comm]

theorem mem_found_foldl_note : r ∈ (l.foldl note c).found ↔ r ∈ c.found ∨ r ∈ l := by
  induction l generalizing c with
  | nil => simp
  | cons q l ih => rw [List.foldl_cons, ih, mem_found_note, List.mem_cons, or_assoc]

theorem mem_waiting_foldl_note :
    r ∈ (l.foldl note c).waiting ↔ r ∈ c.waiting ∨ r ∈ l ∧ r ∉ c.found := by
  induction l generalizing c with
  | nil => simp
  | cons q l ih =>
    rw [List.foldl_cons, ih, mem_found_note, List.mem_cons]
    by_cases h : q ∈ c.found
    · rw [note_of_mem h]
      grind
    · rw [note_of_not_mem h, List.mem_cons]
      grind

/-- Nothing changes if there is nothing new. -/
theorem foldl_note_eq_self (h : ∀ q ∈ l, q ∈ c.found) : l.foldl note c = c := by
  induction l with
  | nil => rfl
  | cons q l ih =>
    obtain ⟨hq, hl⟩ := List.forall_mem_cons.1 h
    rw [List.foldl_cons, note_of_mem hq, ih hl]

end Closing

namespace Nfa

variable {σ α : Type} [Ordered σ] [DecidableEq α]

/-- Goes on until nothing waits. -/
def closeFrom (m : Nfa σ α) (c : Closing σ) : SortedSet σ :=
  match _ : c.waiting with
  | [] => c.found
  | q :: waiting => m.closeFrom ((m.follow q none).foldl .note { c with waiting := waiting })
termination_by ((remaining (m.rules.map Rule.target) c.found.toList).length, c.waiting.length)
decreasing_by
  rename_i hwaiting
  by_cases hnew : ∃ r ∈ m.follow q none, r ∉ c.found
  · obtain ⟨r, hr, hunknown⟩ := hnew
    have hsub : c.found.toList ⊆
        ((m.follow q none).foldl Closing.note { c with waiting := waiting }).found.toList :=
      fun s hs => Closing.mem_found_foldl_note.2 (.inl hs)
    exact Prod.Lex.left _ _ (length_remaining_lt hsub (m.finitelyMany_follow none q r hr) hunknown
      (Closing.mem_found_foldl_note.2 (.inr hr)))
  · have hknown : ∀ r ∈ m.follow q none, r ∈ c.found :=
      fun r hr => Decidable.of_not_not fun hunknown => hnew ⟨r, hr, hunknown⟩
    rw [Closing.foldl_note_eq_self (c := { c with waiting := waiting }) hknown, hwaiting]
    exact Prod.Lex.right _ (Nat.lt_succ_self _)

/-- The states that free moves reach from `S`, found with a list. The greatest state of `S` is
the first one whose free moves are followed. -/
def close (m : Nfa σ α) (S : SortedSet σ) : SortedSet σ := m.closeFrom ⟨S, S.toList.reverse⟩

end Nfa

end Acceptor
