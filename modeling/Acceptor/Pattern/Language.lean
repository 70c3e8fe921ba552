import Acceptor.Pattern.Basic

/-!
# The language of a pattern

What a pattern means, said without any automaton: which words it matches. The
relation is read off the constructors by the lemmas below, one for each.
-/

namespace Acceptor.Pattern

variable {α : Type}

/-- The word belongs to the language of the pattern. -/
inductive Matches : Pattern α → List α → Prop
  | empty : Matches .empty []
  | literal (a : α) : Matches (.literal a) [a]
  | concat {p q : Pattern α} {u v : List α} :
      Matches p u → Matches q v → Matches (.concat p q) (u ++ v)
  | choiceLeft {p q : Pattern α} {w : List α} : Matches p w → Matches (.choice p q) w
  | choiceRight {p q : Pattern α} {w : List α} : Matches q w → Matches (.choice p q) w
  | starNil {p : Pattern α} : Matches (.star p) []
  | starAppend {p : Pattern α} {u v : List α} :
      Matches p u → Matches (.star p) v → Matches (.star p) (u ++ v)

@[simp] theorem matches_empty {w : List α} : Matches .empty w ↔ w = [] := by
  constructor
  · rintro ⟨⟩
    rfl
  · rintro rfl
    exact .empty

@[simp] theorem matches_literal {a : α} {w : List α} : Matches (.literal a) w ↔ w = [a] := by
  constructor
  · rintro ⟨⟩
    rfl
  · rintro rfl
    exact .literal a

theorem matches_concat {p q : Pattern α} {w : List α} :
    Matches (.concat p q) w ↔ ∃ u v, w = u ++ v ∧ Matches p u ∧ Matches q v := by
  constructor
  · intro h
    cases h with
    | concat hp hq => exact ⟨_, _, rfl, hp, hq⟩
  · rintro ⟨u, v, rfl, hp, hq⟩
    exact .concat hp hq

@[simp] theorem matches_choice {p q : Pattern α} {w : List α} :
    Matches (.choice p q) w ↔ Matches p w ∨ Matches q w := by
  constructor
  · intro h
    cases h with
    | choiceLeft h => exact .inl h
    | choiceRight h => exact .inr h
  · rintro (h | h)
    · exact .choiceLeft h
    · exact .choiceRight h

/-- A repetition matches the words that are joined from words of its part. -/
theorem matches_star {p : Pattern α} {w : List α} :
    Matches (.star p) w ↔ ∃ parts : List (List α), w = parts.flatten ∧ ∀ u ∈ parts, Matches p u := by
  constructor
  · intro h
    generalize hs : Pattern.star p = s at h
    induction h with
    | empty | literal | concat | choiceLeft | choiceRight => cases hs
    | starNil => exact ⟨[], rfl, by simp⟩
    | starAppend hu _ _ ih =>
      cases hs
      obtain ⟨parts, rfl, hparts⟩ := ih rfl
      exact ⟨_ :: parts, rfl, List.forall_mem_cons.2 ⟨hu, hparts⟩⟩
  · rintro ⟨parts, rfl, hparts⟩
    induction parts with
    | nil => exact .starNil
    | cons u parts ih =>
      obtain ⟨hu, hrest⟩ := List.forall_mem_cons.1 hparts
      exact .starAppend hu (ih hrest)

end Acceptor.Pattern
