import Acceptor.Pattern.Print
import Acceptor.Proofs.Pattern.Writing

/-!
# What the loop prints

A piece that waits stands for a text: a pattern for its text in the brackets that its place
demands. The text so far with the texts of all that waits behind it is the same after each round
(`Printing.total_eq_of_next?`), so it is what the loop prints in the end, and the loop prints the
text of the pattern.
-/

namespace Acceptor.Pattern

variable {α : Type} [Plain α]

theorem toList_bracket (p : Pattern α) {place : Nat} (hplace : place ≤ 3) :
    (p.bracket place).toList = p.written place := by
  by_cases h : p.precedence < place
  · rw [bracket, if_pos h, written_of_lt hplace h, ← toList_text]
    simp
  · rw [bracket, if_neg h, toList_text, written_of_le hplace (Nat.not_lt.1 h)]

@[simp] theorem text_empty : (empty : Pattern α).text = "" := rfl

@[simp] theorem text_literal (a : α) : (literal a).text = String.ofList (plain a) :=
  congrArg String.ofList (written_literal a 0)

theorem text_concat (p q : Pattern α) : (concat p q).text = p.bracket 1 ++ q.bracket 1 := by
  apply String.toList_inj.1
  rw [toList_text, written_concat, String.toList_append, toList_bracket p (by decide),
    toList_bracket q (by decide)]

theorem text_choice (p q : Pattern α) :
    (choice p q).text = p.bracket 0 ++ "|" ++ q.bracket 0 := by
  apply String.toList_inj.1
  rw [toList_text, written_choice, String.toList_append, String.toList_append,
    toList_bracket p (by decide), toList_bracket q (by decide)]
  simp

theorem text_star (p : Pattern α) : (star p).text = p.bracket 2 ++ "*" := by
  apply String.toList_inj.1
  rw [toList_text, written_star, String.toList_append, toList_bracket p (by decide)]
  rfl

/-- What a piece stands for. -/
def Piece.meaning : Piece α → String
  | node p place => p.bracket place
  | text s => s

namespace Printing

/-- The text so far and what all that waits stands for. -/
def total (w : Printing α) : String := w.out ++ String.join (w.waiting.map Piece.meaning)

theorem total_visit (w : Printing α) (p : Pattern α) :
    (w.visit p).total = w.out ++ p.text ++ String.join (w.waiting.map Piece.meaning) := by
  cases p with
  | empty => simp [visit, total]
  | literal a => simp [visit, total]
  | concat p q => simp [visit, total, Piece.meaning, text_concat, precedence, String.append_assoc]
  | choice p q => simp [visit, total, Piece.meaning, text_choice, precedence, String.append_assoc]
  | star p => simp [visit, total, Piece.meaning, text_star, precedence, String.append_assoc]

/-- A round changes nothing in the text as a whole. -/
theorem total_eq_of_next? {w w' : Printing α} (h : w.next? = some w') : w'.total = w.total := by
  obtain ⟨out, waiting⟩ := w
  cases waiting with
  | nil => cases h
  | cons piece waiting =>
    cases piece with
    | text s =>
      cases h
      simp [total, Piece.meaning, String.append_assoc]
    | node p place =>
      cases h
      rw [total_visit]
      by_cases hneeded : p.precedence < place
      · simp [total, enclose, Piece.meaning, bracket, hneeded, String.append_assoc]
      · simp [total, enclose, Piece.meaning, bracket, hneeded, String.append_assoc]

/-- When the loop ends, nothing is left of the text but what was written. -/
theorem total_eq_of_next?_eq_none {w : Printing α} (h : w.next? = none) : w.total = w.out := by
  obtain ⟨out, waiting⟩ := w
  cases waiting with
  | nil => simp [total]
  | cons piece waiting => cases piece <;> cases h

theorem run_eq_total (w : Printing α) : w.run = w.total := by
  fun_induction run w with
  | case1 w hnone => exact (total_eq_of_next?_eq_none hnone).symm
  | case2 w next hnext ih => rw [ih, total_eq_of_next? hnext]

end Printing

theorem printed_eq_text (p : Pattern α) : p.printed = p.text := by
  rw [printed, Printing.run_eq_total]
  simp [Printing.total, Piece.meaning, bracket]

/-- Brackets make a text longer, so a text in brackets tells that they are needed. -/
theorem bracket_eq_enclosed_iff (p : Pattern α) (place : Nat) :
    p.bracket place = "(" ++ p.text ++ ")" ↔ p.precedence < place := by
  by_cases h : p.precedence < place
  · simp [bracket, h]
  · rw [bracket, if_neg h, iff_false_right h]
    intro heq
    have hlength := congrArg String.length heq
    simp only [String.length_append] at hlength
    have hbracket : "(".length = 1 := rfl
    omega

/-- The loop prints what recursion over the pattern gives: nothing, the symbol, the parts in the
brackets that their places demand side by side, with a bar between them or with a star behind. A
place demands brackets just if the pattern there binds looser. -/
theorem printed_eq_parts :
    (∀ p : Pattern α, p.printed = p.text) ∧
    (∀ (p : Pattern α) (place : Nat),
      p.bracket place =
        (if p.precedence < place then "(" ++ p.printed ++ ")" else p.printed) ∧
      (p.bracket place = "(" ++ p.printed ++ ")" ↔ p.precedence < place)) ∧
    (empty : Pattern α).printed = "" ∧
    (∀ a : α, (literal a).printed = String.ofList (plain a)) ∧
    (∀ p q : Pattern α, (concat p q).printed = p.bracket 1 ++ q.bracket 1) ∧
    (∀ p q : Pattern α, (choice p q).printed = p.bracket 0 ++ "|" ++ q.bracket 0) ∧
    ∀ p : Pattern α, (star p).printed = p.bracket 2 ++ "*" := by
  refine ⟨printed_eq_text, ?_⟩
  simp only [printed_eq_text]
  exact ⟨fun p place => ⟨rfl, p.bracket_eq_enclosed_iff place⟩, text_empty, text_literal,
    text_concat, text_choice, text_star⟩

example : (star (choice (concat (literal 'a') (literal 'b')) (literal 'a'))).printed =
    "(ab|a)*" := by
  cbv

end Acceptor.Pattern
