import Acceptor.Pattern.Write

/-!
# The text of a pattern, part by part

Writing in front of a rest is writing and then the rest. So the text of a pattern is
put together from the texts of its parts, and a pattern that binds looser than its
place demands has its text in brackets.
-/

namespace Acceptor.Pattern

variable {α : Type} [Plain α]

/-- The text of the pattern at a place that demands the precedence `place`. -/
def written (p : Pattern α) (place : Nat) : List Char := p.writeOnto place []

theorem bracketed_eq {needed : Bool} {write : List Char → List Char} {t : List Char}
    (hwrite : ∀ rest, write rest = t ++ rest) (rest : List Char) :
    bracketed needed write rest = (if needed then '(' :: t ++ [')'] else t) ++ rest := by
  cases needed <;> simp [bracketed, hwrite]

theorem writeOnto_eq (p : Pattern α) (place : Nat) (rest : List Char) :
    p.writeOnto place rest = p.written place ++ rest := by
  induction p generalizing place rest with
  | empty => rfl
  | literal a => simp [written, writeOnto]
  | concat p q ihp ihq =>
    have hwrite : ∀ rest, p.writeOnto 1 (q.writeOnto 1 rest) =
        p.written 1 ++ q.written 1 ++ rest := by
      intro rest
      rw [ihq, ihp, List.append_assoc]
    rw [written, writeOnto, writeOnto, bracketed_eq hwrite, bracketed_eq hwrite, List.append_nil]
  | choice p q ihp ihq =>
    have hwrite : ∀ rest, p.writeOnto 0 ('|' :: q.writeOnto 0 rest) =
        p.written 0 ++ '|' :: q.written 0 ++ rest := by
      intro rest
      rw [ihq, ihp, List.append_assoc, List.cons_append]
    rw [written, writeOnto, writeOnto, bracketed_eq hwrite, bracketed_eq hwrite, List.append_nil]
  | star p ih =>
    have hwrite : ∀ rest, p.writeOnto 2 ('*' :: rest) = p.written 2 ++ ['*'] ++ rest := by
      intro rest
      rw [ih, List.append_assoc, List.singleton_append]
    rw [written, writeOnto, writeOnto, bracketed_eq hwrite, bracketed_eq hwrite, List.append_nil]

theorem toList_text (p : Pattern α) : p.text.toList = p.written 0 := by
  simp [text, written]

@[simp] theorem written_empty (place : Nat) : (empty : Pattern α).written place = [] := rfl

@[simp] theorem written_literal (a : α) (place : Nat) : (literal a).written place = plain a := by
  simp [written, writeOnto]

theorem written_concat (p q : Pattern α) :
    (concat p q).written 0 = p.written 1 ++ q.written 1 :=
  writeOnto_eq p 1 (q.written 1)

theorem written_choice (p q : Pattern α) :
    (choice p q).written 0 = p.written 0 ++ '|' :: q.written 0 :=
  writeOnto_eq p 0 ('|' :: q.written 0)

theorem written_star (p : Pattern α) : (star p).written 0 = p.written 2 ++ ['*'] :=
  writeOnto_eq p 2 ['*']

/-- No place demands more than a pattern without an operator offers. -/
theorem writeOnto_eq_bracketed (p : Pattern α) {place : Nat} (hplace : place ≤ 3)
    (rest : List Char) :
    p.writeOnto place rest = bracketed (p.precedence < place) (p.writeOnto 0) rest := by
  cases p with
  | empty => simp [writeOnto, bracketed, precedence, Nat.not_lt.2 hplace]
  | literal a => simp [writeOnto, bracketed, precedence, Nat.not_lt.2 hplace]
  | concat p q => rfl
  | choice p q => rfl
  | star p => rfl

theorem written_of_le {p : Pattern α} {place : Nat} (hplace : place ≤ 3)
    (h : place ≤ p.precedence) : p.written place = p.written 0 := by
  rw [written, writeOnto_eq_bracketed p hplace, bracketed, decide_eq_false (Nat.not_lt.2 h)]
  rfl

theorem written_of_lt {p : Pattern α} {place : Nat} (hplace : place ≤ 3)
    (h : p.precedence < place) : p.written place = '(' :: p.written 0 ++ [')'] := by
  rw [written, writeOnto_eq_bracketed p hplace, bracketed, decide_eq_true h, writeOnto_eq]
  rfl

end Acceptor.Pattern
