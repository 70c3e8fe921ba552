import Mathlib.Data.List.Basic
import Acceptor.Proofs.Pattern.Reading
import Acceptor.Proofs.Pattern.Writing

/-!
# The text that is written is the shortest

Whoever writes a pattern down must write its symbols, bars and stars in this order and
has to put brackets where they are forced. The text of the pattern has nothing else, so
it is what is left of any text that denotes the pattern when the brackets that are not
needed and the backslashes of escapes are taken out (`text_shortest`).

The reader takes brackets for needed by the kind of phrase that is expected, the writer
by the precedence that a place demands. `Phrase.place` relates the two: what a phrase of
some kind denotes can be written at the place of that kind within the phrase.
-/

namespace Acceptor.Pattern

section Places

variable {α : Type} [Plain α]

theorem sublist_group (t : List Char) : t.Sublist ('(' :: t ++ [')']) :=
  (List.sublist_cons_self '(' t).trans (List.sublist_append_left _ _)

/-- No place demands more than a group offers. -/
theorem written_sublist_group (p : Pattern α) {place : Nat} (hplace : place ≤ 3) :
    (p.written place).Sublist ('(' :: p.written 0 ++ [')']) := by
  by_cases hlt : p.precedence < place
  · rw [written_of_lt hplace hlt]
  · rw [written_of_le hplace (Nat.le_of_not_lt hlt)]
    exact sublist_group _

/-- Where more is demanded, no bracket is spared. -/
theorem written_sublist_written (p : Pattern α) {place place' : Nat} (hle : place ≤ place')
    (hplace' : place' ≤ 3) : (p.written place).Sublist (p.written place') := by
  by_cases hlt : p.precedence < place'
  · rw [written_of_lt hplace' hlt]
    exact written_sublist_group p (by omega)
  · rw [written_of_le hplace' (by omega), written_of_le (by omega) (by omega)]

end Places

/-- The place in a text where a phrase of this kind stands. -/
def Phrase.place : Phrase → Nat
  | .choice => 0
  | .sequence | .factors => 1
  | .factor => 2
  | .atom => 3

theorem Derives.written_sublist {kind : Phrase} {t : List Char} {p : Pattern Char}
    (h : Derives kind t p) : (p.written kind.place).Sublist t := by
  induction h with
  | single _ ih => exact (written_sublist_written _ (by decide) (by decide)).trans ih
  | @bar t u p q _ _ ihp ihq =>
    have hq : (q.written 0).Sublist u :=
      (written_sublist_written q (by decide) (by decide)).trans ihq
    rw [Phrase.place, written_choice]
    exact ihp.append (hq.cons_cons '|')
  | nothing => exact List.Sublist.refl []
  | some _ ih => exact ih
  | first _ ih => exact (written_sublist_written _ (by decide) (by decide)).trans ih
  | @next t u p q _ _ ihp ihq =>
    have hq : (q.written 1).Sublist u :=
      (written_sublist_written q (by decide) (by decide)).trans ihq
    have hplace : (Pattern.concat p q).written 1 = p.written 1 ++ q.written 1 :=
      (written_of_le (by decide) (Nat.le_refl 1)).trans (written_concat p q)
    rw [Phrase.place, hplace]
    exact ihp.append hq
  | once _ ih => exact (written_sublist_written _ (by decide) (by decide)).trans ih
  | @star t p _ ih =>
    have hplace : (Pattern.star p).written 2 = p.written 2 ++ ['*'] :=
      (written_of_le (by decide) (Nat.le_refl 2)).trans (written_star p)
    rw [Phrase.place, hplace]
    exact ih.append_right ['*']
  | group _ ih =>
    refine (written_sublist_group _ (by decide)).trans ?_
    exact (ih.cons_cons '(').append_right [')']
  | @escaped c _ =>
    rw [written_literal]
    exact List.sublist_cons_self '\\' [c]
  | plain _ =>
    rw [written_literal]
    exact List.Sublist.refl _

/-- The text of a pattern is what is left of any text that denotes the pattern when some
characters are taken out. So no other such text is shorter or has fewer brackets. -/
theorem text_shortest {text : String} {p : Pattern Char} (h : parse text = .ok p) :
    p.text.toList.Sublist text.toList ∧ p.text.length ≤ text.length ∧
      p.text.toList.count '(' ≤ text.toList.count '(' := by
  have hsublist : p.text.toList.Sublist text.toList := by
    rw [toList_text]
    exact (derives_of_parse h).written_sublist
  refine ⟨hsublist, ?_, hsublist.count_le '('⟩
  rw [← String.length_toList, ← String.length_toList]
  exact hsublist.length_le

/-- Of five groups one is needed, and one bracket is a symbol. -/
theorem text_shortest_of_redundant :
    ∃ p, parse "(a)(()|((b)\\(*))" = .ok p ∧ p.text = "a(|b(*)" ∧
      p.text.toList.Sublist "(a)(()|((b)\\(*))".toList ∧
      p.text.length ≤ "(a)(()|((b)\\(*))".length ∧
      p.text.toList.count '(' ≤ "(a)(()|((b)\\(*))".toList.count '(' := by
  have hparse : parse "(a)(()|((b)\\(*))" = .ok (.concat (.literal 'a')
      (.choice .empty (.concat (.literal 'b') (.star (.literal '('))))) := by decide +kernel
  exact ⟨_, hparse, by decide, text_shortest hparse⟩

end Acceptor.Pattern
