import Acceptor.Proofs.Pattern.Reading
import Acceptor.Proofs.Pattern.Recognition
import Acceptor.Proofs.Pattern.Regroup
import Acceptor.Proofs.Pattern.IdleBrackets

/-!
# Reading what was written

The text of a pattern derives the regrouped pattern, if its symbols mean nothing in a
text and every repetition has something to repeat (`spelled`). So reading the text of a
pattern gives the regrouped pattern, which matches the same words
(`parse_text_eq_regroup`). Written again this gives the same text just if no brackets
in it are idle (`text_parse_text_iff`).

The symbols matter: `(` as a symbol is written like the bracket that opens a group
(`not_text_parse_text`).
-/

namespace Acceptor.Pattern

/-- The text of the pattern derives the regrouped pattern, behind whatever alternatives or
factors stand before, and as the part of a repetition. -/
structure Spelled (p : Pattern Char) : Prop where
  alternatives : ∀ before t, DerivesBar before t →
    Derives .choice (t ++ p.written 0) (addAlternatives before p)
  factors : ∀ before t, DerivesFactors before t →
    DerivesFactors (addFactors before p) (t ++ p.written 1)
  part : p ≠ .empty → Derives .factor (p.written 2) p.regroup

namespace Spelled

variable {p q : Pattern Char}

theorem empty : Spelled .empty where
  alternatives before t hbefore := hbefore.choice .nothing
  factors before t hbefore := by
    rw [addFactors, written_empty, List.append_nil]
    exact hbefore
  part hne := absurd rfl hne

theorem literal {c : Char} (hc : isMeta c = false) : Spelled (.literal c) := by
  have hfactor : Derives .factor [c] (.literal c) := .once (.plain hc)
  constructor
  · exact fun before t hbefore => hbefore.choice (.some (.first hfactor))
  · exact fun before t hbefore => hbefore.add hfactor
  · exact fun _ => hfactor

/-- Where its place demands more than a choice or a concatenation offers, it is read as a
group. -/
theorem derives_group {place : Nat} (hplace : place ≤ 3) (h : p.precedence < place)
    (hp : Derives .choice (p.written 0) p.regroup) :
    Derives .factor (p.written place) p.regroup := by
  rw [written_of_lt hplace h]
  exact .once (.group hp)

theorem concat (hp : Spelled p) (hq : Spelled q) : Spelled (.concat p q) := by
  have hone : (Pattern.concat p q).written 1 = (Pattern.concat p q).written 0 :=
    written_of_le (by decide) (Nat.le_refl 1)
  have hfactors : ∀ before t, DerivesFactors before t →
      DerivesFactors (addFactors before (.concat p q)) (t ++ (Pattern.concat p q).written 0) := by
    intro before t hbefore
    rw [addFactors, written_concat, ← List.append_assoc]
    exact hq.factors _ _ (hp.factors before t hbefore)
  have halternatives : ∀ before t, DerivesBar before t →
      Derives .choice (t ++ (Pattern.concat p q).written 0)
        (addAlternatives before (.concat p q)) := by
    intro before t hbefore
    rw [addAlternatives]
    exact hbefore.choice (hfactors none [] rfl).sequence
  constructor
  · exact halternatives
  · rw [hone]
    exact hfactors
  · exact fun _ => derives_group (by decide) (Nat.lt_succ_self 1) (halternatives none [] rfl)

theorem choice (hp : Spelled p) (hq : Spelled q) : Spelled (.choice p q) := by
  have halternatives : ∀ before t, DerivesBar before t →
      Derives .choice (t ++ (Pattern.choice p q).written 0)
        (addAlternatives before (.choice p q)) := by
    intro before t hbefore
    have hbar : DerivesBar (some (addAlternatives before p)) (t ++ p.written 0 ++ ['|']) :=
      ⟨_, rfl, hp.alternatives before t hbefore⟩
    have hlast := hq.alternatives _ _ hbar
    rw [addAlternatives, written_choice]
    simpa using hlast
  have hgroup : ∀ {place}, place ≤ 3 → 0 < place →
      Derives .factor ((Pattern.choice p q).written place) (Pattern.choice p q).regroup :=
    fun hplace hpos => derives_group hplace hpos (halternatives none [] rfl)
  constructor
  · exact halternatives
  · intro before t hbefore
    rw [addFactors, ← addAlternatives]
    exact hbefore.add (hgroup (by decide) (by decide))
  · exact fun _ => hgroup (by decide) (by decide)

theorem star (hne : p ≠ .empty) (hp : Spelled p) : Spelled (.star p) := by
  have hfactor : ∀ {place}, place ≤ 2 →
      Derives .factor ((Pattern.star p).written place) (.star p.regroup) := by
    intro place hplace
    rw [written_of_le (by omega) hplace, written_star]
    exact (hp.part hne).star
  constructor
  · intro before t hbefore
    rw [addAlternatives]
    exact hbefore.choice (.some (.first (hfactor (by decide))))
  · intro before t hbefore
    rw [addFactors]
    exact hbefore.add (hfactor (by decide))
  · rw [regroup_star]
    exact fun _ => hfactor (by decide)

end Spelled

theorem spelled {p : Pattern Char} (hplain : ∀ c, .literal c ∈ p.subpatterns → isMeta c = false)
    (hstar : .star .empty ∉ p.subpatterns) : Spelled p := by
  induction p with
  | empty => exact .empty
  | literal c => exact .literal (hplain c (by simp [subpatterns]))
  | concat p q ihp ihq =>
    simp only [subpatterns, List.mem_cons, List.mem_append, not_or] at hplain hstar
    exact .concat (ihp (fun c hc => hplain c (.inr (.inl hc))) hstar.2.1)
      (ihq (fun c hc => hplain c (.inr (.inr hc))) hstar.2.2)
  | choice p q ihp ihq =>
    simp only [subpatterns, List.mem_cons, List.mem_append, not_or] at hplain hstar
    exact .choice (ihp (fun c hc => hplain c (.inr (.inl hc))) hstar.2.1)
      (ihq (fun c hc => hplain c (.inr (.inr hc))) hstar.2.2)
  | star p ih =>
    simp only [subpatterns, List.mem_cons, not_or] at hplain hstar
    refine .star ?_ (ih (fun c hc => hplain c (.inr hc)) hstar.2)
    rintro rfl
    exact hstar.1 rfl

theorem parse_text {p : Pattern Char} (hp : Spelled p) : parse p.text = .ok p.regroup := by
  apply parse_of_derives
  rw [toList_text]
  exact hp.alternatives none [] rfl

/-- If its symbols mean nothing in a text and no star stands behind nothing, the text of a
pattern is read as the regrouped pattern. That matches the same words, and it has the
same text if no factor of a concatenation is empty. -/
theorem parse_text_eq_regroup (p : Pattern Char)
    (hplain : ∀ c, .literal c ∈ p.subpatterns → isMeta c = false)
    (hstar : .star .empty ∉ p.subpatterns) :
    parse p.text = .ok p.regroup ∧ (∀ w, p.regroup.accepts w = p.accepts w) ∧
      ((∀ q, .concat .empty q ∉ p.subpatterns ∧ .concat q .empty ∉ p.subpatterns) →
        p.regroup.text = p.text) := by
  refine ⟨parse_text (spelled hplain hstar), fun w => ?_, fun hfactors => ?_⟩
  · rw [Bool.eq_iff_iff, accepts_iff_matches, accepts_iff_matches, matches_regroup]
  · exact p.text_regroup_iff.2 ((factorsNonempty_of_subpatterns hfactors).noIdleBrackets 0)

/-- The pattern `(ab(|c))*` whose nests lean to the right. -/
theorem parse_text_eq_regroup_of_nested :
    ∃ p : Pattern Char, (∀ c, .literal c ∈ p.subpatterns → isMeta c = false) ∧
      .star .empty ∉ p.subpatterns ∧
      (∀ q, .concat .empty q ∉ p.subpatterns ∧ .concat q .empty ∉ p.subpatterns) ∧
      p.regroup ≠ p ∧ parse p.text = .ok p.regroup ∧
      (∀ w, p.regroup.accepts w = p.accepts w) ∧ p.regroup.text = p.text := by
  let p : Pattern Char := .star (.concat (.literal 'a') (.concat (.literal 'b')
    (.choice .empty (.literal 'c'))))
  have hplain : ∀ c, .literal c ∈ p.subpatterns → isMeta c = false := by
    intro c hc
    obtain rfl | rfl | rfl : c = 'a' ∨ c = 'b' ∨ c = 'c' := by
      simpa [p, subpatterns] using hc
    all_goals decide
  have hstar : .star .empty ∉ p.subpatterns := by simp [p, subpatterns]
  have hfactors : ∀ q, .concat .empty q ∉ p.subpatterns ∧ .concat q .empty ∉ p.subpatterns := by
    simp [p, subpatterns]
  obtain ⟨hparse, haccepts, htext⟩ := parse_text_eq_regroup p hplain hstar
  exact ⟨p, hplain, hstar, hfactors, by decide, hparse, haccepts, htext hfactors⟩

/-- Every part of a repetition has a symbol in it. -/
def RepeatsSymbols (p : Pattern Char) : Prop :=
  ∀ q, .star q ∈ p.subpatterns → ∃ c, .literal c ∈ q.subpatterns

theorem RepeatsSymbols.star_empty {p : Pattern Char} (hp : p.RepeatsSymbols) :
    .star .empty ∉ p.subpatterns := by
  intro hstar
  obtain ⟨c, hc⟩ := hp .empty hstar
  simp [subpatterns] at hc

/-- The text of a pattern whose symbols mean nothing in a text is read as a pattern with
the same text just if no brackets in it are idle. -/
theorem text_parse_text_iff (p : Pattern Char)
    (hplain : ∀ c, .literal c ∈ p.subpatterns → isMeta c = false) (hp : p.RepeatsSymbols) :
    (∃ q, parse p.text = .ok q ∧ q.text = p.text) ↔ p.NoIdleBrackets 0 := by
  have hparse : parse p.text = .ok p.regroup := parse_text (spelled hplain hp.star_empty)
  rw [hparse, ← text_regroup_iff]
  simp

/-- Behind an empty factor the brackets of `(a|b)` are idle. -/
theorem not_text_parse_text_of_idle :
    ¬ ∃ q, parse (Pattern.concat .empty (.choice (.literal 'a') (.literal 'b'))).text = .ok q ∧
      q.text = (Pattern.concat .empty (.choice (.literal 'a') (.literal 'b'))).text := by
  have hplain : ∀ c, .literal c ∈
      (Pattern.concat .empty (.choice (.literal 'a') (.literal 'b'))).subpatterns →
        isMeta c = false := by
    intro c hc
    obtain rfl | rfl : c = 'a' ∨ c = 'b' := by simpa [subpatterns] using hc
    all_goals decide
  have hrepeats :
      (Pattern.concat .empty (.choice (.literal 'a') (.literal 'b'))).RepeatsSymbols := by
    simp [RepeatsSymbols, subpatterns]
  have hchoice : (Pattern.concat .empty
      (.choice (.literal 'a') (.literal 'b'))).regroup.precedence = 0 := by decide
  rw [text_parse_text_iff _ hplain hrepeats]
  exact fun hidle => hidle.2.2.1 rfl hchoice

/-- Symbols are written as they are, so a bracket is read as the start of a group. -/
theorem not_text_parse_text :
    ¬ ∀ p : Pattern Char, p.RepeatsSymbols → ∃ q, parse p.text = .ok q ∧ q.text = p.text := by
  intro h
  have hrepeats : (Pattern.literal '(').RepeatsSymbols := by simp [RepeatsSymbols, subpatterns]
  obtain ⟨q, hq, _⟩ := h (.literal '(') hrepeats
  have hparse : parse (Pattern.literal '(').text = .error (.unclosedGroup 0) := by decide
  rw [hparse] at hq
  cases hq

end Acceptor.Pattern
