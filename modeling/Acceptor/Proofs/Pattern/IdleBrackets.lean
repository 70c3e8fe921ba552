import Mathlib.Data.List.Basic
import Mathlib.Tactic.Tauto
import Acceptor.Pattern.Regroup
import Acceptor.Proofs.Pattern.Writing

/-!
# Idle brackets

Regrouping keeps the text of a pattern but for brackets (`text_regroup_iff`): a nest is
written without brackets inside, whichever way it leans. Where empty factors go, a
concatenation can be left with one factor or none. Then the brackets that this factor or
the whole concatenation had are idle, and the regrouped pattern is written without them.
-/

namespace Acceptor.Pattern

variable {α : Type}

/-- Where the pattern is written at `place`, no brackets become idle when empty factors
go: a nest of concatenations outside of brackets must not be left with one choice, which
has brackets as a factor, and a repeated one must keep two factors. -/
def NoIdleBrackets : Nat → Pattern α → Prop
  | _, empty | _, literal _ => True
  | place, concat p q => p.NoIdleBrackets 1 ∧ q.NoIdleBrackets 1 ∧
      (place = 0 → (concat p q).regroup.precedence ≠ 0) ∧
        (place = 2 → (concat p q).regroup.precedence = 1)
  | _, choice p q => p.NoIdleBrackets 0 ∧ q.NoIdleBrackets 0
  | _, star p => p.NoIdleBrackets 2

theorem addAlternatives_some (b p : Pattern α) :
    ∃ q r, addAlternatives (some b) p = .choice q r := by
  induction p generalizing b with
  | empty | literal | concat | star => exact ⟨_, _, rfl⟩
  | choice p q _ ihq => exact ihq _

theorem precedence_regroup_choice (p q : Pattern α) : (choice p q).regroup.precedence = 0 := by
  obtain ⟨f, g, h⟩ := addAlternatives_some (addAlternatives none p) q
  rw [regroup, addAlternatives, h, precedence]

section Written

variable [Plain α]

/-- The text of the alternatives before a bar, with the bar. -/
def writtenBar : Option (Pattern α) → List Char
  | none => []
  | some b => b.written 0 ++ ['|']

/-- The text of factors. -/
def writtenFactors (before : Option (Pattern α)) : List Char := (before.getD .empty).written 1

theorem written_addAlternative (before : Option (Pattern α)) (p : Pattern α) :
    (addAlternative before p).written 0 = writtenBar before ++ p.written 0 := by
  cases before with
  | none => rfl
  | some b => simp [addAlternative, writtenBar, written_choice]

theorem writtenFactors_addFactor (before : Option (Pattern α)) (p : Pattern α) :
    writtenFactors (some (addFactor before p)) = writtenFactors before ++ p.written 1 := by
  cases before with
  | none => rfl
  | some b =>
    have hplace : (concat b p).written 1 = (concat b p).written 0 :=
      written_of_le (by decide) (Nat.le_refl 1)
    simp [addFactor, writtenFactors, hplace, written_concat]

/-- The text `t` is `u` with some characters left out, and with none left out just if
`kept` holds. -/
def Trims (t u : List Char) (kept : Prop) : Prop := t.Sublist u ∧ (t = u ↔ kept)

namespace Trims

variable {t u v : List Char} {kept kept' : Prop}

theorem refl (t : List Char) : Trims t t True := ⟨List.Sublist.refl t, by simp⟩

/-- Brackets that are left out. -/
theorem brackets (t : List Char) : Trims t ('(' :: t ++ [')']) False := by
  have hsublist : t.Sublist ('(' :: t ++ [')']) :=
    (List.sublist_cons_self '(' t).trans (List.sublist_append_left _ _)
  refine ⟨hsublist, ?_⟩
  simp only [iff_false]
  intro h
  have hlength := congrArg List.length h
  simp only [List.length_append, List.length_cons, List.length_nil] at hlength
  omega

theorem trans (ht : Trims t u kept) (hu : Trims u v kept') : Trims t v (kept ∧ kept') := by
  refine ⟨ht.1.trans hu.1, ?_⟩
  rw [← ht.2, ← hu.2]
  constructor
  · rintro rfl
    have heq : t = u := ht.1.antisymm hu.1
    exact ⟨heq, heq.symm⟩
  · rintro ⟨rfl, rfl⟩
    rfl

theorem append_left (ht : Trims t u kept) (v : List Char) : Trims (v ++ t) (v ++ u) kept :=
  ⟨ht.1.append_left v, by rw [List.append_right_inj, ht.2]⟩

theorem append_right (ht : Trims t u kept) (v : List Char) : Trims (t ++ v) (u ++ v) kept :=
  ⟨ht.1.append_right v, by rw [List.append_left_inj, ht.2]⟩

theorem congr (ht : Trims t u kept) (h : kept ↔ kept') : Trims t u kept' := ⟨ht.1, ht.2.trans h⟩

end Trims

theorem trims_written {p q : Pattern α} {kept : Prop} (h : Trims (p.written 0) (q.written 0) kept)
    (hprecedence : p.precedence = q.precedence) {place : Nat} (hplace : place ≤ 3) :
    Trims (p.written place) (q.written place) kept := by
  by_cases hlt : p.precedence < place
  · rw [written_of_lt hplace hlt, written_of_lt hplace (hprecedence ▸ hlt)]
    exact (h.append_right [')']).append_left ['(']
  · have hle : place ≤ p.precedence := Nat.le_of_not_lt hlt
    rw [written_of_le hplace hle, written_of_le hplace (hprecedence ▸ hle)]
    exact h

/-- As a factor a choice gets brackets that it does not have by itself. -/
theorem trims_written_zero (p : Pattern α) :
    Trims (p.written 0) (p.written 1) (p.precedence ≠ 0) := by
  by_cases h : p.precedence = 0
  · have hone : p.written 1 = '(' :: p.written 0 ++ [')'] :=
      written_of_lt (by decide) (by omega)
    rw [hone]
    exact (Trims.brackets _).congr (by simp [h])
  · have hone : p.written 1 = p.written 0 := written_of_le (by decide) (by omega)
    rw [hone]
    exact (Trims.refl _).congr (by simp [h])

/-- Brackets around a repeated factor are needed just if it is a concatenation: a choice
has brackets already, and other patterns need none. -/
theorem trims_written_two (p : Pattern α) :
    Trims (p.written 2) ('(' :: p.written 1 ++ [')']) (p.precedence = 1) := by
  by_cases h : p.precedence = 1
  · have hone : p.written 1 = p.written 0 := written_of_le (by decide) (by omega)
    have htwo : p.written 2 = '(' :: p.written 0 ++ [')'] :=
      written_of_lt (by decide) (by omega)
    rw [hone, htwo]
    exact (Trims.refl _).congr (by simp [h])
  · have htwo : p.written 2 = p.written 1 := by
      by_cases hzero : p.precedence = 0
      · exact (written_of_lt (by decide) (by omega)).trans
          (written_of_lt (by decide) (by omega)).symm
      · exact (written_of_le (by decide) (by omega)).trans
          (written_of_le (by decide) (by omega)).symm
    rw [htwo]
    exact (Trims.brackets _).congr (by simp [h])

/-- Regrouping leaves out the idle brackets of the text and nothing else, behind whatever
alternatives or factors stand before, and in the part of a repetition. -/
structure Trimmed (p : Pattern α) : Prop where
  alternatives : ∀ before, Trims ((addAlternatives before p).written 0)
    (writtenBar before ++ p.written 0) (p.NoIdleBrackets 0)
  factors : ∀ before, Trims (writtenFactors (addFactors before p))
    (writtenFactors before ++ p.written 1) (p.NoIdleBrackets 1)
  part : Trims (p.regroup.written 2) (p.written 2) (p.NoIdleBrackets 2)

namespace Trimmed

variable {p q : Pattern α}

theorem empty : Trimmed (.empty : Pattern α) where
  alternatives before := by
    rw [addAlternatives, written_addAlternative]
    exact Trims.refl _
  factors before := by
    rw [addFactors, written_empty, List.append_nil]
    exact Trims.refl _
  part := Trims.refl _

theorem literal (a : α) : Trimmed (.literal a) where
  alternatives before := by
    rw [addAlternatives, written_addAlternative]
    exact Trims.refl _
  factors before := by
    rw [addFactors, writtenFactors_addFactor]
    exact Trims.refl _
  part := Trims.refl _

theorem concat (hp : Trimmed p) (hq : Trimmed q) : Trimmed (.concat p q) := by
  have hbefore : ∀ before, Trims (writtenFactors (addFactors before (.concat p q)))
      (writtenFactors before ++ (p.written 1 ++ q.written 1))
      (q.NoIdleBrackets 1 ∧ p.NoIdleBrackets 1) := by
    intro before
    have hfirst := (hp.factors before).append_right (q.written 1)
    rw [addFactors, ← List.append_assoc]
    exact (hq.factors (addFactors before p)).trans hfirst
  have hnest : Trims ((Pattern.concat p q).regroup.written 1) (p.written 1 ++ q.written 1)
      (q.NoIdleBrackets 1 ∧ p.NoIdleBrackets 1) := by
    rw [regroup_concat]
    exact hbefore none
  constructor
  · intro before
    have hzero := ((trims_written_zero _).trans hnest).append_left (writtenBar before)
    rw [addAlternatives, ← addFactors, ← regroup_concat, written_addAlternative, written_concat]
    exact hzero.congr (by simp [NoIdleBrackets]; tauto)
  · intro before
    have hone : (Pattern.concat p q).written 1 = p.written 1 ++ q.written 1 :=
      (written_of_le (by decide) (Nat.le_refl 1)).trans (written_concat p q)
    rw [hone]
    exact (hbefore before).congr (by simp [NoIdleBrackets]; tauto)
  · have htwo : (Pattern.concat p q).written 2 =
        '(' :: (p.written 1 ++ q.written 1) ++ [')'] := by
      rw [← written_concat]
      exact written_of_lt (by decide) (Nat.lt_succ_self 1)
    have hbrackets := (hnest.append_right [')']).append_left ['(']
    rw [htwo]
    exact ((trims_written_two _).trans hbrackets).congr (by simp [NoIdleBrackets]; tauto)

theorem choice (hp : Trimmed p) (hq : Trimmed q) : Trimmed (.choice p q) := by
  have hzero : ∀ before, Trims ((addAlternatives before (.choice p q)).written 0)
      (writtenBar before ++ (Pattern.choice p q).written 0)
      ((Pattern.choice p q).NoIdleBrackets 0) := by
    intro before
    have hlast := hq.alternatives (some (addAlternatives before p))
    have hfirst := (hp.alternatives before).append_right ('|' :: q.written 0)
    have hbar : writtenBar (some (addAlternatives before p)) ++ q.written 0 =
        (addAlternatives before p).written 0 ++ '|' :: q.written 0 := by
      rw [writtenBar, List.append_assoc, List.singleton_append]
    rw [hbar] at hlast
    rw [addAlternatives, written_choice, ← List.append_assoc]
    exact (hlast.trans hfirst).congr and_comm
  -- a regrouped choice is a choice, so it has brackets in the same places
  have hplace : ∀ {place}, place ≤ 3 → Trims ((Pattern.choice p q).regroup.written place)
      ((Pattern.choice p q).written place) ((Pattern.choice p q).NoIdleBrackets 0) :=
    fun hplace => trims_written (hzero none) (precedence_regroup_choice p q) hplace
  constructor
  · exact hzero
  · intro before
    have hone := (hplace (show 1 ≤ 3 by decide)).append_left (writtenFactors before)
    rw [addFactors, ← addAlternatives, writtenFactors_addFactor]
    exact hone
  · exact hplace (by decide)

theorem star (hp : Trimmed p) : Trimmed (.star p) := by
  have hplace : ∀ {place}, place ≤ 2 → Trims ((Pattern.star p.regroup).written place)
      ((Pattern.star p).written place) (p.NoIdleBrackets 2) := by
    intro place hplace
    have hbare : ∀ q : Pattern α, (Pattern.star q).written place = q.written 2 ++ ['*'] :=
      fun q => (written_of_le (by omega) hplace).trans (written_star q)
    rw [hbare, hbare]
    exact hp.part.append_right ['*']
  constructor
  · intro before
    rw [addAlternatives, written_addAlternative]
    exact (hplace (Nat.zero_le 2)).append_left (writtenBar before)
  · intro before
    rw [addFactors, writtenFactors_addFactor]
    exact (hplace (by decide)).append_left (writtenFactors before)
  · rw [regroup_star]
    exact hplace (Nat.le_refl 2)

end Trimmed

theorem trimmed (p : Pattern α) : Trimmed p := by
  induction p with
  | empty => exact .empty
  | literal a => exact .literal a
  | concat p q hp hq => exact hp.concat hq
  | choice p q hp hq => exact hp.choice hq
  | star p hp => exact hp.star

/-- The text of a regrouped pattern is the text of the pattern just if no brackets in it
are idle. -/
theorem text_regroup_iff (p : Pattern α) : p.regroup.text = p.text ↔ p.NoIdleBrackets 0 := by
  have htrims : Trims (p.regroup.written 0) (p.written 0) (p.NoIdleBrackets 0) :=
    p.trimmed.alternatives none
  rw [← String.toList_inj, toList_text, toList_text]
  exact htrims.2

end Written

/-! ## Patterns without empty factors -/

/-- No factor of a concatenation is empty. -/
def FactorsNonempty : Pattern α → Prop
  | empty | literal _ => True
  | concat p q => p ≠ .empty ∧ q ≠ .empty ∧ p.FactorsNonempty ∧ q.FactorsNonempty
  | choice p q => p.FactorsNonempty ∧ q.FactorsNonempty
  | star p => p.FactorsNonempty

theorem factorsNonempty_of_subpatterns {p : Pattern α}
    (h : ∀ q, .concat .empty q ∉ p.subpatterns ∧ .concat q .empty ∉ p.subpatterns) :
    p.FactorsNonempty := by
  induction p with
  | empty | literal => trivial
  | concat p q ihp ihq =>
    simp only [subpatterns, List.mem_cons, List.mem_append, not_or] at h
    refine ⟨?_, ?_, ihp fun r => ⟨(h r).1.2.1, (h r).2.2.1⟩, ihq fun r => ⟨(h r).1.2.2, (h r).2.2.2⟩⟩
    · rintro rfl
      exact (h q).1.1 rfl
    · rintro rfl
      exact (h p).2.1 rfl
  | choice p q ihp ihq =>
    simp only [subpatterns, List.mem_cons, List.mem_append, not_or] at h
    exact ⟨ihp fun r => ⟨(h r).1.2.1, (h r).2.2.1⟩, ihq fun r => ⟨(h r).1.2.2, (h r).2.2.2⟩⟩
  | star p ih =>
    simp only [subpatterns, List.mem_cons, not_or] at h
    exact ih fun r => ⟨(h r).1.2, (h r).2.2⟩

theorem addFactors_some (b : Pattern α) {p : Pattern α} (hne : p ≠ .empty)
    (hp : p.FactorsNonempty) : ∃ q r, addFactors (some b) p = some (.concat q r) := by
  induction p generalizing b with
  | empty => exact absurd rfl hne
  | literal | choice | star => exact ⟨_, _, rfl⟩
  | concat p q ihp ihq =>
    obtain ⟨hpne, hqne, hp, hq⟩ := hp
    obtain ⟨f, g, hfirst⟩ := ihp b hpne hp
    rw [addFactors, hfirst]
    exact ihq _ hqne hq

theorem addFactors_none {p : Pattern α} (hne : p ≠ .empty) (hp : p.FactorsNonempty) :
    ∃ q, addFactors none p = some q := by
  induction p with
  | empty => exact absurd rfl hne
  | literal | choice | star => exact ⟨_, rfl⟩
  | concat p q ihp _ =>
    obtain ⟨hpne, hqne, hp, hq⟩ := hp
    obtain ⟨b, hfirst⟩ := ihp hpne hp
    obtain ⟨f, g, hlast⟩ := addFactors_some b hqne hq
    exact ⟨_, by rw [addFactors, hfirst, hlast]⟩

theorem precedence_regroup_concat {p q : Pattern α} (h : (concat p q).FactorsNonempty) :
    (concat p q).regroup.precedence = 1 := by
  obtain ⟨hpne, hqne, hp, hq⟩ := h
  obtain ⟨b, hfirst⟩ := addFactors_none hpne hp
  obtain ⟨f, g, hlast⟩ := addFactors_some b hqne hq
  rw [regroup_concat, addFactors, hfirst, hlast, Option.getD_some, precedence]

theorem FactorsNonempty.noIdleBrackets {p : Pattern α} (hp : p.FactorsNonempty) (place : Nat) :
    p.NoIdleBrackets place := by
  induction p generalizing place with
  | empty | literal => trivial
  | concat p q ihp ihq =>
    have hprecedence := precedence_regroup_concat hp
    refine ⟨ihp hp.2.2.1 1, ihq hp.2.2.2 1, fun _ => ?_, fun _ => hprecedence⟩
    rw [hprecedence]
    decide
  | choice p q ihp ihq => exact ⟨ihp hp.1 0, ihq hp.2 0⟩
  | star p ih => exact ih hp 2

end Acceptor.Pattern
