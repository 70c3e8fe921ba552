import Mathlib.Computability.Language
import Acceptor.Pattern.Language
import Acceptor.Pattern.Regroup

/-!
# Regrouping keeps the language

The patterns over an alphabet are given meaning in the library's languages, where a choice
is a sum, a concatenation a product and the empty pattern one. Regrouping moves brackets
in sums and products and drops factors that are one, so the language of a pattern stays
the same (`language_regroup`).
-/

namespace Acceptor.Pattern

variable {α : Type}

def language (p : Pattern α) : Language α := { w | p.Matches w }

theorem mem_language {p : Pattern α} {w : List α} : w ∈ p.language ↔ p.Matches w := Iff.rfl

@[simp] theorem language_empty : (empty : Pattern α).language = 1 := by
  ext w
  rw [mem_language, matches_empty, Language.mem_one]

@[simp] theorem language_concat (p q : Pattern α) :
    (concat p q).language = p.language * q.language := by
  ext w
  rw [mem_language, matches_concat, Language.mem_mul]
  constructor
  · rintro ⟨u, v, rfl, hu, hv⟩
    exact ⟨u, hu, v, hv, rfl⟩
  · rintro ⟨u, hu, v, hv, rfl⟩
    exact ⟨u, v, rfl, hu, hv⟩

@[simp] theorem language_choice (p q : Pattern α) :
    (choice p q).language = p.language + q.language := by
  ext w
  rw [mem_language, matches_choice, Language.mem_add]
  rfl

@[simp] theorem language_star (p : Pattern α) :
    (star p).language = KStar.kstar p.language := by
  ext w
  rw [mem_language, matches_star, Language.mem_kstar]
  rfl

theorem language_addAlternative (before : Option (Pattern α)) (p : Pattern α) :
    (addAlternative before p).language = before.elim 0 language + p.language := by
  cases before with
  | none => simp [addAlternative]
  | some b => simp [addAlternative]

theorem language_addFactor (before : Option (Pattern α)) (p : Pattern α) :
    (addFactor before p).language = (before.getD .empty).language * p.language := by
  cases before with
  | none => simp [addFactor]
  | some b => simp [addFactor]

/-- Regrouping behind what stands before is adding for alternatives and multiplying for
factors. -/
theorem language_add (p : Pattern α) :
    (∀ before, (addAlternatives before p).language =
        before.elim 0 language + p.language) ∧
      ∀ before, ((addFactors before p).getD .empty).language =
        (before.getD .empty).language * p.language := by
  induction p with
  | empty =>
    refine ⟨fun before => ?_, fun before => ?_⟩
    · rw [addAlternatives, language_addAlternative]
    · rw [addFactors, language_empty, mul_one]
  | literal a =>
    refine ⟨fun before => ?_, fun before => ?_⟩
    · rw [addAlternatives, language_addAlternative]
    · rw [addFactors, Option.getD_some, language_addFactor]
  | concat p q ihp ihq =>
    refine ⟨fun before => ?_, fun before => ?_⟩
    · rw [addAlternatives, language_addAlternative, ihq.2, ihp.2]
      simp
    · rw [addFactors, ihq.2, ihp.2, mul_assoc, language_concat]
  | choice p q ihp ihq =>
    have hchoice : ∀ before, (addAlternatives (some (addAlternatives before p)) q).language =
        before.elim 0 language + (choice p q).language := by
      intro before
      rw [ihq.1, Option.elim_some, ihp.1, add_assoc, language_choice]
    refine ⟨fun before => ?_, fun before => ?_⟩
    · rw [addAlternatives, hchoice]
    · rw [addFactors, Option.getD_some, language_addFactor, hchoice]
      simp
  | star p ih =>
    have hstar : (star (addAlternatives none p)).language = (star p).language := by
      rw [language_star, ih.1, Option.elim_none, zero_add, language_star]
    refine ⟨fun before => ?_, fun before => ?_⟩
    · rw [addAlternatives, language_addAlternative, hstar]
    · rw [addFactors, Option.getD_some, language_addFactor, hstar]

theorem language_regroup (p : Pattern α) : p.regroup.language = p.language := by
  rw [regroup, (language_add p).1, Option.elim_none, zero_add]

theorem matches_regroup (p : Pattern α) (w : List α) : p.regroup.Matches w ↔ p.Matches w := by
  rw [← mem_language, language_regroup, mem_language]

end Acceptor.Pattern
