import Mathlib.Order.WellFounded
import Acceptor.Pushdown.FreeMoves
import Acceptor.Pushdown.Run

/-!
# Settling and runs

A configuration from which free moves cannot go on forever settles, and where it
settles is reached by a run that reads nothing. If the rules are deterministic, nothing
is lost by settling first: a run that reads another symbol has to pass the settled
configuration (`Settles.run_cons_iff`), and a run that reads nothing and comes to rest
ends there (`Settles.eq_of_resting`).
-/

namespace Acceptor.Pushdown

variable {σ α : Type} {rules : List (Rule σ α)} {c d e s : Configuration σ α} {w : List α}

theorem FreeMovesEnd.after_run (h : FreeMovesEnd rules c) (hrun : Run rules c w d) :
    FreeMovesEnd rules d := by
  intro chain hstart
  obtain ⟨v, hv⟩ := hstart
  exact h chain ⟨w ++ v, hrun.append hv⟩

theorem FreeMovesEnd.acc (h : FreeMovesEnd rules c) :
    Acc (fun d c => Moves rules c none d) c := by
  rw [acc_iff_isEmpty_descending_chain]
  refine ⟨fun endless => ?_⟩
  obtain ⟨chain, hstart, hmoves⟩ := endless
  exact h chain ⟨[], hstart ▸ .refl _⟩ hmoves

/-- Where no free rule applies a run reads at once. -/
theorem Resting.exists_of_run_cons (h : Resting rules c) {a : α} (hrun : Run rules c (a :: w) e) :
    ∃ d, Moves rules c (some a) d ∧ Run rules d w e := by
  cases hrun with
  | free hmem happ _ => exact absurd ⟨_, hmem, happ, rfl⟩ (h _)
  | read hmem happ hrest => exact ⟨_, ⟨_, hmem, happ, rfl⟩, hrest⟩

theorem Resting.eq_of_run_nil (h : Resting rules c) (hrun : Run rules c [] e) : e = c := by
  cases hrun with
  | refl => rfl
  | free hmem happ _ => exact absurd ⟨_, hmem, happ, rfl⟩ (h _)

/-- Where a free rule applies, deterministic rules allow no other way to go on. -/
theorem Deterministic.run_of_free (hrules : Deterministic rules) (hfree : Moves rules c none d)
    (hrun : Run rules c w e) : w = [] ∧ e = c ∨ Run rules d w e := by
  cases hrun with
  | refl => exact .inl ⟨rfl, rfl⟩
  | free hmem happ hrest =>
    rw [hrules.same_result ⟨_, hmem, happ, rfl⟩ hfree] at hrest
    exact .inr hrest
  | read hmem happ _ => exact absurd ⟨_, hmem, happ, rfl⟩ (hrules.free_alone hfree)

variable [DecidableEq σ] [DecidableEq α]

theorem moves_of_ruleFor? {label : Option α} {rule : Rule σ α}
    (h : ruleFor? rules c label = some rule) : Moves rules c label (rule.follow c) := by
  have happ : rule.AppliesTo c label := by simpa using List.find?_some h
  exact ⟨rule, List.mem_of_find?_eq_some h, happ, rfl⟩

theorem ruleFor?_eq_none_iff {label : Option α} :
    ruleFor? rules c label = none ↔ ∀ d, ¬ Moves rules c label d := by
  rw [ruleFor?, List.find?_eq_none]
  constructor
  · intro hnone d hmove
    obtain ⟨rule, hmem, happ, _⟩ := hmove
    exact hnone rule hmem (by simpa using happ)
  · intro hnone rule hmem happ
    exact hnone _ ⟨rule, hmem, by simpa using happ, rfl⟩

theorem exists_settles_of_acc (h : Acc (fun d c => Moves rules c none d) c) :
    ∃ s, Settles rules c s := by
  induction h with
  | intro c _ ih =>
    cases hrule : ruleFor? rules c none with
    | none => exact ⟨c, .done hrule⟩
    | some rule =>
      obtain ⟨s, hs⟩ := ih _ (moves_of_ruleFor? hrule)
      exact ⟨s, .move hrule hs⟩

theorem FreeMovesEnd.exists_settles (h : FreeMovesEnd rules c) : ∃ s, Settles rules c s :=
  exists_settles_of_acc h.acc

namespace Settles

theorem resting (h : Settles rules c s) : Resting rules s := by
  induction h with
  | done hnone => exact ruleFor?_eq_none_iff.1 hnone
  | move _ _ ih => exact ih

theorem run (h : Settles rules c s) : Run rules c [] s := by
  induction h with
  | done => exact .refl _
  | move hrule _ ih => exact (moves_of_ruleFor? hrule).run ih

theorem of_stuck (hstuck : c.isStuck = true) : Settles rules c c := by
  obtain ⟨_ | _, stack⟩ := c
  · cases hstuck
  · exact .done ruleFor?_stuck

/-- Settling does not make a machine stuck. -/
theorem isStuck_eq (h : Settles rules c s) : s.isStuck = c.isStuck := by
  induction h with
  | done => rfl
  | move hrule _ ih =>
    obtain ⟨rule, _, happ, _⟩ := moves_of_ruleFor? hrule
    rw [ih, Configuration.isStuck, Configuration.isStuck, happ.1]
    rfl

/-- A run that reads a symbol reads it where the configuration settles. -/
theorem run_cons_iff (hrules : Deterministic rules) (h : Settles rules c s) {a : α} :
    Run rules c (a :: w) e ↔ ∃ d, Moves rules s (some a) d ∧ Run rules d w e := by
  constructor
  · intro hrun
    induction h with
    | done hnone => exact Resting.exists_of_run_cons (ruleFor?_eq_none_iff.1 hnone) hrun
    | move hrule _ ih =>
      rcases hrules.run_of_free (moves_of_ruleFor? hrule) hrun with ⟨hempty, _⟩ | hrest
      · cases hempty
      · exact ih hrest
  · intro hread
    obtain ⟨d, hmove, hrest⟩ := hread
    exact h.run.append (hmove.run hrest)

/-- All runs that read nothing and come to rest come to rest in the same configuration. -/
theorem eq_of_resting (hrules : Deterministic rules) (h : Settles rules c s)
    (hrun : Run rules c [] e) (hresting : Resting rules e) : e = s := by
  induction h with
  | done hnone => exact Resting.eq_of_run_nil (ruleFor?_eq_none_iff.1 hnone) hrun
  | move hrule _ ih =>
    have hfree := moves_of_ruleFor? hrule
    rcases hrules.run_of_free hfree hrun with ⟨_, rfl⟩ | hrest
    · exact absurd hfree (hresting _)
    · exact ih hrest

end Settles

end Acceptor.Pushdown
