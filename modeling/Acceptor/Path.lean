import Acceptor.Diagram

/-!
# Paths

A path through a diagram, and the word that its labels spell. Free moves may stand
anywhere on a path and spell nothing. Paths are what runs of automata are measured
by; they do not look at the order of the rules.
-/

namespace Acceptor.Diagram

variable {σ α : Type} [Ordered σ]

/-- The diagram has a path from the first state to the second one that spells the
word. -/
inductive Path (d : Diagram σ α) : σ → List α → σ → Prop
  | nil (q : σ) : Path d q [] q
  | free {q r s : σ} {w : List α} : ⟨q, none, r⟩ ∈ d.rules → Path d r w s → Path d q w s
  | read {q r s : σ} {a : α} {w : List α} :
      ⟨q, some a, r⟩ ∈ d.rules → Path d r w s → Path d q (a :: w) s

namespace Path

variable {d : Diagram σ α} {q r s : σ} {u v : List α}

theorem append (h : d.Path q u r) (h' : d.Path r v s) : d.Path q (u ++ v) s := by
  induction h with
  | nil q => exact h'
  | free hrule _ ih => exact .free hrule (ih h')
  | read hrule _ ih => exact .read hrule (ih h')

theorem of_rule {label : Option α} (h : ⟨q, label, r⟩ ∈ d.rules) :
    d.Path q label.toList r := by
  cases label with
  | none => exact .free h (.nil r)
  | some a => exact .read h (.nil r)

end Path

/-- A path that spells a word after another one visits a state between the two. -/
theorem path_append {d : Diagram σ α} {q s : σ} {u v : List α} :
    d.Path q (u ++ v) s ↔ ∃ r, d.Path q u r ∧ d.Path r v s := by
  constructor
  · generalize hw : u ++ v = w
    intro h
    induction h generalizing u with
    | nil q =>
      obtain ⟨rfl, rfl⟩ := List.append_eq_nil_iff.1 hw
      exact ⟨q, .nil q, .nil q⟩
    | free hrule _ ih =>
      obtain ⟨t, ht, ht'⟩ := ih hw
      exact ⟨t, .free hrule ht, ht'⟩
    | read hrule hpath ih =>
      cases u with
      | nil =>
        obtain rfl : v = _ := hw
        exact ⟨_, .nil _, .read hrule hpath⟩
      | cons b u =>
        obtain ⟨rfl, htail⟩ := List.cons_eq_cons.1 hw
        obtain ⟨t, ht, ht'⟩ := ih htail
        exact ⟨t, .read hrule ht, ht'⟩
  · rintro ⟨r, h, h'⟩
    exact h.append h'

/-- A path that spells one symbol uses one rule for it, with free moves around. -/
theorem path_singleton {d : Diagram σ α} {q s : σ} {a : α} :
    d.Path q [a] s ↔
      ∃ r t, d.Path q [] r ∧ ⟨r, some a, t⟩ ∈ d.rules ∧ d.Path t [] s := by
  constructor
  · generalize hw : [a] = w
    intro h
    induction h with
    | nil q => cases hw
    | free hrule _ ih =>
      obtain ⟨r, t, hr, hmove, ht⟩ := ih hw
      exact ⟨r, t, .free hrule hr, hmove, ht⟩
    | read hrule hpath ih =>
      cases hw
      exact ⟨_, _, .nil _, hrule, hpath⟩
  · rintro ⟨r, t, hr, hmove, ht⟩
    exact hr.append (.read hmove ht)

end Acceptor.Diagram
