import Acceptor.Pattern.Basic

/-!
# Regrouping

The text of a pattern does not show how nested choices and nested concatenations
are grouped, nor empty factors. Regrouping brings a pattern into the form that its
text stands for: nests lean to the left, and empty factors are gone. The parts of a nest
are regrouped each by itself, in their order (`joinLeft_alternatives`,
`joinLeft_factors`); a part that only becomes a choice when its empty factors go stays
one part.
-/

namespace Acceptor.Pattern

variable {α : Type}

/-- One more alternative behind those of `before`. -/
def addAlternative (before : Option (Pattern α)) (p : Pattern α) : Pattern α :=
  match before with
  | none => p
  | some alternatives => .choice alternatives p

/-- One more factor behind those of `before`. -/
def addFactor (before : Option (Pattern α)) (p : Pattern α) : Pattern α :=
  match before with
  | none => p
  | some factors => .concat factors p

mutual

/-- The regrouped alternatives of a pattern behind those of `before`. -/
def addAlternatives (before : Option (Pattern α)) : Pattern α → Pattern α
  | .empty => addAlternative before .empty
  | .literal a => addAlternative before (.literal a)
  | .concat p q => addAlternative before ((addFactors (addFactors none p) q).getD .empty)
  | .choice p q => addAlternatives (some (addAlternatives before p)) q
  | .star p => addAlternative before (.star (addAlternatives none p))

/-- The regrouped factors of a pattern behind those of `before`. -/
def addFactors (before : Option (Pattern α)) : Pattern α → Option (Pattern α)
  | .empty => before
  | .literal a => some (addFactor before (.literal a))
  | .concat p q => addFactors (addFactors before p) q
  | .choice p q =>
    some (addFactor before (addAlternatives (some (addAlternatives none p)) q))
  | .star p => some (addFactor before (.star (addAlternatives none p)))

end

/-- The pattern with nests of choices and of concatenations leaning to the left, and
without empty factors. -/
def regroup (p : Pattern α) : Pattern α := addAlternatives none p

theorem regroup_concat (p q : Pattern α) :
    (concat p q).regroup = (addFactors none (concat p q)).getD .empty := by
  rw [regroup, addAlternatives, addFactors]
  rfl

theorem regroup_star (p : Pattern α) : (star p).regroup = .star p.regroup := by
  rw [regroup, addAlternatives]
  rfl

/-! ## The parts of a nest -/

/-- The parts of the nest of choices at the top. -/
def alternatives : Pattern α → List (Pattern α)
  | .choice p q => p.alternatives ++ q.alternatives
  | .empty => [.empty]
  | .literal a => [.literal a]
  | .concat p q => [.concat p q]
  | .star p => [.star p]

/-- The parts of the nest of concatenations at the top, but for those that are empty. -/
def factors : Pattern α → List (Pattern α)
  | .concat p q => p.factors ++ q.factors
  | .empty => []
  | .literal a => [.literal a]
  | .choice p q => [.choice p q]
  | .star p => [.star p]

/-- The patterns joined from the left, if there are any. -/
def joinLeft (join : Pattern α → Pattern α → Pattern α) : List (Pattern α) → Option (Pattern α)
  | [] => none
  | p :: ps => some (ps.foldl join p)

theorem foldl_eq_joinLeft (add : Option (Pattern α) → Pattern α → Pattern α)
    (join : Pattern α → Pattern α → Pattern α) (hnone : ∀ p, add none p = p)
    (hsome : ∀ b p, add (some b) p = join b p) (ps : List (Pattern α)) :
    ps.foldl (fun before p => some (add before p)) none = joinLeft join ps := by
  have hbehind : ∀ (qs : List (Pattern α)) b,
      qs.foldl (fun before p => some (add before p)) (some b) = some (qs.foldl join b) := by
    intro qs
    induction qs with
    | nil => exact fun _ => rfl
    | cons q qs ih =>
      intro b
      rw [List.foldl_cons, hsome, ih, List.foldl_cons]
  cases ps with
  | nil => rfl
  | cons p ps => rw [List.foldl_cons, hnone, hbehind, joinLeft]

/-- Regrouping goes through the parts of the nest from left to right. -/
theorem some_addAlternatives (before : Option (Pattern α)) (p : Pattern α) :
    some (addAlternatives before p) =
      (p.alternatives.map regroup).foldl (fun before q => some (addAlternative before q))
        before := by
  induction p generalizing before with
  | empty | literal | concat | star => rfl
  | choice p q ihp ihq =>
    rw [addAlternatives, alternatives, List.map_append, List.foldl_append, ← ihp, ← ihq]

theorem addFactors_eq_foldl (before : Option (Pattern α)) (p : Pattern α) :
    addFactors before p =
      (p.factors.map regroup).foldl (fun before q => some (addFactor before q)) before := by
  induction p generalizing before with
  | empty | literal | choice | star => rfl
  | concat p q ihp ihq =>
    rw [addFactors, factors, List.map_append, List.foldl_append, ← ihp, ← ihq]

/-- The alternatives of a nest are regrouped each by itself and joined from the left. -/
theorem joinLeft_alternatives (p : Pattern α) :
    joinLeft .choice (p.alternatives.map regroup) = some p.regroup := by
  rw [regroup, some_addAlternatives,
    foldl_eq_joinLeft addAlternative .choice (fun _ => rfl) (fun _ _ => rfl)]

/-- So are the factors, where a nest without factors is empty. -/
theorem joinLeft_factors (p q : Pattern α) :
    (joinLeft .concat ((concat p q).factors.map regroup)).getD .empty = (concat p q).regroup := by
  rw [regroup_concat, addFactors_eq_foldl,
    foldl_eq_joinLeft addFactor .concat (fun _ => rfl) (fun _ _ => rfl)]

end Acceptor.Pattern
