import Mathlib.Algebra.Ring.Nat
import Mathlib.Data.List.Nodup
import Mathlib.Data.List.Perm.Subperm
import Mathlib.Data.List.ProdSigma
import Mathlib.Order.Bounds.Defs
import Acceptor.Nfa.Discovery
import Acceptor.Proofs.Nfa.Recognized

/-!
# What the work list discovers

The loop over waiting sets finds what the search finds and writes one rule for each pair
of a set and a symbol (`explore_eq`, `rules_explore`). Each set waits once and is expanded
once, so no pair comes twice. The sets that were found are the least family that holds
the given ones and is closed under reading, and all but the given ones are sets of targets
of rules, closed under free moves.
-/

namespace Acceptor

namespace SortedSet

theorem length_subsequences {α : Type} (l : List α) :
    (subsequences l).length = 2 ^ l.length := by
  induction l with
  | nil => rfl
  | cons a l ih =>
    rw [subsequences, List.length_append, List.length_map, ih, List.length_cons, pow_succ, mul_two]

theorem length_subsets {α : Type} [Ordered α] (s : SortedSet α) :
    s.subsets.length = 2 ^ s.size := by
  rw [subsets, List.length_map, length_subsequences, size]

end SortedSet

namespace Nfa

variable {σ α : Type} [Ordered σ] [Ordered α] {m : Nfa σ α} {X : SortedSet (SortedSet σ)}

/-- The loop in the middle of its work: `done` has been expanded, `waiting` has not. -/
theorem exploreFrom_eq (m : Nfa σ α) (done waiting : List (SortedSet σ)) :
    m.exploreFrom ⟨.ofList (done ++ waiting), waiting, done.flatMap m.rulesOfSet⟩ =
      let sets := expand m.advances ⟨_, m.finitelyMany_advances⟩ done waiting
      ⟨.ofList sets, [], sets.flatMap m.rulesOfSet⟩ := by
  fun_induction expand m.advances ⟨_, m.finitelyMany_advances⟩ done waiting with
  | case1 done => rw [List.append_nil, exploreFrom_nil]
  | case2 done S waiting ih =>
    have hseen : unseen (SortedSet.ofList (done ++ S :: waiting)).toList (m.advances S) =
        unseen (done ++ S :: waiting) (m.advances S) :=
      unseen_congr (fun _ => SortedSet.mem_ofList) _
    have hfound : (SortedSet.ofList (done ++ S :: waiting)).union (.ofList (m.advances S)) =
        .ofList (done ++ [S] ++ (waiting ++ unseen (done ++ S :: waiting) (m.advances S))) := by
      refine SortedSet.ext fun T => ?_
      rw [expanded_append, SortedSet.mem_union, SortedSet.mem_ofList, SortedSet.mem_ofList,
        SortedSet.mem_ofList, mem_append_unseen]
    have hrules : done.flatMap m.rulesOfSet ++ m.rulesOfSet S =
        (done ++ [S]).flatMap m.rulesOfSet := by simp
    rw [exploreFrom_cons, hseen, hfound, hrules]
    exact ih

/-- The loop finds what the search finds and writes the rules in the same order. -/
theorem explore_eq (m : Nfa σ α) (X : SortedSet (SortedSet σ)) :
    m.explore X = ⟨.ofList (m.discover X), [], (m.discover X).flatMap m.rulesOfSet⟩ := by
  have hseeds : unseen [] X.toList = X.toList :=
    unseen_eq_self X.nodup_toList fun _ _ => List.not_mem_nil
  have hloop := exploreFrom_eq m [] X.toList
  rw [List.nil_append, SortedSet.ofList_toList, List.flatMap_nil] at hloop
  rw [explore, hloop, discover, search, hseeds]

theorem mem_found_explore {S : SortedSet σ} :
    S ∈ (m.explore X).found ↔ Reachable m.advances X.toList S := by
  rw [explore_eq, SortedSet.mem_ofList, discover, mem_search]

theorem toList_found_explore_perm (m : Nfa σ α) (X : SortedSet (SortedSet σ)) :
    (m.explore X).found.toList.Perm (m.discover X) := by
  refine (List.perm_ext_iff_of_nodup (SortedSet.nodup_toList _) nodup_search).2 fun S => ?_
  rw [explore_eq, SortedSet.mem_toList, SortedSet.mem_ofList]
  rfl

/-- The rules are written pair by pair. -/
theorem rules_explore (m : Nfa σ α) (X : SortedSet (SortedSet σ)) :
    (m.explore X).rules = (m.discover X ×ˢ m.alphabet.toList).map
      fun pair => ⟨pair.1, some pair.2, m.advance pair.1 pair.2⟩ := by
  have hpairs : m.discover X ×ˢ m.alphabet.toList =
      (m.discover X).flatMap fun S => m.alphabet.toList.map (Prod.mk S) := rfl
  rw [explore_eq, hpairs, List.map_flatMap]
  simp only [List.map_map]
  rfl

/-- The families of sets that hold the sets of `X` and, with a set, what reading a symbol
of the alphabet leads to from it. -/
def ClosedFamily (m : Nfa σ α) (X : SortedSet (SortedSet σ)) (F : Set (SortedSet σ)) : Prop :=
  (∀ S, S ∈ X → S ∈ F) ∧ ∀ S a, S ∈ F → a ∈ m.alphabet → m.advance S a ∈ F

theorem isLeast_found_explore (m : Nfa σ α) (X : SortedSet (SortedSet σ)) :
    IsLeast {F | m.ClosedFamily X F} {S | S ∈ (m.explore X).found} := by
  constructor
  · constructor
    · intro S hS
      exact mem_found_explore.2 (.seed hS)
    · intro S a hS ha
      exact mem_found_explore.2 ((mem_found_explore.1 hS).step (List.mem_map.2 ⟨a, ha, rfl⟩))
  · intro F hF S hS
    have hreachable : Reachable m.advances X.toList S := mem_found_explore.1 hS
    induction hreachable with
    | seed hT => exact hF.1 _ hT
    | step hT hnext ih =>
      obtain ⟨a, ha, rfl⟩ := List.mem_map.1 hnext
      exact hF.2 _ a (ih (mem_found_explore.2 hT)) ha

/-- A set that was found and not given comes from reading a symbol. -/
theorem exists_advance_of_mem_found {S : SortedSet σ} (hS : S ∈ (m.explore X).found)
    (hnew : S ∉ X) : ∃ T a, S = m.advance T a := by
  cases mem_found_explore.1 hS with
  | seed hseed => exact absurd hseed hnew
  | step _ hnext =>
    obtain ⟨a, _, rfl⟩ := List.mem_map.1 hnext
    exact ⟨_, a, rfl⟩

theorem size_found_explore_le (m : Nfa σ α) (X : SortedSet (SortedSet σ)) :
    (m.explore X).found.size ≤ X.size + 2 ^ m.targets.size := by
  have hbound : (m.explore X).found.toList ⊆ X.toList ++ m.targets.subsets := by
    intro S hS
    by_cases hold : S ∈ X
    · exact List.mem_append_left _ hold
    · obtain ⟨T, a, rfl⟩ := exists_advance_of_mem_found hS hold
      exact List.mem_append_right _ (SortedSet.mem_subsets fun _ => mem_targets_of_mem_advance)
  have hlength := ((SortedSet.nodup_toList _).subperm hbound).length_le
  rwa [List.length_append, SortedSet.length_subsets] at hlength

/-- Each pair has exactly one rule. -/
theorem filter_rules_explore {S : SortedSet σ} {a : α} (hS : S ∈ (m.explore X).found)
    (ha : a ∈ m.alphabet) :
    (m.explore X).rules.filter (fun rule => rule.AppliesTo S (some a)) =
      [⟨S, some a, m.advance S a⟩] := by
  have hpair : (S, a) ∈ m.discover X ×ˢ m.alphabet.toList :=
    List.mem_product.2 ⟨(toList_found_explore_perm m X).mem_iff.1 hS, ha⟩
  have hnodup : (m.discover X ×ˢ m.alphabet.toList).Nodup :=
    List.Nodup.product nodup_search m.alphabet.nodup_toList
  have honce : (m.discover X ×ˢ m.alphabet.toList).filter (· = (S, a)) = [(S, a)] := by
    rw [List.filter_eq, List.count_eq_one_of_mem hnodup hpair]
    rfl
  have happlies : ((fun rule : Rule (SortedSet σ) α => decide (rule.AppliesTo S (some a))) ∘
      fun pair => ⟨pair.1, some pair.2, m.advance pair.1 pair.2⟩) =
        fun pair => decide (pair = (S, a)) := by
    funext pair
    simp [Prod.ext_iff]
  rw [rules_explore, List.filter_map, happlies, honce]
  rfl

theorem exists_of_mem_rules_explore {rule : Rule (SortedSet σ) α}
    (hrule : rule ∈ (m.explore X).rules) :
    ∃ S a, S ∈ (m.explore X).found ∧ a ∈ m.alphabet ∧ rule = ⟨S, some a, m.advance S a⟩ := by
  rw [rules_explore] at hrule
  obtain ⟨⟨S, a⟩, hpair, rfl⟩ := List.mem_map.1 hrule
  obtain ⟨hS, ha⟩ := List.mem_product.1 hpair
  exact ⟨S, a, (toList_found_explore_perm m X).mem_iff.2 hS, ha, rfl⟩

theorem length_rules_explore (m : Nfa σ α) (X : SortedSet (SortedSet σ)) :
    (m.explore X).rules.length = (m.explore X).found.size * m.alphabet.size := by
  rw [rules_explore, List.length_map, List.length_product,
    ← (toList_found_explore_perm m X).length_eq]
  rfl

/-- Discovery is complete, sound and free of duplicates. The loop ends, with nothing left to
wait and with the sets and rules of the search. It finds the least family that holds the
given sets and is closed under reading. For each set and each symbol of the alphabet it
writes exactly one rule, which leads where reading the symbol leads, and no other rule.
What it finds beyond the given sets is closed under free moves, and there are no more such
sets than sets of targets. -/
theorem discovery_exact (m : Nfa σ α) (X : SortedSet (SortedSet σ)) :
    m.explore X = ⟨.ofList (m.discover X), [], (m.discover X).flatMap m.rulesOfSet⟩ ∧
      IsLeast {F | m.ClosedFamily X F} {S | S ∈ (m.explore X).found} ∧
      (∀ S a, S ∈ (m.explore X).found → a ∈ m.alphabet →
        (m.explore X).rules.filter (fun rule => rule.AppliesTo S (some a)) =
          [⟨S, some a, m.advance S a⟩]) ∧
      (∀ rule ∈ (m.explore X).rules, ∃ S a, S ∈ (m.explore X).found ∧ a ∈ m.alphabet ∧
        rule = ⟨S, some a, m.advance S a⟩) ∧
      (m.explore X).rules.length = (m.explore X).found.size * m.alphabet.size ∧
      (∀ S, S ∈ (m.explore X).found → S ∉ X → m.closure S = S) ∧
      (m.explore X).found.size ≤ X.size + 2 ^ m.targets.size := by
  refine ⟨explore_eq m X, isLeast_found_explore m X, ?_, ?_, length_rules_explore m X, ?_,
    size_found_explore_le m X⟩
  · intro S a hS ha
    exact filter_rules_explore hS ha
  · intro rule hrule
    exact exists_of_mem_rules_explore hrule
  · intro S hS hnew
    obtain ⟨T, a, rfl⟩ := exists_advance_of_mem_found hS hnew
    exact closure_closure m _

/-- Three sets are given: the empty one, one that is not closed under free moves and one of
a state that no rule mentions. -/
theorem discovery_exact_of_foreign_state :
    let m : Nfa Nat Char :=
      { start := 0
        accept := .singleton 2
        rules := [.free 0 1, ⟨0, some 'a', 0⟩, ⟨1, some 'b', 2⟩, ⟨1, some 'b', 2⟩] }
    let X : SortedSet (SortedSet Nat) := .ofList [.empty, .singleton 0, .singleton 7]
    (SortedSet.singleton 0 ∈ (m.explore X).found ∧ 'b' ∈ m.alphabet ∧
        (m.explore X).rules.filter (fun rule => rule.AppliesTo (.singleton 0) (some 'b')) =
          [⟨.singleton 0, some 'b', m.advance (.singleton 0) 'b'⟩]) ∧
      SortedSet.ofList [0, 1] ∈ (m.explore X).found ∧ SortedSet.ofList [0, 1] ∉ X ∧
        m.closure (.ofList [0, 1]) = .ofList [0, 1] := by
  intro m X
  have hfound : (m.explore X).found =
      .ofList [.empty, .singleton 0, .singleton 7, .ofList [0, 1], .singleton 2] := by cbv
  have hgiven : SortedSet.singleton 0 ∈ (m.explore X).found := by
    rw [hfound]
    decide
  have hreached : SortedSet.ofList [0, 1] ∈ (m.explore X).found := by
    rw [hfound]
    decide
  have hletter : 'b' ∈ m.alphabet := by decide
  have hnew : SortedSet.ofList [0, 1] ∉ X := by decide
  obtain ⟨_, _, honce, _, _, hclosed, _⟩ := discovery_exact m X
  exact ⟨⟨hgiven, hletter, honce _ 'b' hgiven hletter⟩, hreached, hnew, hclosed _ hreached hnew⟩

end Nfa

end Acceptor
