import Acceptor.SortedSet.Lemmas

/-!
# Subsets of a sorted set

The list of all subsets of a set, which bounds every search that moves from subset
to subset. It is named in proofs only and never built.
-/

namespace Acceptor.SortedSet

section

variable {α : Type}

/-- The sublists of a list, each position taken or left out. -/
def subsequences : List α → List (List α)
  | [] => [[]]
  | a :: l => subsequences l ++ (subsequences l).map (a :: ·)

theorem mem_subsequences_of_sublist {l m : List α} (h : List.Sublist l m) :
    l ∈ subsequences m := by
  induction h with
  | slnil => exact List.mem_singleton_self _
  | cons a _ ih => exact List.mem_append_left _ ih
  | cons_cons a _ ih => exact List.mem_append_right _ (List.mem_map_of_mem ih)

end

variable {α : Type} [Ordered α]

def subsets (s : SortedSet α) : List (SortedSet α) :=
  (subsequences s.toList).map ofList

theorem mem_subsets {s t : SortedSet α} (h : ∀ a, a ∈ t → a ∈ s) : t ∈ s.subsets :=
  List.mem_map.2 ⟨t.toList,
    mem_subsequences_of_sublist (sublist_of_subset t.sorted s.sorted fun a => h a),
    ofList_toList t⟩

end Acceptor.SortedSet
