import Mathlib.Data.List.Basic
import Acceptor.Search

/-!
# The order of a search

What a search finds is in the order in which the successors of what it finds come up first
(`search_eq_unseen`): a search is a fixed point, and the element that is expanded next is
always known already. So every element but the seeds is a successor of an earlier one
(`exists_earlier_of_search_eq`).
-/

namespace Acceptor

variable {α : Type} [DecidableEq α]

theorem unseen_append (seen l l' : List α) :
    unseen seen (l ++ l') = unseen seen l ++ unseen (seen ++ l) l' := by
  induction l generalizing seen with
  | nil => rw [List.nil_append, List.append_nil, unseen, List.nil_append]
  | cons x l ih =>
    by_cases hx : x ∈ seen
    · have hknown : ∀ y, y ∈ seen ++ l ↔ y ∈ seen ++ x :: l := by
        intro y
        simp only [List.mem_append, List.mem_cons]
        constructor
        · exact Or.imp_right .inr
        · rintro (h | rfl | h)
          · exact .inl h
          · exact .inl hx
          · exact .inr h
      rw [List.cons_append, unseen, unseen, if_pos hx, if_pos hx, ih, unseen_congr hknown]
    · have hknown : ∀ y, y ∈ x :: seen ++ l ↔ y ∈ seen ++ x :: l := by
        intro y
        simp only [List.mem_append, List.mem_cons, or_assoc, or_left_comm]
      rw [List.cons_append, unseen, unseen, if_neg hx, if_neg hx, ih, unseen_congr hknown,
        List.cons_append]

variable {next : α → List α} {finite : FinitelyMany next} {seeds : List α}

theorem expand_eq_unseen {done waiting : List α}
    (h : done ++ waiting = unseen [] (seeds ++ done.flatMap next)) :
    expand next finite done waiting =
      unseen [] (seeds ++ (expand next finite done waiting).flatMap next) := by
  fun_induction expand next finite done waiting with
  | case1 done => rwa [List.append_nil] at h
  | case2 done x waiting ih =>
    have hseen : unseen (done ++ x :: waiting) (next x) =
        unseen ([] ++ (seeds ++ done.flatMap next)) (next x) := by
      refine unseen_congr (fun y => ?_) _
      rw [h, mem_unseen, List.nil_append]
      exact and_iff_left List.not_mem_nil
    apply ih
    rw [expanded_append, hseen, h, ← unseen_append, List.flatMap_append, List.flatMap_singleton,
      List.append_assoc]

/-- The search finds the seeds and the successors of what it finds, each at its first
place. -/
theorem search_eq_unseen :
    search next finite seeds = unseen [] (seeds ++ (search next finite seeds).flatMap next) := by
  refine expand_eq_unseen ?_
  rw [List.flatMap_nil, List.append_nil, List.nil_append]

theorem exists_earlier_of_expand_eq {done waiting : List α}
    (hknown : ∀ l x r, done ++ waiting = l ++ x :: r → x ∈ seeds ∨ ∃ z ∈ l, x ∈ next z)
    {l : List α} {x : α} {r : List α} (h : expand next finite done waiting = l ++ x :: r) :
    x ∈ seeds ∨ ∃ z ∈ l, x ∈ next z := by
  fun_induction expand next finite done waiting with
  | case1 done => exact hknown l x r (by rw [List.append_nil, h])
  | case2 done z waiting ih =>
    refine ih (fun l x r heq => ?_) h
    rw [expanded_append] at heq
    rcases List.append_eq_append_iff.1 heq with ⟨l', rfl, hnew⟩ | ⟨l', hold, hrest⟩
    -- `x` is one of the new elements, so its predecessor `z` has been known before it
    · have hx : x ∈ unseen (done ++ z :: waiting) (next z) := by simp [hnew]
      exact .inr ⟨z, by simp, (mem_unseen.1 hx).1⟩
    · cases l' with
      | nil =>
        have hx : x ∈ unseen (done ++ z :: waiting) (next z) := by
          rw [List.nil_append] at hrest
          simp [← hrest]
        rw [List.append_nil] at hold
        exact .inr ⟨z, by simp [← hold], (mem_unseen.1 hx).1⟩
      | cons y l' =>
        obtain ⟨rfl, _⟩ := List.cons_eq_cons.1 hrest
        exact hknown l x l' hold

/-- All that is found and is not a seed is a successor of something found earlier. -/
theorem exists_earlier_of_search_eq {l : List α} {x : α} {r : List α}
    (h : search next finite seeds = l ++ x :: r) : x ∈ seeds ∨ ∃ z ∈ l, x ∈ next z := by
  refine exists_earlier_of_expand_eq (fun l x r heq => .inl ?_) h
  have hx : x ∈ unseen [] seeds := by
    rw [List.nil_append] at heq
    simp [heq]
  exact (mem_unseen.1 hx).1

end Acceptor
