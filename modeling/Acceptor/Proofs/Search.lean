import Mathlib.Data.Set.Function
import Acceptor.Search

/-!
# Searching under other names

A search never looks at what its elements are, only at which of them are equal. So if the
elements get other names, different ones for different elements, the search finds the
renamed elements in the same order (`search_map`). Only elements that can come up have to
be told apart: those of a set that holds the seeds and is closed under steps.
-/

namespace Acceptor

variable {α β : Type} {f : α → β} {inside : Set α}

theorem mem_map_iff_of_injOn (hf : Set.InjOn f inside) {l : List α} (hl : ∀ x ∈ l, x ∈ inside)
    {x : α} (hx : x ∈ inside) : f x ∈ l.map f ↔ x ∈ l := by
  constructor
  · intro hmem
    obtain ⟨y, hy, heq⟩ := List.mem_map.1 hmem
    rwa [← hf (hl y hy) hx heq]
  · exact List.mem_map_of_mem

variable [DecidableEq α] [DecidableEq β]

theorem unseen_map (hf : Set.InjOn f inside) {seen l : List α}
    (hseen : ∀ x ∈ seen, x ∈ inside) (hl : ∀ x ∈ l, x ∈ inside) :
    unseen (seen.map f) (l.map f) = (unseen seen l).map f := by
  induction l generalizing seen with
  | nil => rfl
  | cons y l ih =>
    obtain ⟨hy, hl⟩ := List.forall_mem_cons.1 hl
    rw [List.map_cons, unseen, unseen]
    by_cases hknown : y ∈ seen
    · rw [if_pos hknown, if_pos ((mem_map_iff_of_injOn hf hseen hy).2 hknown), ih hseen hl]
    · rw [if_neg hknown, if_neg (mt (mem_map_iff_of_injOn hf hseen hy).1 hknown),
        ← List.map_cons, ih (List.forall_mem_cons.2 ⟨hy, hseen⟩) hl, List.map_cons]

variable {next : α → List α} {finite : FinitelyMany next} {next' : β → List β}
  {finite' : FinitelyMany next'}

theorem expand_map (hf : Set.InjOn f inside)
    (hclosed : ∀ x ∈ inside, ∀ y ∈ next x, y ∈ inside)
    (hnext : ∀ x ∈ inside, next' (f x) = (next x).map f) {done waiting : List α}
    (hinside : ∀ x ∈ done ++ waiting, x ∈ inside) :
    expand next' finite' (done.map f) (waiting.map f) =
      (expand next finite done waiting).map f := by
  fun_induction expand next finite done waiting with
  | case1 done => exact expand_nil _
  | case2 done x waiting ih =>
    have hx : x ∈ inside := hinside x (by simp)
    have hnew : unseen (done.map f ++ f x :: waiting.map f) (next' (f x)) =
        (unseen (done ++ x :: waiting) (next x)).map f := by
      rw [hnext x hx, ← unseen_map hf hinside (hclosed x hx), List.map_append, List.map_cons]
    have hinside' : ∀ y ∈ done ++ [x] ++ (waiting ++ unseen (done ++ x :: waiting) (next x)),
        y ∈ inside := by
      intro y hy
      rw [expanded_append] at hy
      rcases List.mem_append.1 hy with hy | hy
      · exact hinside y hy
      · exact hclosed x hx y (mem_unseen.1 hy).1
    have hloop := ih hinside'
    rw [List.map_append, List.map_append] at hloop
    rw [List.map_cons, expand_cons, hnew]
    exact hloop

/-- The search finds the same under other names, in the same order. -/
theorem search_map (hf : Set.InjOn f inside)
    (hclosed : ∀ x ∈ inside, ∀ y ∈ next x, y ∈ inside)
    (hnext : ∀ x ∈ inside, next' (f x) = (next x).map f) {seeds : List α}
    (hseeds : ∀ x ∈ seeds, x ∈ inside) :
    search next' finite' (seeds.map f) = (search next finite seeds).map f := by
  have hunseen : unseen ([].map f) (seeds.map f) = (unseen [] seeds).map f :=
    unseen_map hf (by simp) hseeds
  have hinside : ∀ x ∈ [] ++ unseen [] seeds, x ∈ inside := by
    intro x hx
    exact hseeds x (mem_unseen.1 hx).1
  have hloop : expand next' finite' ([].map f) ((unseen [] seeds).map f) =
      (expand next finite [] (unseen [] seeds)).map f :=
    expand_map hf hclosed hnext hinside
  rw [List.map_nil] at hunseen hloop
  rw [search, search, hunseen, hloop]

end Acceptor
