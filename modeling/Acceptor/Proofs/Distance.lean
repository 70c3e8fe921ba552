import Mathlib.Order.Bounds.Defs
import Mathlib.Order.WellFounded
import Acceptor.Proofs.SearchOrder

/-!
# Distances in a search

The distance of an element is the least number of steps that lead to it from a seed. What a
search finds is in the order of distances: an element that is nearer comes before an element
that is farther away (`idxOf_search_lt_of_atDistance`). This is the queue at work. The
successors of an element come up in the place of that element, so the order of one distance
is handed on to the next.
-/

namespace Acceptor

variable {α : Type}

/-- The given number of steps of `next` leads to the element from a seed. -/
inductive ReachableIn (next : α → List α) (seeds : List α) : Nat → α → Prop
  | seed {x : α} : x ∈ seeds → ReachableIn next seeds 0 x
  | step {n : Nat} {x y : α} :
      ReachableIn next seeds n x → y ∈ next x → ReachableIn next seeds (n + 1) y

/-- The given number of steps leads to the element, and no smaller number does. -/
def AtDistance (next : α → List α) (seeds : List α) (n : Nat) (x : α) : Prop :=
  IsLeast {k | ReachableIn next seeds k x} n

variable {next : α → List α} {seeds : List α} {x y : α} {a b n : Nat}

theorem reachable_iff_exists_reachableIn :
    Reachable next seeds x ↔ ∃ n, ReachableIn next seeds n x := by
  constructor
  · intro h
    induction h with
    | seed hx => exact ⟨0, .seed hx⟩
    | step _ hy ih =>
      obtain ⟨n, hn⟩ := ih
      exact ⟨n + 1, hn.step hy⟩
  · intro h
    obtain ⟨n, hn⟩ := h
    induction hn with
    | seed hx => exact .seed hx
    | step _ hy ih => exact ih.step hy

/-- What can be reached is at some distance. -/
theorem exists_atDistance_iff : (∃ n, AtDistance next seeds n x) ↔ Reachable next seeds x := by
  rw [reachable_iff_exists_reachableIn]
  constructor
  · intro h
    obtain ⟨n, hn⟩ := h
    exact ⟨n, hn.1⟩
  · intro h
    exact ⟨_, WellFounded.min_mem Nat.lt_wfRel.wf _ h,
      fun k hk => Nat.le_of_not_lt (WellFounded.not_lt_min Nat.lt_wfRel.wf _ hk)⟩

theorem AtDistance.reachable (h : AtDistance next seeds n x) : Reachable next seeds x :=
  exists_atDistance_iff.1 ⟨n, h⟩

/-- An element that is no seed is a successor of one that is nearer by one step. -/
theorem AtDistance.exists_pred (h : AtDistance next seeds (n + 1) x) :
    ∃ z, AtDistance next seeds n z ∧ x ∈ next z := by
  cases h.1 with
  | @step _ z _ hz hx =>
    refine ⟨z, ⟨hz, fun k hk => ?_⟩, hx⟩
    exact Nat.le_of_succ_le_succ (h.2 (ReachableIn.step hk hx))

/-- One step leads farther away by one at most. -/
theorem AtDistance.le_succ (hx : AtDistance next seeds a x) (hy : AtDistance next seeds b y)
    (hstep : y ∈ next x) : b ≤ a + 1 :=
  hy.2 (ReachableIn.step hx.1 hstep)

/-- A seed is at distance zero. -/
theorem AtDistance.not_mem_seeds (h : AtDistance next seeds n x) (hpos : 0 < n) : x ∉ seeds :=
  fun hx => Nat.not_le_of_lt hpos (h.2 (ReachableIn.seed hx))

section search

variable [DecidableEq α] {finite : FinitelyMany next}

theorem idxOf_lt_idxOf_of_append {l l' : List α} (hx : x ∈ l) (hy : y ∉ l) :
    (l ++ l').idxOf x < (l ++ l').idxOf y := by
  rw [List.idxOf_append_of_mem hx, List.idxOf_append_of_notMem hy]
  exact Nat.lt_of_lt_of_le (List.idxOf_lt_length_of_mem hx) (Nat.le_add_right _ _)

/-- New elements come up along the seeds and the successors of what is found. An element that
comes up before some place there is found before all that do not. -/
theorem idxOf_search_lt_of_cut {l l' : List α}
    (hcut : seeds ++ (search next finite seeds).flatMap next = l ++ l') (hx : x ∈ l)
    (hy : y ∉ l) : (search next finite seeds).idxOf x < (search next finite seeds).idxOf y := by
  have hsearch : search next finite seeds = unseen [] l ++ unseen l l' := by
    rw [search_eq_unseen, hcut, unseen_append, List.nil_append]
  rw [hsearch]
  refine idxOf_lt_idxOf_of_append ?_ fun hmem => hy (mem_unseen.1 hmem).1
  exact mem_unseen.2 ⟨hx, List.not_mem_nil⟩

/-- An element that is found after `z` is no element up to `z`. -/
theorem not_mem_of_idxOf_lt {l l' : List α} {z : α} (hl : (l ++ z :: l').Nodup)
    (hlt : (l ++ z :: l').idxOf z < (l ++ z :: l').idxOf x) : x ∉ l ++ [z] := by
  have hz : z ∉ l := fun hmem => (List.nodup_append.1 hl).2.2 z hmem z List.mem_cons_self rfl
  intro hx
  rcases List.mem_append.1 hx with hx | hx
  · exact Nat.lt_asymm hlt (idxOf_lt_idxOf_of_append hx hz)
  · rw [List.mem_singleton.1 hx] at hlt
    exact Nat.lt_irrefl _ hlt

/-- What is nearer is found earlier. -/
theorem idxOf_search_lt_of_atDistance (hx : AtDistance next seeds a x)
    (hy : AtDistance next seeds b y) (hlt : a < b) :
    (search next finite seeds).idxOf x < (search next finite seeds).idxOf y := by
  induction a generalizing b x y with
  | zero =>
    cases hx.1 with
    | seed hmem => exact idxOf_search_lt_of_cut rfl hmem (hy.not_mem_seeds hlt)
  | succ a ih =>
    -- `x` comes up at the latest when `z` is expanded. Whatever has `y` for a successor is
    -- farther away than `z`, so it is expanded later.
    obtain ⟨z, hz, hstep⟩ := hx.exists_pred
    have hmem : z ∈ search next finite seeds := mem_search.2 hz.reachable
    obtain ⟨l, l', hl⟩ := List.append_of_mem hmem
    have hcut : seeds ++ (search next finite seeds).flatMap next =
        (seeds ++ (l ++ [z]).flatMap next) ++ l'.flatMap next := by
      simp [hl]
    refine idxOf_search_lt_of_cut hcut ?_ fun hy' => ?_
    · exact List.mem_append_right _ (List.mem_flatMap.2 ⟨z, by simp, hstep⟩)
    · rcases List.mem_append.1 hy' with hmem | hmem
      · exact hy.not_mem_seeds (Nat.zero_lt_of_lt hlt) hmem
      · obtain ⟨u, hu, hnext⟩ := List.mem_flatMap.1 hmem
        have hfound : u ∈ search next finite seeds := by
          rw [hl, List.append_cons]
          exact List.mem_append_left _ hu
        obtain ⟨c, hc⟩ := exists_atDistance_iff.2 (mem_search.1 hfound)
        have hfar : a < c := by
          have hone := hc.le_succ hy hnext
          omega
        have hlater := ih hz hc hfar
        rw [hl] at hlater
        exact not_mem_of_idxOf_lt (hl ▸ nodup_search) hlater hu

end search

end Acceptor
