/-!
# Breadth-first search

`search next finite seeds` lists what can be reached from `seeds` by steps of
`next`, each element once and in the order in which it is discovered. The
search needs no fuel: `finite` says that everything `next` ever yields lies in
some list, and each round either discovers a new element of that list or
shortens the queue. The list itself is never looked at, so a bound that would be
too large to build, such as all subsets of a set, serves as well.

`Reachable` is the relation that the search decides (`mem_search`).
-/

namespace Acceptor

variable {α : Type}

/-- What steps of `next` reach from `seeds`. -/
inductive Reachable (next : α → List α) (seeds : List α) : α → Prop
  | seed {x : α} : x ∈ seeds → Reachable next seeds x
  | step {x y : α} : Reachable next seeds x → y ∈ next x → Reachable next seeds y

/-- Some list holds every successor of every element. -/
abbrev FinitelyMany (next : α → List α) : Prop :=
  ∃ bound : List α, ∀ x, ∀ y ∈ next x, y ∈ bound

/-- When `x` is expanded it goes from the waiting elements to those that are done, and the
new ones join the end. -/
theorem expanded_append (done waiting new : List α) (x : α) :
    done ++ [x] ++ (waiting ++ new) = (done ++ x :: waiting) ++ new := by
  simp

variable [DecidableEq α]

/-- The elements of a list that are not in `seen`, each at its first place. -/
def unseen (seen : List α) : List α → List α
  | [] => []
  | x :: l => if x ∈ seen then unseen seen l else x :: unseen (x :: seen) l

theorem mem_unseen {seen l : List α} {x : α} : x ∈ unseen seen l ↔ x ∈ l ∧ x ∉ seen := by
  induction l generalizing seen with
  | nil => simp [unseen]
  | cons y l ih =>
    by_cases h : y ∈ seen
    · rw [unseen, if_pos h, ih, List.mem_cons]
      constructor
      · exact fun ⟨hl, hs⟩ => ⟨.inr hl, hs⟩
      · rintro ⟨rfl | hl, hs⟩
        · exact absurd h hs
        · exact ⟨hl, hs⟩
    · rw [unseen, if_neg h, List.mem_cons, ih, List.mem_cons, List.mem_cons, not_or]
      constructor
      · rintro (rfl | ⟨hl, _, hs⟩)
        · exact ⟨.inl rfl, h⟩
        · exact ⟨.inr hl, hs⟩
      · rintro ⟨rfl | hl, hs⟩
        · exact .inl rfl
        · by_cases hxy : x = y
          · exact .inl hxy
          · exact .inr ⟨hl, hxy, hs⟩

theorem mem_append_unseen {seen l : List α} {x : α} :
    x ∈ seen ++ unseen seen l ↔ x ∈ seen ∨ x ∈ l := by
  by_cases h : x ∈ seen
  · simp [h]
  · simp [mem_unseen, h]

theorem nodup_unseen (seen l : List α) : (unseen seen l).Nodup := by
  induction l generalizing seen with
  | nil => simp [unseen]
  | cons y l ih =>
    rw [unseen]
    split
    · exact ih seen
    · exact List.nodup_cons.2
        ⟨fun h => (mem_unseen.1 h).2 List.mem_cons_self, ih _⟩

/-- What is unseen depends on what was seen, not on how that is listed. -/
theorem unseen_congr {seen seen' : List α} (h : ∀ x, x ∈ seen ↔ x ∈ seen') (l : List α) :
    unseen seen l = unseen seen' l := by
  induction l generalizing seen seen' with
  | nil => rfl
  | cons y l ih =>
    have hy : ∀ x, x ∈ y :: seen ↔ x ∈ y :: seen' := by
      intro x
      rw [List.mem_cons, List.mem_cons, h]
    simp only [unseen, h y, ih h, ih hy]

theorem unseen_eq_self {seen l : List α} (hl : l.Nodup) (hseen : ∀ x ∈ l, x ∉ seen) :
    unseen seen l = l := by
  induction l generalizing seen with
  | nil => rfl
  | cons y l ih =>
    obtain ⟨hy, hl⟩ := List.nodup_cons.1 hl
    rw [unseen, if_neg (hseen y List.mem_cons_self), ih hl]
    intro x hx hmem
    rcases List.mem_cons.1 hmem with rfl | hmem
    · exact hy hx
    · exact hseen x (List.mem_cons_of_mem y hx) hmem

/-- The elements of `bound` that are still to be found. -/
def remaining (bound found : List α) : List α := bound.filter (· ∉ found)

theorem remaining_of_subset {bound found found' : List α} (h : found ⊆ found') :
    remaining bound found' = (remaining bound found).filter (· ∉ found') := by
  simp only [remaining, List.filter_filter]
  refine List.filter_congr fun x _ => ?_
  by_cases hx : x ∈ found'
  · simp [hx]
  · simp [hx, show x ∉ found from fun hf => hx (h hf)]

theorem length_remaining_le {bound found found' : List α} (h : found ⊆ found') :
    (remaining bound found').length ≤ (remaining bound found).length := by
  rw [remaining_of_subset h]
  exact List.filter_sublist.length_le

theorem length_remaining_lt {bound found found' : List α} {y : α} (h : found ⊆ found')
    (hy : y ∈ bound) (hold : y ∉ found) (hnew : y ∈ found') :
    (remaining bound found').length < (remaining bound found).length := by
  rw [remaining_of_subset h]
  refine List.length_filter_lt_length_iff_exists.2 ⟨y, ?_, by simp [hnew]⟩
  exact List.mem_filter.2 ⟨hy, by simp [hold]⟩

/-- Expands the queue: the first waiting element is done, and its successors that
are not known yet join the end. -/
def expand (next : α → List α) (finite : FinitelyMany next) (done : List α) :
    List α → List α
  | [] => done
  | x :: waiting =>
    expand next finite (done ++ [x]) (waiting ++ unseen (done ++ x :: waiting) (next x))
termination_by waiting => ((remaining finite.choose (done ++ waiting)).length, waiting.length)
decreasing_by
  have hsub : done ++ x :: waiting ⊆
      done ++ [x] ++ (waiting ++ unseen (done ++ x :: waiting) (next x)) := by
    intro z hz
    simp only [List.mem_append, List.mem_cons] at hz ⊢
    rcases hz with h | h | h <;> simp [h]
  cases hnew : unseen (done ++ x :: waiting) (next x) with
  | nil =>
    rw [hnew] at hsub
    rcases Nat.lt_or_eq_of_le (length_remaining_le hsub) with h | h
    · exact Prod.Lex.left _ _ h
    · rw [h]
      exact Prod.Lex.right _ (by simp)
  | cons y l =>
    have hy : y ∈ next x ∧ y ∉ done ++ x :: waiting := mem_unseen.1 (by simp [hnew])
    rw [hnew] at hsub
    exact Prod.Lex.left _ _
      (length_remaining_lt hsub (finite.choose_spec x y hy.1) hy.2 (by simp))

/-- What steps of `next` reach from `seeds`, in the order of discovery. -/
def search (next : α → List α) (finite : FinitelyMany next) (seeds : List α) : List α :=
  expand next finite [] (unseen [] seeds)

section expand

variable {next : α → List α} {finite : FinitelyMany next}

theorem expand_nil (done : List α) : expand next finite done [] = done := by
  rw [expand]

theorem expand_cons (done : List α) (x : α) (waiting : List α) :
    expand next finite done (x :: waiting) =
      expand next finite (done ++ [x])
        (waiting ++ unseen (done ++ x :: waiting) (next x)) := by
  rw [expand]

theorem subset_expand (done waiting : List α) :
    done ++ waiting ⊆ expand next finite done waiting := by
  fun_induction expand next finite done waiting with
  | case1 done => simp
  | case2 done x waiting ih =>
    intro z hz
    apply ih
    simp only [List.mem_append, List.mem_cons] at hz ⊢
    rcases hz with h | h | h <;> simp [h]

theorem nodup_expand {done waiting : List α} (h : (done ++ waiting).Nodup) :
    (expand next finite done waiting).Nodup := by
  fun_induction expand next finite done waiting with
  | case1 done => simpa using h
  | case2 done x waiting ih =>
    apply ih
    rw [expanded_append]
    refine List.nodup_append.2 ⟨h, nodup_unseen _ _, fun a ha b hb hab => ?_⟩
    exact (mem_unseen.1 hb).2 (hab ▸ ha)

theorem reachable_of_mem_expand {seeds done waiting : List α}
    (h : ∀ z ∈ done ++ waiting, Reachable next seeds z) {y : α}
    (hy : y ∈ expand next finite done waiting) : Reachable next seeds y := by
  fun_induction expand next finite done waiting with
  | case1 done => exact h y (by simpa using hy)
  | case2 done x waiting ih =>
    refine ih (fun z hz => ?_) hy
    rw [expanded_append] at hz
    rcases List.mem_append.1 hz with hz | hz
    · exact h z hz
    · exact .step (h x (by simp)) (mem_unseen.1 hz).1

/-- The result is closed under steps, if the elements done so far lead nowhere
unknown. -/
theorem expand_closed {done waiting : List α}
    (h : ∀ z ∈ done, ∀ y ∈ next z, y ∈ done ++ waiting) {x y : α}
    (hx : x ∈ expand next finite done waiting) (hy : y ∈ next x) :
    y ∈ expand next finite done waiting := by
  fun_induction expand next finite done waiting with
  | case1 done => simpa using h x hx y hy
  | case2 done z waiting ih =>
    refine ih (fun u hu v hv => ?_) hx
    rw [expanded_append]
    by_cases hknown : v ∈ done ++ z :: waiting
    · exact List.mem_append_left _ hknown
    · rcases List.mem_append.1 hu with hu | hu
      · exact absurd (h u hu v hv) hknown
      · rw [List.mem_singleton.1 hu] at hv
        exact List.mem_append_right _ (mem_unseen.2 ⟨hv, hknown⟩)

end expand

section search

variable {next : α → List α} {finite : FinitelyMany next} {seeds : List α}

/-- The search finds what is reachable and nothing else. -/
theorem mem_search {x : α} : x ∈ search next finite seeds ↔ Reachable next seeds x := by
  constructor
  · refine reachable_of_mem_expand fun z hz => .seed ?_
    rw [List.nil_append] at hz
    exact (mem_unseen.1 hz).1
  · intro h
    induction h with
    | seed hx =>
      exact subset_expand _ _ (by simpa using mem_unseen.2 ⟨hx, List.not_mem_nil⟩)
    | step _ hy ih => exact expand_closed (by simp) ih hy

theorem nodup_search : (search next finite seeds).Nodup :=
  nodup_expand (by simpa using nodup_unseen [] seeds)

end search

end Acceptor
