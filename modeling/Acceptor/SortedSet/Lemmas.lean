import Acceptor.SortedSet.Basic

/-!
# Members of sorted sets

One lemma per operation on what it does to membership, and extensionality: a
sorted set is determined by its members.
-/

namespace Acceptor.SortedSet

variable {α : Type} [Ordered α]

theorem mem_toList {a : α} {s : SortedSet α} : a ∈ s.toList ↔ a ∈ s := .rfl

@[simp] theorem not_mem_empty (a : α) : ¬ a ∈ (empty : SortedSet α) :=
  List.not_mem_nil

@[simp] theorem mem_insert {a x : α} {s : SortedSet α} : x ∈ insert a s ↔ x = a ∨ x ∈ s :=
  mem_place

@[simp] theorem mem_ofList {a : α} {l : List α} : a ∈ ofList l ↔ a ∈ l := by
  induction l with
  | nil => simp [ofList]
  | cons b l ih =>
    rw [List.mem_cons, ← ih]
    exact mem_insert

@[simp] theorem mem_singleton {a x : α} : x ∈ singleton a ↔ x = a :=
  List.mem_singleton

@[simp] theorem mem_filter {a : α} {p : α → Bool} {s : SortedSet α} :
    a ∈ s.filter p ↔ a ∈ s ∧ p a :=
  List.mem_filter

@[simp] theorem mem_union {a : α} {s t : SortedSet α} : a ∈ s.union t ↔ a ∈ s ∨ a ∈ t := by
  have key : ∀ l : List α, a ∈ l.foldr insert s ↔ a ∈ s ∨ a ∈ l := by
    intro l
    induction l with
    | nil => simp
    | cons b l ih =>
      rw [List.foldr_cons, mem_insert, ih, List.mem_cons]
      constructor
      · rintro (h | h | h) <;> simp [h]
      · rintro (h | h | h) <;> simp [h]
  exact key t.toList

theorem meets_iff {s t : SortedSet α} : s.meets t ↔ ∃ a, a ∈ s ∧ a ∈ t := by
  simp [meets, mem_toList]

theorem nodup_toList (s : SortedSet α) : s.toList.Nodup := by
  refine s.sorted.imp fun h hab => ?_
  subst hab
  rw [Std.ReflOrd.compare_self] at h
  exact absurd h (by decide)

/-- An increasing list whose members all occur in another one is a sublist of it. -/
theorem sublist_of_subset {l m : List α} (hl : l.Pairwise fun a b => compare a b = .lt)
    (hm : m.Pairwise fun a b => compare a b = .lt) (h : l ⊆ m) : List.Sublist l m := by
  induction m generalizing l with
  | nil =>
    obtain rfl := List.subset_nil.1 h
    exact .slnil
  | cons b m ih =>
    obtain ⟨hb, hm'⟩ := List.pairwise_cons.1 hm
    cases l with
    | nil => exact List.nil_sublist _
    | cons a l =>
      obtain ⟨ha, hl'⟩ := List.pairwise_cons.1 hl
      rcases List.mem_cons.1 (h List.mem_cons_self) with rfl | ham
      · refine .cons_cons _ (ih hl' hm' fun x hx => ?_)
        rcases List.mem_cons.1 (h (List.mem_cons_of_mem _ hx)) with rfl | hxm
        · have := ha x hx
          rw [Std.ReflOrd.compare_self] at this
          exact absurd this (by decide)
        · exact hxm
      · refine .cons _ (ih hl hm' fun x hx => ?_)
        rcases List.mem_cons.1 (h hx) with rfl | hxm
        · rcases List.mem_cons.1 hx with rfl | hxl
          · exact ham
          · exact absurd (ha x hxl) (Std.OrientedCmp.not_lt_of_lt (hb a ham))
        · exact hxm

theorem size_le_one {s : SortedSet α} {a : α} (h : ∀ b, b ∈ s → b = a) : s.size ≤ 1 :=
  (sublist_of_subset s.sorted (singleton a).sorted fun b hb => mem_singleton.2 (h b hb)).length_le

/-- Sets with the same members are equal. -/
theorem ext {s t : SortedSet α} (h : ∀ a, a ∈ s ↔ a ∈ t) : s = t :=
  have hst := sublist_of_subset s.sorted t.sorted fun a => (h a).1
  have hts := sublist_of_subset t.sorted s.sorted fun a => (h a).2
  toList_injective s t (hst.eq_of_length_le hts.length_le)

@[simp] theorem ofList_toList (s : SortedSet α) : ofList s.toList = s :=
  ext fun _ => mem_ofList

end Acceptor.SortedSet
