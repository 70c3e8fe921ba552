import Mathlib.Data.Set.Function
import Acceptor.SortedSet.Lemmas

/-!
# Images of sorted sets

The image of a set under a function, put in order again. A function that tells the
members of `s` apart tells subsets of `s` apart, and whether two of them meet.
-/

namespace Acceptor.SortedSet

variable {α β : Type} [Ordered α] [Ordered β] {f : α → β} {inside : Set α}

def image (f : α → β) (s : SortedSet α) : SortedSet β := .ofList (s.toList.map f)

@[simp] theorem mem_image {s : SortedSet α} {b : β} : b ∈ s.image f ↔ ∃ a, a ∈ s ∧ f a = b := by
  rw [image, mem_ofList, List.mem_map]
  rfl

@[simp] theorem image_singleton (a : α) : (singleton a).image f = singleton (f a) := by
  refine ext fun b => ?_
  simp [eq_comm]

theorem mem_image_of_injOn (hf : Set.InjOn f inside) {s : SortedSet α}
    (hs : ∀ a, a ∈ s → a ∈ inside) {a : α} (ha : a ∈ inside) : f a ∈ s.image f ↔ a ∈ s := by
  rw [mem_image]
  constructor
  · intro himage
    obtain ⟨b, hb, heq⟩ := himage
    rwa [← hf (hs b hb) ha heq]
  · intro hmem
    exact ⟨a, hmem, rfl⟩

theorem injOn_image (hf : Set.InjOn f inside) :
    Set.InjOn (image f) {s | ∀ a, a ∈ s → a ∈ inside} := by
  intro s hs t ht heq
  refine ext fun a => ?_
  by_cases ha : a ∈ inside
  · rw [← mem_image_of_injOn hf hs ha, heq, mem_image_of_injOn hf ht ha]
  · exact iff_of_false (mt (hs a) ha) (mt (ht a) ha)

theorem meets_image (hf : Set.InjOn f inside) {s t : SortedSet α}
    (hs : ∀ a, a ∈ s → a ∈ inside) (ht : ∀ a, a ∈ t → a ∈ inside) :
    (s.image f).meets (t.image f) = s.meets t := by
  rw [Bool.eq_iff_iff, meets_iff, meets_iff]
  constructor
  · intro hmeets
    obtain ⟨b, hbs, hbt⟩ := hmeets
    obtain ⟨a, ha, rfl⟩ := mem_image.1 hbs
    exact ⟨a, ha, (mem_image_of_injOn hf ht (hs a ha)).1 hbt⟩
  · intro hmeets
    obtain ⟨a, has, hat⟩ := hmeets
    exact ⟨f a, mem_image.2 ⟨a, has, rfl⟩, mem_image.2 ⟨a, hat, rfl⟩⟩

end Acceptor.SortedSet
