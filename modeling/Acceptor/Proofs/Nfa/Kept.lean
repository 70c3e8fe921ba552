import Acceptor.Proofs.Nfa.Recognized

/-!
# Kept states and paths

A running automaton follows free moves late: the states it keeps after a symbol need not
be closed, and they are closed when the next symbol is read or somebody looks. The word
that is left decides together with the states where this leads, so the invariant is about
both (`exists_mem_kept_path_iff`): a path that spells `w ++ v` from the states at the
beginning is a path that spells `v` from the kept states. What is current are then the
ends of the paths that spell what was read.
-/

namespace Acceptor.Nfa

variable {σ α : Type} [Ordered σ] [DecidableEq α] {m : Nfa σ α} {S : SortedSet σ}

/-- The states kept after a symbol are where the rules for that symbol lead after free
moves. -/
theorem mem_read {a : α} {r : σ} :
    r ∈ m.read S a ↔ ∃ s q, s ∈ S ∧ m.toDiagram.Path s [] q ∧ ⟨q, some a, r⟩ ∈ m.rules := by
  simp only [read, mem_next, mem_closure_iff_path]
  constructor
  · intro hmove
    obtain ⟨q, ⟨s, hs, hfree⟩, hrule⟩ := hmove
    exact ⟨s, q, hs, hfree, hrule⟩
  · intro hpath
    obtain ⟨s, q, hs, hfree, hrule⟩ := hpath
    exact ⟨q, ⟨s, hs, hfree⟩, hrule⟩

/-- Reading one symbol takes it off the paths that are still to be followed. -/
theorem exists_mem_read_path_iff {a : α} {v : List α} {t : σ} :
    (∃ r, r ∈ m.read S a ∧ m.toDiagram.Path r v t) ↔
      ∃ s, s ∈ S ∧ m.toDiagram.Path s (a :: v) t := by
  constructor
  · intro hafter
    obtain ⟨r, hr, hrest⟩ := hafter
    obtain ⟨s, q, hs, hfree, hrule⟩ := mem_read.1 hr
    exact ⟨s, hs, hfree.append (.read hrule hrest)⟩
  · intro hbefore
    obtain ⟨s, hs, hpath⟩ := hbefore
    obtain ⟨p, hfirst, hrest⟩ := (Diagram.path_append (u := [a])).1 hpath
    obtain ⟨q, r, hfree, hrule, hfree'⟩ := Diagram.path_singleton.1 hfirst
    exact ⟨r, mem_read.2 ⟨s, q, hs, hfree, hrule⟩, hfree'.append hrest⟩

/-- Reading a word takes it off the paths that are still to be followed. -/
theorem exists_mem_kept_path_iff {w v : List α} {t : σ} :
    (∃ r, r ∈ m.kept S w ∧ m.toDiagram.Path r v t) ↔
      ∃ s, s ∈ S ∧ m.toDiagram.Path s (w ++ v) t := by
  induction w generalizing S with
  | nil => rfl
  | cons a w ih => rw [kept_cons, ih, exists_mem_read_path_iff, List.cons_append]

theorem mem_closure_kept {w : List α} {t : σ} :
    t ∈ m.closure (m.kept S w) ↔ ∃ s, s ∈ S ∧ m.toDiagram.Path s w t := by
  rw [mem_closure_iff_path, exists_mem_kept_path_iff, List.append_nil]

/-- Following free moves late or at once makes no difference to who looks. -/
theorem closure_kept (m : Nfa σ α) (S : SortedSet σ) (w : List α) :
    m.closure (m.kept S w) = m.run S w :=
  SortedSet.ext fun _ => mem_closure_kept.trans mem_run.symm

theorem accepting_kept_iff {w : List α} :
    m.accepting (m.kept S w) = true ↔
      ∃ t s, t ∈ m.accept ∧ s ∈ S ∧ m.toDiagram.Path s w t := by
  rw [accepting, SortedSet.meets_iff]
  simp only [mem_closure_kept]
  constructor
  · intro hmeets
    obtain ⟨t, ⟨s, hs, hpath⟩, ht⟩ := hmeets
    exact ⟨t, s, ht, hs, hpath⟩
  · intro hpath
    obtain ⟨t, s, ht, hs, hpath⟩ := hpath
    exact ⟨t, ⟨s, hs, hpath⟩, ht⟩

/-- An automaton that was started in any states and has read a word is in the states to
which some path spells the word, and it accepts if one of them is an accept state. Hence
a word is accepted if and only if it is spelled by a path from the start state to an
accept state. -/
theorem current_states_iff_path (m : Nfa σ α) (S : SortedSet σ) (w : List α) :
    m.closure (m.kept S w) = m.run S w ∧
      (∀ t, t ∈ m.closure (m.kept S w) ↔ ∃ s, s ∈ S ∧ m.toDiagram.Path s w t) ∧
      (m.accepting (m.kept S w) = true ↔
        ∃ t s, t ∈ m.accept ∧ s ∈ S ∧ m.toDiagram.Path s w t) ∧
      (m.accepts w = m.accepting (m.kept (.singleton m.start) w)) ∧
      (m.accepts w = true ↔ ∃ t, t ∈ m.accept ∧ m.toDiagram.Path m.start w t) := by
  have hstart : m.accepts w = m.accepting (m.kept (.singleton m.start) w) := by
    have hclosed : m.closure (m.run (.singleton m.start) w) = m.run (.singleton m.start) w :=
      SortedSet.ext fun _ => mem_closure_run
    rw [accepts, accepting, accepting, hclosed, closure_kept]
  exact ⟨closure_kept m S w, fun _ => mem_closure_kept, accepting_kept_iff, hstart,
    accepts_iff_recognizes⟩

end Acceptor.Nfa
