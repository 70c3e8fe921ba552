import Mathlib.Logic.Relation
import Acceptor.Pattern.Traversal
import Acceptor.Proofs.Pattern.Freshness

/-!
# What the loop assembles

Entering a pattern comes to the rest of the list with one more automaton, the one that recursion
gives for the vertices that are left (`Traversal.comesTo_enter`). This holds before any rest and on
any finished automata, so it holds for every part of a pattern wherever it stands, and the loop
assembles what recursion assembles. That no automaton is missing when a node is left is read off
the list alone: it tells how many are finished at each of its places (`Traversal.Fits`).
-/

namespace Acceptor

variable {α : Type}

namespace Traversal

/-- The loop comes from one walk to another in some number of rounds. -/
def ComesTo (t u : Traversal α) : Prop :=
  Relation.ReflTransGen (fun t u => t.next? = some u) t u

variable {t u : Traversal α}

theorem run_eq_of_next?_eq_none (h : t.next? = none) : t.run = t.assembly := by
  rw [run]
  split
  · rfl
  · rename_i hnext
    cases hnext.symm.trans h

theorem run_eq_of_next? (h : t.next? = some u) : t.run = u.run := by
  rw [run]
  split
  · rename_i hnone
    cases hnone.symm.trans h
  · rename_i next hnext
    cases hnext.symm.trans h
    rfl

theorem run_eq_of_comesTo (h : t.ComesTo u) : t.run = u.run := by
  induction h with
  | refl => rfl
  | tail _ hlast ih => rw [ih, run_eq_of_next? hlast]

theorem comesTo_parts (p : Pattern α) (tasks : List (Task α)) (w : Assembly α) :
    ComesTo ⟨.enter p :: tasks, w⟩ ⟨p.parts.map .enter ++ .leave p :: tasks, w⟩ :=
  .single rfl

theorem comesTo_leave (p : Pattern α) (tasks : List (Task α)) (w : Assembly α) :
    ComesTo ⟨.leave p :: tasks, w⟩ ⟨tasks, w.add p.top⟩ :=
  .single rfl

/-- Entering a pattern comes to one more automaton, whatever is left to do afterwards and
whatever was finished before. -/
theorem comesTo_enter (p : Pattern α) (tasks : List (Task α)) (w : Assembly α) :
    ComesTo ⟨.enter p :: tasks, w⟩
      ⟨tasks, ⟨(p.assemble w.supply).2, (p.assemble w.supply).1 :: w.parts⟩⟩ := by
  induction p generalizing tasks w with
  | empty => exact (comesTo_parts _ _ _).trans (comesTo_leave _ _ _)
  | literal a => exact (comesTo_parts _ _ _).trans (comesTo_leave _ _ _)
  | concat p q ihp ihq =>
    exact (comesTo_parts _ _ _).trans ((ihp _ _).trans ((ihq _ _).trans (comesTo_leave _ _ _)))
  | choice p q ihp ihq =>
    exact (comesTo_parts _ _ _).trans ((ihp _ _).trans ((ihq _ _).trans (comesTo_leave _ _ _)))
  | star p ih => exact (comesTo_parts _ _ _).trans ((ih _ _).trans (comesTo_leave _ _ _))

theorem run_start (p : Pattern α) :
    (start p).run = ⟨(p.assemble {}).2, [(p.assemble {}).1]⟩ :=
  (run_eq_of_comesTo (comesTo_enter p [] {})).trans (run_eq_of_next?_eq_none rfl)

/-- With `n` automata finished no task of the list will miss one, and one is left in the end. -/
def Fits : List (Task α) → Nat → Prop
  | [], n => n = 1
  | .enter _ :: tasks, n => Fits tasks (n + 1)
  | .leave p :: tasks, n => p.parts.length ≤ n ∧ Fits tasks (n - p.parts.length + 1)

theorem fits_enter_append (l : List (Pattern α)) (tasks : List (Task α)) (n : Nat) :
    Fits (l.map .enter ++ tasks) n ↔ Fits tasks (n + l.length) := by
  induction l generalizing n with
  | nil => rfl
  | cons p l ih =>
    rw [List.map_cons, List.cons_append, Fits, ih, List.length_cons, Nat.add_right_comm,
      Nat.add_assoc]

/-- A node takes as many automata as it has parts and gives one. -/
theorem length_parts_add {w : Assembly α} {p : Pattern α} (h : p.parts.length ≤ w.parts.length) :
    (w.add p.top).parts.length = w.parts.length - p.parts.length + 1 := by
  obtain ⟨supply, parts⟩ := w
  cases p with
  | empty => rfl
  | literal a => rfl
  | concat p q =>
    match parts, h with
    | _ :: _ :: _, _ => rfl
  | choice p q =>
    match parts, h with
    | _ :: _ :: _, _ => rfl
  | star p =>
    match parts, h with
    | _ :: _, _ => rfl

theorem fits_of_next? (h : t.next? = some u) (hfits : Fits t.tasks t.assembly.parts.length) :
    Fits u.tasks u.assembly.parts.length := by
  obtain ⟨tasks, w⟩ := t
  cases tasks with
  | nil => cases h
  | cons task tasks =>
    cases task with
    | enter p =>
      cases h
      refine (fits_enter_append p.parts _ _).2 ⟨Nat.le_add_left _ _, ?_⟩
      rw [Nat.add_sub_cancel]
      exact hfits
    | leave p =>
      cases h
      obtain ⟨hparts, hrest⟩ := hfits
      rw [length_parts_add hparts]
      exact hrest

theorem fits_of_comesTo {p : Pattern α} (h : (start p).ComesTo t) :
    Fits t.tasks t.assembly.parts.length := by
  induction h with
  | refl => rfl
  | tail _ hlast ih => exact fits_of_next? hlast ih

end Traversal

namespace Pattern

/-- While `p` is assembled with the vertices of `s`, its part `q` is assembled with those of the
given supply. The first part of a pattern gets the vertices that the pattern gets, and the second
part those that the first one leaves. -/
inductive Occurs (p : Pattern α) (s : Supply) : Pattern α → Supply → Prop
  | whole : p.Occurs s p s
  | first {q r : Pattern α} {rest : List (Pattern α)} {t : Supply} (hq : p.Occurs s q t)
      (hparts : q.parts = r :: rest) : p.Occurs s r t
  | second {q r r' : Pattern α} {t : Supply} (hq : p.Occurs s q t) (hparts : q.parts = [r, r']) :
      p.Occurs s r' (r.assemble t).2

variable {p q r : Pattern α} {s t u : Supply}

theorem Occurs.trans (hq : p.Occurs s q t) (hr : q.Occurs t r u) : p.Occurs s r u := by
  induction hr with
  | whole => exact hq
  | first _ hparts ih => exact ih.first hparts
  | second _ hparts ih => exact ih.second hparts

theorem exists_occurs_of_parts {r' : Pattern α} (hparts : p.parts = [r, r'])
    (h : (∃ t, r.Occurs s q t) ∨ ∃ t, r'.Occurs (r.assemble s).2 q t) : ∃ t, p.Occurs s q t := by
  rcases h with ⟨t, ht⟩ | ⟨t, ht⟩
  · exact ⟨t, (Occurs.first .whole hparts).trans ht⟩
  · exact ⟨t, (Occurs.second .whole hparts).trans ht⟩

theorem exists_occurs (hq : q ∈ p.subpatterns) (s : Supply) : ∃ t, p.Occurs s q t := by
  induction p generalizing s with
  | empty =>
    obtain rfl := List.mem_singleton.1 hq
    exact ⟨s, .whole⟩
  | literal a =>
    obtain rfl := List.mem_singleton.1 hq
    exact ⟨s, .whole⟩
  | concat p p' ih ih' =>
    rcases List.mem_cons.1 hq with rfl | hq
    · exact ⟨s, .whole⟩
    · exact exists_occurs_of_parts rfl ((List.mem_append.1 hq).imp (ih · s) (ih' · _))
  | choice p p' ih ih' =>
    rcases List.mem_cons.1 hq with rfl | hq
    · exact ⟨s, .whole⟩
    · exact exists_occurs_of_parts rfl ((List.mem_append.1 hq).imp (ih · s) (ih' · _))
  | star p ih =>
    rcases List.mem_cons.1 hq with rfl | hq
    · exact ⟨s, .whole⟩
    · obtain ⟨t, ht⟩ := ih hq s
      exact ⟨t, (Occurs.first .whole rfl).trans ht⟩

open Traversal

/-- The loop enters every part of a pattern, with the vertices that it is to get. -/
theorem Occurs.exists_comesTo (h : p.Occurs s q t) (tasks : List (Task α)) (w : Assembly α)
    (hw : w.supply = s) :
    ∃ later v, ComesTo ⟨.enter p :: tasks, w⟩ ⟨.enter q :: later, v⟩ ∧ v.supply = t := by
  induction h with
  | whole => exact ⟨tasks, w, .refl, hw⟩
  | @first q r rest t _ hparts ih =>
    obtain ⟨later, v, hq, hv⟩ := ih
    have hr := comesTo_parts q later v
    rw [hparts] at hr
    exact ⟨_, v, hq.trans hr, hv⟩
  | @second q r r' t _ hparts ih =>
    obtain ⟨later, v, hq, hv⟩ := ih
    have hr := comesTo_parts q later v
    rw [hparts] at hr
    subst hv
    exact ⟨_, _, hq.trans (hr.trans (comesTo_enter r _ v)), rfl⟩

theorem assembled_eq (p : Pattern α) : p.assembled = (p.assemble {}).1 := by
  rw [assembled, run_start]
  rfl

/-- The loop assembles what recursion over the pattern assembles. On the way no automaton is ever
missing, and in the end there is exactly one. Every part of the pattern gets one block of vertices,
from those that are left when it is entered to those that are left when its automaton is finished,
and its states are all of them; the blocks of two parts of one node have nothing in common. So the
states of the whole are the first vertices, as many as the nodes of the pattern ask for. No rule
enters the start state and no rule is there twice. -/
theorem assembled_in_blocks (p : Pattern α) :
    let m := p.assembled
    let n := p.subpatterns.countP (· matches .empty) +
      2 * p.subpatterns.countP (· matches .literal _) +
      p.subpatterns.countP (· matches .choice _ _) + p.subpatterns.countP (· matches .star _)
    m = (p.assemble {}).1 ∧ m = p.toNfa ∧ (start p).run = ⟨⟨n⟩, [m]⟩ ∧
    (∀ t q tasks, (start p).ComesTo t → t.tasks = .leave q :: tasks →
      q.parts.length ≤ t.assembly.parts.length) ∧
    (∀ q ∈ p.subpatterns, ∃ s, p.Occurs {} q s) ∧
    (∀ q s, p.Occurs {} q s →
      (∃ tasks w, w.supply = s ∧ (start p).ComesTo ⟨.enter q :: tasks, w⟩ ∧
        ComesTo ⟨.enter q :: tasks, w⟩
          ⟨tasks, ⟨(q.assemble s).2, (q.assemble s).1 :: w.parts⟩⟩) ∧
      (∀ v, v ∈ (q.assemble s).1.states ↔
        s.used ≤ v.index ∧ v.index < (q.assemble s).2.used) ∧
      ∀ r r', q.parts = [r, r'] → ∀ v ∈ (r.assemble s).1.states,
        v ∉ (r'.assemble (r.assemble s).2).1.states) ∧
    (∀ v, v ∈ m.states ↔ v.index < n) ∧
    (∀ rule ∈ m.rules, rule.target ≠ m.start) ∧ m.rules.Nodup := by
  intro m n
  have hn : p.vertexCount = n := p.vertexCount_eq
  have hm : m = (p.assemble {}).1 := p.assembled_eq
  have hsupply : (p.assemble {}).2 = ⟨n⟩ := by
    rw [← hn, ← Nat.zero_add p.vertexCount]
    exact congrArg Supply.mk (p.used_assemble {})
  refine ⟨hm, hm.trans p.toNfa_eq.symm, ?_, ?_, fun q hq => exists_occurs hq {}, ?_, ?_, ?_, ?_⟩
  · rw [run_start, hm, hsupply]
  · intro t q tasks ht htasks
    have hfits := fits_of_comesTo ht
    rw [htasks] at hfits
    exact hfits.1
  · intro q s hq
    obtain ⟨tasks, w, hcomes, rfl⟩ := hq.exists_comesTo [] {} rfl
    refine ⟨⟨tasks, w, rfl, hcomes, comesTo_enter q tasks w⟩, fun v => ?_, fun r r' _ => ?_⟩
    · rw [used_assemble]
      exact q.mem_states_assemble_iff w.supply
    · exact not_mem_states_assemble r r' w.supply
  · intro v
    rw [hm, mem_states_assemble_iff, hn, Nat.zero_add]
    exact and_iff_right (Nat.zero_le _)
  · rw [hm]
    exact p.target_ne_start_assemble {}
  · rw [hm]
    exact p.nodup_rules_assemble {}

end Pattern

end Acceptor
