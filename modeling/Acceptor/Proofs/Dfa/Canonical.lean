import Acceptor.Proofs.Dfa.Counting
import Acceptor.Proofs.Dfa.Layout
import Acceptor.Proofs.Distance
import Acceptor.SortedSet.Image

/-!
# The numbered automaton as a canonical form

Changes of an automaton that leave what can be reached from the start as it is, up to the
names of the states, leave no trace in the numbered automaton (`Rearranged.number_eq`): other
names in any order, rules and accept states that come and go where nothing leads, another
order of the rules of different states. Each of these changes is a renaming in the sense of
`Renames`, and most of them keep the names. The numbers themselves say how far a state is
from the start: they grow with the distance.
-/

namespace Acceptor.Dfa

variable {σ τ α : Type} [Ordered σ] [Ordered τ]

/-- The automaton with other names for its states. -/
def mapStates (f : σ → τ) (m : Dfa σ α) : Dfa τ α where
  start := f m.start
  accept := m.accept.image f
  rules := m.rules.map (Rule.mapStates f)

/-- The automaton arises from `m` by changes that do not touch what can be reached, in any
number and order: the states get other names, rules and accept states that nothing leads to
are added or dropped, and rules change their places without overtaking a rule that leaves the
same state. -/
inductive Rearranged (m : Dfa σ α) : {τ : Type} → [Ordered τ] → Dfa τ α → Prop
  | refl : Rearranged m m
  | renamed {τ υ : Type} [Ordered τ] [Ordered υ] {n : Dfa τ α} {f : τ → υ} :
      Rearranged m n → Set.InjOn f {q | q ∈ n.states} → Rearranged m (n.mapStates f)
  | ruleAdded {τ : Type} [Ordered τ] {n : Dfa τ α} {before after : List (Rule τ α)}
      {rule : Rule τ α} : Rearranged m n → n.rules = before ++ after →
      ¬ n.Leads n.start rule.source →
      Rearranged m { n with rules := before ++ rule :: after }
  | ruleDropped {τ : Type} [Ordered τ] {n : Dfa τ α} {before after : List (Rule τ α)}
      {rule : Rule τ α} : Rearranged m n → n.rules = before ++ rule :: after →
      ¬ n.Leads n.start rule.source → Rearranged m { n with rules := before ++ after }
  | rulesMoved {τ : Type} [Ordered τ] {n : Dfa τ α} {rules : List (Rule τ α)} :
      Rearranged m n → rules.Perm n.rules →
      (∀ q, (rules.filter fun rule => rule.source = q) = n.rulesFrom q) →
      Rearranged m { n with rules := rules }
  | acceptAdded {τ : Type} [Ordered τ] {n : Dfa τ α} {q : τ} : Rearranged m n →
      ¬ n.Leads n.start q → Rearranged m { n with accept := n.accept.insert q }
  | acceptDropped {τ : Type} [Ordered τ] {n : Dfa τ α} {q : τ} : Rearranged m n →
      ¬ n.Leads n.start q → Rearranged m { n with accept := n.accept.filter (· ≠ q) }

section changes

variable {m n : Dfa σ α}

theorem mem_states_of_mem_reachable {q : σ} (hq : q ∈ m.reachable) : q ∈ m.states := by
  obtain ⟨w, path⟩ := mem_reachable_iff_path.1 hq
  exact path.mem_states Diagram.start_mem_states

theorem rulesFrom_mapStates {f : σ → τ} (hf : Set.InjOn f {q | q ∈ m.states}) {q : σ}
    (hq : q ∈ m.states) :
    (m.mapStates f).rulesFrom (f q) = (m.rulesFrom q).map (Rule.mapStates f) := by
  rw [Diagram.rulesFrom, Diagram.rulesFrom, mapStates, List.filter_map]
  refine congrArg _ (List.filter_congr fun rule hrule => decide_eq_decide.2 ?_)
  constructor
  · exact fun heq => hf (Diagram.source_mem_states hrule) hq heq
  · exact congrArg f

theorem renames_mapStates {f : σ → τ} (hf : Set.InjOn f {q | q ∈ m.states}) :
    Renames f m (m.mapStates f) where
  injOn := hf.mono fun _ hq => mem_states_of_mem_reachable hq
  start := rfl
  accept := fun _ hq => SortedSet.mem_image_of_injOn hf
    (fun _ => Diagram.mem_states_of_mem_accept) (mem_states_of_mem_reachable hq)
  rulesFrom := fun _ hq => rulesFrom_mapStates hf (mem_states_of_mem_reachable hq)

/-- Automata that agree on what can be reached in one of them have the same numbered
automaton. -/
theorem number_eq_of_agree (hstart : n.start = m.start)
    (haccept : ∀ q, m.Leads m.start q → (q ∈ n.accept ↔ q ∈ m.accept))
    (hrules : ∀ q, m.Leads m.start q → n.rulesFrom q = m.rulesFrom q) :
    n.number = m.number := by
  have hrenames : Renames id m n :=
    { injOn := Set.injOn_id _
      start := hstart
      accept := fun q hq => haccept q (mem_reachable_iff_path.1 hq)
      rulesFrom := by
        intro q hq
        have hid : Rule.mapStates (α := α) (id : σ → σ) = id := rfl
        rw [hid, List.map_id]
        exact hrules q (mem_reachable_iff_path.1 hq) }
  exact hrenames.number_eq

/-- A rule that leaves another state does not count. -/
theorem filter_source_insert {before after : List (Rule σ α)} {rule : Rule σ α} {q : σ}
    (hsource : rule.source ≠ q) :
    (before ++ rule :: after).filter (fun rule => rule.source = q) =
      (before ++ after).filter fun rule => rule.source = q := by
  rw [List.filter_append, List.filter_append, List.filter_cons_of_neg (by simpa using hsource)]

end changes

/-- Automata that arise from each other by such changes have the same numbered automaton. -/
theorem Rearranged.number_eq {m : Dfa σ α} {n : Dfa τ α} (h : Rearranged m n) :
    n.number = m.number := by
  induction h with
  | refl => rfl
  | renamed _ hf ih => exact (renames_mapStates hf).number_eq.trans ih
  | ruleAdded _ hrules hsource ih =>
    rw [← ih]
    refine number_eq_of_agree rfl (fun _ _ => .rfl) fun q hq => ?_
    rw [Diagram.rulesFrom, Diagram.rulesFrom, hrules]
    exact filter_source_insert fun heq => hsource (heq ▸ hq)
  | ruleDropped _ hrules hsource ih =>
    rw [← ih]
    refine number_eq_of_agree rfl (fun _ _ => .rfl) fun q hq => ?_
    rw [Diagram.rulesFrom, Diagram.rulesFrom, hrules]
    exact (filter_source_insert fun heq => hsource (heq ▸ hq)).symm
  | rulesMoved _ _ hrules ih =>
    rw [← ih]
    exact number_eq_of_agree rfl (fun _ _ => .rfl) fun q _ => hrules q
  | acceptAdded _ hq ih =>
    rw [← ih]
    refine number_eq_of_agree rfl (fun r hr => ?_) fun _ _ => rfl
    rw [SortedSet.mem_insert]
    exact or_iff_right fun heq => hq (heq ▸ hr)
  | acceptDropped _ hq ih =>
    rw [← ih]
    refine number_eq_of_agree rfl (fun r hr => ?_) fun _ _ => rfl
    rw [SortedSet.mem_filter, decide_eq_true_eq]
    exact and_iff_left fun heq => hq (heq ▸ hr)

section distance

variable {m : Dfa σ α} {i j k l : Nat}

/-- The search through a numbered automaton meets the numbers in their order. -/
theorem reachable_number (m : Dfa σ α) :
    m.number.reachable = List.range m.reachable.length := by
  rw [m.renames_number.reachable_eq, map_idxOf_self m.nodup_reachable]

theorem mem_reachable_number_iff : i ∈ m.number.reachable ↔ i ∈ m.number.states := by
  rw [reachable_number, List.mem_range, mem_states_number_iff_lt]

theorem idxOf_reachable_number (hi : i ∈ m.number.reachable) :
    m.number.reachable.idxOf i = i := by
  rw [reachable_number] at hi ⊢
  have hlength : i < (List.range m.reachable.length).length := by
    simpa using hi
  calc (List.range m.reachable.length).idxOf i
      = (List.range m.reachable.length).idxOf (List.range m.reachable.length)[i] := by
        rw [List.getElem_range]
    _ = i := List.nodup_range.idxOf_getElem i hlength

theorem mem_reachable_number_iff_reachable :
    i ∈ m.number.reachable ↔ Reachable m.number.successors [0] i := by
  have hstart : m.number.start = 0 := m.idxOf_start
  rw [reachable, mem_search, hstart]

/-- The states of a numbered automaton are what is at some distance from the start. -/
theorem mem_states_number_iff_atDistance :
    i ∈ m.number.states ↔ ∃ k, AtDistance m.number.successors [0] k i := by
  rw [exists_atDistance_iff, ← mem_reachable_number_iff_reachable, mem_reachable_number_iff]

/-- Numbers grow with the distance from the start. -/
theorem lt_of_atDistance_number (hi : AtDistance m.number.successors [0] k i)
    (hj : AtDistance m.number.successors [0] l j) (hlt : k < l) : i < j := by
  have hstart : m.number.start = 0 := m.idxOf_start
  have hfound : m.number.reachable.idxOf i < m.number.reachable.idxOf j := by
    rw [← hstart] at hi hj
    exact idxOf_search_lt_of_atDistance hi hj hlt
  rwa [idxOf_reachable_number (mem_reachable_number_iff_reachable.2 hi.reachable),
    idxOf_reachable_number (mem_reachable_number_iff_reachable.2 hj.reachable)] at hfound

end distance

/-- The numbered automaton is a canonical form. The loop that gives out numbers as it finds
states writes it down. Automata that are rearrangements of each other have the same one, with
the same rules in the same order, and numbering it again changes nothing. Its states are what
is at some distance from `0`, where rules of any kind count as steps, and a smaller distance
means a smaller number. -/
theorem number_canonical (m : Dfa σ α) :
    m.counted = m.number ∧
      (∀ {τ : Type} [Ordered τ] (n : Dfa τ α), Rearranged m n → n.number = m.number) ∧
      m.number.number = m.number ∧
      (∀ i, i ∈ m.number.states ↔ ∃ k, AtDistance m.number.successors [0] k i) ∧
      ∀ i j k l, AtDistance m.number.successors [0] k i →
        AtDistance m.number.successors [0] l j → k < l → i < j :=
  ⟨m.counted_eq_number, fun _ h => h.number_eq, m.renames_number.number_eq,
    fun _ => mem_states_number_iff_atDistance, fun _ _ _ _ => lt_of_atDistance_number⟩

/-- The other names turn the order of the states around. Two rules change places, a rule is
added that leaves a state nothing leads to, and an accept state is dropped there. -/
theorem number_canonical_of_negated_names :
    let m : Dfa Nat Char :=
      { start := 1
        accept := .ofList [3, 8]
        rules := [⟨1, some 'a', 2⟩, ⟨2, some 'b', 3⟩, ⟨1, none, 3⟩, ⟨3, some 'a', 4⟩] }
    let n : Dfa Int Char :=
      { start := -1
        accept := .singleton (-3)
        rules := [⟨-2, some 'b', -3⟩, ⟨-1, some 'a', -2⟩, ⟨-9, some 'c', -1⟩, ⟨-1, none, -3⟩,
          ⟨-3, some 'a', -4⟩] }
    (Rearranged m n ∧ n.number = m.number) ∧
      AtDistance m.number.successors [0] 1 2 ∧ AtDistance m.number.successors [0] 2 3 ∧
        1 < 2 ∧ 2 < 3 := by
  intro m n
  let short : Dfa Nat Char := { m with accept := .singleton 3 }
  let named : Dfa Int Char := short.mapStates fun q : Nat => -(q : Int)
  let moved : Dfa Int Char :=
    { named with rules :=
        [⟨-2, some 'b', -3⟩, ⟨-1, some 'a', -2⟩, ⟨-1, none, -3⟩, ⟨-3, some 'a', -4⟩] }
  have hshort : Rearranged m short := by
    have hreachable : m.reachable = [1, 2, 3, 4] := by cbv
    have hleads : ¬ m.Leads m.start 8 := by
      rw [Diagram.Leads, ← mem_reachable_iff_path, hreachable]
      decide
    exact .acceptDropped .refl hleads
  have hnamed : Rearranged m named :=
    .renamed hshort fun q _ r _ heq => Int.ofNat.inj (Int.neg_inj.1 heq)
  have hmoved : Rearranged m moved := by
    refine .rulesMoved hnamed (by decide) fun q => ?_
    by_cases hone : -1 = q
    · subst hone
      decide
    · simp [named, short, m, mapStates, Rule.mapStates, Diagram.rulesFrom, List.filter_cons, hone]
  have hadded : Rearranged m n := by
    have hleads : ¬ moved.Leads moved.start (-9) := by
      have hstates : -9 ∉ moved.states := by decide
      intro h
      obtain ⟨w, path⟩ := h
      exact hstates (path.mem_states Diagram.start_mem_states)
    have hplace : moved.rules = [⟨-2, some 'b', -3⟩, ⟨-1, some 'a', -2⟩] ++
        [⟨-1, none, -3⟩, ⟨-3, some 'a', -4⟩] := rfl
    exact .ruleAdded hmoved hplace hleads
  have hnumber : m.number =
      { start := 0
        accept := .singleton 2
        rules := [⟨0, some 'a', 1⟩, ⟨0, none, 2⟩, ⟨1, some 'b', 2⟩, ⟨2, some 'a', 3⟩] } := by cbv
  have hnear : AtDistance m.number.successors [0] 1 2 := by
    have hstep : 2 ∈ m.number.successors 0 := by
      rw [hnumber]
      decide
    refine ⟨ReachableIn.step (ReachableIn.seed (by decide)) hstep, fun k hk => ?_⟩
    cases hk with
    | seed hmem => exact absurd hmem (by decide)
    | step => exact Nat.le_add_left _ _
  have hfar : AtDistance m.number.successors [0] 2 3 := by
    have hstep : 3 ∈ m.number.successors 2 := by
      rw [hnumber]
      decide
    have hnext : 3 ∉ m.number.successors 0 := by
      rw [hnumber]
      decide
    refine ⟨ReachableIn.step hnear.1 hstep, fun k hk => ?_⟩
    cases hk with
    | seed hmem => exact absurd hmem (by decide)
    | step hk hmem =>
      cases hk with
      | seed hseed => exact absurd (List.mem_singleton.1 hseed ▸ hmem) hnext
      | step => exact Nat.le_add_left _ _
  obtain ⟨_, hsame, _, _, hgrow⟩ := number_canonical m
  exact ⟨⟨hadded, hsame n hadded⟩, hnear, hfar, by decide, hgrow 2 3 1 2 hnear hfar (by decide)⟩

end Acceptor.Dfa
