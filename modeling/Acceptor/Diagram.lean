import Acceptor.Rule

/-!
# Transition diagrams

A start state, the accept states and a list of rules: the data that deterministic
and nondeterministic automata share. The order of the rules matters to a
deterministic reading, which takes the first one that applies, and to every
listing.
-/

namespace Acceptor

structure Diagram (σ α : Type) [Ordered σ] where
  start : σ
  accept : SortedSet σ
  rules : List (Rule σ α)

namespace Diagram

variable {σ α : Type} [Ordered σ]

/-- The states that are mentioned anywhere. -/
def states (d : Diagram σ α) : SortedSet σ :=
  .ofList (d.start :: d.accept.toList ++
    d.rules.flatMap fun rule => [rule.source, rule.target])

def targets (d : Diagram σ α) : SortedSet σ :=
  .ofList (d.rules.map Rule.target)

def alphabet [Ordered α] (d : Diagram σ α) : SortedSet α :=
  .ofList (d.rules.filterMap Rule.label)

/-- The rules that leave `q` with the label `a`, in the order of the rules. -/
def rulesFor [DecidableEq α] (d : Diagram σ α) (q : σ) (a : Option α) : List (Rule σ α) :=
  d.rules.filter fun rule => rule.AppliesTo q a

/-- The states that the rules from `q` with the label `a` lead to, in the order of
the rules and with repetitions. -/
def follow [DecidableEq α] (d : Diagram σ α) (q : σ) (a : Option α) : List σ :=
  (d.rulesFor q a).map Rule.target

def rulesFrom (d : Diagram σ α) (q : σ) : List (Rule σ α) :=
  d.rules.filter fun rule => rule.source = q

def successors (d : Diagram σ α) (q : σ) : List σ :=
  (d.rulesFrom q).map Rule.target

def predecessors (d : Diagram σ α) (q : σ) : List σ :=
  (d.rules.filter fun rule => rule.target = q).map Rule.source

theorem flatMap_eq_of_only {β γ : Type} {l : List β} (hl : l.Nodup) {b : β} (hb : b ∈ l)
    {g : β → List γ} (honly : ∀ c ∈ l, c ≠ b → g c = []) : l.flatMap g = g b := by
  induction l with
  | nil => exact absurd hb List.not_mem_nil
  | cons c l ih =>
    obtain ⟨hc, hl⟩ := List.nodup_cons.1 hl
    obtain ⟨hfirst, hrest⟩ := List.forall_mem_cons.1 honly
    rw [List.flatMap_cons]
    rcases List.mem_cons.1 hb with rfl | hb
    · have hnone : l.flatMap g = [] := by
        rw [List.flatMap_eq_nil_iff]
        intro d hd
        exact hrest d hd fun heq => hc (heq ▸ hd)
      rw [hnone, List.append_nil]
    · rw [hfirst fun heq => hc (heq ▸ hb), List.nil_append]
      exact ih hl hb hrest

/-- If the rules are listed state by state, those that leave a state are the ones that were
listed for it. The states may be listed under other names. -/
theorem rulesFrom_of_listed {τ : Type} {d : Diagram σ α} {order : List τ} (place : τ → σ)
    {listed : τ → List (Rule σ α)} (hrules : d.rules = order.flatMap listed)
    (horder : order.Nodup) {q : τ} (hq : q ∈ order)
    (hplace : ∀ r ∈ order, place r = place q → r = q)
    (hlisted : ∀ r ∈ order, ∀ rule ∈ listed r, rule.source = place r) :
    d.rulesFrom (place q) = listed q := by
  rw [rulesFrom, hrules, List.filter_flatMap, flatMap_eq_of_only horder hq]
  · refine List.filter_eq_self.2 fun rule hrule => ?_
    exact decide_eq_true (hlisted q hq rule hrule)
  · intro r hr hne
    refine List.filter_eq_nil_iff.2 fun rule hrule hsource => hne (hplace r hr ?_)
    exact (hlisted r hr rule hrule).symm.trans (of_decide_eq_true hsource)

theorem finitelyMany_successors (d : Diagram σ α) (q : σ) :
    ∀ r ∈ d.successors q, r ∈ d.rules.map Rule.target := by
  intro r hr
  obtain ⟨rule, hrule, rfl⟩ := List.mem_map.1 hr
  exact List.mem_map_of_mem (List.mem_filter.1 hrule).1

theorem finitelyMany_predecessors (d : Diagram σ α) (q : σ) :
    ∀ r ∈ d.predecessors q, r ∈ d.rules.map Rule.source := by
  intro r hr
  obtain ⟨rule, hrule, rfl⟩ := List.mem_map.1 hr
  exact List.mem_map_of_mem (List.mem_filter.1 hrule).1

end Diagram

end Acceptor
