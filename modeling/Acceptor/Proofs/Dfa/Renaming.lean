import Mathlib.Data.List.Basic
import Mathlib.Data.Set.Function
import Acceptor.Dfa.Numbering
import Acceptor.Proofs.Dfa.Dead
import Acceptor.Proofs.Diagram
import Acceptor.Proofs.Search

/-!
# Deterministic automata under other names

An automaton may do with renamed states what another one does with its reachable states,
rule by rule and in the same order (`Renames`). Then the two run alike: a run leads to the
renamed state, or it fails where the other one fails (`Renames.run_eq`). Renamed states
have the same paths, so they are dead together. The two also get the same numbered
automaton (`Renames.number_eq`): the breadth-first search meets the renamed states in the
same order, so each state has the same place under either name. Nothing is asked of states
that cannot be reached, and the new names may be ordered differently from the old ones.
-/

namespace Acceptor.Dfa

attribute [ext] Dfa

section rename

variable {σ τ α : Type}

/-- The outcome of a step or a run, with other names for the states. -/
def rename (f : σ → τ) : Except (NoApplicableRule σ α) σ → Except (NoApplicableRule τ α) τ
  | .ok q => .ok (f q)
  | .error failure => .error ⟨f failure.state, failure.label⟩

end rename

section reachable

variable {σ α : Type} [Ordered σ] {m : Dfa σ α} {order : List σ}

/-- The list holds the start state and whatever rules lead to from its states. -/
structure Closed (m : Dfa σ α) (order : List σ) : Prop where
  start_mem : m.start ∈ order
  target_mem : ∀ rule ∈ m.rules, rule.source ∈ order → rule.target ∈ order

theorem mem_rulesFrom {q : σ} {rule : Rule σ α} :
    rule ∈ m.rulesFrom q ↔ rule ∈ m.rules ∧ rule.source = q := by
  rw [Diagram.rulesFrom, List.mem_filter, decide_eq_true_eq]

theorem mem_reachable_of_mem_successors {q r : σ} (hq : q ∈ m.reachable)
    (hr : r ∈ m.successors q) : r ∈ m.reachable :=
  mem_search.2 ((mem_search.1 hq).step hr)

theorem closed_reachable (m : Dfa σ α) : m.Closed m.reachable where
  start_mem := mem_search.2 (.seed (List.mem_singleton.2 rfl))
  target_mem := by
    intro rule hrule hsource
    have hnext : rule.target ∈ m.successors rule.source :=
      List.mem_map.2 ⟨rule, mem_rulesFrom.2 ⟨hrule, rfl⟩, rfl⟩
    exact mem_reachable_of_mem_successors hsource hnext

theorem closed_states (m : Dfa σ α) : m.Closed m.states.toList where
  start_mem := Diagram.start_mem_states
  target_mem := fun _ hrule _ => Diagram.target_mem_states hrule

theorem Closed.mem_of_path (horder : m.Closed order) {q r : σ} {w : List α} (hq : q ∈ order)
    (path : m.toDiagram.Path q w r) : r ∈ order :=
  (path.confined (· ∈ order) (fun rule hrule hsource =>
    ⟨hrule, horder.target_mem rule hrule hsource⟩) hq).2

theorem Closed.mem_of_run [DecidableEq α] (horder : m.Closed order) {q r : σ} {w : List α}
    (hq : q ∈ order) (hrun : m.run q w = .ok r) : r ∈ order :=
  horder.mem_of_path hq (path_of_run hrun)

/-- The reachable states are the ends of the paths from the start. -/
theorem mem_reachable_iff_path {q : σ} :
    q ∈ m.reachable ↔ ∃ w, m.toDiagram.Path m.start w q := by
  constructor
  · intro hq
    induction mem_search.1 hq with
    | seed hseed =>
      rw [List.mem_singleton.1 hseed]
      exact ⟨[], .nil _⟩
    | step hr hnext ih =>
      obtain ⟨w, hpath⟩ := ih (mem_search.2 hr)
      obtain ⟨rule, hrule, rfl⟩ := List.mem_map.1 hnext
      obtain ⟨hmem, rfl⟩ := mem_rulesFrom.1 hrule
      exact ⟨w ++ rule.label.toList, hpath.append (.of_rule hmem)⟩
  · intro hpath
    obtain ⟨w, hpath⟩ := hpath
    exact m.closed_reachable.mem_of_path m.closed_reachable.start_mem hpath

/-- The state after a reading that may have failed is reachable as well. -/
theorem reached_mem_reachable [DecidableEq α] (m : Dfa σ α) (w : List α) :
    m.reached m.start w ∈ m.reachable := by
  have hstart := m.closed_reachable.start_mem
  rw [reached]
  cases hrun : m.run m.start w with
  | ok q => exact m.closed_reachable.mem_of_run hstart hrun
  | error failure =>
    obtain ⟨u, c, v, q, _, hread, rfl⟩ := exists_of_run_error hrun
    exact m.closed_reachable.mem_of_run hstart hread

end reachable

variable {σ τ α : Type}

theorem idxOf_map_of_injOn [DecidableEq σ] [DecidableEq τ] {f : σ → τ} {order : List σ}
    (hf : Set.InjOn f {q | q ∈ order}) {q : σ} (hq : q ∈ order) :
    (order.map f).idxOf (f q) = order.idxOf q := by
  induction order with
  | nil => exact absurd hq List.not_mem_nil
  | cons r order ih =>
    rw [List.map_cons, List.idxOf_cons, List.idxOf_cons]
    by_cases hrq : r = q
    · simp [hrq]
    · have hne : f r ≠ f q := fun heq => hrq (hf List.mem_cons_self hq heq)
      have hmem : q ∈ order := (List.mem_cons.1 hq).resolve_left (Ne.symm hrq)
      have hrest := ih (hf.mono fun s hs => List.mem_cons_of_mem r hs) hmem
      rw [beq_false_of_ne hrq, beq_false_of_ne hne, cond_false, cond_false, hrest]

variable [Ordered σ] [Ordered τ] {f : σ → τ} {m : Dfa σ α} {n : Dfa τ α}

/-- The automaton `n` does with the states `f q` what `m` does with its reachable
states `q`. -/
structure Renames (f : σ → τ) (m : Dfa σ α) (n : Dfa τ α) : Prop where
  injOn : Set.InjOn f {q | q ∈ m.reachable}
  start : n.start = f m.start
  accept : ∀ q ∈ m.reachable, f q ∈ n.accept ↔ q ∈ m.accept
  rulesFrom : ∀ q ∈ m.reachable, n.rulesFrom (f q) = (m.rulesFrom q).map (Rule.mapStates f)

/-- The two automata read the word alike: both read all of it and end in states that
correspond, or both stop at the same symbol. The failures name that symbol and states that
correspond. -/
inductive ReadAlike [DecidableEq α] (f : σ → τ) (m : Dfa σ α) (n : Dfa τ α) (w : List α) : Prop
  | whole {q : σ} : m.run m.start w = .ok q → n.run n.start w = .ok (f q) → ReadAlike f m n w
  | stopped {u : List α} {c : α} {v : List α} {q : σ} : w = u ++ c :: v →
      m.run m.start u = .ok q → n.run n.start u = .ok (f q) →
      m.run m.start w = .error ⟨q, some c⟩ → n.run n.start w = .error ⟨f q, some c⟩ →
      ReadAlike f m n w

namespace Renames

theorem mem_rules (h : Renames f m n) {q : σ} (hq : q ∈ m.reachable) {label : Option α}
    {r' : τ} : ⟨f q, label, r'⟩ ∈ n.rules ↔ ∃ r, ⟨q, label, r⟩ ∈ m.rules ∧ f r = r' := by
  have hfrom : ⟨f q, label, r'⟩ ∈ n.rules ↔ ⟨f q, label, r'⟩ ∈ n.rulesFrom (f q) := by
    rw [mem_rulesFrom]
    exact (and_iff_left rfl).symm
  rw [hfrom, h.rulesFrom q hq, List.mem_map]
  constructor
  · intro hrule
    obtain ⟨rule, hfrom, heq⟩ := hrule
    obtain ⟨hmem, rfl⟩ := mem_rulesFrom.1 hfrom
    cases heq
    exact ⟨rule.target, hmem, rfl⟩
  · intro hrule
    obtain ⟨r, hmem, rfl⟩ := hrule
    exact ⟨_, mem_rulesFrom.2 ⟨hmem, rfl⟩, rfl⟩

theorem path_iff (h : Renames f m n) {q : σ} (hq : q ∈ m.reachable) {w : List α} {r' : τ} :
    n.toDiagram.Path (f q) w r' ↔ ∃ r, m.toDiagram.Path q w r ∧ f r = r' :=
  Diagram.path_rename_iff (· ∈ m.reachable) m.closed_reachable.target_mem
    (fun hq => h.mem_rules hq) hq

theorem image_mem_states (h : Renames f m n) {q : σ} (hq : q ∈ m.reachable) :
    f q ∈ n.states := by
  obtain ⟨w, hpath⟩ := mem_reachable_iff_path.1 hq
  have hpath' : n.toDiagram.Path (f m.start) w (f q) :=
    (h.path_iff m.closed_reachable.start_mem).2 ⟨q, hpath, rfl⟩
  have hstart : f m.start ∈ n.states := by
    rw [← h.start]
    exact Diagram.start_mem_states
  exact n.closed_states.mem_of_path hstart hpath'

/-- Renamed states are dead together. -/
theorem mem_deadStates_iff (h : Renames f m n) {q : σ} (hq : q ∈ m.reachable) :
    f q ∈ n.deadStates ↔ q ∈ m.deadStates := by
  obtain ⟨w, hpath⟩ := mem_reachable_iff_path.1 hq
  have hstates : q ∈ m.states := m.closed_states.mem_of_path Diagram.start_mem_states hpath
  rw [mem_deadStates, mem_deadStates, and_iff_right (h.image_mem_states hq),
    and_iff_right hstates]
  constructor
  · intro hdead w r hpath hr
    have hreachable := m.closed_reachable.mem_of_path hq hpath
    exact hdead w (f r) ((h.path_iff hq).2 ⟨r, hpath, rfl⟩) ((h.accept r hreachable).2 hr)
  · intro hdead w r' hpath' hr'
    obtain ⟨r, hpath, rfl⟩ := (h.path_iff hq).1 hpath'
    have hreachable := m.closed_reachable.mem_of_path hq hpath
    exact hdead w r hpath ((h.accept r hreachable).1 hr')

section run

variable [DecidableEq α]

theorem step_eq (h : Renames f m n) {q : σ} (hq : q ∈ m.reachable) (a : α) :
    n.step (f q) a = rename f (m.step q a) := by
  have hrule : n.ruleFor? (f q) a = (m.ruleFor? q a).map (Rule.mapStates f) := by
    rw [ruleFor?_eq_find?_rulesFrom, ruleFor?_eq_find?_rulesFrom, h.rulesFrom q hq,
      List.find?_map]
    rfl
  rw [step, step, hrule]
  cases m.ruleFor? q a with
  | none => rfl
  | some rule => rfl

theorem run_eq (h : Renames f m n) {q : σ} (hq : q ∈ m.reachable) (w : List α) :
    n.run (f q) w = rename f (m.run q w) := by
  induction w generalizing q with
  | nil => rfl
  | cons a w ih =>
    rw [run_cons, run_cons, h.step_eq hq]
    cases hstep : m.step q a with
    | error failure => rfl
    | ok r =>
      have hr : r ∈ m.reachable :=
        m.closed_reachable.target_mem _ (mem_rules_of_step hstep) hq
      exact ih hr

theorem run_start_eq (h : Renames f m n) (w : List α) :
    n.run n.start w = rename f (m.run m.start w) := by
  rw [h.start]
  exact h.run_eq m.closed_reachable.start_mem w

theorem readAlike (h : Renames f m n) (w : List α) : ReadAlike f m n w := by
  cases hrun : m.run m.start w with
  | ok q =>
    refine .whole hrun ?_
    rw [h.run_start_eq, hrun]
    rfl
  | error failure =>
    obtain ⟨u, c, v, q, hw, hread, rfl⟩ := exists_of_run_error hrun
    refine .stopped hw hread ?_ hrun ?_
    · rw [h.run_start_eq, hread]
      rfl
    · rw [h.run_start_eq, hrun]
      rfl

/-- The two automata stand in states that correspond, also after a failure. -/
theorem reached_eq (h : Renames f m n) (w : List α) :
    n.reached n.start w = f (m.reached m.start w) := by
  rw [reached, reached, h.run_start_eq]
  cases m.run m.start w with
  | ok q => rfl
  | error failure => rfl

theorem verdict_eq_ok_iff (h : Renames f m n) {w : List α} {accepted : Bool} :
    n.verdict w = .ok accepted ↔ m.verdict w = .ok accepted := by
  rw [verdict, verdict, h.run_start_eq]
  cases hrun : m.run m.start w with
  | error failure => simp [rename, Except.map]
  | ok q =>
    have hq := m.closed_reachable.mem_of_run m.closed_reachable.start_mem hrun
    simp [rename, Except.map, h.accept q hq]

theorem accepts_eq (h : Renames f m n) (w : List α) : n.accepts w = m.accepts w := by
  have hiff : ∀ {k : Type} [Ordered k] (l : Dfa k α),
      l.accepts w = true ↔ l.verdict w = .ok true := by
    intro k _ l
    rw [accepts]
    cases l.verdict w <;> simp
  rw [Bool.eq_iff_iff, hiff, hiff, h.verdict_eq_ok_iff]

end run

theorem successors_eq (h : Renames f m n) {q : σ} (hq : q ∈ m.reachable) :
    n.successors (f q) = (m.successors q).map f := by
  rw [Diagram.successors, Diagram.successors, h.rulesFrom q hq, List.map_map, List.map_map]
  rfl

theorem reachable_eq (h : Renames f m n) : n.reachable = m.reachable.map f := by
  have hstart : [n.start] = [m.start].map f := by rw [h.start, List.map_singleton]
  rw [reachable, hstart]
  refine search_map h.injOn ?_ ?_ ?_
  · intro q hq r hr
    exact mem_reachable_of_mem_successors hq hr
  · intro q hq
    exact h.successors_eq hq
  · intro q hq
    rw [List.mem_singleton.1 hq]
    exact (closed_reachable m).start_mem

theorem idxOf_eq (h : Renames f m n) {q : σ} (hq : q ∈ m.reachable) :
    (m.reachable.map f).idxOf (f q) = m.reachable.idxOf q :=
  idxOf_map_of_injOn h.injOn hq

theorem accept_number_eq (h : Renames f m n) : n.number.accept = m.number.accept := by
  refine SortedSet.ext fun i => ?_
  simp only [number, numberAlong, h.reachable_eq, SortedSet.mem_ofList, List.mem_map,
    List.mem_filter, decide_eq_true_eq, SortedSet.mem_toList]
  constructor
  · intro hi
    obtain ⟨_, ⟨haccept, q, hq, rfl⟩, rfl⟩ := hi
    exact ⟨q, ⟨(h.accept q hq).1 haccept, hq⟩, (h.idxOf_eq hq).symm⟩
  · intro hi
    obtain ⟨q, ⟨haccept, hq⟩, rfl⟩ := hi
    exact ⟨f q, ⟨(h.accept q hq).2 haccept, q, hq, rfl⟩, h.idxOf_eq hq⟩

theorem rules_number_eq (h : Renames f m n) : n.number.rules = m.number.rules := by
  have hplaces : ∀ q ∈ m.reachable, ∀ rule ∈ m.rulesFrom q,
      (rule.mapStates f).mapStates (m.reachable.map f).idxOf =
        rule.mapStates m.reachable.idxOf := by
    intro q hq rule hrule
    obtain ⟨hmem, rfl⟩ := mem_rulesFrom.1 hrule
    have htarget := (closed_reachable m).target_mem rule hmem hq
    simp only [Rule.mapStates, h.idxOf_eq hq, h.idxOf_eq htarget]
  simp only [number, numberAlong, h.reachable_eq, List.flatMap_map]
  refine List.flatMap_congr fun q hq => ?_
  rw [h.rulesFrom q hq, List.map_map]
  exact List.map_congr_left (hplaces q hq)

/-- The numbered automaton does not show the names of the states. -/
theorem number_eq (h : Renames f m n) : n.number = m.number := by
  have hstart : n.number.start = m.number.start := by
    simp only [number, numberAlong, h.reachable_eq, h.start]
    exact h.idxOf_eq (closed_reachable m).start_mem
  exact Dfa.ext hstart h.accept_number_eq h.rules_number_eq

end Renames

end Acceptor.Dfa
