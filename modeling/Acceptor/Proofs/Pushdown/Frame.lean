import Mathlib.Logic.Relation
import Acceptor.Proofs.Pushdown.History

/-!
# What lies below

A pushdown machine never looks below what it pops. While its stack has items, other items
below them do not change which rule is used nor what the rule does to the stack, so the
machine passes through the same configurations with the other items at the bottom
(`Machine.Trace.onto`). An empty stack is different: a rule may apply to what lies below it.
Therefore a trace lists all configurations on the way, also those between two free moves and
those at which the machine only looks (`Machine.mem_trace_iff`).
-/

namespace Acceptor

namespace Stack

variable {α : Type}

/-- The stack with the items `below` at its bottom, the first one on top of the others. -/
def onto (s : Stack α) (below : List α) : Stack α := .ofList (s.toList ++ below)

@[simp] theorem toList_onto (s : Stack α) (below : List α) :
    (s.onto below).toList = s.toList ++ below := toList_ofList _

theorem toList_ne_nil {s : Stack α} (hitems : s.isEmpty = false) : s.toList ≠ [] := by
  intro hnil
  rw [isEmpty, hnil] at hitems
  cases hitems

theorem top?_onto {s : Stack α} (hitems : s.isEmpty = false) (below : List α) :
    (s.onto below).top? = s.top? := by
  rw [top?, top?, toList_onto, List.head?_append_of_ne_nil _ (toList_ne_nil hitems)]

theorem pop_onto {s : Stack α} (hitems : s.isEmpty = false) (below : List α) :
    (s.onto below).pop = s.pop.onto below := by
  refine ext ?_
  rw [toList_pop, toList_onto, toList_onto, toList_pop,
    List.tail_append_of_ne_nil (toList_ne_nil hitems)]

theorem pushAll_onto (s : Stack α) (l below : List α) :
    (s.onto below).pushAll l = (s.pushAll l).onto below := by
  refine ext ?_
  rw [toList_pushAll, toList_onto, toList_onto, toList_pushAll, List.append_assoc]

end Stack

namespace Pushdown

variable {σ α : Type}

/-- The configuration with the items `below` at the bottom of its stack. -/
def Configuration.onto (c : Configuration σ α) (below : List α) : Configuration σ α :=
  ⟨c.control, c.stack.onto below⟩

theorem Rule.follow_onto (rule : Rule σ α) {c : Configuration σ α}
    (hitems : c.stack.isEmpty = false) (below : List α) :
    rule.follow (c.onto below) = (rule.follow c).onto below := by
  refine congrArg (Configuration.mk _) ?_
  calc rule.nextStack (c.stack.onto below)
      = (c.stack.pop.onto below).pushAll rule.push := by
        rw [Rule.nextStack, Stack.pop_onto hitems]
    _ = (rule.nextStack c.stack).onto below := Stack.pushAll_onto _ _ _

variable [DecidableEq σ] [DecidableEq α] {rules : List (Rule σ α)} {c d : Configuration σ α}

theorem ruleFor?_onto (hitems : c.stack.isEmpty = false) (below : List α) (label : Option α) :
    ruleFor? rules (c.onto below) label = ruleFor? rules c label := by
  refine congrArg (List.find? · rules) (funext fun rule => decide_eq_decide.2 ?_)
  rw [Rule.AppliesTo, Rule.AppliesTo, Configuration.onto, Stack.top?_onto hitems]

/-- The first free rule that applies leads from `c` to `d`. -/
def FreeStep (rules : List (Rule σ α)) (c d : Configuration σ α) : Prop :=
  ∃ rule, ruleFor? rules c none = some rule ∧ d = rule.follow c

theorem freeSteps_of_resting (hrule : ruleFor? rules c none = none) :
    Relation.ReflTransGen (FreeStep rules) c d ↔ d = c := by
  rw [Relation.ReflTransGen.cases_head_iff]
  constructor
  · intro h
    rcases h with rfl | ⟨_, ⟨rule, hsome, _⟩, _⟩
    · rfl
    · rw [hrule] at hsome
      cases hsome
  · exact fun h => .inl h.symm

theorem freeSteps_of_free {rule : Rule σ α} (hrule : ruleFor? rules c none = some rule) :
    Relation.ReflTransGen (FreeStep rules) c d ↔
      d = c ∨ Relation.ReflTransGen (FreeStep rules) (rule.follow c) d := by
  rw [Relation.ReflTransGen.cases_head_iff]
  constructor
  · intro h
    rcases h with rfl | ⟨_, ⟨rule', hsome, rfl⟩, hsteps⟩
    · exact .inl rfl
    · cases hrule.symm.trans hsome
      exact .inr hsteps
  · intro h
    rcases h with rfl | hsteps
    · exact .inl rfl
    · exact .inr ⟨_, ⟨rule, hrule, rfl⟩, hsteps⟩

theorem settles_of_free {rule : Rule σ α} (hrule : ruleFor? rules c none = some rule) :
    Settles rules c d ↔ Settles rules (rule.follow c) d := by
  constructor
  · intro h
    cases h with
    | done hnone =>
      rw [hrule] at hnone
      cases hnone
    | move hsome hrest =>
      cases hrule.symm.trans hsome
      exact hrest
  · exact .move hrule

namespace Machine

variable {σ α : Type} [Ordered σ] [DecidableEq α]

/-- The configurations through which the machine passes while it reads the word and settles
after it, in their order. Free moves come one by one, and the machine reads where there are
none left. When it is stuck the rest of the word makes no difference. -/
inductive Trace (m : Machine σ α) :
    Configuration σ α → List α → List (Configuration σ α) → Prop
  | rest {c : Configuration σ α} : ruleFor? m.rules c none = none → Trace m c [] [c]
  | stuck {c : Configuration σ α} {w : List α} : c.isStuck = true → Trace m c w [c]
  | free {c : Configuration σ α} {w : List α} {t : List (Configuration σ α)} {rule : Rule σ α} :
      ruleFor? m.rules c none = some rule → Trace m (rule.follow c) w t → Trace m c w (c :: t)
  | read {c next : Configuration σ α} {a : α} {w : List α} {t : List (Configuration σ α)} :
      ruleFor? m.rules c none = none → m.read? c a = some next → Trace m next w t →
      Trace m c (a :: w) (c :: t)

/-- Free moves lead to `d` from the configuration after a part of the word. -/
def Visits (m : Machine σ α) (c : Configuration σ α) (w : List α) (d : Configuration σ α) :
    Prop :=
  ∃ u e, u <+: w ∧ m.run? c u = some e ∧ Relation.ReflTransGen (FreeStep m.rules) e d

variable {m : Machine σ α} {c d s : Configuration σ α} {a : α} {u w : List α}
  {t : List (Configuration σ α)}

theorem visits_nil :
    m.Visits c [] d ↔ Relation.ReflTransGen (FreeStep m.rules) c d := by
  constructor
  · intro h
    obtain ⟨u, e, hu, hrun, hsteps⟩ := h
    rw [List.prefix_nil.1 hu] at hrun
    cases hrun
    exact hsteps
  · intro h
    exact ⟨[], c, List.nil_prefix, rfl, h⟩

theorem visits_cons :
    m.Visits c (a :: w) d ↔ Relation.ReflTransGen (FreeStep m.rules) c d ∨
      ∃ next, m.read? c a = some next ∧ m.Visits next w d := by
  constructor
  · intro h
    obtain ⟨u, e, hu, hrun, hsteps⟩ := h
    rcases List.prefix_cons_iff.1 hu with rfl | ⟨v, rfl, hv⟩
    · cases hrun
      exact .inl hsteps
    · rw [run?_cons] at hrun
      obtain ⟨next, hread, hrest⟩ := Option.bind_eq_some_iff.1 hrun
      exact .inr ⟨next, hread, v, e, hv, hrest, hsteps⟩
  · intro h
    rcases h with hsteps | ⟨next, hread, v, e, hv, hrest, hsteps⟩
    · exact ⟨[], c, List.nil_prefix, rfl, hsteps⟩
    · refine ⟨a :: v, e, List.cons_prefix_cons.2 ⟨rfl, hv⟩, ?_, hsteps⟩
      rw [run?_cons, hread]
      exact hrest

theorem read?_of_free {rule : Rule σ α} (hrule : ruleFor? m.rules c none = some rule) (a : α) :
    m.read? c a = m.read? (rule.follow c) a := by
  have hsettle : settle? m.rules c = settle? m.rules (rule.follow c) := by
    refine Option.ext fun s => ?_
    rw [settle?_eq_some_iff, settle?_eq_some_iff, settles_of_free hrule]
  rw [read?, read?, hsettle]

theorem read?_of_settles (hs : Settles m.rules c s) (a : α) : m.read? c a = m.read? s a := by
  induction hs with
  | done => rfl
  | move hrule _ ih => rw [read?_of_free hrule, ih]

theorem run?_cons_of_free {rule : Rule σ α} (hrule : ruleFor? m.rules c none = some rule) (a : α)
    (w : List α) : m.run? c (a :: w) = m.run? (rule.follow c) (a :: w) := by
  rw [run?_cons, run?_cons, read?_of_free hrule]

theorem visits_of_free {rule : Rule σ α} (hrule : ruleFor? m.rules c none = some rule) :
    m.Visits c w d ↔ d = c ∨ m.Visits (rule.follow c) w d := by
  cases w with
  | nil => rw [visits_nil, visits_nil, freeSteps_of_free hrule]
  | cons a w =>
    rw [visits_cons, visits_cons, freeSteps_of_free hrule, read?_of_free hrule, or_assoc]

theorem visits_of_stuck (hstuck : c.isStuck = true) : m.Visits c w d ↔ d = c := by
  have hresting : ruleFor? m.rules c none = none := by
    obtain ⟨_ | _, stack⟩ := c
    · cases hstuck
    · exact ruleFor?_stuck
  rw [← freeSteps_of_resting hresting]
  constructor
  · intro h
    obtain ⟨u, e, _, hrun, hsteps⟩ := h
    rw [run?_stuck hstuck] at hrun
    cases hrun
    exact hsteps
  · intro h
    exact ⟨[], c, List.nil_prefix, rfl, h⟩

/-- What is on the trace is what free moves lead to after some part of the word. -/
theorem mem_trace_iff (h : m.Trace c w t) : d ∈ t ↔ m.Visits c w d := by
  induction h with
  | rest hresting => rw [visits_nil, freeSteps_of_resting hresting, List.mem_singleton]
  | stuck hstuck => rw [visits_of_stuck hstuck, List.mem_singleton]
  | free hrule _ ih => rw [visits_of_free hrule, List.mem_cons, ih]
  | read hresting hread _ ih =>
    rw [visits_cons, freeSteps_of_resting hresting, hread, List.mem_cons, ih]
    simp

/-- Free moves may come first. -/
theorem exists_trace_of_settles (hs : Settles m.rules c s) (h : ∃ t, m.Trace s w t) :
    ∃ t, m.Trace c w t := by
  induction hs with
  | done => exact h
  | move hrule _ ih =>
    obtain ⟨t, ht⟩ := ih h
    exact ⟨_, .free hrule ht⟩

/-- If free moves end along the word, the machine has a trace. -/
theorem SettlesAlong.exists_trace (h : m.SettlesAlong c w) : ∃ t, m.Trace c w t := by
  induction w generalizing c with
  | nil =>
    obtain ⟨s, hs⟩ := h.exists_settles
    exact exists_trace_of_settles hs ⟨_, .rest (ruleFor?_eq_none_iff.2 hs.resting)⟩
  | cons a w ih =>
    obtain ⟨s, hs⟩ := h.exists_settles
    have hresting := ruleFor?_eq_none_iff.2 hs.resting
    obtain ⟨next, hread⟩ : ∃ next, m.read? s a = some next := by
      rw [read?, settle?_eq_some_iff.2 (.done hresting)]
      exact ⟨_, rfl⟩
    have hrun : m.run? c [a] = some next := by
      rw [run?_singleton, read?_of_settles hs, hread]
    obtain ⟨t, ht⟩ := ih (h.after hrun)
    exact exists_trace_of_settles hs ⟨_, .read hresting hread ht⟩

/-- Reading does to a stack with items what it does to it above other items. -/
theorem read?_onto {next : Configuration σ α} (hresting : ruleFor? m.rules c none = none)
    (hread : m.read? c a = some next) (hitems : c.stack.isEmpty = false) (below : List α) :
    m.read? (c.onto below) a = some (next.onto below) := by
  have hresting' := (ruleFor?_onto hitems below none).trans hresting
  cases hrule : ruleFor? m.rules c (some a) with
  | none =>
    have hrule' := (ruleFor?_onto hitems below (some a)).trans hrule
    rw [read?_of_no_move (.done hresting) hrule] at hread
    cases hread
    exact read?_of_no_move (.done hresting') hrule'
  | some rule =>
    have hrule' := (ruleFor?_onto hitems below (some a)).trans hrule
    rw [read?_of_move (.done hresting) hrule] at hread
    cases hread
    rw [read?_of_move (.done hresting') hrule', Rule.follow_onto rule hitems]

/-- While the stack has items, the machine passes through the same configurations whatever
lies below. -/
theorem Trace.onto (h : m.Trace c w t) (hitems : ∀ d ∈ t, d.stack.isEmpty = false)
    (below : List α) : m.Trace (c.onto below) w (t.map (·.onto below)) := by
  induction h with
  | rest hresting =>
    obtain ⟨hc, _⟩ := List.forall_mem_cons.1 hitems
    exact .rest ((ruleFor?_onto hc below none).trans hresting)
  | stuck hstuck => exact .stuck hstuck
  | free hrule _ ih =>
    obtain ⟨hc, hlater⟩ := List.forall_mem_cons.1 hitems
    refine .free ((ruleFor?_onto hc below none).trans hrule) ?_
    rw [Rule.follow_onto _ hc]
    exact ih hlater
  | read hresting hread _ ih =>
    obtain ⟨hc, hlater⟩ := List.forall_mem_cons.1 hitems
    exact .read ((ruleFor?_onto hc below none).trans hresting)
      (read?_onto hresting hread hc below) (ih hlater)

/-- After each part of the word the machine is in the same configuration with the other items
at the bottom, and it settles in the same way. -/
theorem Trace.settles_onto (h : m.Trace c w t) (hitems : ∀ d ∈ t, d.stack.isEmpty = false)
    (below : List α) (hu : u <+: w) :
    ∃ d s, m.run? c u = some d ∧ m.run? (c.onto below) u = some (d.onto below) ∧
      Settles m.rules d s ∧ Settles m.rules (d.onto below) (s.onto below) := by
  induction h generalizing u with
  | @rest c hresting =>
    obtain ⟨hc, _⟩ := List.forall_mem_cons.1 hitems
    rw [List.prefix_nil.1 hu]
    exact ⟨c, c, rfl, rfl, .done hresting, .done ((ruleFor?_onto hc below none).trans hresting)⟩
  | @stuck c w hstuck =>
    have hstuck' : (c.onto below).isStuck = true := hstuck
    exact ⟨c, c, run?_stuck hstuck u, run?_stuck hstuck' u, .of_stuck hstuck, .of_stuck hstuck'⟩
  | @free c w t rule hrule _ ih =>
    obtain ⟨hc, hlater⟩ := List.forall_mem_cons.1 hitems
    have hrule' := (ruleFor?_onto hc below none).trans hrule
    obtain ⟨d, s, hrun, hrun', hs, hs'⟩ := ih hlater hu
    cases u with
    | nil =>
      cases hrun
      rw [← Rule.follow_onto rule hc] at hs'
      exact ⟨c, s, rfl, rfl, .move hrule hs, .move hrule' hs'⟩
    | cons a u =>
      refine ⟨d, s, ?_, ?_, hs, hs'⟩
      · rw [run?_cons_of_free hrule, hrun]
      · rw [run?_cons_of_free hrule', Rule.follow_onto rule hc, hrun']
  | @read c next a w t hresting hread _ ih =>
    obtain ⟨hc, hlater⟩ := List.forall_mem_cons.1 hitems
    rcases List.prefix_cons_iff.1 hu with rfl | ⟨v, rfl, hv⟩
    · have hresting' := (ruleFor?_onto hc below none).trans hresting
      exact ⟨c, c, rfl, rfl, .done hresting, .done hresting'⟩
    · obtain ⟨d, s, hrun, hrun', hs, hs'⟩ := ih hlater hv
      refine ⟨d, s, ?_, ?_, hs, hs'⟩
      · rw [run?_cons, hread, Option.bind_some, hrun]
      · rw [run?_cons, read?_onto hresting hread hc below, Option.bind_some, hrun']

/-- Whatever lies below the stack makes no difference as long as the stack has items. If free
moves end along the word, the machine has a trace, the list of what it passes through: the
configurations that free moves lead to after some part of the word. If no stack on it is empty
and other items are put below the first one, the machine passes through the same
configurations with these items at the bottom. After each part of the word it is in
corresponding configurations, so it is stuck after the same symbol, it settles in
corresponding ones, and it accepts alike. -/
theorem trace_onto (m : Machine σ α) (c : Configuration σ α) (w : List α)
    (hends : m.SettlesAlong c w) :
    (∃ t, m.Trace c w t) ∧ ∀ t, m.Trace c w t →
      (∀ d, d ∈ t ↔ m.Visits c w d) ∧
      ((∀ d ∈ t, d.stack.isEmpty = false) → ∀ below : List α,
        m.Trace (c.onto below) w (t.map (·.onto below)) ∧
        ∀ u, u <+: w → ∃ d s accepted,
          m.run? c u = some d ∧ m.run? (c.onto below) u = some (d.onto below) ∧
          (d.onto below).isStuck = d.isStuck ∧
          settle? m.rules d = some s ∧ settle? m.rules (d.onto below) = some (s.onto below) ∧
          m.accepting? d = some accepted ∧ m.accepting? (d.onto below) = some accepted) := by
  refine ⟨hends.exists_trace, fun t ht => ⟨fun d => mem_trace_iff ht, ?_⟩⟩
  intro hitems below
  refine ⟨ht.onto hitems below, fun u hu => ?_⟩
  obtain ⟨d, s, hrun, hrun', hs, hs'⟩ := ht.settles_onto hitems below hu
  have hsettle := settle?_eq_some_iff.2 hs
  have hsettle' := settle?_eq_some_iff.2 hs'
  obtain ⟨accepted, haccepting⟩ : ∃ accepted, m.accepting? d = some accepted := by
    rw [accepting?, hsettle]
    exact ⟨_, rfl⟩
  have haccepting' : m.accepting? (d.onto below) = m.accepting? d := by
    rw [accepting?, accepting?, hsettle, hsettle']
    rfl
  exact ⟨d, s, accepted, hrun, hrun', rfl, hsettle, hsettle', haccepting,
    haccepting'.trans haccepting⟩

/-- The machine of balanced brackets closes one bracket, follows its free move and is stuck at
another closing bracket. Two brackets that are open below do not help it. -/
theorem trace_onto_of_brackets :
    let c : Configuration Nat Char := ⟨.live 2, .ofList ['b', '$']⟩
    let t : List (Configuration Nat Char) :=
      [c, ⟨.live 2, .ofList ['$']⟩, ⟨.live 1, .ofList ['$']⟩, ⟨.stuck, .ofList ['$']⟩]
    let below := ['b', 'b', '$']
    balancedMachine.SettlesAlong c [')', ')'] ∧ balancedMachine.Trace c [')', ')'] t ∧
      (∀ d ∈ t, d.stack.isEmpty = false) ∧
      balancedMachine.Trace (c.onto below) [')', ')'] (t.map (·.onto below)) ∧
      ∃ d, balancedMachine.run? c [')', ')'] = some d ∧
        balancedMachine.run? (c.onto below) [')', ')'] = some (d.onto below) ∧
        (d.onto below).isStuck = true := by
  intro c t below
  have hends : balancedMachine.SettlesAlong c [')', ')'] :=
    fun _ d _ _ => (freeMovesEnd_balancedMachine d).exists_settles
  have hopen : ruleFor? balancedMachine.rules c none = none := by decide
  have hclose : ruleFor? balancedMachine.rules c (some ')') = some (.reading 2 ')' 2 'b' []) := by
    decide
  have hfree : ruleFor? balancedMachine.rules ⟨.live 2, .ofList ['$']⟩ none =
      some (.free 2 1 '$' ['$']) := by decide
  have hdone : ruleFor? balancedMachine.rules ⟨.live 1, .ofList ['$']⟩ none = none := by decide
  have hfail : ruleFor? balancedMachine.rules ⟨.live 1, .ofList ['$']⟩ (some ')') = none := by
    decide
  have htrace : balancedMachine.Trace c [')', ')'] t :=
    .read hopen (read?_of_move (.done hopen) hclose)
      (.free hfree (.read hdone (read?_of_no_move (.done hdone) hfail) (.stuck rfl)))
  have hitems : ∀ d ∈ t, d.stack.isEmpty = false := by decide
  obtain ⟨htrace', hagree⟩ :=
    ((trace_onto balancedMachine c [')', ')'] hends).2 t htrace).2 hitems below
  obtain ⟨d, _, _, hrun, hrun', hstuck, _⟩ := hagree _ (List.prefix_refl _)
  have hvalue : (balancedMachine.run? c [')', ')']).map Configuration.isStuck = some true := by cbv
  rw [hrun] at hvalue
  exact ⟨hends, htrace, hitems, htrace', d, hrun, hrun', hstuck.trans (Option.some.inj hvalue)⟩

end Machine

end Pushdown

end Acceptor
