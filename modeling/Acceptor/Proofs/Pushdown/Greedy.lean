import Mathlib.Data.List.Basic
import Acceptor.Proofs.Pushdown.Ranked

/-!
# What the greedy run decides

A machine settles before it reads, and it takes the first rule that applies. If its rules
are deterministic and free moves come to an end, it misses nothing by this: the
configuration after a word has the same free moves ahead of it as any run by rules that
reads the word (`read_iff`), and the machine is stuck just when there is no such run
(`greedy_run_decides`).
-/

namespace Acceptor.Pushdown

/-- Rules are deterministic if two of them with the same source and the same symbol on
top never have the same label, nor one of them no label and the other one some. -/
theorem Deterministic.of_heads {σ α : Type} {rules : List (Rule σ α)}
    (heads : ∀ rule ∈ rules, ∀ rule' ∈ rules, rule.source = rule'.source →
      rule.pop = rule'.pop → rule.label = rule'.label ∨ rule.label = none → rule = rule') :
    Deterministic rules := by
  have same : ∀ {c : Configuration σ α} {rule rule' : Rule σ α} {label label' : Option α},
      rule ∈ rules → rule' ∈ rules → rule.AppliesTo c label → rule'.AppliesTo c label' →
        label = label' ∨ label = none → rule = rule' := by
    intro c rule rule' label label' hmem hmem' happ happ' hlabel
    obtain ⟨hsource, hpop, rfl⟩ := happ
    obtain ⟨hsource', hpop', rfl⟩ := happ'
    have hsources : rule.source = rule'.source := Control.live.inj (hsource.symm.trans hsource')
    have hpops : rule.pop = rule'.pop := Option.some.inj (hpop.symm.trans hpop')
    exact heads rule hmem rule' hmem' hsources hpops hlabel
  constructor
  · intro c d e label hmove hmove'
    obtain ⟨rule, hmem, happ, rfl⟩ := hmove
    obtain ⟨rule', hmem', happ', rfl⟩ := hmove'
    rw [same hmem hmem' happ happ' (.inl rfl)]
  · intro c d e a hmove hmove'
    obtain ⟨rule, hmem, happ, rfl⟩ := hmove
    obtain ⟨rule', hmem', happ', rfl⟩ := hmove'
    obtain rfl := same hmem hmem' happ happ' (.inr rfl)
    have hlabel : none = some a := happ.2.2.symm.trans happ'.2.2
    cases hlabel

theorem deterministic_balancedMachine : Deterministic balancedMachine.rules :=
  .of_heads (by decide)

/-- The only free rule of the machine of balanced brackets leads to the lower one of its two
states. -/
theorem freeMovesEnd_balancedMachine (c : Configuration Nat Char) :
    FreeMovesEnd balancedMachine.rules c :=
  have hranked : Ranked balancedMachine.rules id := by decide
  hranked.freeMovesEnd c

namespace Machine

variable {σ α : Type} [Ordered σ] [DecidableEq α] {m : Machine σ α}
  {c s : Configuration σ α} {a : α} {w : List α}

theorem read?_of_move {rule : Rule σ α} (hsettles : Settles m.rules c s)
    (hrule : ruleFor? m.rules s (some a) = some rule) : m.read? c a = some (rule.follow s) := by
  rw [read?, settle?_eq_some_iff.2 hsettles, Option.map_some, step, hrule]

theorem read?_of_no_move (hsettles : Settles m.rules c s)
    (hrule : ruleFor? m.rules s (some a) = none) : m.read? c a = some s.stuck := by
  rw [read?, settle?_eq_some_iff.2 hsettles, Option.map_some, step, hrule]

/-- A stuck machine stays where it is. -/
theorem run?_stuck (hstuck : c.isStuck = true) (w : List α) : m.run? c w = some c := by
  cases w with
  | nil => rfl
  | cons a w => rw [run?, if_pos hstuck]

/-- Reading fails in a stuck configuration and changes nothing. -/
theorem read?_of_stuck (hstuck : c.isStuck = true) (a : α) : m.read? c a = some c := by
  obtain ⟨_ | _, stack⟩ := c
  · cases hstuck
  · exact read?_of_no_move (.of_stuck rfl) ruleFor?_stuck

/-- Giving up on the rest of the word makes no difference. -/
theorem run?_cons (m : Machine σ α) (c : Configuration σ α) (a : α) (w : List α) :
    m.run? c (a :: w) = (m.read? c a).bind fun next => m.run? next w := by
  by_cases hstuck : c.isStuck = true
  · rw [run?_stuck hstuck, read?_of_stuck hstuck, Option.bind_some, run?_stuck hstuck]
  · rw [run?, if_neg hstuck]

/-- What the machine makes of a word is what all runs make of it: either it is in a
configuration from which free moves lead wherever a run that reads the word leads, or it is
stuck and there is no such run. -/
theorem read_iff (hrules : Deterministic m.rules) (hlive : c.isStuck = false)
    (hends : FreeMovesEnd m.rules c) (w : List α) :
    ∃ d, m.run? c w = some d ∧
      (d.isStuck = false ∧ (∀ e, Run m.rules c w e ↔ Run m.rules d [] e) ∨
        d.isStuck = true ∧ ∀ e, ¬ Run m.rules c w e) := by
  induction w generalizing c with
  | nil => exact ⟨c, rfl, .inl ⟨hlive, fun _ => .rfl⟩⟩
  | cons a w ih =>
    obtain ⟨s, hs⟩ := hends.exists_settles
    rw [run?_cons]
    cases hrule : ruleFor? m.rules s (some a) with
    | none =>
      have hnone := ruleFor?_eq_none_iff.1 hrule
      refine ⟨s.stuck, ?_, .inr ⟨rfl, fun e hrun => ?_⟩⟩
      · rw [read?_of_no_move hs hrule]
        exact run?_stuck rfl w
      · obtain ⟨d, hmove, _⟩ := (hs.run_cons_iff hrules).1 hrun
        exact hnone d hmove
    | some rule =>
      have hmove := moves_of_ruleFor? hrule
      -- Runs pass `s` to read `a`, and there all rules for `a` do what the first one does.
      have hreads : ∀ e, Run m.rules c (a :: w) e ↔ Run m.rules (rule.follow s) w e := by
        intro e
        rw [hs.run_cons_iff hrules]
        constructor
        · intro hrun
          obtain ⟨d, hmove', hrest⟩ := hrun
          rwa [hrules.same_result hmove' hmove] at hrest
        · intro hrest
          exact ⟨_, hmove, hrest⟩
      have hnext : FreeMovesEnd m.rules (rule.follow s) :=
        hends.after_run (hs.run.append (hmove.run (.refl _)))
      obtain ⟨d, hd, houtcome⟩ := ih (c := rule.follow s) rfl hnext
      refine ⟨d, ?_, ?_⟩
      · rw [read?_of_move hs hrule]
        exact hd
      · simpa only [hreads] using houtcome

theorem accepting?_of_stuck (hstuck : c.isStuck = true) : m.accepting? c = some false := by
  obtain ⟨_ | _, stack⟩ := c
  · cases hstuck
  · rfl

/-- A configuration that can still move accepts if the free moves lead to an accept state
and to rest. -/
theorem accepting?_of_settles (hrules : Deterministic m.rules) (hlive : c.isStuck = false)
    (hs : Settles m.rules c s) :
    ∃ accepted, m.accepting? c = some accepted ∧
      (accepted = true ↔ ∃ e q, Run m.rules c [] e ∧ Resting m.rules e ∧
        e.control = .live q ∧ q ∈ m.accept) := by
  have hcontrol : s.isStuck = false := hs.isStuck_eq.trans hlive
  obtain ⟨q | _, stack⟩ := s
  · refine ⟨decide (q ∈ m.accept), ?_, ?_⟩
    · rw [accepting?, settle?_eq_some_iff.2 hs]
      rfl
    · rw [decide_eq_true_iff]
      constructor
      · intro hq
        exact ⟨_, q, hs.run, hs.resting, rfl, hq⟩
      · intro hrun
        obtain ⟨e, r, hrun, hresting, hr, haccept⟩ := hrun
        obtain rfl := hs.eq_of_resting hrules hrun hresting
        cases hr
        exact haccept
  · cases hcontrol

/-- If the rules are deterministic and free moves end, the greedy run decides what runs by
rules can do. A word is accepted if and only if some run that reads it from the initial
configuration comes to rest in an accept state, and the machine is stuck after the word if
and only if no run reads all of it. -/
theorem greedy_run_decides (m : Machine σ α) (hrules : Deterministic m.rules)
    (hends : FreeMovesEnd m.rules m.initial) (w : List α) :
    (∃ accepted, m.accepts? w = some accepted ∧
      (accepted = true ↔ ∃ c q, Run m.rules m.initial w c ∧ Resting m.rules c ∧
        c.control = .live q ∧ q ∈ m.accept)) ∧
    ∃ c, m.run? m.initial w = some c ∧
      (c.isStuck = true ↔ ∀ d, ¬ Run m.rules m.initial w d) := by
  obtain ⟨c, hc, houtcome⟩ := read_iff hrules rfl hends w
  rw [accepts?, hc, Option.bind_some]
  rcases houtcome with ⟨hlive, hruns⟩ | ⟨hstuck, hnone⟩
  · have hrun : Run m.rules m.initial w c := (hruns c).2 (.refl c)
    obtain ⟨s, hs⟩ := (hends.after_run hrun).exists_settles
    obtain ⟨accepted, haccepting, hiff⟩ := accepting?_of_settles hrules hlive hs
    constructor
    · refine ⟨accepted, ?_, ?_⟩
      · simp [haccepting, hlive]
      · simp only [hiff, hruns]
    · refine ⟨c, rfl, ?_⟩
      rw [hlive]
      constructor
      · intro hfalse
        cases hfalse
      · intro hnone
        exact absurd hrun (hnone c)
  · constructor
    · refine ⟨false, ?_, ?_⟩
      · simp [accepting?_of_stuck hstuck]
      · simp [hnone]
    · exact ⟨c, rfl, fun _ => hnone, fun _ => hstuck⟩

/-- On balanced brackets the machine finds a run that comes to rest in the accept state;
on a closing bracket too many it is stuck, so no run reads that word. -/
theorem greedy_run_decides_of_brackets :
    Deterministic balancedMachine.rules ∧
      FreeMovesEnd balancedMachine.rules balancedMachine.initial ∧
      (∃ c q, Run balancedMachine.rules balancedMachine.initial ['(', ')'] c ∧
        Resting balancedMachine.rules c ∧ c.control = .live q ∧ q ∈ balancedMachine.accept) ∧
      ∀ d, ¬ Run balancedMachine.rules balancedMachine.initial ['(', ')', ')'] d := by
  have hrules := deterministic_balancedMachine
  have hends := freeMovesEnd_balancedMachine balancedMachine.initial
  refine ⟨hrules, hends, ?_, ?_⟩
  · obtain ⟨accepted, haccepts, hiff⟩ :=
      (greedy_run_decides balancedMachine hrules hends ['(', ')']).1
    have hvalue : balancedMachine.accepts? ['(', ')'] = some true := by cbv
    rw [hvalue] at haccepts
    exact hiff.1 (Option.some.inj haccepts).symm
  · obtain ⟨c, hc, hiff⟩ :=
      (greedy_run_decides balancedMachine hrules hends ['(', ')', ')']).2
    have hvalue : (balancedMachine.run? balancedMachine.initial ['(', ')', ')']).map
        Configuration.isStuck = some true := by cbv
    rw [hc] at hvalue
    exact hiff.1 (Option.some.inj hvalue)

end Machine

end Acceptor.Pushdown
