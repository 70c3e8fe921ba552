import Acceptor.Proofs.Pushdown.Greedy

/-!
# Histories of a pushdown machine

A machine is read to symbol by symbol or a word at a time, and it is looked at in between.
Looking does not move it, and a stuck machine ignores what it is given, so reading a word is
reading its symbols (`foldlM_read?`) and all that is left of a history of calls is the word
that was supplied (`performAll?_eq_run?`). This holds for any rules, as long as free moves
end wherever the machine is looked at.
-/

namespace Acceptor.Pushdown.Machine

/-- A call of a running machine. The last three only look at it. -/
inductive Call (α : Type) where
  | read (a : α)
  | readAll (w : List α)
  | configuration
  | accepting
  | isStuck

namespace Call

variable {α : Type}

/-- The symbols that a call supplies. -/
def supplied : Call α → List α
  | read a => [a]
  | readAll w => w
  | configuration | accepting | isStuck => []

end Call

variable {σ α : Type} [Ordered σ] [DecidableEq α]

/-- The configuration after a call; `none` if the call does not return because free moves
never end. -/
def perform? (m : Machine σ α) (c : Configuration σ α) : Call α → Option (Configuration σ α)
  | .read a => m.read? c a
  | .readAll w => m.run? c w
  | .configuration => (settle? m.rules c).map fun _ => c
  | .accepting => (m.accepting? c).map fun _ => c
  | .isStuck => some c

def performAll? (m : Machine σ α) (c : Configuration σ α) (calls : List (Call α)) :
    Option (Configuration σ α) :=
  calls.foldlM m.perform? c

/-- Free moves end in every configuration that the machine is in while it reads the word. -/
def SettlesAlong (m : Machine σ α) (c : Configuration σ α) (w : List α) : Prop :=
  ∀ u d, u <+: w → m.run? c u = some d → ∃ s, Settles m.rules d s

variable {m : Machine σ α} {c d s : Configuration σ α} {a : α} {u v w : List α}

theorem run?_singleton (m : Machine σ α) (c : Configuration σ α) (a : α) :
    m.run? c [a] = m.read? c a := by
  rw [run?_cons]
  exact Option.bind_fun_some _

theorem foldlM_read? (m : Machine σ α) (c : Configuration σ α) (w : List α) :
    w.foldlM m.read? c = m.run? c w := by
  induction w generalizing c with
  | nil => rfl
  | cons a w ih =>
    rw [List.foldlM_cons, run?_cons]
    apply congrArg
    funext next
    exact ih next

theorem run?_append (m : Machine σ α) (c : Configuration σ α) (u v : List α) :
    m.run? c (u ++ v) = (m.run? c u).bind fun next => m.run? next v := by
  simp only [← foldlM_read?, List.foldlM_append]
  rfl

/-- A symbol that is read is read by a rule, or there is none and the machine is stuck with
the stack that free moves leave. -/
theorem read?_eq_some (hread : m.read? c a = some d) :
    ∃ s, Settles m.rules c s ∧
      ((∃ rule, ruleFor? m.rules s (some a) = some rule ∧ d = rule.follow s) ∨
        ruleFor? m.rules s (some a) = none ∧ d = s.stuck) := by
  have hsettle : ∃ s, settle? m.rules c = some s := by
    rw [read?] at hread
    obtain ⟨s, hs, _⟩ := Option.map_eq_some_iff.1 hread
    exact ⟨s, hs⟩
  obtain ⟨s, hs⟩ := hsettle
  have hs := settle?_eq_some_iff.1 hs
  refine ⟨s, hs, ?_⟩
  cases hrule : ruleFor? m.rules s (some a) with
  | none =>
    rw [read?_of_no_move hs hrule] at hread
    exact .inr ⟨rfl, (Option.some.inj hread).symm⟩
  | some rule =>
    rw [read?_of_move hs hrule] at hread
    exact .inl ⟨rule, rfl, (Option.some.inj hread).symm⟩

/-- A machine that is stuck after a word was stuck before it, or it found no rule for one of
the symbols and keeps the stack of the free moves before that symbol. -/
theorem exists_of_run?_stuck (hrun : m.run? c w = some d) (hstuck : d.isStuck = true) :
    c.isStuck = true ∧ d = c ∨
      ∃ u a v e s, w = u ++ a :: v ∧ m.run? c u = some e ∧ e.isStuck = false ∧
        Settles m.rules e s ∧ ruleFor? m.rules s (some a) = none ∧ d = s.stuck := by
  induction w generalizing c with
  | nil =>
    cases hrun
    exact .inl ⟨hstuck, rfl⟩
  | cons a w ih =>
    cases hc : c.isStuck with
    | true =>
      rw [run?_stuck hc] at hrun
      exact .inl ⟨rfl, (Option.some.inj hrun).symm⟩
    | false =>
      rw [run?_cons] at hrun
      obtain ⟨next, hread, hrest⟩ := Option.bind_eq_some_iff.1 hrun
      obtain ⟨s, hs, ⟨rule, _, rfl⟩ | ⟨hnone, rfl⟩⟩ := read?_eq_some hread
      -- a rule leaves the machine live, so it got stuck at a later symbol
      · rcases ih hrest with ⟨hlive, _⟩ | ⟨u, b, v, e, t, rfl, hu, he, ht, hb, hd⟩
        · cases hlive
        · refine .inr ⟨a :: u, b, v, e, t, rfl, ?_, he, ht, hb, hd⟩
          rw [run?_cons, hread]
          exact hu
      · rw [run?_stuck rfl] at hrest
        exact .inr ⟨[], a, w, c, s, rfl, rfl, hc, hs, hnone, (Option.some.inj hrest).symm⟩

namespace SettlesAlong

theorem exists_settles (h : m.SettlesAlong c w) : ∃ s, Settles m.rules c s :=
  h [] c (List.nil_prefix) rfl

theorem of_append (h : m.SettlesAlong c (u ++ v)) : m.SettlesAlong c u :=
  fun u' d hu => h u' d (hu.trans (List.prefix_append u v))

theorem after (h : m.SettlesAlong c (u ++ v)) (hrun : m.run? c u = some d) :
    m.SettlesAlong d v := by
  intro v' e hv hrest
  refine h (u ++ v') e ((List.prefix_append_right_inj u).2 hv) ?_
  rw [run?_append, hrun]
  exact hrest

theorem exists_run? (h : m.SettlesAlong c w) : ∃ d, m.run? c w = some d := by
  induction w generalizing c with
  | nil => exact ⟨c, rfl⟩
  | cons a w ih =>
    obtain ⟨s, hs⟩ := h.exists_settles
    obtain ⟨next, hread⟩ : ∃ next, m.read? c a = some next := by
      rw [read?, settle?_eq_some_iff.2 hs]
      exact ⟨_, rfl⟩
    have hrest : m.SettlesAlong next w := after (u := [a]) h ((m.run?_singleton c a).trans hread)
    rw [run?_cons, hread]
    exact ih hrest

/-- A call returns, and it does to the machine what reading the supplied symbols does. -/
theorem perform?_eq_run? {call : Call α} (h : m.SettlesAlong c (call.supplied ++ v)) :
    m.perform? c call = m.run? c call.supplied := by
  obtain ⟨s, hs⟩ := h.exists_settles
  have hsettle := settle?_eq_some_iff.2 hs
  cases call with
  | read a => exact (m.run?_singleton c a).symm
  | readAll w => rfl
  | configuration =>
    rw [perform?, hsettle]
    rfl
  | accepting =>
    rw [perform?, accepting?, hsettle]
    rfl
  | isStuck => rfl

/-- All that is left of a history is the word that was supplied. -/
theorem performAll?_eq_run? {calls : List (Call α)}
    (h : m.SettlesAlong c (calls.flatMap Call.supplied)) :
    m.performAll? c calls = m.run? c (calls.flatMap Call.supplied) := by
  induction calls generalizing c with
  | nil => rfl
  | cons call calls ih =>
    rw [List.flatMap_cons] at h ⊢
    obtain ⟨d, hd⟩ := h.of_append.exists_run?
    rw [performAll?, List.foldlM_cons, h.perform?_eq_run?, run?_append, hd]
    exact ih (h.after hd)

end SettlesAlong

/-- A stuck machine returns from every call as it was. -/
theorem performAll?_of_stuck (hstuck : c.isStuck = true) (calls : List (Call α)) :
    m.performAll? c calls = some c := by
  have hends : m.SettlesAlong c (calls.flatMap Call.supplied) := by
    intro u d _ hrun
    rw [run?_stuck hstuck] at hrun
    obtain rfl := Option.some.inj hrun
    exact ⟨c, .of_stuck hstuck⟩
  rw [hends.performAll?_eq_run?, run?_stuck hstuck]

/-- What a machine makes of a history depends only on the symbols that were supplied. However
they are cut into calls, and whatever looks at the machine in between, it comes to the
configuration that reading the word or its symbols one by one comes to, and this
configuration and the one that is looked at are stuck together. Once the machine is stuck it
does not accept, and no call changes it any more. It keeps the stack that the free moves
before the failing symbol leave. -/
theorem supplied_determines (m : Machine σ α) (c : Configuration σ α) (w : List α)
    (hends : m.SettlesAlong c w) :
    ∃ d s accepted,
      (∀ calls, calls.flatMap Call.supplied = w → m.performAll? c calls = some d) ∧
      m.run? c w = some d ∧ w.foldlM m.read? c = some d ∧
      settle? m.rules d = some s ∧ m.accepting? d = some accepted ∧ s.isStuck = d.isStuck ∧
      (d.isStuck = true → s = d ∧ accepted = false ∧
        ∀ later, m.performAll? d later = some d) ∧
      (d.isStuck = true → c.isStuck = true ∧ d = c ∨
        ∃ u a v e t, w = u ++ a :: v ∧ m.run? c u = some e ∧ e.isStuck = false ∧
          Settles m.rules e t ∧ ruleFor? m.rules t (some a) = none ∧ d = t.stuck) := by
  obtain ⟨d, hd⟩ := hends.exists_run?
  obtain ⟨s, hs⟩ := hends w d (List.prefix_refl w) hd
  have hsettle := settle?_eq_some_iff.2 hs
  obtain ⟨accepted, haccepting⟩ : ∃ accepted, m.accepting? d = some accepted := by
    rw [accepting?, hsettle]
    exact ⟨_, rfl⟩
  refine ⟨d, s, accepted, ?_, hd, ?_, hsettle, haccepting, hs.isStuck_eq, ?_,
    exists_of_run?_stuck hd⟩
  · intro calls hsupplied
    subst hsupplied
    rw [hends.performAll?_eq_run?, hd]
  · rw [foldlM_read?, hd]
  · intro hstuck
    have hstay : settle? m.rules d = some d := settle?_eq_some_iff.2 (.of_stuck hstuck)
    rw [accepting?_of_stuck hstuck] at haccepting
    exact ⟨Option.some.inj (hsettle.symm.trans hstay), (Option.some.inj haccepting).symm,
      performAll?_of_stuck hstuck⟩

/-- On a closing bracket too many the machine of balanced brackets gets stuck in the middle of
a call. It keeps the stack of its free move, and what is read afterwards makes no
difference. -/
theorem supplied_determines_of_brackets :
    balancedMachine.SettlesAlong balancedMachine.initial ['(', ')', ')', '('] ∧
      ∃ d, balancedMachine.performAll? balancedMachine.initial
          [.read '(', .isStuck, .readAll [')', ')'], .accepting, .read '('] = some d ∧
        d.isStuck = true ∧ d.stack.toList = ['$'] ∧
        balancedMachine.accepting? d = some false ∧ settle? balancedMachine.rules d = some d := by
  have hends : balancedMachine.SettlesAlong balancedMachine.initial ['(', ')', ')', '('] :=
    fun _ d _ _ => (freeMovesEnd_balancedMachine d).exists_settles
  have hvalue : (balancedMachine.run? balancedMachine.initial ['(', ')', ')', '(']).map
      (fun d => (d.isStuck, d.stack.toList)) = some (true, ['$']) := by cbv
  obtain ⟨d, s, accepted, hcalls, hrun, _, hsettle, haccepting, _, hstuck, _⟩ :=
    supplied_determines balancedMachine balancedMachine.initial _ hends
  rw [hrun] at hvalue
  obtain ⟨hd, hstack⟩ := Prod.mk.inj (Option.some.inj hvalue)
  obtain ⟨rfl, rfl, _⟩ := hstuck hd
  exact ⟨hends, s, hcalls _ rfl, hd, hstack, haccepting, hsettle⟩

end Acceptor.Pushdown.Machine
