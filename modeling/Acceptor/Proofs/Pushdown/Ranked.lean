import Acceptor.Proofs.Pushdown.Settling
import Acceptor.Pushdown.Languages

/-!
# Ranked rules

Free moves come to an end if the states have ranks which no free rule raises and which it
lowers whenever it pushes something. Neither the rank nor the height of the stack decreases
alone: a rule that lowers the rank may push as much as it likes, and rules that keep the rank
use that up again. What decreases is the rank first and the height second
(`Ranked.weight_lt`), and that a rule which pushes nothing lowers the height is due to the
symbol that every rule finds on top. So no chain of free moves is endless
(`Ranked.freeMovesEnd`), and every configuration settles (`settles_of_ranked`).
-/

namespace Acceptor.Pushdown

variable {σ α : Type} {rules : List (Rule σ α)} {rank : σ → Nat} {c d : Configuration σ α}

/-- Free rules lower the rank, or they keep it and push nothing. -/
def Ranked (rules : List (Rule σ α)) (rank : σ → Nat) : Prop :=
  ∀ rule ∈ rules, rule.label = none →
    rank rule.target < rank rule.source ∨
      rank rule.target = rank rule.source ∧ rule.push = []

instance [DecidableEq α] : Decidable (Ranked rules rank) :=
  inferInstanceAs (Decidable (∀ rule ∈ rules, rule.label = none →
    rank rule.target < rank rule.source ∨
      rank rule.target = rank rule.source ∧ rule.push = []))

/-- The rank of the control, lowest if it is stuck, and the height of the stack. -/
def Configuration.weight (rank : σ → Nat) (c : Configuration σ α) : Nat × Nat :=
  match c.control with
  | .live q => (rank q, c.stack.size)
  | .stuck => (0, c.stack.size)

/-- A rule that pushes nothing takes a symbol off the stack, since it applies only if there is
one. -/
theorem Rule.size_follow_lt {rule : Rule σ α} {label : Option α} (happ : rule.AppliesTo c label)
    (hpush : rule.push = []) : (rule.follow c).stack.size < c.stack.size := by
  obtain ⟨_, htop, _⟩ := happ
  obtain ⟨below, hstack⟩ := List.head?_eq_some_iff.1 htop
  rw [Stack.size_eq, Stack.size_eq, Rule.follow, Rule.nextStack, Stack.toList_pushAll,
    Stack.toList_pop, hstack, hpush]
  exact Nat.lt_succ_self below.length

/-- Every free move decreases the rank, or it keeps the rank and decreases the height. -/
theorem Ranked.weight_lt (hranked : Ranked rules rank) (hmove : Moves rules c none d) :
    Prod.Lex (· < ·) (· < ·) (d.weight rank) (c.weight rank) := by
  obtain ⟨rule, hmem, happ, rfl⟩ := hmove
  have hbefore : c.weight rank = (rank rule.source, c.stack.size) := by
    rw [Configuration.weight, happ.1]
  have hafter : (rule.follow c).weight rank = (rank rule.target, (rule.follow c).stack.size) := rfl
  rw [hbefore, hafter]
  rcases hranked rule hmem happ.2.2 with hlower | ⟨hkeep, hpush⟩
  · exact Prod.Lex.left _ _ hlower
  · rw [hkeep]
    exact Prod.Lex.right _ (Rule.size_follow_lt happ hpush)

theorem Ranked.wellFounded (hranked : Ranked rules rank) :
    WellFounded fun d c => Moves rules c none d :=
  Subrelation.wf hranked.weight_lt
    (InvImage.wf (Configuration.weight rank) (Prod.lex Nat.lt_wfRel Nat.lt_wfRel).wf)

theorem Ranked.freeMovesEnd (hranked : Ranked rules rank) (c : Configuration σ α) :
    FreeMovesEnd rules c := by
  intro chain _ hmoves
  exact (wellFounded_iff_isEmpty_descending_chain.1 hranked.wellFounded).false ⟨chain, hmoves⟩

variable [DecidableEq σ] [DecidableEq α]

/-- If the rules are ranked, free moves end in a normal form. No chain of free moves goes on
forever, whichever of the rules that apply it uses. Following the first one as long as there
is one finds a configuration which free moves lead to and to which no free rule applies, and
following free moves from there changes nothing. -/
theorem settles_of_ranked (rules : List (Rule σ α)) (rank : σ → Nat)
    (hranked : Ranked rules rank) (c : Configuration σ α) :
    (∀ chain : Nat → Configuration σ α, chain 0 = c →
      ¬ ∀ n, Moves rules (chain n) none (chain (n + 1))) ∧
    ∃ d, settle? rules c = some d ∧ Settles rules c d ∧ Run rules c [] d ∧
      (∀ rule ∈ rules, ¬ rule.AppliesTo d none) ∧ settle? rules d = some d := by
  have hends := hranked.freeMovesEnd c
  obtain ⟨d, hd⟩ := hends.exists_settles
  have hresting : Settles rules d d := .done (ruleFor?_eq_none_iff.2 hd.resting)
  refine ⟨fun chain hstart => hends chain ⟨[], hstart ▸ .refl _⟩, d, ?_, hd, hd.run, ?_, ?_⟩
  · exact settle?_eq_some_iff.2 hd
  · intro rule hmem happ
    exact hd.resting _ ⟨rule, hmem, happ, rfl⟩
  · exact settle?_eq_some_iff.2 hresting

/-- The rule that lowers the rank pushes three symbols, and a rule that keeps the rank uses
them up. -/
theorem settles_of_ranked_of_unfolding :
    let rules : List (Rule Nat Char) := [.free 0 0 'b' [], .free 1 0 'a' ['b', 'b', 'b']]
    let c : Configuration Nat Char := ⟨.live 1, .ofList ['a', '$']⟩
    let d : Configuration Nat Char := ⟨.live 0, .ofList ['$']⟩
    Ranked rules id ∧ settle? rules c = some d ∧ Settles rules c d ∧ Run rules c [] d ∧
      (∀ rule ∈ rules, ¬ rule.AppliesTo d none) ∧ settle? rules d = some d := by
  intro rules c d
  have hranked : Ranked rules id := by decide
  have hvalue : settle? rules c = some d := by cbv
  obtain ⟨_, e, hsettle, hd, hrun, hresting, hstay⟩ := settles_of_ranked rules id hranked c
  obtain rfl : d = e := Option.some.inj (hvalue.symm.trans hsettle)
  exact ⟨hranked, hsettle, hd, hrun, hresting, hstay⟩

end Acceptor.Pushdown
