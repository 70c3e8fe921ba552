import Acceptor.Proofs.Pushdown.Greedy
import Acceptor.SortedSet.Lemmas

/-!
# The languages of the two machines

The machines of balanced brackets and of as many `a` as `b` accept their languages. What they
keep on the stack is a number: how many brackets are open, or by how many letters one kind is
ahead. `Tracks` says that a machine keeps a value in this way. It is about one symbol, and the
run lemma `Tracks.exists_accepts?_iff` follows by induction on the word: any property of values
and words that starts and goes on like the machine is what the machine accepts. What is left
are facts about words and numbers, which know nothing of machines.
-/

namespace Acceptor.Pushdown

namespace Machine

variable {σ α β : Type} [Ordered σ] [DecidableEq α] {m : Machine σ α} {c : Configuration σ α}
  {view : β → Configuration σ α} {next : β → α → Option β} {b b' : β} {a : α} {w : List α}

/-- The machine keeps a value: `view` shows it at rest, and reading a symbol leads to the view
of the next value, or there is no rule if there is no next value. -/
structure Tracks (m : Machine σ α) (view : β → Configuration σ α) (next : β → α → Option β) :
    Prop where
  live : ∀ b, (view b).isStuck = false
  move : ∀ {b a b'}, next b a = some b' → ∃ rule,
    ruleFor? m.rules (view b) (some a) = some rule ∧ Settles m.rules (rule.follow (view b)) (view b')
  refuse : ∀ {b a}, next b a = none → ruleFor? m.rules (view b) (some a) = none

namespace Tracks

theorem run?_of_some (h : m.Tracks view next) (hc : Settles m.rules c (view b))
    (hw : w.foldlM next b = some b') :
    ∃ d, m.run? c w = some d ∧ Settles m.rules d (view b') := by
  induction w generalizing b c with
  | nil =>
    cases hw
    exact ⟨c, rfl, hc⟩
  | cons a w ih =>
    rw [List.foldlM_cons] at hw
    obtain ⟨b₁, hnext, hrest⟩ := Option.bind_eq_some_iff.1 hw
    obtain ⟨rule, hrule, hsettles⟩ := h.move hnext
    rw [run?_cons, read?_of_move hc hrule]
    exact ih hsettles hrest

/-- Where there is no next value the machine gets stuck. -/
theorem run?_of_none (h : m.Tracks view next) (hc : Settles m.rules c (view b))
    (hw : w.foldlM next b = none) : ∃ d, m.run? c w = some d ∧ d.isStuck = true := by
  induction w generalizing b c with
  | nil => cases hw
  | cons a w ih =>
    rw [List.foldlM_cons] at hw
    cases hnext : next b a with
    | none =>
      refine ⟨(view b).stuck, ?_, rfl⟩
      rw [run?_cons, read?_of_no_move hc (h.refuse hnext)]
      exact run?_stuck rfl w
    | some b₁ =>
      rw [hnext] at hw
      obtain ⟨rule, hrule, hsettles⟩ := h.move hnext
      rw [run?_cons, read?_of_move hc hrule]
      exact ih hsettles hw

/-- A word is accepted if its symbols lead to a value that is shown in an accept state. -/
theorem exists_accepts?_iff_foldlM (h : m.Tracks view next)
    (hstart : Settles m.rules m.initial (view b)) (w : List α) :
    ∃ accepted, m.accepts? w = some accepted ∧
      (accepted = true ↔ ∃ b', w.foldlM next b = some b' ∧
        ∃ q, (view b').control = .live q ∧ q ∈ m.accept) := by
  cases hw : w.foldlM next b with
  | none =>
    obtain ⟨d, hrun, hstuck⟩ := h.run?_of_none hstart hw
    refine ⟨false, ?_, by simp⟩
    rw [accepts?, hrun, Option.bind_some, accepting?_of_stuck hstuck, hstuck]
    rfl
  | some b' =>
    obtain ⟨d, hrun, hsettles⟩ := h.run?_of_some hstart hw
    have hlive : d.isStuck = false := hsettles.isStuck_eq.symm.trans (h.live b')
    cases hcontrol : (view b').control with
    | stuck =>
      have hstuck := h.live b'
      rw [Configuration.isStuck, hcontrol] at hstuck
      cases hstuck
    | live q =>
      refine ⟨q ∈ m.accept, ?_, by simp [hcontrol]⟩
      rw [accepts?, hrun, Option.bind_some, accepting?, settle?_eq_some_iff.2 hsettles, hlive,
        Option.map_some, hcontrol]
      simp

/-- The language of a machine that keeps a value is determined by what it makes of the empty
word and of the first symbol. -/
theorem exists_accepts?_iff {P : β → List α → Prop} (h : m.Tracks view next)
    (hstart : Settles m.rules m.initial (view b))
    (hnil : ∀ b, P b [] ↔ ∃ q, (view b).control = .live q ∧ q ∈ m.accept)
    (hcons : ∀ b a w, P b (a :: w) ↔ ∃ b', next b a = some b' ∧ P b' w) (w : List α) :
    ∃ accepted, m.accepts? w = some accepted ∧ (accepted = true ↔ P b w) := by
  have hfold : ∀ b, P b w ↔ ∃ b', w.foldlM next b = some b' ∧
      ∃ q, (view b').control = .live q ∧ q ∈ m.accept := by
    induction w with
    | nil => simp [hnil]
    | cons a w ih =>
      intro b
      rw [hcons, List.foldlM_cons]
      cases hnext : next b a with
      | none => simp
      | some b' => simp [ih]
  rw [hfold b]
  exact h.exists_accepts?_iff_foldlM hstart w

end Tracks

end Machine

/-- No rule can be used if none of those with the right source and the right symbol on top has
the label. -/
theorem ruleFor?_eq_none_of_head {σ α : Type} [DecidableEq σ] [DecidableEq α]
    {rules : List (Rule σ α)} {q : σ} {x : α} {s : List α} {label : Option α}
    (labels : List (Option α))
    (hrules : ∀ rule ∈ rules, rule.source = q → rule.pop = x → rule.label ∈ labels)
    (hlabel : label ∉ labels) : ruleFor? rules ⟨.live q, .ofList (x :: s)⟩ label = none := by
  refine ruleFor?_eq_none_iff.2 fun d hmove => ?_
  obtain ⟨rule, hmem, ⟨hcontrol, htop, rfl⟩, _⟩ := hmove
  exact hlabel (hrules rule hmem (Control.live.inj hcontrol).symm (Option.some.inj htop).symm)

/-- The state 2 with `n` times the letter `x` above the bottom. -/
def piled (x : Char) (n : Nat) : Configuration Nat Char :=
  ⟨.live 2, .ofList (List.replicate n x ++ ['$'])⟩

/-- The same at rest: with nothing but the bottom the machine is in the state 1. -/
def counted (x : Char) : Nat → Configuration Nat Char
  | 0 => ⟨.live 1, .ofList ['$']⟩
  | n + 1 => piled x (n + 1)

/-- The free rule of both machines leads to the state 1 when the pile is used up. -/
theorem settles_piled {rules : List (Rule Nat Char)} {x : Char}
    (hbottom : freeRule? rules 2 '$' = some (.free 2 1 '$' ['$']))
    (hfirst : freeRule? rules 1 '$' = none) (hletter : freeRule? rules 2 x = none) (n : Nat) :
    Settles rules (piled x n) (counted x n) := by
  cases n with
  | zero => exact .move (ruleFor?_live.trans hbottom) (.done (ruleFor?_live.trans hfirst))
  | succ n => exact .done (ruleFor?_live.trans hletter)

theorem isStuck_counted (x : Char) (n : Nat) : (counted x n).isStuck = false := by
  cases n <;> rfl

/-- The state 1 shows that nothing is piled up. -/
theorem exists_control_counted_iff {x : Char} {n : Nat} :
    (∃ q, (counted x n).control = .live q ∧ q ∈ SortedSet.singleton 1) ↔ n = 0 := by
  cases n <;> simp [counted, piled]

/-! ### Brackets -/

/-- How many brackets are open after one more symbol. -/
def nest : Nat → Char → Option Nat
  | n, '(' => some (n + 1)
  | n + 1, ')' => some n
  | _, _ => none

theorem nest_eq_some_iff {n n' : Nat} {c : Char} :
    nest n c = some n' ↔ c = '(' ∧ n' = n + 1 ∨ c = ')' ∧ n = n' + 1 := by
  constructor
  · intro h
    rw [nest.eq_def] at h
    split at h <;> grind
  · rintro (⟨rfl, rfl⟩ | ⟨rfl, rfl⟩) <;> rfl

theorem tracks_balanced : balancedMachine.Tracks (counted 'b') nest where
  live := isStuck_counted 'b'
  move {n a n'} h := by
    have hsettles : ∀ k, Settles balancedMachine.rules (piled 'b' k) (counted 'b' k) :=
      settles_piled rfl rfl rfl
    rcases nest_eq_some_iff.1 h with ⟨rfl, rfl⟩ | ⟨rfl, rfl⟩
    · cases n with
      | zero => exact ⟨.reading 1 '(' 2 '$' ['b', '$'], rfl, hsettles 1⟩
      | succ n => exact ⟨.reading 2 '(' 2 'b' ['b', 'b'], rfl, hsettles (n + 2)⟩
    · exact ⟨.reading 2 ')' 2 'b' [], rfl, hsettles n'⟩
  refuse {n a} h := by
    cases n with
    | zero =>
      refine ruleFor?_eq_none_of_head [some '('] (by decide) ?_
      rw [List.mem_singleton, Option.some_inj]
      rintro rfl
      cases h
    | succ n =>
      refine ruleFor?_eq_none_of_head [some '(', some ')'] (by decide) ?_
      simp only [List.mem_cons, Option.some_inj, List.not_mem_nil, or_false]
      rintro (rfl | rfl) <;> cases h

/-- The brackets close `n` brackets that are open and all of their own. -/
def Closes (n : Nat) (w : List Char) : Prop :=
  (∀ c ∈ w, c = '(' ∨ c = ')') ∧ (∀ u v, w = u ++ v → u.count ')' ≤ n + u.count '(') ∧
    n + w.count '(' = w.count ')'

theorem closes_zero_iff {w : List Char} : Closes 0 w ↔ Balanced w := by
  simp only [Closes, Balanced, Nat.zero_add]

theorem closes_nil_iff {n : Nat} : Closes n [] ↔ n = 0 := by
  simp [Closes]

theorem forall_append_cons_iff {α : Type} {P : List α → Prop} {a : α} {w : List α} :
    (∀ u v, a :: w = u ++ v → P u) ↔ P [] ∧ ∀ u v, w = u ++ v → P (a :: u) := by
  constructor
  · intro h
    exact ⟨h [] _ rfl, fun u v huv => h (a :: u) v (by rw [huv, List.cons_append])⟩
  · rintro ⟨hnil, hcons⟩ u v huv
    cases u with
    | nil => exact hnil
    | cons b u =>
      obtain ⟨rfl, hw⟩ := List.cons_eq_cons.1 huv
      exact hcons u v hw

theorem closes_cons_open {n : Nat} {w : List Char} : Closes n ('(' :: w) ↔ Closes (n + 1) w := by
  have hclose (u : List Char) : ('(' :: u).count ')' = u.count ')' :=
    List.count_cons_of_ne (by decide)
  have hopen (u : List Char) : n + ('(' :: u).count '(' = n + 1 + u.count '(' := by
    rw [List.count_cons_self, Nat.add_assoc, Nat.add_comm 1]
  simp only [Closes, forall_append_cons_iff, List.forall_mem_cons, hclose, hopen]
  simp

theorem closes_cons_close {n : Nat} {w : List Char} :
    Closes (n + 1) (')' :: w) ↔ Closes n w := by
  have hopen (u : List Char) : (')' :: u).count '(' = u.count '(' :=
    List.count_cons_of_ne (by decide)
  simp only [Closes, forall_append_cons_iff, List.forall_mem_cons, hopen, List.count_cons_self]
  simp [Nat.add_right_comm n 1]

theorem closes_cons_iff {n : Nat} {c : Char} {w : List Char} :
    Closes n (c :: w) ↔ ∃ n', nest n c = some n' ∧ Closes n' w := by
  constructor
  · intro h
    rcases h.1 c List.mem_cons_self with rfl | rfl
    · exact ⟨n + 1, rfl, closes_cons_open.1 h⟩
    · -- the bracket alone is a prefix, so there is one that it closes
      have hfirst : 1 ≤ n := h.2.1 [')'] w rfl
      obtain ⟨k, rfl⟩ := Nat.exists_eq_add_of_le' hfirst
      exact ⟨k, rfl, closes_cons_close.1 h⟩
  · rintro ⟨n', hnest, h⟩
    rcases nest_eq_some_iff.1 hnest with ⟨rfl, rfl⟩ | ⟨rfl, rfl⟩
    · exact closes_cons_open.2 h
    · exact closes_cons_close.2 h

/-! ### Letters -/

/-- By how many letters `a` is ahead of `b` after one more symbol. -/
def lead (d : Int) : Char → Option Int
  | 'a' => some (d + 1)
  | 'b' => some (d - 1)
  | _ => none

theorem lead_eq_some_iff {d e : Int} {c : Char} :
    lead d c = some e ↔ c = 'a' ∧ e = d + 1 ∨ c = 'b' ∧ e = d - 1 := by
  constructor
  · intro h
    rw [lead.eq_def] at h
    split at h <;> grind
  · rintro (⟨rfl, rfl⟩ | ⟨rfl, rfl⟩) <;> rfl

/-- The letter that is ahead is on the stack, as often as it is ahead. -/
def ahead : Int → Configuration Nat Char
  | .ofNat n => counted 'a' n
  | .negSucc n => counted 'b' (n + 1)

theorem ahead_neg (n : Nat) : ahead (-n) = counted 'b' n := by
  cases n <;> rfl

theorem exists_control_ahead_iff {d : Int} :
    (∃ q, (ahead d).control = .live q ∧ q ∈ SortedSet.singleton 1) ↔ d = 0 := by
  cases d with
  | ofNat n =>
    rw [ahead, exists_control_counted_iff]
    exact Int.natCast_eq_zero.symm
  | negSucc n =>
    rw [ahead, exists_control_counted_iff]
    simp

theorem tracks_even : evenMachine.Tracks ahead lead where
  live d := by
    cases d with
    | ofNat n => exact isStuck_counted 'a' n
    | negSucc n => exact isStuck_counted 'b' (n + 1)
  move {d c e} h := by
    have hsettlesA : ∀ k, Settles evenMachine.rules (piled 'a' k) (counted 'a' k) :=
      settles_piled rfl rfl rfl
    have hsettlesB : ∀ k, Settles evenMachine.rules (piled 'b' k) (counted 'b' k) :=
      settles_piled rfl rfl rfl
    rcases lead_eq_some_iff.1 h with ⟨rfl, rfl⟩ | ⟨rfl, rfl⟩
    · cases d with
      | ofNat n =>
        cases n with
        | zero => exact ⟨.reading 1 'a' 2 '$' ['a', '$'], rfl, hsettlesA 1⟩
        | succ n => exact ⟨.reading 2 'a' 2 'a' ['a', 'a'], rfl, hsettlesA (n + 2)⟩
      | negSucc n =>
        have hnext : Int.negSucc n + 1 = -(n : Int) := by omega
        rw [hnext, ahead_neg]
        exact ⟨.reading 2 'a' 2 'b' [], rfl, hsettlesB n⟩
    · cases d with
      | ofNat n =>
        cases n with
        | zero => exact ⟨.reading 1 'b' 2 '$' ['b', '$'], rfl, hsettlesB 1⟩
        | succ n =>
          have hnext : Int.ofNat (n + 1) - 1 = .ofNat n := Int.add_sub_cancel (.ofNat n) 1
          rw [hnext]
          exact ⟨.reading 2 'b' 2 'a' [], rfl, hsettlesA n⟩
      | negSucc n => exact ⟨.reading 2 'b' 2 'b' ['b', 'b'], rfl, hsettlesB (n + 2)⟩
  refuse {d c} h := by
    have hlabel : some c ∉ [some 'a', some 'b'] := by
      simp only [List.mem_cons, Option.some_inj, List.not_mem_nil, or_false]
      rintro (rfl | rfl) <;> cases h
    cases d with
    | ofNat n =>
      cases n with
      | zero => exact ruleFor?_eq_none_of_head _ (by decide) hlabel
      | succ n => exact ruleFor?_eq_none_of_head _ (by decide) hlabel
    | negSucc n => exact ruleFor?_eq_none_of_head _ (by decide) hlabel

/-- Letters that make up for a lead of `d`. -/
def Evens (d : Int) (w : List Char) : Prop :=
  (∀ c ∈ w, c = 'a' ∨ c = 'b') ∧ d + w.count 'a' = w.count 'b'

theorem evens_zero_iff {w : List Char} : Evens 0 w ↔ Even w := by
  simp only [Evens, Even, Int.zero_add, Int.natCast_inj]

theorem evens_nil_iff {d : Int} : Evens d [] ↔ d = 0 := by
  simp [Evens]

theorem evens_cons_a {d : Int} {w : List Char} : Evens d ('a' :: w) ↔ Evens (d + 1) w := by
  have hcounts : d + ('a' :: w).count 'a' = ('a' :: w).count 'b' ↔
      d + 1 + w.count 'a' = w.count 'b' := by
    rw [List.count_cons_self, List.count_cons_of_ne (by decide)]
    omega
  rw [Evens, Evens, List.forall_mem_cons, hcounts]
  simp

theorem evens_cons_b {d : Int} {w : List Char} : Evens d ('b' :: w) ↔ Evens (d - 1) w := by
  have hcounts : d + ('b' :: w).count 'a' = ('b' :: w).count 'b' ↔
      d - 1 + w.count 'a' = w.count 'b' := by
    rw [List.count_cons_self, List.count_cons_of_ne (by decide)]
    omega
  rw [Evens, Evens, List.forall_mem_cons, hcounts]
  simp

theorem evens_cons_iff {d : Int} {c : Char} {w : List Char} :
    Evens d (c :: w) ↔ ∃ e, lead d c = some e ∧ Evens e w := by
  constructor
  · intro h
    rcases h.1 c List.mem_cons_self with rfl | rfl
    · exact ⟨d + 1, rfl, evens_cons_a.1 h⟩
    · exact ⟨d - 1, rfl, evens_cons_b.1 h⟩
  · rintro ⟨e, hlead, h⟩
    rcases lead_eq_some_iff.1 hlead with ⟨rfl, rfl⟩ | ⟨rfl, rfl⟩
    · exact evens_cons_a.2 h
    · exact evens_cons_b.2 h

/-- The machine of balanced brackets accepts a word over all characters if and only if it is
balanced, and the machine of as many `a` as `b` if and only if it has nothing but these
letters, as many of one as of the other. Both give an answer for every word. -/
theorem recognizes_balanced_and_even (w : List Char) :
    (∃ accepted, balancedMachine.accepts? w = some accepted ∧ (accepted = true ↔ Balanced w)) ∧
      ∃ accepted, evenMachine.accepts? w = some accepted ∧ (accepted = true ↔ Even w) := by
  constructor
  · rw [← closes_zero_iff]
    exact tracks_balanced.exists_accepts?_iff (.done rfl)
      (fun _ => closes_nil_iff.trans exists_control_counted_iff.symm)
      (fun _ _ _ => closes_cons_iff) w
  · rw [← evens_zero_iff]
    exact tracks_even.exists_accepts?_iff (.done rfl)
      (fun _ => evens_nil_iff.trans exists_control_ahead_iff.symm)
      (fun _ _ _ => evens_cons_iff) w

end Acceptor.Pushdown
