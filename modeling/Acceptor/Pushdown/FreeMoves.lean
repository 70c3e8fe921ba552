import Acceptor.Pushdown.Settle

/-!
# Runs of free moves

`Settles rules c d` says what settling means, move by move: following the first
free rule that applies leads from `c` to `d`, and no free rule applies to `d`. The
decision procedure `settle?` finds `d` exactly if there is one
(`settle?_eq_some_iff`).

The proof counts moves. A run on a stack `u ++ v` either uses up `u` and goes on
with `v`, or comes to rest above `v`; so the run out of one head contains the runs
out of the heads inside it, and those are shorter. Hence a head that comes up again
while it is being worked off belongs to no finite run.
-/

namespace Acceptor.Pushdown

variable {σ α : Type} [DecidableEq σ] [DecidableEq α]

/-- Following free moves from `c` ends in `d`. -/
inductive Settles (rules : List (Rule σ α)) : Configuration σ α → Configuration σ α → Prop
  | done {c : Configuration σ α} : ruleFor? rules c none = none → Settles rules c c
  | move {c d : Configuration σ α} {rule : Rule σ α} :
      ruleFor? rules c none = some rule → Settles rules (rule.follow c) d → Settles rules c d

/-- The same for a state and the items of a stack, with the number of moves. -/
inductive SettlesIn (rules : List (Rule σ α)) : Nat → σ → List α → σ → List α → Prop
  | used (q : σ) : SettlesIn rules 0 q [] q []
  | halt {q : σ} {x : α} {s : List α} :
      freeRule? rules q x = none → SettlesIn rules 0 q (x :: s) q (x :: s)
  | move {n : Nat} {q r : σ} {x : α} {s t : List α} {rule : Rule σ α} :
      freeRule? rules q x = some rule →
      SettlesIn rules n rule.target (rule.push ++ s) r t → SettlesIn rules (n + 1) q (x :: s) r t

namespace SettlesIn

variable {rules : List (Rule σ α)} {m n : Nat} {q r r' : σ} {u v s t t' : List α}

/-- Free moves are determined by where they begin. -/
theorem unique (h : SettlesIn rules m q s r t) (h' : SettlesIn rules n q s r' t') :
    m = n ∧ r = r' ∧ t = t' := by
  induction h generalizing n with
  | used q =>
    cases h'
    exact ⟨rfl, rfl, rfl⟩
  | halt hnone =>
    cases h' with
    | halt => exact ⟨rfl, rfl, rfl⟩
    | move hsome => rw [hnone] at hsome; cases hsome
  | move hsome _ ih =>
    cases h' with
    | halt hnone => rw [hnone] at hsome; cases hsome
    | move hsome' h' =>
      rw [hsome] at hsome'
      cases hsome'
      obtain ⟨rfl, rfl, rfl⟩ := ih h'
      exact ⟨rfl, rfl, rfl⟩

/-- Once `u` is used up the moves go on with what lay below it. -/
theorem append (h : SettlesIn rules m q u r []) (h' : SettlesIn rules n r v r' t) :
    SettlesIn rules (m + n) q (u ++ v) r' t := by
  generalize hw : ([] : List α) = w at h
  induction h with
  | used q => rwa [Nat.zero_add]
  | halt => cases hw
  | move hsome _ ih =>
    rw [Nat.add_right_comm, List.cons_append]
    refine .move hsome ?_
    rw [← List.append_assoc]
    exact ih h' hw

/-- If the moves come to rest inside `u`, they do so whatever lies below it. -/
theorem append_below {y : α} (h : SettlesIn rules n q u r (y :: t)) (v : List α) :
    SettlesIn rules n q (u ++ v) r (y :: t ++ v) := by
  generalize hw : y :: t = w at h
  induction h with
  | used q => cases hw
  | halt hnone => exact .halt hnone
  | move hsome _ ih =>
    rw [List.cons_append]
    refine .move hsome ?_
    rw [← List.append_assoc]
    exact ih hw

/-- A run on `u ++ v` uses up `u` first, or comes to rest inside `u`. -/
theorem split (h : SettlesIn rules n q (u ++ v) r t) :
    (∃ i j r', i + j = n ∧ SettlesIn rules i q u r' [] ∧ SettlesIn rules j r' v r t) ∨
      ∃ y w, t = y :: w ++ v ∧ SettlesIn rules n q u r (y :: w) := by
  generalize hs : u ++ v = s at h
  induction h generalizing u with
  | used q =>
    obtain ⟨rfl, rfl⟩ := List.append_eq_nil_iff.1 hs
    exact .inl ⟨0, 0, q, rfl, .used q, .used q⟩
  | halt hnone =>
    cases u with
    | nil =>
      obtain rfl : v = _ := hs
      exact .inl ⟨0, 0, _, rfl, .used _, .halt hnone⟩
    | cons x u =>
      obtain ⟨rfl, rfl⟩ := List.cons_eq_cons.1 hs
      exact .inr ⟨x, u, rfl, .halt hnone⟩
  | @move n q r x s t rule hsome h ih =>
    cases u with
    | nil =>
      obtain rfl : v = _ := hs
      exact .inl ⟨0, n + 1, _, Nat.zero_add _, .used _, .move hsome h⟩
    | cons y u =>
      obtain ⟨rfl, rfl⟩ := List.cons_eq_cons.1 hs
      rcases ih (u := rule.push ++ u) (List.append_assoc _ _ _) with
        ⟨i, j, r', hij, hi, hj⟩ | ⟨z, w, ht, hw⟩
      · exact .inl ⟨i + 1, j, r', by omega, .move hsome hi, hj⟩
      · exact .inr ⟨z, w, ht, .move hsome hw⟩

end SettlesIn

section

variable {rules : List (Rule σ α)}

/-- What the search finds is where free moves lead. -/
theorem settlesIn_of_settleFrom? {opened : List (σ × α)} {q r : σ} {s t : List α}
    (h : settleFrom? rules opened q s = some (r, t)) : ∃ n, SettlesIn rules n q s r t := by
  fun_induction settleFrom? rules opened q s generalizing r t with
  | case1 opened q =>
    cases h
    exact ⟨0, .used q⟩
  | case2 => cases h
  | case3 opened q x below _ hnone =>
    cases h
    exact ⟨0, .halt hnone⟩
  | case4 => cases h
  | case5 opened q x below _ rule hsome r' hinner ihInner ih =>
    obtain ⟨i, hi⟩ := ihInner hinner
    obtain ⟨j, hj⟩ := ih h
    exact ⟨i + j + 1, .move hsome (hi.append hj)⟩
  | case6 opened q x below _ rule hsome r' y left hinner ihInner =>
    cases h
    obtain ⟨i, hi⟩ := ihInner hinner
    exact ⟨i + 1, .move hsome (hi.append_below below)⟩

/-- Free moves that come to an end are found, if the heads being worked off all lead
to longer runs. -/
theorem settleFrom?_of_settlesIn (n : Nat) {opened : List (σ × α)} {q r : σ} {s t : List α}
    (h : SettlesIn rules n q s r t)
    (hopened : ∀ head ∈ opened, ∃ m r' t', n < m ∧ SettlesIn rules m head.1 [head.2] r' t') :
    settleFrom? rules opened q s = some (r, t) := by
  induction n using Nat.strongRecOn generalizing opened q r s t with
  | ind n ih =>
    cases s with
    | nil =>
      cases h
      rw [settleFrom?]
    | cons x below =>
      have hseen : (q, x) ∉ opened := by
        intro hmem
        obtain ⟨m, r', t', hm, hrun⟩ := hopened _ hmem
        rcases SettlesIn.split (u := [x]) (v := below) h with
          ⟨i, j, r'', hij, hi, _⟩ | ⟨y, w, _, hw⟩
        · have := (hi.unique hrun).1
          omega
        · have := (hw.unique hrun).1
          omega
      rw [settleFrom?, dif_neg hseen]
      cases h with
      | halt hnone =>
        split
        · rfl
        · rename_i hsome
          rw [hnone] at hsome
          cases hsome
      | @move n _ _ _ _ _ rule hsome h =>
        split
        · rename_i hnone
          rw [hsome] at hnone
          cases hnone
        · rename_i rule' hsome'
          obtain rfl : rule = rule' := Option.some.inj (hsome.symm.trans hsome')
          have hinner : ∀ {i r' t'}, i ≤ n → SettlesIn rules i rule.target rule.push r' t' →
              settleFrom? rules ((q, x) :: opened) rule.target rule.push = some (r', t') := by
            intro i r' t' hin hi
            refine ih i (Nat.lt_succ_of_le hin) hi (List.forall_mem_cons.2 ⟨?_, ?_⟩)
            · refine ⟨i + 1, r', t', Nat.lt_succ_self i, .move hsome ?_⟩
              rwa [List.append_nil]
            · intro head hhead
              obtain ⟨m, r'', t'', hm, hrun⟩ := hopened head hhead
              exact ⟨m, r'', t'', by omega, hrun⟩
          rcases h.split with ⟨i, j, r', hij, hi, hj⟩ | ⟨y, w, rfl, hw⟩
          · rw [hinner (by omega) hi]
            refine ih j (by omega) hj fun head hhead => ?_
            obtain ⟨m, r'', t'', hm, hrun⟩ := hopened head hhead
            exact ⟨m, r'', t'', by omega, hrun⟩
          · rw [hinner (Nat.le_refl n) hw]

theorem settleFrom?_eq_some_iff {q r : σ} {s t : List α} :
    settleFrom? rules [] q s = some (r, t) ↔ ∃ n, SettlesIn rules n q s r t :=
  ⟨settlesIn_of_settleFrom?, fun ⟨n, h⟩ => settleFrom?_of_settlesIn n h (by simp)⟩

theorem ruleFor?_live {q : σ} {x : α} {s : Stack α} :
    ruleFor? rules ⟨.live q, s.push x⟩ none = freeRule? rules q x := by
  refine congrArg (List.find? · rules) (funext fun rule => decide_eq_decide.2 ?_)
  constructor
  · rintro ⟨hq, hx, hfree⟩
    cases hq
    exact ⟨rfl, (Option.some.inj hx).symm, hfree⟩
  · rintro ⟨rfl, rfl, hfree⟩
    exact ⟨rfl, rfl, hfree⟩

theorem ruleFor?_empty {q : σ} {a : Option α} :
    ruleFor? rules ⟨.live q, .empty⟩ a = none := by
  refine List.find?_eq_none.2 fun rule _ => ?_
  simp [Stack.top?]

theorem ruleFor?_stuck {s : Stack α} {a : Option α} :
    ruleFor? rules ⟨.stuck, s⟩ a = none := by
  refine List.find?_eq_none.2 fun rule _ => ?_
  simp

theorem settles_iff_settlesIn {q : σ} {s : List α} {d : Configuration σ α} :
    Settles rules ⟨.live q, .ofList s⟩ d ↔
      ∃ n r t, d = ⟨.live r, .ofList t⟩ ∧ SettlesIn rules n q s r t := by
  constructor
  · generalize hc : (⟨.live q, .ofList s⟩ : Configuration σ α) = c
    intro h
    induction h generalizing q s with
    | done hnone =>
      subst hc
      cases s with
      | nil => exact ⟨0, q, [], rfl, .used q⟩
      | cons x s =>
        refine ⟨0, q, x :: s, rfl, .halt ?_⟩
        rw [← hnone]
        exact ruleFor?_live.symm
    | @move c d rule hsome _ ih =>
      subst hc
      cases s with
      | nil =>
        rw [show Stack.ofList ([] : List α) = .empty from rfl, ruleFor?_empty] at hsome
        cases hsome
      | cons x s =>
        obtain ⟨n, r, t, rfl, h⟩ := ih (q := rule.target) (s := rule.push ++ s)
          (by
            refine congrArg (Configuration.mk _) (Stack.ext ?_)
            simp [Rule.nextStack])
        refine ⟨n + 1, r, t, rfl, .move ?_ h⟩
        rw [← hsome]
        exact ruleFor?_live.symm
  · rintro ⟨n, r, t, rfl, h⟩
    induction h with
    | used q => exact .done ruleFor?_empty
    | halt hnone => exact .done (ruleFor?_live.trans hnone)
    | @move n q r x s t rule hsome _ ih =>
      refine .move (ruleFor?_live.trans hsome) ?_
      have hfollow : rule.follow ⟨.live q, Stack.ofList (x :: s)⟩ =
          ⟨.live rule.target, .ofList (rule.push ++ s)⟩ := by
        refine congrArg (Configuration.mk _) (Stack.ext ?_)
        simp [Rule.nextStack]
      rwa [← hfollow] at ih

/-- Settling finds the end of the free moves exactly if they have one. -/
theorem settle?_eq_some_iff {c d : Configuration σ α} :
    settle? rules c = some d ↔ Settles rules c d := by
  obtain ⟨q | _, s⟩ := c
  · rw [← Stack.ofList_toList s, settles_iff_settlesIn, settle?, Option.map_eq_some_iff]
    simp only [Stack.toList_ofList]
    constructor
    · rintro ⟨⟨r, t⟩, h, rfl⟩
      obtain ⟨n, h⟩ := settleFrom?_eq_some_iff.1 h
      exact ⟨n, r, t, rfl, h⟩
    · rintro ⟨n, r, t, rfl, h⟩
      exact ⟨(r, t), settleFrom?_eq_some_iff.2 ⟨n, h⟩, rfl⟩
  · constructor
    · intro h
      cases h
      exact .done ruleFor?_stuck
    · intro h
      cases h with
      | done => rfl
      | move hsome =>
        rw [ruleFor?_stuck] at hsome
        cases hsome

end

end Acceptor.Pushdown
