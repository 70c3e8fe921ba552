import Acceptor.Dfa.Running

/-!
# What a failed reading keeps

Reading follows the first rule that applies for each symbol, up to a symbol for which no rule
applies. Either there is no such symbol (`Follows`), or the word splits at the first one
(`Stops`), and `readAll` says which and where. The symbols before the split are consumed. The
state of a running machine is determined by them alone: whatever failed in between, it is
where reading the consumed symbols of all calls in one go leads without a failure
(`Consumes.follows`).
-/

namespace Acceptor.Dfa

variable {σ α : Type} [Ordered σ] {m : Dfa σ α} {q r s : σ} {a c : α} {u v w : List α}

/-- The rule applies in the state `q` for the symbol `a`, and no rule before it does. -/
def FirstRule (m : Dfa σ α) (q : σ) (a : α) (rule : Rule σ α) : Prop :=
  ∃ before after, m.rules = before ++ rule :: after ∧ rule.AppliesTo q (some a) ∧
    ∀ earlier ∈ before, ¬ earlier.AppliesTo q (some a)

/-- No rule applies in the state `q` for the symbol `a`. -/
def Refuses (m : Dfa σ α) (q : σ) (a : α) : Prop :=
  ∀ rule ∈ m.rules, ¬ rule.AppliesTo q (some a)

/-- The first rules that apply lead from `q` to `r` along the word. -/
inductive Follows (m : Dfa σ α) : σ → List α → σ → Prop
  | nil (q : σ) : Follows m q [] q
  | cons {q r : σ} {a : α} {w : List α} {rule : Rule σ α} :
      m.FirstRule q a rule → Follows m rule.target w r → Follows m q (a :: w) r

/-- The word splits into symbols that can be read, a symbol that is refused where they lead,
and a rest. -/
structure Stops (m : Dfa σ α) (q : σ) (w u : List α) (c : α) (v : List α) (r : σ) : Prop where
  split : w = u ++ c :: v
  follows : m.Follows q u r
  refuses : m.Refuses r c

/-- The calls consume the word `w` and leave the state `r`. A call that fails consumes the
symbols before the one it fails at. -/
inductive Consumes (m : Dfa σ α) : σ → List (Call α) → List α → σ → Prop
  | nil (q : σ) : Consumes m q [] [] q
  | whole {q r s : σ} {call : Call α} {calls : List (Call α)} {w : List α} :
      m.Follows q call.supplied r → Consumes m r calls w s →
      Consumes m q (call :: calls) (call.supplied ++ w) s
  | part {q r s : σ} {call : Call α} {calls : List (Call α)} {u v w : List α} {c : α} :
      m.Stops q call.supplied u c v r → Consumes m r calls w s →
      Consumes m q (call :: calls) (u ++ w) s

theorem Follows.append (h : m.Follows q u r) (h' : m.Follows r v s) : m.Follows q (u ++ v) s := by
  induction h with
  | nil => exact h'
  | cons hrule _ ih => exact .cons hrule (ih h')

theorem Consumes.follows {calls : List (Call α)} (h : m.Consumes q calls w r) :
    m.Follows q w r := by
  induction h with
  | nil q => exact .nil q
  | whole hcall _ ih => exact hcall.append ih
  | part hcall _ ih => exact hcall.follows.append ih

variable [DecidableEq α]

theorem ruleFor?_eq_some_iff {rule : Rule σ α} :
    m.ruleFor? q a = some rule ↔ m.FirstRule q a rule := by
  rw [ruleFor?, List.find?_eq_some_iff_append]
  simp only [decide_eq_true_eq, Bool.not_eq_eq_eq_not, Bool.not_true, decide_eq_false_iff_not]
  constructor
  · rintro ⟨happ, before, after, hrules, hearlier⟩
    exact ⟨before, after, hrules, happ, hearlier⟩
  · rintro ⟨before, after, hrules, happ, hearlier⟩
    exact ⟨happ, before, after, hrules, hearlier⟩

theorem ruleFor?_eq_none_iff : m.ruleFor? q a = none ↔ m.Refuses q a := by
  rw [ruleFor?, List.find?_eq_none]
  simp only [decide_eq_true_eq, Refuses]

theorem FirstRule.step {rule : Rule σ α} (h : m.FirstRule q a rule) :
    m.step q a = .ok rule.target := by
  rw [Dfa.step, ruleFor?_eq_some_iff.2 h]

theorem Refuses.step (h : m.Refuses q a) : m.step q a = .error ⟨q, some a⟩ := by
  rw [Dfa.step, ruleFor?_eq_none_iff.2 h]

/-- A word that can be read is read, and what comes behind it is read where it leads. -/
theorem Follows.readAll_append (h : m.Follows q u r) (v : List α) :
    m.readAll q (u ++ v) = m.readAll r v := by
  induction h with
  | nil => rfl
  | cons hrule _ ih => rw [List.cons_append, readAll_cons_of_ok hrule.step, ih]

theorem Follows.readAll (h : m.Follows q w r) : m.readAll q w = ⟨r, [], none⟩ := by
  rw [← List.append_nil w, h.readAll_append, readAll_nil]

theorem Stops.readAll (h : m.Stops q w u c v r) :
    m.readAll q w = ⟨r, v, some ⟨r, some c⟩⟩ := by
  rw [h.split, h.follows.readAll_append, readAll_cons_of_error h.refuses.step]

theorem Follows.unique (h : m.Follows q w r) (h' : m.Follows q w s) : s = r :=
  congrArg Outcome.state (h'.readAll.symm.trans h.readAll)

theorem Follows.not_stops (h : m.Follows q w r) : ¬ m.Stops q w u c v s := by
  intro hstops
  cases congrArg Outcome.failure? (h.readAll.symm.trans hstops.readAll)

/-- A word splits in one way only: the outcome of reading it shows the rest, the symbol at
which reading stops and the state. -/
theorem Stops.unique {u' v' : List α} {c' : α} (h : m.Stops q w u c v r)
    (h' : m.Stops q w u' c' v' s) : u' = u ∧ c' = c ∧ v' = v ∧ s = r := by
  obtain ⟨rfl, rfl, hfailure⟩ := Outcome.mk.inj (h'.readAll.symm.trans h.readAll)
  obtain ⟨_, hc⟩ := NoApplicableRule.mk.inj (Option.some.inj hfailure)
  obtain rfl := Option.some.inj hc
  exact ⟨List.append_cancel_right (h'.split.symm.trans h.split), rfl, rfl, rfl⟩

/-- Every word can be read or splits. -/
theorem follows_or_stops (m : Dfa σ α) (q : σ) (w : List α) :
    (∃ r, m.Follows q w r) ∨ ∃ u c v r, m.Stops q w u c v r := by
  induction w generalizing q with
  | nil => exact .inl ⟨q, .nil q⟩
  | cons a w ih =>
    cases hrule : m.ruleFor? q a with
    | none => exact .inr ⟨[], a, w, q, rfl, .nil q, ruleFor?_eq_none_iff.1 hrule⟩
    | some rule =>
      have hfirst := ruleFor?_eq_some_iff.1 hrule
      rcases ih rule.target with ⟨r, hr⟩ | ⟨u, c, v, r, rfl, hu, hc⟩
      · exact .inl ⟨r, .cons hfirst hr⟩
      · exact .inr ⟨a :: u, c, v, r, rfl, .cons hfirst hu, hc⟩

theorem Follows.verdict (h : m.Follows m.start w r) : m.verdict w = .ok (r ∈ m.accept) := by
  rw [Dfa.verdict, run_eq_readAll, h.readAll]
  rfl

theorem Stops.verdict (h : m.Stops m.start w u c v r) : m.verdict w = .error ⟨r, some c⟩ := by
  rw [Dfa.verdict, run_eq_readAll, h.readAll]
  rfl

namespace Consumes

variable {calls : List (Call α)}

theorem performAll (h : m.Consumes q calls w r) : m.performAll q calls = r := by
  induction h with
  | nil => rfl
  | whole hcall _ ih =>
    rw [Dfa.performAll, List.foldl_cons, perform_eq_readAll, hcall.readAll]
    exact ih
  | part hcall _ ih =>
    rw [Dfa.performAll, List.foldl_cons, perform_eq_readAll, hcall.readAll]
    exact ih

theorem unique {w' : List α} (h : m.Consumes q calls w r) (h' : m.Consumes q calls w' s) :
    w' = w ∧ s = r := by
  induction h generalizing w' s with
  | nil =>
    cases h'
    exact ⟨rfl, rfl⟩
  | whole hcall _ ih =>
    cases h' with
    | whole hcall' hrest =>
      obtain rfl := hcall.unique hcall'
      obtain ⟨rfl, rfl⟩ := ih hrest
      exact ⟨rfl, rfl⟩
    | part hcall' _ => exact absurd hcall' hcall.not_stops
  | part hcall _ ih =>
    cases h' with
    | whole hcall' _ => exact absurd hcall hcall'.not_stops
    | part hcall' hrest =>
      obtain ⟨rfl, rfl, rfl, rfl⟩ := hcall.unique hcall'
      obtain ⟨rfl, rfl⟩ := ih hrest
      exact ⟨rfl, rfl⟩

end Consumes

theorem exists_consumes (m : Dfa σ α) (q : σ) (calls : List (Call α)) :
    ∃ w r, m.Consumes q calls w r := by
  induction calls generalizing q with
  | nil => exact ⟨[], q, .nil q⟩
  | cons call calls ih =>
    rcases m.follows_or_stops q call.supplied with ⟨r, hcall⟩ | ⟨u, c, v, r, hcall⟩
    · obtain ⟨w, s, hrest⟩ := ih r
      exact ⟨_, s, .whole hcall hrest⟩
    · obtain ⟨w, s, hrest⟩ := ih r
      exact ⟨_, s, .part hcall hrest⟩

/-- A failed reading keeps exactly what could be read. A call either follows the first rule
for every symbol that it supplies, or there is exactly one split of these symbols where no
rule applies; the failure names the state and the symbol at the split, the machine stands in
that state, and what is behind the symbol is unread. A fresh machine gives the same verdict.
After a history of calls the machine stands where reading what was consumed leads without a
failure, and it goes on as a machine that is started there. -/
theorem failed_reading_keeps_prefix (m : Dfa σ α) (q : σ) :
    (∀ call : Call α,
      (∃ r, m.Follows q call.supplied r ∧ m.perform q call = ⟨r, [], none⟩ ∧
        ∀ u c v s, ¬ m.Stops q call.supplied u c v s) ∨
      ∃ u c v r, m.Stops q call.supplied u c v r ∧
        m.perform q call = ⟨r, v, some ⟨r, some c⟩⟩ ∧ (∀ s, ¬ m.Follows q call.supplied s) ∧
        ∀ u' c' v' r', m.Stops q call.supplied u' c' v' r' →
          u' = u ∧ c' = c ∧ v' = v ∧ r' = r) ∧
    (∀ w r, m.Follows m.start w r → m.verdict w = .ok (r ∈ m.accept)) ∧
    (∀ w u c v r, m.Stops m.start w u c v r → m.verdict w = .error ⟨r, some c⟩) ∧
    ∀ calls, ∃ w r, m.Consumes q calls w r ∧
      (∀ w' r', m.Consumes q calls w' r' → w' = w ∧ r' = r) ∧
      m.performAll q calls = r ∧ m.Follows q w r ∧ m.readAll q w = ⟨r, [], none⟩ ∧
      (∀ v, m.readAll q (w ++ v) = m.readAll r v) ∧
      ∀ later, m.outcomes q (calls ++ later) = m.outcomes q calls ++ m.outcomes r later := by
  refine ⟨fun call => ?_, fun _ _ => Follows.verdict, fun _ _ _ _ _ => Stops.verdict,
    fun calls => ?_⟩
  · rw [perform_eq_readAll]
    rcases m.follows_or_stops q call.supplied with ⟨r, h⟩ | ⟨u, c, v, r, h⟩
    · exact .inl ⟨r, h, h.readAll, fun _ _ _ _ => h.not_stops⟩
    · exact .inr ⟨u, c, v, r, h, h.readAll, fun _ hs => hs.not_stops h,
        fun _ _ _ _ => h.unique⟩
  · obtain ⟨w, r, h⟩ := m.exists_consumes q calls
    refine ⟨w, r, h, fun _ _ => h.unique, h.performAll, h.follows, h.follows.readAll,
      h.follows.readAll_append, fun later => ?_⟩
    rw [outcomes_append, h.performAll]

/-- The second rule for `a` and the rule without a label are never used. The first call fails
at `x` and the second one consumes nothing, so the third one begins where `ab` leads. -/
theorem failed_reading_keeps_prefix_of_overlap :
    let m : Dfa Nat Char :=
      { start := 0
        accept := .singleton 0
        rules := [⟨0, some 'a', 1⟩, ⟨0, some 'a', 2⟩, .free 1 5, ⟨1, some 'b', 0⟩] }
    let calls : List (Call Char) :=
      [.readAll ['a', 'b', 'x', 'a'], .read 'b', .readAll ['a', 'x']]
    m.Stops m.start ['a', 'b', 'x', 'a'] ['a', 'b'] 'x' ['a'] 0 ∧
      m.verdict ['a', 'b', 'x', 'a'] = .error ⟨0, some 'x'⟩ ∧
      m.Follows m.start ['a', 'b'] 0 ∧ m.verdict ['a', 'b'] = .ok true ∧
      m.Consumes 0 calls ['a', 'b', 'a'] 1 ∧ m.performAll 0 calls = 1 ∧
      m.Follows 0 ['a', 'b', 'a'] 1 ∧
      ∀ later, m.outcomes 0 (calls ++ later) = m.outcomes 0 calls ++ m.outcomes 1 later := by
  intro m calls
  have hab : m.Follows 0 ['a', 'b'] 0 :=
    .cons (ruleFor?_eq_some_iff.1 rfl) (.cons (ruleFor?_eq_some_iff.1 rfl) (.nil 0))
  have ha : m.Follows 0 ['a'] 1 := .cons (ruleFor?_eq_some_iff.1 rfl) (.nil 1)
  have hfirst : m.Stops 0 ['a', 'b', 'x', 'a'] ['a', 'b'] 'x' ['a'] 0 :=
    ⟨rfl, hab, ruleFor?_eq_none_iff.1 rfl⟩
  have hsecond : m.Stops 0 ['b'] [] 'b' [] 0 := ⟨rfl, .nil 0, ruleFor?_eq_none_iff.1 rfl⟩
  have hthird : m.Stops 0 ['a', 'x'] ['a'] 'x' [] 1 := ⟨rfl, ha, ruleFor?_eq_none_iff.1 rfl⟩
  have hcalls : m.Consumes 0 calls (['a', 'b'] ++ ([] ++ (['a'] ++ []))) 1 :=
    .part hfirst (.part hsecond (.part hthird (.nil 1)))
  obtain ⟨_, hread, hfail, hhistory⟩ := failed_reading_keeps_prefix m 0
  obtain ⟨w, r, _, hunique, hstate, hfollows, _, _, hlater⟩ := hhistory calls
  obtain ⟨rfl, rfl⟩ := hunique _ _ hcalls
  exact ⟨hfirst, hfail _ _ _ _ _ hfirst, hab, hread _ _ hab, hcalls, hstate, hfollows, hlater⟩

end Acceptor.Dfa
