import Acceptor.Dfa.Basic

/-!
# Running machines

A machine that runs keeps its state between calls and nothing else. It reads a word symbol by
symbol, and a symbol for which there is no rule ends the call: the machine stands where it
found no rule, the symbols behind that one are not looked at, and the next call goes on from
there.
-/

namespace Acceptor.Dfa

/-- What a call leaves: the state, the symbols it did not look at, and what it failed at. -/
structure Outcome (σ α : Type) where
  state : σ
  unread : List α
  failure? : Option (NoApplicableRule σ α)

/-- A call that changes the state of a running machine. -/
inductive Call (α : Type) where
  | read (a : α)
  | readAll (w : List α)

/-- The symbols that a call supplies. -/
def Call.supplied {α : Type} : Call α → List α
  | read a => [a]
  | readAll w => w

variable {σ α : Type} [Ordered σ] [DecidableEq α]

/-- A symbol for which there is no rule leaves the state as it was. -/
def read (m : Dfa σ α) (q : σ) (a : α) : Outcome σ α :=
  match m.step q a with
  | .ok r => ⟨r, [], none⟩
  | .error failure => ⟨q, [], some failure⟩

def readAll (m : Dfa σ α) (q : σ) : List α → Outcome σ α
  | [] => ⟨q, [], none⟩
  | a :: w =>
    let first := m.read q a
    match first.failure? with
    | none => m.readAll first.state w
    | some failure => ⟨first.state, w, some failure⟩

def perform (m : Dfa σ α) (q : σ) : Call α → Outcome σ α
  | .read a => m.read q a
  | .readAll w => m.readAll q w

/-- What the calls of a history leave, one after the other. -/
def outcomes (m : Dfa σ α) (q : σ) : List (Call α) → List (Outcome σ α)
  | [] => []
  | call :: calls => m.perform q call :: m.outcomes (m.perform q call).state calls

/-- The state after a history of calls, whether they failed or not. -/
def performAll (m : Dfa σ α) (q : σ) (calls : List (Call α)) : σ :=
  calls.foldl (fun q call => (m.perform q call).state) q

@[simp] theorem readAll_nil (m : Dfa σ α) (q : σ) : m.readAll q [] = ⟨q, [], none⟩ := rfl

theorem readAll_cons_of_ok {m : Dfa σ α} {q r : σ} {a : α} (h : m.step q a = .ok r)
    (w : List α) : m.readAll q (a :: w) = m.readAll r w := by
  rw [readAll, read, h]

theorem readAll_cons_of_error {m : Dfa σ α} {q : σ} {a : α} {failure : NoApplicableRule σ α}
    (h : m.step q a = .error failure) (w : List α) :
    m.readAll q (a :: w) = ⟨q, w, some failure⟩ := by
  rw [readAll, read, h]

theorem readAll_singleton (m : Dfa σ α) (q : σ) (a : α) : m.readAll q [a] = m.read q a := by
  cases hstep : m.step q a with
  | ok r => rw [readAll_cons_of_ok hstep, readAll_nil, read, hstep]
  | error failure => rw [readAll_cons_of_error hstep, read, hstep]

/-- A call does what reading the symbols that it supplies does. -/
theorem perform_eq_readAll (m : Dfa σ α) (q : σ) (call : Call α) :
    m.perform q call = m.readAll q call.supplied := by
  cases call with
  | read a => exact (m.readAll_singleton q a).symm
  | readAll w => rfl

/-- A run is a call without the state that a failure leaves. -/
theorem run_eq_readAll (m : Dfa σ α) (q : σ) (w : List α) :
    m.run q w = match (m.readAll q w).failure? with
      | none => .ok (m.readAll q w).state
      | some failure => .error failure := by
  induction w generalizing q with
  | nil => rfl
  | cons a w ih =>
    rw [run_cons]
    cases hstep : m.step q a with
    | ok r =>
      rw [readAll_cons_of_ok hstep]
      exact ih r
    | error failure =>
      rw [readAll_cons_of_error hstep]
      rfl

theorem outcomes_append (m : Dfa σ α) (q : σ) (calls later : List (Call α)) :
    m.outcomes q (calls ++ later) =
      m.outcomes q calls ++ m.outcomes (m.performAll q calls) later := by
  induction calls generalizing q with
  | nil => rfl
  | cons call calls ih =>
    rw [List.cons_append, outcomes, ih, outcomes, List.cons_append]
    rfl

end Acceptor.Dfa
