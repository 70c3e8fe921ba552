import Acceptor.Recognizer

/-!
# Calls of recognizers

A recognizer is used through calls that offer symbols to it. Offered symbols may be
dropped: a question about a whole word is answered as soon as the recognizer is
stuck, and the rest of the word is never read. A recognizer that is exact loses
nothing by this. What it answers depends on the symbols that were offered so far, not
on those that were read (`Exact.performAll`).
-/

namespace Acceptor.Recognizer

/-- A call that offers symbols. -/
inductive Call (α : Type) where
  | accept (a : α)
  | acceptMany (w : List α)
  /-- Asks whether a word is accepted. -/
  | accepts (w : List α)

namespace Call

variable {α : Type}

def offered : Call α → List α
  | accept a => [a]
  | acceptMany w | accepts w => w

end Call

variable {M α : Type} [Recognizer M α]

def perform (m : M) : Call α → M
  | .accept a => accept m a
  | .acceptMany w => acceptMany m w
  | .accepts w => (accepts m w).2

def performAll (m : M) (calls : List (Call α)) : M := calls.foldl perform m

@[simp] theorem performAll_nil (m : M) : performAll m [] = m := rfl

@[simp] theorem performAll_cons (m : M) (call : Call α) (calls : List (Call α)) :
    performAll m (call :: calls) = performAll (perform m call) calls := rfl

/-- Whatever is read next, the machine accepts just the words of `L`, and it is stuck
just when no word of `L` can come about any more. -/
def Exact (m : M) (L : List α → Prop) : Prop :=
  ∀ w, (isAccepting (acceptMany m w) = true ↔ L w) ∧
    (isStuck (acceptMany m w) = true ↔ ∀ v, ¬ L (w ++ v))

namespace Exact

variable {m : M} {L K : List α → Prop}

theorem isAccepting_iff (h : Exact m L) : isAccepting m = true ↔ L [] :=
  (h []).1

theorem isStuck_iff (h : Exact m L) : isStuck m = true ↔ ∀ v, ¬ L v :=
  (h []).2

theorem accept (h : Exact m L) (a : α) : Exact (accept m a) fun w => L (a :: w) :=
  fun w => h (a :: w)

theorem acceptMany (h : Exact m L) (u : List α) :
    Exact (acceptMany m u) fun w => L (u ++ w) := by
  induction u generalizing m L with
  | nil => exact h
  | cons a u ih => exact ih (h.accept a)

/-- Where there is no hope, any other hopeless language does as well. -/
theorem of_hopeless (h : Exact m L) (hL : ∀ w, ¬ L w) (hK : ∀ w, ¬ K w) : Exact m K := by
  have heq : K = L := by
    funext w
    simp [hL w, hK w]
  rw [heq]
  exact h

/-- The question about a word is answered correctly, although the word may not be read
to its end. -/
theorem accepts_iff (h : Exact m L) (u : List α) : (accepts m u).1 = true ↔ L u := by
  induction u generalizing m L with
  | nil => exact h.isAccepting_iff
  | cons a u ih =>
    have hnext := h.accept a
    rw [Recognizer.accepts]
    by_cases hstuck : isStuck (Recognizer.accept m a) = true
    · have hhopeless := hnext.isStuck_iff.1 hstuck u
      simp [hstuck, hhopeless]
    · simpa [hstuck] using ih hnext

/-- After the question about a word the machine is exact for what follows the word. -/
theorem accepts (h : Exact m L) (u : List α) :
    Exact (accepts m u).2 fun w => L (u ++ w) := by
  induction u generalizing m L with
  | nil => exact h
  | cons a u ih =>
    have hnext := h.accept a
    rw [Recognizer.accepts]
    by_cases hstuck : isStuck (Recognizer.accept m a) = true
    · have hhopeless := hnext.isStuck_iff.1 hstuck
      simpa [hstuck] using hnext.of_hopeless hhopeless fun w => hhopeless (u ++ w)
    · simpa [hstuck] using ih hnext

theorem perform (h : Exact m L) (call : Call α) :
    Exact (perform m call) fun w => L (call.offered ++ w) := by
  cases call with
  | accept a => exact h.accept a
  | acceptMany u => exact h.acceptMany u
  | accepts u => exact h.accepts u

/-- After any calls the machine is exact for what follows the symbols that were
offered. -/
theorem performAll (h : Exact m L) (calls : List (Call α)) :
    Exact (performAll m calls) fun w => L (calls.flatMap Call.offered ++ w) := by
  induction calls generalizing m L with
  | nil => exact h
  | cons call calls ih => simpa using ih (h.perform call)

end Exact

end Acceptor.Recognizer
