/-!
# Recognizers

What reads symbols one after another and can be asked at any time whether the word
so far is accepted, and whether there is still hope. A recognizer that is stuck
stays stuck, so asking about a whole word may stop at that point.
-/

namespace Acceptor

/-- A machine `M` that reads symbols `α`. -/
class Recognizer (M : Type) (α : outParam Type) where
  /-- The machine after reading a symbol. -/
  accept : M → α → M
  /-- Whether the word read so far is accepted. -/
  isAccepting : M → Bool
  /-- Whether no longer word can be accepted either. -/
  isStuck : M → Bool

namespace Recognizer

variable {M α : Type} [Recognizer M α]

def acceptMany (m : M) (w : List α) : M := w.foldl accept m

/-- Reads a word, but stops at the first symbol after which the machine is stuck.
The answer is whether the word was read to its end and is accepted. -/
def accepts (m : M) : List α → Bool × M
  | [] => (isAccepting m, m)
  | a :: w =>
    let m := accept m a
    if isStuck m then (false, m) else accepts m w

end Recognizer

end Acceptor
