import Acceptor.Codegen.Construction

/-!
# Evaluating construction expressions

The reverse of `construction`: the pattern that an expression builds is read off its
tokens, call by call. Nothing but a complete expression is read, so every expression
builds one pattern and different patterns have different expressions.
-/

namespace Acceptor.Codegen

def expect? (t : Token) : List Token → Option (List Token)
  | [] => none
  | u :: rest => if u = t then some rest else none

@[simp] theorem expect?_cons (t : Token) (rest : List Token) :
    expect? t (t :: rest) = some rest := if_pos rfl

/-- The constructor whose call stands at the front, and what follows the opening
bracket of the call. -/
def readCall? : List Token → Option (String × List Token)
  | .word "::" :: .word "automata" :: .word "::" :: .word "Pattern" :: .word "::" ::
      .word constructor :: .opening .round :: rest => some (constructor, rest)
  | _ => none

/-- The pattern that the expression at the front builds, and what follows the
expression. Calls are nested at most `depth` deep. -/
def evaluate? : Nat → List Token → Option (Pattern Char × List Token)
  | 0, _ => none
  | depth + 1, tokens =>
    match readCall? tokens with
    | some ("empty", rest) => do
      let rest ← expect? (.closing .round) rest
      return (.empty, rest)
    | some ("literal", .char c :: rest) => do
      let rest ← expect? (.closing .round) rest
      return (.literal c, rest)
    | some ("concatenate", rest) => do
      let (p, rest) ← evaluate? depth rest
      let rest ← expect? (.word ",") rest
      let (q, rest) ← evaluate? depth rest
      let rest ← expect? (.closing .round) rest
      return (.concat p q, rest)
    | some ("choose", rest) => do
      let (p, rest) ← evaluate? depth rest
      let rest ← expect? (.word ",") rest
      let (q, rest) ← evaluate? depth rest
      let rest ← expect? (.closing .round) rest
      return (.choice p q, rest)
    | some ("repeat", rest) => do
      let (p, rest) ← evaluate? depth rest
      let rest ← expect? (.closing .round) rest
      return (.star p, rest)
    | _ => none

theorem readCall?_callOnto (constructor : String) (write : List Token → List Token)
    (rest : List Token) :
    readCall? (callOnto constructor write rest) =
      some (constructor, write (.closing .round :: rest)) := rfl

theorem length_callOnto (constructor : String) (write : List Token → List Token)
    (rest : List Token) :
    (callOnto constructor write rest).length = (write (.closing .round :: rest)).length + 7 := rfl

/-- Evaluation undoes construction, whatever follows the expression. -/
theorem evaluate?_constructionOnto (p : Pattern Char) (rest : List Token) (depth : Nat)
    (h : (constructionOnto p rest).length ≤ depth) :
    evaluate? depth (constructionOnto p rest) = some (p, rest) := by
  induction p generalizing rest depth with
  | empty | literal c =>
    rw [constructionOnto, length_callOnto] at h
    obtain ⟨depth, rfl⟩ : ∃ n, depth = n + 1 := ⟨depth - 1, by omega⟩
    simp [constructionOnto, evaluate?, readCall?_callOnto]
  | concat p q ihp ihq | choice p q ihp ihq =>
    rw [constructionOnto, length_callOnto] at h
    obtain ⟨depth, rfl⟩ : ∃ n, depth = n + 1 := ⟨depth - 1, by omega⟩
    have split := congrArg List.length (constructionOnto_eq p
      (.word "," :: constructionOnto q (.closing .round :: rest)))
    rw [List.length_append, List.length_cons] at split
    have first := ihp (.word "," :: constructionOnto q (.closing .round :: rest)) depth (by omega)
    have second := ihq (.closing .round :: rest) depth (by omega)
    simp [constructionOnto, evaluate?, readCall?_callOnto, first, second]
  | star p ih =>
    rw [constructionOnto, length_callOnto] at h
    obtain ⟨depth, rfl⟩ : ∃ n, depth = n + 1 := ⟨depth - 1, by omega⟩
    have part := ih (.closing .round :: rest) depth (by omega)
    simp [constructionOnto, evaluate?, readCall?_callOnto, part]

theorem construction_injective {p q : Pattern Char} (h : construction p = construction q) :
    p = q := by
  have hp := evaluate?_constructionOnto p [] _ (Nat.le_refl _)
  have hq := evaluate?_constructionOnto q [] _ (Nat.le_refl _)
  rw [← construction, ← h, construction, hp] at hq
  exact (Prod.mk.inj (Option.some.inj hq)).1

/-- The pattern that a block builds which binds a name to an expression and yields what
the name stands for. -/
def blockValue? : List Token → Option (Pattern Char)
  | .opening .curly :: .word "let" :: .word name :: rest =>
    match rest.dropWhile (· ≠ .word "=") with
    | [] => none
    | _ :: expression =>
      match evaluate? expression.length expression with
      | some (p, [.word ";", .word yielded, .closing .curly]) =>
        if yielded = name then some p else none
      | _ => none
  | _ => none

end Acceptor.Codegen
