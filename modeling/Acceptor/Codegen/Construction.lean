import Acceptor.Codegen.Token
import Acceptor.Pattern.Parse

/-!
# Construction expressions

A pattern as the Rust expression that builds it: one call for each node, with the
parts as arguments in order.
-/

namespace Acceptor.Codegen

/-- The call of a constructor, followed by `rest`. The arguments are written by `write`,
followed by what it is given. -/
def callOnto (constructor : String) (write : List Token → List Token) (rest : List Token) :
    List Token :=
  words ["::", "automata", "::", "Pattern", "::", constructor] ++
    .opening .round :: write (.closing .round :: rest)

/-- The expression that builds a pattern, followed by `rest`. -/
def constructionOnto : Pattern Char → List Token → List Token
  | .empty => callOnto "empty" id
  | .literal c => callOnto "literal" (.char c :: ·)
  | .concat p q => callOnto "concatenate" fun rest =>
      constructionOnto p (.word "," :: constructionOnto q rest)
  | .choice p q => callOnto "choose" fun rest =>
      constructionOnto p (.word "," :: constructionOnto q rest)
  | .star p => callOnto "repeat" (constructionOnto p)

def construction (p : Pattern Char) : List Token := constructionOnto p []

theorem constructionOnto_append (p : Pattern Char) (rest behind : List Token) :
    constructionOnto p rest ++ behind = constructionOnto p (rest ++ behind) := by
  induction p generalizing rest with
  | empty | literal c => simp [constructionOnto, callOnto]
  | concat p q ihp ihq | choice p q ihp ihq => simp [constructionOnto, callOnto, ihp, ihq]
  | star p ih => simp [constructionOnto, callOnto, ih]

theorem constructionOnto_eq (p : Pattern Char) (rest : List Token) :
    constructionOnto p rest = construction p ++ rest := by
  rw [construction, constructionOnto_append, List.nil_append]

/-- The error that a faulty pattern text makes the compiler report. -/
def invalidPattern (fault : ParseError) : String := "invalid pattern: " ++ fault.message

/-- The expression of the pattern that a text denotes, or an error, where `render` writes
the error with a message. -/
def patternExpression (render : String → List Token) (text : String) : List Token :=
  match Pattern.parse text with
  | .ok p =>
    enclosed .curly (words ["let", "pattern", ":", "::", "automata", "::", "Pattern", "<", "char",
      ">", "="] ++ construction p ++ words [";", "pattern"])
  | .error fault => render (invalidPattern fault)

end Acceptor.Codegen
