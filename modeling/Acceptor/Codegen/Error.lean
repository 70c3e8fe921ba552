import Acceptor.Codegen.Reading

/-!
# Errors for the compiler

Source makes the compiler report an error by an invocation that carries the message. How
the invocation is spelled is up to whoever writes it: its name may be given with a path.
`RendersErrors` says that a way to write it can be relied on.
-/

namespace Acceptor.Codegen

/-- The message of the error that the invocation at the front makes the compiler report,
and the tokens behind it. -/
def readError? (tokens : List Token) : Option (String × List Token) :=
  match tokens.dropWhile (· ∈ [.word "::", .word "core", .word "std"]) with
  | .word "compile_error" :: .word "!" :: .opening .curly :: .text message ::
      .closing .curly :: rest => some (message, rest)
  | _ => none

/-- The messages of the errors at the front of the tokens, and the tokens behind them. -/
def readErrors (tokens : List Token) : List String × List Token :=
  match readError? tokens with
  | none => ([], tokens)
  | some (message, rest) =>
    if rest.length < tokens.length then
      let (messages, behind) := readErrors rest
      (message :: messages, behind)
    else ([], tokens)
termination_by tokens.length

/-- Each message is rendered as one invocation that carries it, and printing the
invocation loses none of its tokens. -/
structure RendersErrors (render : String → List Token) : Prop where
  readError?_append : ∀ message rest, readError? (render message ++ rest) = some (message, rest)
  ofSource_source : ∀ message, Token.ofSource (Token.source (render message)) = render message

/-- The invocation by the full path. -/
def compileError (message : String) : List Token :=
  words ["::", "core", "::", "compile_error", "!"] ++ enclosed .curly [.text message]

end Acceptor.Codegen
