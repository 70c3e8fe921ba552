import Acceptor.Codegen.Error
import Acceptor.Proofs.Codegen.Tokens

/-!
# Errors are read back

Errors that are rendered one after another are read back in their order, however they are
rendered (`readErrors_flatMap`). The invocation by the full path is one way that can be
relied on (`rendersErrors_compileError`).
-/

namespace Acceptor.Codegen

/-- An error that is read takes tokens. -/
theorem length_lt_of_readError? {tokens rest : List Token} {message : String}
    (h : readError? tokens = some (message, rest)) : rest.length < tokens.length := by
  have hdrop := (List.dropWhile_sublist (· ∈ [.word "::", .word "core", .word "std"])
    (l := tokens)).length_le
  unfold readError? at h
  split at h
  next hshape =>
    cases h
    rw [hshape] at hdrop
    simp only [List.length_cons] at hdrop
    omega
  next => cases h

theorem readErrors_flatMap {render : String → List Token} (hrender : RendersErrors render)
    (messages : List String) {rest : List Token} (hrest : readError? rest = none) :
    readErrors (messages.flatMap render ++ rest) = (messages, rest) := by
  induction messages with
  | nil => rw [List.flatMap_nil, List.nil_append, readErrors, hrest]
  | cons message messages ih =>
    have hread := hrender.readError?_append message (messages.flatMap render ++ rest)
    rw [List.flatMap_cons, List.append_assoc, readErrors, hread]
    simp only [if_pos (length_lt_of_readError? hread), ih]

theorem rendersErrors_compileError : RendersErrors compileError where
  readError?_append message rest := by
    simp [compileError, words, enclosed, readError?]
  ofSource_source message := by
    refine Token.ofSource_source (List.forall_mem_append.2 ⟨by decide, ?_⟩) ?_
    · simp [enclosed, Token.isReadable]
    · simp [compileError, words, enclosed, Token.layout_cons_cons, Token.written]

end Acceptor.Codegen
