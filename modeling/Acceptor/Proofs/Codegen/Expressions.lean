import Acceptor.Codegen.Evaluation
import Acceptor.Proofs.Codegen.Errors

/-!
# What the expansion of a pattern denotes

The source that a pattern text turns into is read back as its tokens, and in these there
is one expression that builds a pattern, the one for the pattern of the text
(`expansion_denotes`). Evaluation reads nothing but construction expressions
(`builds_iff`), so what evaluates to a pattern anywhere in the tokens has neither of the
marks `=` and `;` in it, which stand on both sides of the expression.
-/

namespace Acceptor.Codegen

/-! ## Evaluation reads construction expressions -/

/-- The tokens are an expression that builds the pattern. -/
def Builds (tokens : List Token) (p : Pattern Char) : Prop :=
  evaluate? tokens.length tokens = some (p, [])

theorem eq_of_expect? {t : Token} {tokens rest : List Token}
    (h : expect? t tokens = some rest) : tokens = t :: rest := by
  cases tokens with
  | nil => cases h
  | cons u tokens =>
    rw [expect?] at h
    split at h
    next heq => rw [heq, Option.some.inj h]
    next => cases h

theorem eq_of_readCall? {constructor : String} {tokens rest : List Token}
    (h : readCall? tokens = some (constructor, rest)) :
    tokens = words ["::", "automata", "::", "Pattern", "::", constructor] ++
      .opening .round :: rest := by
  unfold readCall? at h
  split at h
  next => cases h; rfl
  next => cases h

/-- Whatever is evaluated is the construction expression of its value. -/
theorem eq_of_evaluate? {depth : Nat} {tokens rest : List Token} {p : Pattern Char}
    (h : evaluate? depth tokens = some (p, rest)) : tokens = constructionOnto p rest := by
  induction depth generalizing tokens rest p with
  | zero => cases h
  | succ depth ih =>
    rw [evaluate?] at h
    split at h
    case h_1 hcall | h_2 hcall =>
      obtain ⟨behind, hclose, hvalue⟩ := Option.bind_eq_some_iff.1 h
      cases hvalue
      rw [eq_of_readCall? hcall, eq_of_expect? hclose]
      rfl
    case h_3 hcall | h_4 hcall =>
      obtain ⟨⟨p, first⟩, hp, h⟩ := Option.bind_eq_some_iff.1 h
      obtain ⟨second, hcomma, h⟩ := Option.bind_eq_some_iff.1 h
      obtain ⟨⟨q, third⟩, hq, h⟩ := Option.bind_eq_some_iff.1 h
      obtain ⟨behind, hclose, hvalue⟩ := Option.bind_eq_some_iff.1 h
      cases hvalue
      rw [eq_of_readCall? hcall, ih hp, eq_of_expect? hcomma, ih hq, eq_of_expect? hclose]
      rfl
    case h_5 hcall =>
      obtain ⟨⟨p, first⟩, hp, h⟩ := Option.bind_eq_some_iff.1 h
      obtain ⟨behind, hclose, hvalue⟩ := Option.bind_eq_some_iff.1 h
      cases hvalue
      rw [eq_of_readCall? hcall, ih hp, eq_of_expect? hclose]
      rfl
    case h_6 => cases h

theorem builds_iff {tokens : List Token} {p : Pattern Char} :
    Builds tokens p ↔ tokens = construction p := by
  constructor
  · exact fun h => eq_of_evaluate? h
  · rintro rfl
    exact evaluate?_constructionOnto p [] _ (Nat.le_refl _)

/-! ## Where expressions stand -/

/-- What expressions are made of besides literals. -/
def expressionTokens : List Token :=
  words ["::", "automata", "Pattern", "empty", "literal", "concatenate", "choose", "repeat", ","] ++
    [.opening .round, .closing .round]

variable {P : Token → Prop}

theorem forall_mem_callOnto (htokens : ∀ t ∈ expressionTokens, P t) {constructor : String}
    {write : List Token → List Token} {rest : List Token}
    (hconstructor : .word constructor ∈ expressionTokens)
    (harguments : ∀ t ∈ write (.closing .round :: rest), P t) :
    ∀ t ∈ callOnto constructor write rest, P t := by
  have hname : ∀ t ∈ words ["::", "automata", "::", "Pattern", "::", constructor],
      t ∈ expressionTokens := by
    simp only [words, List.map_cons, List.map_nil, List.forall_mem_cons]
    exact ⟨by decide, by decide, by decide, by decide, by decide, hconstructor, by simp⟩
  intro t ht
  rcases List.mem_append.1 ht with ht | ht
  · exact htokens t (hname t ht)
  · rcases List.mem_cons.1 ht with rfl | ht
    · exact htokens _ (by decide)
    · exact harguments t ht

/-- What holds of literals and of these tokens holds of all tokens of an expression. -/
theorem forall_mem_constructionOnto (hliteral : ∀ c, P (.char c))
    (htokens : ∀ t ∈ expressionTokens, P t) (p : Pattern Char) {rest : List Token}
    (hrest : ∀ t ∈ rest, P t) : ∀ t ∈ constructionOnto p rest, P t := by
  have hmark : ∀ {t : Token} {rest : List Token}, t ∈ expressionTokens → (∀ u ∈ rest, P u) →
      ∀ u ∈ t :: rest, P u := fun ht hrest => List.forall_mem_cons.2 ⟨htokens _ ht, hrest⟩
  induction p generalizing rest with
  | empty => exact forall_mem_callOnto htokens (by decide) (hmark (by decide) hrest)
  | literal c =>
    have hclose := hmark (t := .closing .round) (by decide) hrest
    exact forall_mem_callOnto htokens (by decide) (List.forall_mem_cons.2 ⟨hliteral c, hclose⟩)
  | concat p q ihp ihq | choice p q ihp ihq =>
    have hsecond := ihq (hmark (t := .closing .round) (by decide) hrest)
    have hfirst := ihp (hmark (t := .word ",") (by decide) hsecond)
    exact forall_mem_callOnto htokens (by decide) hfirst
  | star p ih =>
    have hpart := ih (hmark (t := .closing .round) (by decide) hrest)
    exact forall_mem_callOnto htokens (by decide) hpart

theorem forall_mem_construction (hliteral : ∀ c, P (.char c))
    (htokens : ∀ t ∈ expressionTokens, P t) (p : Pattern Char) : ∀ t ∈ construction p, P t :=
  forall_mem_constructionOnto hliteral htokens p (by simp)

theorem opening_mem_construction (p : Pattern Char) : .opening .round ∈ construction p := by
  cases p <;> simp [construction, constructionOnto, callOnto]

/-- The expression stands in the tokens, and all of them that builds a pattern lies within it. -/
structure OnlyExpression (tokens before expression after : List Token) : Prop where
  shape : tokens = before ++ (expression ++ after)
  within : ∀ u e v q, tokens = u ++ (e ++ v) → Builds e q → before <+: u ∧ after <:+ v

/-- A separator that the middle part does not have stands before it or behind it. -/
theorem append_cons_eq_append {front back u e v : List Token} {s : Token}
    (h : front ++ s :: back = u ++ (e ++ v)) (hs : s ∉ e) :
    (∃ w, v = w ++ s :: back ∧ front = u ++ (e ++ w)) ∨
      ∃ w, u = front ++ s :: w ∧ back = w ++ (e ++ v) := by
  rcases List.append_eq_append_iff.1 h with ⟨w, hu, hshape⟩ | ⟨w, hfront, hshape⟩
  · cases w with
    | nil =>
      cases e with
      | nil => exact .inl ⟨[], hshape.symm, by simpa using hu.symm⟩
      | cons t e =>
        obtain ⟨hst, -⟩ := List.cons.inj hshape
        exact absurd (hst ▸ List.mem_cons_self) hs
    | cons t w =>
      obtain ⟨hst, hback⟩ := List.cons.inj hshape
      exact .inr ⟨w, hst ▸ hu, hback⟩
  · rcases List.append_eq_append_iff.1 hshape with ⟨w', hw, hv⟩ | ⟨w', he, hback⟩
    · exact .inl ⟨w', hv, by rw [hfront, hw]⟩
    · cases w' with
      | nil => exact .inl ⟨[], hback.symm, by simp [hfront, he]⟩
      | cons t w' =>
        obtain ⟨hst, -⟩ := List.cons.inj hback
        exact absurd (by simp [he, hst]) hs

/-! ## The expansion -/

/-- What stands in front of the expression and its equals sign. -/
def blockStart : List Token :=
  .opening .curly ::
    words ["let", "pattern", ":", "::", "automata", "::", "Pattern", "<", "char", ">"]

/-- What stands behind the expression and its semicolon. -/
def blockEnd : List Token := words ["pattern"] ++ [.closing .curly]

/-- The block that binds a name to the expression of a pattern and yields what it stands for. -/
def block (p : Pattern Char) : List Token :=
  blockStart ++ .word "=" :: (construction p ++ .word ";" :: blockEnd)

variable {render : String → List Token}

theorem patternExpression_of_ok {text : String} {p : Pattern Char}
    (hparse : Pattern.parse text = .ok p) : patternExpression render text = block p := by
  simp [patternExpression, hparse, block, blockStart, blockEnd, words, enclosed]

theorem blockValue?_block (p : Pattern Char) : blockValue? (block p) = some p := by
  have hevaluate : evaluate? ((construction p).length + 3)
      (construction p ++ [.word ";", .word "pattern", .closing .curly]) =
        some (p, [.word ";", .word "pattern", .closing .curly]) := by
    simpa [constructionOnto_eq] using evaluate?_constructionOnto p
      [.word ";", .word "pattern", .closing .curly] _ (Nat.le_refl _)
  simp [block, blockStart, blockEnd, words, blockValue?, hevaluate]

/-- The equals sign and the semicolon stand around what builds a pattern in a block. -/
theorem onlyExpression_block (p : Pattern Char) :
    OnlyExpression (block p) (blockStart ++ [.word "="]) (construction p)
      (.word ";" :: blockEnd) := by
  refine ⟨by simp [block], fun u e v q hshape hbuilds => ?_⟩
  obtain rfl := builds_iff.1 hbuilds
  have hmarks := forall_mem_construction (P := fun t => t ≠ .word "=" ∧ t ≠ .word ";")
    (fun c => by simp) (by decide) q
  have hopening := opening_mem_construction q
  constructor
  · have hequals : .word "=" ∉ construction q := fun hmem => (hmarks _ hmem).1 rfl
    rcases append_cons_eq_append hshape hequals with ⟨w, -, hstart⟩ | ⟨w, hu, -⟩
    · have hmem : .opening .round ∈ blockStart := by simp [hstart, hopening]
      exact absurd hmem (by decide)
    · exact ⟨w, by simp [hu]⟩
  · have hsemicolon : .word ";" ∉ construction q := fun hmem => (hmarks _ hmem).2 rfl
    have hbehind : (blockStart ++ .word "=" :: construction p) ++ .word ";" :: blockEnd =
        u ++ (construction q ++ v) := by simp [← hshape, block]
    rcases append_cons_eq_append hbehind hsemicolon with ⟨w, hv, -⟩ | ⟨w, -, hend⟩
    · exact ⟨w, hv.symm⟩
    · have hmem : .opening .round ∈ blockEnd := by simp [hend, hopening]
      exact absurd hmem (by decide)

theorem isReadable_construction (p : Pattern Char) :
    ∀ t ∈ construction p, t.isReadable = true :=
  forall_mem_construction (fun _ => rfl) (by decide) p

theorem ofSource_block (p : Pattern Char) :
    Token.ofSource (Token.source (block p)) = block p := by
  have hreadable : ∀ t ∈ block p, t.isReadable = true := by
    refine List.forall_mem_append.2 ⟨by decide, List.forall_mem_cons.2 ⟨by decide, ?_⟩⟩
    exact List.forall_mem_append.2 ⟨isReadable_construction p, by decide⟩
  refine Token.ofSource_source hreadable ?_
  simp [block, blockStart, words, Token.layout_cons_cons, Token.written, Bracket.openingChar]

theorem ofSource_construction (p : Pattern Char) :
    Token.ofSource (Token.source (construction p)) = construction p := by
  refine Token.ofSource_source (isReadable_construction p) ?_
  cases p <;> simp [construction, constructionOnto, callOnto, words, Token.layout_cons_cons,
    Token.written]

/-- The tokens in the source that a pattern text turns into. -/
def expandedTokens (render : String → List Token) (text : String) : List Token :=
  Token.ofSource (Token.source (patternExpression render text))

theorem expandedTokens_of_ok {text : String} {p : Pattern Char}
    (hparse : Pattern.parse text = .ok p) : expandedTokens render text = block p := by
  rw [expandedTokens, patternExpression_of_ok hparse, ofSource_block]

theorem readError?_expandedTokens (hrender : RendersErrors render) {text : String}
    {fault : ParseError} (hparse : Pattern.parse text = .error fault) :
    readError? (expandedTokens render text) = some ("invalid pattern: " ++ fault.message, []) := by
  have hexpression : patternExpression render text = render (invalidPattern fault) := by
    rw [patternExpression, hparse]
  have hread := hrender.readError?_append (invalidPattern fault) []
  rw [List.append_nil] at hread
  rw [expandedTokens, hexpression, hrender.ofSource_source]
  exact hread

/-- The source of a pattern text has one expression in it that builds a pattern, besides the
parts of that expression. It builds the pattern of the text, and so does the block around it.
Different patterns have different expressions. A faulty text turns into one error with the
message of the fault, and nothing stands behind it. -/
theorem expansion_denotes {render : String → List Token} (hrender : RendersErrors render) :
    (∀ text p, Pattern.parse text = .ok p →
      (∃ before expression after,
        OnlyExpression (expandedTokens render text) before expression after ∧
          Builds expression p) ∧
      blockValue? (expandedTokens render text) = some p) ∧
    (∀ p q, p ≠ q → Token.source (construction p) ≠ Token.source (construction q)) ∧
    ∀ text fault, Pattern.parse text = .error fault →
      readError? (expandedTokens render text) =
        some ("invalid pattern: " ++ fault.message, []) := by
  refine ⟨?_, ?_, ?_⟩
  · intro text p hparse
    rw [expandedTokens_of_ok hparse]
    exact ⟨⟨_, construction p, _, onlyExpression_block p, builds_iff.2 rfl⟩, blockValue?_block p⟩
  · intro p q hne hsource
    refine hne (construction_injective ?_)
    rw [← ofSource_construction p, hsource, ofSource_construction]
  · exact fun text fault hparse => readError?_expandedTokens hrender hparse

/-- The literals are both quotes, a bracket, a comma and a backslash. The other text opens a
group and does not close it. -/
theorem expansion_denotes_of_marks :
    (∃ p, Pattern.parse "('|\"|\\(,)*\\\\" = .ok p ∧
      blockValue? (expandedTokens compileError "('|\"|\\(,)*\\\\") = some p) ∧
    readError? (expandedTokens compileError "a(") =
      some ("invalid pattern: group opened at 1 is never closed", []) := by
  have hparse : Pattern.parse "('|\"|\\(,)*\\\\" = .ok (.concat
      (.star (.choice (.choice (.literal '\'') (.literal '"'))
        (.concat (.literal '(') (.literal ',')))) (.literal '\\')) := by decide +kernel
  have hfault : Pattern.parse "a(" = .error (.unclosedGroup 1) := by decide +kernel
  obtain ⟨hok, -, herror⟩ := expansion_denotes rendersErrors_compileError
  exact ⟨⟨_, hparse, (hok _ _ hparse).2⟩, herror _ _ hfault⟩

end Acceptor.Codegen
