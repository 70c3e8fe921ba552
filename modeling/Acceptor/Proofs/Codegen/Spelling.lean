import Acceptor.Codegen.Listing
import Acceptor.Codegen.Program
import Acceptor.Proofs.Codegen.Errors

/-!
# The program that a listing spells

What a token list spells is read off it whatever stands behind it, if there is fuel enough
for all of the tokens (`SpellsCode`, `SpellsBlock`, `SpellsArms`). There is one lemma for
each shape that source can have, and put together they read a listing: its source spells a
program whose three functions leave at once if the mark is set and select an arm by the
state otherwise (`read?_tokens`).
-/

namespace Acceptor.Codegen

variable {t : Token} {v : Value}

/-! ## Literals -/

theorem numberOf?_repr (q : Nat) : numberOf? (q.repr ++ "usize") = some q := by
  have hdigits : ∀ c ∈ Nat.toDigits 10 q, c.isDigit = true := fun c hc =>
    Nat.isDigit_of_mem_toDigits (by decide) (by decide) hc
  have hsuffix : ∀ c ∈ ['u', 's', 'i', 'z', 'e'].head?, c.isDigit = false := by simp
  have hspelled : (q.repr ++ "usize").toList = Nat.toDigits 10 q ++ ['u', 's', 'i', 'z', 'e'] := by
    simp
  rw [numberOf?, hspelled, Text.takeWhile_append_of_ends hdigits hsuffix,
    Text.dropWhile_append_of_ends hdigits hsuffix]
  simp

theorem valueOf?_stateToken (q : Nat) : valueOf? (Listing.stateToken q) = some (.number q) := by
  have hnumber := numberOf?_repr q
  rw [Listing.stateToken]
  generalize q.repr ++ "usize" = s at hnumber
  have hname : ∀ name, numberOf? name = none → s ≠ name := by
    rintro _ hname rfl
    rw [hname] at hnumber
    cases hnumber
  have htrue := hname "true" (by decide)
  have hfalse := hname "false" (by decide)
  unfold valueOf?
  split <;> simp_all

/-- A mark or a name that is no literal differs from a literal. -/
theorem ne_word_of_valueOf? (ht : valueOf? t = some v) {s : String}
    (hs : valueOf? (.word s) = none) : t ≠ .word s := by
  rintro rfl
  rw [hs] at ht
  cases ht

theorem patternOf?_of_valueOf? (ht : valueOf? t = some v) : patternOf? t = some (some v) := by
  have hany := ne_word_of_valueOf? ht (s := "_") (by decide)
  unfold patternOf?
  split
  · exact absurd rfl hany
  · rw [ht, Option.map_some]

theorem readOperand?_of_valueOf? (ht : valueOf? t = some v) (rest : List Token) :
    readOperand? (t :: rest) = some (.literal v, rest) := by
  have hself := ne_word_of_valueOf? ht (s := "self") (by decide)
  unfold readOperand?
  split
  next heq => exact absurd (List.cons.inj heq).1 hself
  next heq =>
    obtain ⟨rfl, rfl⟩ := List.cons.inj heq
    simp only [ht]
  next heq => cases heq

/-! ## Shapes of source -/

/-- The tokens are read as the code, and no token behind them. -/
def SpellsCode (tokens : List Token) (code : Code) : Prop :=
  ∀ n rest, 2 * (tokens ++ rest).length ≤ n → readCode? n (tokens ++ rest) = some (code, rest)

/-- The tokens are read as the rest of a block, its closing bracket included. -/
def SpellsBlock (tokens : List Token) (code : Code) : Prop :=
  ∀ n rest, 2 * (tokens ++ rest).length < n → readBlock? n (tokens ++ rest) = some (code, rest)

/-- The tokens are read as the rest of the arms, the closing bracket included. -/
def SpellsArms (tokens : List Token) (arms : List (Option Value × Code)) : Prop :=
  ∀ n rest, 2 * (tokens ++ rest).length < n → readArms? n (tokens ++ rest) = some (arms, rest)

variable {tokens more : List Token} {code others : Code}

/-- Tokens that are read take a call, which leaves fuel for what is read inside of it. -/
theorem SpellsCode.of_call (h : ∀ n rest, 2 * (t :: tokens ++ rest).length ≤ n + 1 →
    readCode? (n + 1) (t :: tokens ++ rest) = some (code, rest)) :
    SpellsCode (t :: tokens) code := by
  intro n rest hn
  cases n with
  | zero => simp at hn
  | succ n => exact h n rest hn

theorem SpellsBlock.of_call (h : ∀ n rest, 2 * (tokens ++ rest).length ≤ n →
    readBlock? (n + 1) (tokens ++ rest) = some (code, rest)) : SpellsBlock tokens code := by
  intro n rest hn
  cases n with
  | zero => cases hn
  | succ n => exact h n rest (Nat.le_of_lt_succ hn)

theorem SpellsArms.of_call {arms : List (Option Value × Code)}
    (h : ∀ n rest, 2 * (tokens ++ rest).length ≤ n →
      readArms? (n + 1) (tokens ++ rest) = some (arms, rest)) : SpellsArms tokens arms := by
  intro n rest hn
  cases n with
  | zero => cases hn
  | succ n => exact h n rest (Nat.le_of_lt_succ hn)

theorem SpellsBlock.readBody? (h : SpellsBlock tokens code) (rest : List Token) :
    readBody? (tokens ++ rest) = some (code, rest) :=
  h _ rest (Nat.lt_succ_self _)

namespace SpellsCode

theorem bool (b : Bool) :
    SpellsCode [.word (if b then "true" else "false")] (.operand (.literal (.bool b))) := by
  refine .of_call fun n rest _ => ?_
  cases b <;> simp [readCode?, readOperand?, valueOf?]

theorem unreachable :
    SpellsCode [.word "unreachable", .word "!", .opening .round, .closing .round]
      .unreachable := by
  refine .of_call fun n rest _ => ?_
  simp [readCode?]

theorem leave (ht : valueOf? t = some v) :
    SpellsCode [.word "return", t] (.leave (.literal v)) := by
  refine .of_call fun n rest _ => ?_
  have hsemicolon := ne_word_of_valueOf? ht (s := ";") (by decide)
  simp [readCode?, hsemicolon, readOperand?_of_valueOf? ht]

theorem assign (field : String) (ht : valueOf? t = some v) :
    SpellsCode [.word "self", .word ".", .word field, .word "=", t]
      (.assign field (.literal v)) := by
  refine .of_call fun n rest _ => ?_
  simp [readCode?, readOperand?_of_valueOf? ht]

theorem block (h : SpellsBlock tokens code) : SpellsCode (.opening .curly :: tokens) code := by
  refine .of_call fun n rest hn => ?_
  rw [List.cons_append, readCode?]
  exact h n rest (by simp at hn ⊢; omega)

theorem when (condition : List Token) {x : Operand}
    (hx : ∀ rest, readOperand? (condition ++ rest) = some (x, rest))
    (h : SpellsBlock tokens code) :
    SpellsCode (.word "if" :: (condition ++ .opening .curly :: tokens)) (.when x code) := by
  refine .of_call fun n rest hn => ?_
  have hbody := h n rest (by simp at hn ⊢; omega)
  simp [readCode?, hx, hbody]

theorem select (scrutinee : List Token) {x : Operand} {arms : List (Option Value × Code)}
    (hx : ∀ rest, readOperand? (scrutinee ++ rest) = some (x, rest))
    (h : SpellsArms tokens arms) :
    SpellsCode (.word "match" :: (scrutinee ++ .opening .curly :: tokens)) (.select x arms) := by
  refine .of_call fun n rest hn => ?_
  have harms := h n rest (by simp at hn ⊢; omega)
  simp [readCode?, hx, harms]

end SpellsCode

namespace SpellsBlock

theorem nil : SpellsBlock [.closing .curly] (.operand (.literal .unit)) := by
  refine .of_call fun n rest _ => ?_
  simp [readBlock?]

/-- Leaving without a value is read together with the semicolon behind it. -/
theorem leave : SpellsBlock [.word "return", .word ";", .closing .curly]
    (.sequence (.leave (.literal .unit)) (.operand (.literal .unit))) := by
  refine .of_call fun n rest hn => ?_
  cases n with
  | zero => simp at hn
  | succ n => simp [readBlock?, readCode?]

theorem last (hcode : SpellsCode (t :: tokens) code) (ht : t ≠ .closing .curly) :
    SpellsBlock (t :: tokens ++ [.closing .curly]) code := by
  refine .of_call fun n rest hn => ?_
  have hread := hcode n (.closing .curly :: rest) (by simp at hn ⊢; omega)
  simp_all [readBlock?]

theorem statement (hcode : SpellsCode (t :: tokens) code) (ht : t ≠ .closing .curly)
    (hmore : SpellsBlock more others) :
    SpellsBlock (t :: tokens ++ .word ";" :: more) (.sequence code others) := by
  refine .of_call fun n rest hn => ?_
  have hread := hcode n (.word ";" :: (more ++ rest)) (by simp at hn ⊢; omega)
  have hothers := hmore n rest (by simp at hn ⊢; omega)
  simp_all [readBlock?]

theorem next (hcode : SpellsCode (t :: tokens) code) (ht : beginsBlock (t :: tokens) = true)
    {u : Token} (hclose : u ≠ .closing .curly) (hsemicolon : u ≠ .word ";")
    (hmore : SpellsBlock (u :: more) others) :
    SpellsBlock (t :: tokens ++ u :: more) (.sequence code others) := by
  refine .of_call fun n rest hn => ?_
  have hread := hcode n (u :: (more ++ rest)) (by simp at hn ⊢; omega)
  have hothers := hmore n rest (by simp at hn ⊢; omega)
  have hopen : t ≠ .closing .curly := by
    rintro rfl
    simp [beginsBlock] at ht
  simp_all [readBlock?, beginsBlock]

end SpellsBlock

/-- The tokens are an arm that ends with a block. -/
inductive SpellsArm : List Token → Option Value × Code → Prop
  | intro {t u : Token} {value? : Option Value} {body : List Token} {code : Code} :
    patternOf? t = some value? → beginsBlock (u :: body) = true → SpellsCode (u :: body) code →
      SpellsArm (t :: .word "=>" :: u :: body) (value?, code)

theorem commas_cons_cons (first second : List Token) (items : List (List Token)) :
    commas (first :: second :: items) = first ++ .word "," :: commas (second :: items) := by
  simp [commas]

namespace SpellsArms

variable {value? : Option Value} {body : List Token} {arms : List (Option Value × Code)}

theorem nil : SpellsArms [.closing .curly] [] := by
  refine .of_call fun n rest _ => ?_
  simp [readArms?]

theorem ne_closing (ht : patternOf? t = some value?) : t ≠ .closing .curly := by
  rintro rfl
  cases ht

/-- An arm with a comma behind it. -/
theorem cons (ht : patternOf? t = some value?) (hcode : SpellsCode body code)
    (hmore : SpellsArms more arms) :
    SpellsArms (t :: .word "=>" :: (body ++ .word "," :: more)) ((value?, code) :: arms) := by
  refine .of_call fun n rest hn => ?_
  have hread := hcode n (.word "," :: (more ++ rest)) (by simp at hn ⊢; omega)
  have hothers := hmore n rest (by simp at hn ⊢; omega)
  simp [readArms?, ne_closing ht, ht, hread, hothers]

/-- An arm that ends with a block, without a comma. -/
theorem next {u w : Token} (ht : patternOf? t = some value?)
    (hblock : beginsBlock (u :: body) = true) (hcode : SpellsCode (u :: body) code)
    (hw : w ≠ .word ",") (hmore : SpellsArms (w :: more) arms) :
    SpellsArms (t :: .word "=>" :: (u :: body ++ w :: more)) ((value?, code) :: arms) := by
  refine .of_call fun n rest hn => ?_
  have hread := hcode n (w :: (more ++ rest)) (by simp at hn ⊢; omega)
  have hothers := hmore n rest (by simp at hn ⊢; omega)
  have hblock' : beginsBlock (u :: (body ++ w :: (more ++ rest))) = true := hblock
  simp_all [readArms?, ne_closing ht]

/-- Arms with commas between them, and other arms behind them. -/
theorem append_commas {β : Type} {write : β → List Token} {arm : β → Option Value × Code}
    (hwrite : ∀ b, SpellsArm (write b) (arm b)) {w : Token} (hw : w ≠ .word ",")
    (hmore : SpellsArms (w :: more) arms) (items : List β) :
    SpellsArms (commas (items.map write) ++ w :: more) (items.map arm ++ arms) := by
  induction items with
  | nil => exact hmore
  | cons b items ih =>
    have hb := hwrite b
    rw [List.map_cons, List.map_cons, List.cons_append]
    generalize write b = tokens at hb ⊢
    generalize arm b = a at hb ⊢
    obtain ⟨ht, hblock, hcode⟩ := hb
    cases items with
    | nil => simpa [commas] using next ht hblock hcode hw hmore
    | cons c items =>
      rw [List.map_cons, commas_cons_cons]
      simpa using cons ht hcode ih

/-- Arms with a comma behind each of them, and other arms behind them. -/
theorem append_flatMap {β : Type} {write : β → List Token} {arm : β → Option Value × Code}
    (hwrite : ∀ b more arms, SpellsArms more arms → SpellsArms (write b ++ more) (arm b :: arms))
    (hmore : SpellsArms more arms) (items : List β) :
    SpellsArms (items.flatMap write ++ more) (items.map arm ++ arms) := by
  induction items with
  | nil => exact hmore
  | cons b items ih =>
    rw [List.flatMap_cons, List.append_assoc]
    exact hwrite b _ _ ih

end SpellsArms

/-! ## The functions of a listing -/

namespace Listing

/-- Sets a field. -/
def assignment (field : String) (v : Value) : Code :=
  .sequence (.assign field (.literal v)) (.operand (.literal .unit))

theorem spells_assign (field : String) (ht : valueOf? t = some v) :
    SpellsCode (assign field t) (assignment field v) :=
  .block (.statement (.assign field ht) nofun .nil)

/-- The arm for one value. -/
def arm {κ ρ : Type} (value : κ → Value) (body : ρ → Code) (entry : κ × ρ) :
    Option Value × Code :=
  (some (value entry.1), body entry.2)

/-- What is run when a symbol leads to a state. -/
def moveCode (q : Nat) : Code := assignment "state" (.number q)

theorem spells_moveArm (move : Char × Nat) :
    SpellsArm (moveArm move) (arm .char moveCode move) :=
  .intro rfl rfl (spells_assign "state" (valueOf?_stateToken move.2))

/-- What is run when a symbol is read in a state. -/
def movesCode (moves : List (Char × Nat)) : Code :=
  .select (.parameter "token")
    (moves.map (arm .char moveCode) ++ [(none, assignment "stuck" (.bool true))])

theorem spells_moveArms (entry : Nat × List (Char × Nat)) :
    SpellsArm (moveArms entry) (arm .number movesCode entry) := by
  have hother : SpellsArms (.word "_" :: .word "=>" :: assign "stuck" (.word "true") ++
      [.closing .curly]) [(none, assignment "stuck" (.bool true))] :=
    .next rfl rfl (spells_assign "stuck" rfl) (by decide) .nil
  have harms := SpellsArms.append_commas spells_moveArm (by decide) hother entry.2
  have hselect := SpellsCode.select [.word "token"] (x := .parameter "token") (fun _ => rfl) harms
  exact .intro (patternOf?_of_valueOf? (valueOf?_stateToken entry.1)) rfl
    (by simpa [movesCode, words, enclosed] using hselect)

/-- What is run when a question about a state is asked. -/
def answerCode (answer : Bool) : Code := .operand (.literal (.bool answer))

theorem spells_answerArm (entry : Nat × Bool) {more : List Token}
    {arms : List (Option Value × Code)} (hmore : SpellsArms more arms) :
    SpellsArms (answerArm entry ++ more) (arm .number answerCode entry :: arms) := by
  have harm := SpellsArms.cons (patternOf?_of_valueOf? (valueOf?_stateToken entry.1))
    (.bool entry.2) hmore
  simpa [answerArm, arm, answerCode, words] using harm

theorem spells_unreachableArm :
    SpellsArms (unreachableArm ++ [.closing .curly]) [(none, .unreachable)] :=
  .cons rfl .unreachable .nil

/-- The body of a function that leaves with a value if the mark is set, and otherwise takes
the arm for the state. -/
def bodyCode (ifStuck : Value) (arms : List (Option Value × Code)) : Code :=
  .sequence
    (.when (.field "stuck")
      (.sequence (.leave (.literal ifStuck)) (.operand (.literal .unit))))
    (.select (.field "state") (arms ++ [(none, .unreachable)]))

theorem spells_body (leaving : List Token) {arms : List Token} {codes : List (Option Value × Code)}
    (hleave : SpellsBlock (.word "return" :: (leaving ++ [.word ";", .closing .curly]))
      (.sequence (.leave (.literal v)) (.operand (.literal .unit))))
    (harms : SpellsArms (arms ++ (unreachableArm ++ [.closing .curly]))
      (codes ++ [(none, .unreachable)])) :
    SpellsBlock (ifStuck leaving ++ matchState arms ++ [.closing .curly]) (bodyCode v codes) := by
  have hguard := SpellsCode.when (words ["self", ".", "stuck"]) (x := .field "stuck")
    (fun _ => rfl) hleave
  have hselect := SpellsCode.select (words ["self", ".", "state"]) (x := .field "state")
    (fun _ => rfl) harms
  have hbody := SpellsBlock.next hguard rfl (by decide) (by decide) (.last hselect nofun)
  simpa [ifStuck, matchState, bodyCode, words, enclosed] using hbody

/-- The program that the source of a listing spells. -/
def program (l : Listing) : Program where
  errors := l.errors
  name := l.name
  initial := [("state", .number l.initial), ("stuck", .bool false)]
  parameter := "token"
  acceptBody := bodyCode .unit (l.moves.map (arm .number movesCode))
  isAcceptingBody := bodyCode (.bool false) (l.accepting.map (arm .number answerCode))
  isStuckBody := bodyCode (.bool true) (l.dead.map (arm .number answerCode))

theorem readQuestion?_question (name : String) (answer : Bool) (arms : List (Nat × Bool))
    (rest : List Token) :
    Program.readQuestion? name
        (question name (if answer then "true" else "false") arms ++ rest) =
      some (bodyCode (.bool answer) (arms.map (arm .number answerCode)), rest) := by
  have hleave : SpellsBlock (.word "return" ::
      (words [if answer then "true" else "false"] ++ [.word ";", .closing .curly]))
      (.sequence (.leave (.literal (.bool answer))) (.operand (.literal .unit))) := by
    cases answer
    · exact .statement (.leave rfl) nofun .nil
    · exact .statement (.leave rfl) nofun .nil
  have harms := SpellsArms.append_flatMap (fun entry _ _ => spells_answerArm entry)
    spells_unreachableArm arms
  have hbody := (spells_body _ hleave harms).readBody? rest
  simpa [question, Program.readQuestion?, words, enclosed] using hbody

theorem readAccept?_acceptTokens (l : Listing) (rest : List Token) :
    Program.readAccept? (l.acceptTokens ++ rest) =
      some (("token", bodyCode .unit (l.moves.map (arm .number movesCode))), rest) := by
  have harms := SpellsArms.append_commas spells_moveArms (by decide) spells_unreachableArm l.moves
  have hbody := (spells_body [] .leave harms).readBody? rest
  simpa [acceptTokens, Program.readAccept?, words, enclosed] using hbody

theorem dropVisibility_tokens (visibility : Visibility) (keyword : String)
    (hkeyword : keyword ≠ "pub") (rest : List Token) :
    dropVisibility (visibility.tokens ++ .word keyword :: rest) = .word keyword :: rest := by
  cases visibility with
  | inherited => simp [Visibility.tokens, dropVisibility, hkeyword]
  | everywhere => simp [Visibility.tokens, words, dropVisibility]
  | within path =>
    have hpath : ∀ t ∈ words path, decide (t ≠ Token.closing .round) = true := by
      intro t ht
      obtain ⟨s, _, rfl⟩ := List.mem_map.1 ht
      rfl
    have hshape : (Visibility.within path).tokens ++ .word keyword :: rest =
        .word "pub" :: .opening .round ::
          (words path ++ (.closing .round :: .word keyword :: rest)) := by
      simp [Visibility.tokens, words, enclosed]
    rw [hshape, dropVisibility, List.dropWhile_append_of_pos hpath]
    rfl

variable {visibility : Visibility} {l : Listing}

theorem readType?_typeTokens (hvisibility : l.visibility = visibility.tokens)
    (rest : List Token) :
    Program.readType? (l.typeTokens ++ rest) =
      some ((l.name, [("state", "usize"), ("stuck", "bool")]), rest) := by
  have hdrop := dropVisibility_tokens visibility "struct" (by decide)
  simp [typeTokens, Program.readType?, hvisibility, hdrop, readFields?, words, enclosed]

theorem readNew?_newTokens (hvisibility : l.visibility = visibility.tokens)
    (rest : List Token) :
    Program.readNew? l.name (l.newTokens ++ rest) = some (l.program.initial, rest) := by
  have hdrop := dropVisibility_tokens visibility "fn" (by decide)
  have hstate := valueOf?_stateToken l.initial
  have hstuck : valueOf? (.word "false") = some (.bool false) := rfl
  simp [newTokens, Program.readNew?, hvisibility, hdrop, readInitial?, hstate, hstuck, words,
    enclosed, program]

/-- The source of a listing is read as its program, however errors are rendered. -/
theorem read?_tokens {render : String → List Token} (hrender : RendersErrors render)
    (hvisibility : l.visibility = visibility.tokens) :
    Program.read? (l.tokens render) = some l.program := by
  have hshape : l.tokens render = l.errors.flatMap render ++ (l.typeTokens ++ (l.newTokens ++
      (words ["impl", "::", "automata", "::", "PatternMatcher", "for", l.name] ++
        .opening .curly :: (words ["type", "Alphabet", "=", "char", ";"] ++ (l.acceptTokens ++
          (question "is_accepting" "false" l.accepting ++
            (question "is_stuck" "true" l.dead ++ [.closing .curly]))))))) := by
    simp [tokens, matcherTokens, enclosed]
  have herrors : ∀ rest, readErrors (l.errors.flatMap render ++ (l.typeTokens ++ rest)) =
      (l.errors, l.typeTokens ++ rest) := fun rest => readErrors_flatMap hrender l.errors rfl
  have hhead : ∀ rest, Program.readHead? l.name
      (words ["impl", "::", "automata", "::", "PatternMatcher", "for", l.name] ++
        .opening .curly :: (words ["type", "Alphabet", "=", "char", ";"] ++ rest)) = some rest := by
    simp [words, Program.readHead?]
  have haccepting : ∀ rest, Program.readQuestion? "is_accepting"
      (question "is_accepting" "false" l.accepting ++ rest) = some (l.program.isAcceptingBody, rest) :=
    readQuestion?_question "is_accepting" false l.accepting
  have hstuck : ∀ rest, Program.readQuestion? "is_stuck"
      (question "is_stuck" "true" l.dead ++ rest) = some (l.program.isStuckBody, rest) :=
    readQuestion?_question "is_stuck" true l.dead
  rw [hshape, Program.read?, herrors]
  simp only [readType?_typeTokens hvisibility, readNew?_newTokens hvisibility, hhead,
    readAccept?_acceptTokens, haccepting, hstuck, Option.bind_eq_bind, Option.bind_some]
  rfl

end Listing

end Acceptor.Codegen
