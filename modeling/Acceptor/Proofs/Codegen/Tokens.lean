import Mathlib.Data.List.Basic
import Acceptor.Codegen.Reading
import Acceptor.Proofs.Codegen.Literals

/-!
# Source is read back as its tokens

Tokens that are laid out on a line are read back from it (`readTokens?_layout`). What is
read at the front of a text depends on what stands behind it there, so each kind of token
is read with a text behind it that cannot belong to it (`EndsToken`): its end, a space, or
a round or square bracket that closes.
-/

namespace Acceptor.Codegen

/-- The text is empty or begins with something that ends the token before it. -/
def EndsToken (t : List Char) : Prop := ∀ c ∈ t.head?, c = ' ' ∨ c = ')' ∨ c = ']'

theorem endsToken_nil : EndsToken [] := by simp [EndsToken]

theorem endsToken_cons {c : Char} {t : List Char} :
    EndsToken (c :: t) ↔ c = ' ' ∨ c = ')' ∨ c = ']' := by
  simp [EndsToken]

/-! ## Words -/

def isWordText (s : String) : Bool := s.toList ≠ [] && s.toList.all isWordChar

theorem isBlank_of_isAlphanum {c : Char} (hc : c.isAlphanum = true) :
    Text.isBlank c = false := by
  have hbounds : 48 ≤ c.toNat ∧ c.toNat ≤ 122 := by
    rcases Bool.or_eq_true_iff.1 hc with halpha | hdigit
    · rcases Bool.or_eq_true_iff.1 halpha with hupper | hlower
      · have hrange : 65 ≤ c.toNat ∧ c.toNat ≤ 90 := of_decide_eq_true hupper
        omega
      · obtain ⟨hlow, hhigh⟩ := Bool.and_eq_true_iff.1 hlower
        have hrange : 97 ≤ c.toNat ∧ c.toNat ≤ 122 :=
          ⟨of_decide_eq_true hlow, of_decide_eq_true hhigh⟩
        omega
    · have hrange : 48 ≤ c.toNat ∧ c.toNat ≤ 57 := Char.isDigit_iff_toNat.1 hdigit
      omega
  simp [Text.isBlank, Text.blankRanges]
  omega

theorem isBlank_of_isWordChar {c : Char} (hc : isWordChar c = true) : Text.isBlank c = false := by
  simp only [isWordChar, Bool.or_eq_true, Bool.and_eq_true, decide_eq_true_eq,
    Bool.not_eq_true'] at hc
  rcases hc with (halnum | rfl) | ⟨-, hblank⟩
  · exact isBlank_of_isAlphanum halnum
  · decide
  · exact hblank

variable {w rest : List Char}

/-- Neither a word nor what stands behind it begins with a quote or a hash. -/
theorem head?_word_append (hw : ∀ c ∈ w, isWordChar c = true) (hends : EndsToken rest) :
    ∀ c ∈ (w ++ rest).head?, c ≠ '"' ∧ c ≠ '\'' ∧ c ≠ '#' := by
  intro c hc
  cases w with
  | nil => rcases hends c hc with rfl | rfl | rfl <;> decide
  | cons d w =>
    obtain rfl : d = c := by simpa using hc
    have hd := hw d List.mem_cons_self
    exact ⟨Text.ne_of_class hd (by decide), Text.ne_of_class hd (by decide),
      Text.ne_of_class hd (by decide)⟩

theorem readRawString?_word_append (hw : ∀ c ∈ w, isWordChar c = true) (hends : EndsToken rest) :
    readRawString? (w ++ rest) = none := by
  have hhead := head?_word_append hw hends
  cases hshape : w ++ rest with
  | nil => rfl
  | cons c t =>
    rw [hshape] at hhead
    obtain ⟨hquote, -, hhash⟩ := hhead c rfl
    have hdrop : (c :: t).dropWhile (· = '#') = c :: t := by simp [hhash]
    unfold readRawString?
    rw [hdrop]
    simp [hquote]

theorem readLiteral?_word_append {c : Char} (hc : isWordChar c = true)
    (hw : ∀ d ∈ w, isWordChar d = true) (hends : EndsToken rest) :
    readLiteral? (c :: (w ++ rest)) = none := by
  have hhead := head?_word_append hw hends
  have hquotes : c ≠ '"' ∧ c ≠ '\'' :=
    ⟨Text.ne_of_class hc (by decide), Text.ne_of_class hc (by decide)⟩
  have hraw := readRawString?_word_append hw hends
  -- A letter that marks a literal of bytes may be followed by the letter for raw strings.
  have htail : ∀ t, w ++ rest = 'r' :: t → readRawString? t = none := by
    intro t ht
    cases w with
    | nil => simp [endsToken_cons, show rest = 'r' :: t from ht] at hends
    | cons d w =>
      obtain ⟨-, rfl⟩ := List.cons.inj ht
      exact readRawString?_word_append (List.forall_mem_cons.1 hw).2 hends
  generalize w ++ rest = t at hhead hraw htail
  unfold readLiteral?
  split <;> simp_all

theorem readMarkedName?_word_append (c : Char) (hw : ∀ d ∈ w, isWordChar d = true)
    (hends : EndsToken rest) : readMarkedName? (c :: (w ++ rest)) = none := by
  have hhead := head?_word_append hw hends
  generalize w ++ rest = t at hhead
  unfold readMarkedName?
  split <;> simp_all

theorem bracket?_of_isWordChar {c : Char} (hc : isWordChar c = true) : bracket? c = none := by
  have hne : ∀ d, isWordChar d = false → c ≠ d := fun d => Text.ne_of_class hc
  simp only [bracket?]
  rw [if_neg (hne _ (by decide)), if_neg (hne _ (by decide)), if_neg (hne _ (by decide)),
    if_neg (hne _ (by decide)), if_neg (hne _ (by decide)), if_neg (hne _ (by decide))]

theorem readWord_append {s : List Char} (hs : ∀ c ∈ s, isWordChar c = true)
    (hends : EndsToken rest) : readWord (s ++ rest) = (.word (String.ofList s), rest) := by
  have hrest : ∀ c ∈ rest.head?, isWordChar c = false := by
    intro c hc
    rcases hends c hc with rfl | rfl | rfl <;> decide
  rw [readWord, Text.takeWhile_append_of_ends hs hrest, Text.dropWhile_append_of_ends hs hrest]

/-! ## The front of a text -/

theorem afterComment?_of_ne {c : Char} (hc : c ≠ '/') (t : List Char) :
    afterComment? (c :: t) = none := by
  unfold afterComment?
  split <;> simp_all

theorem readDocumentation?_of_ne {c : Char} (hc : c ≠ '/') (t : List Char) :
    readDocumentation? (c :: t) = none := by
  unfold readDocumentation?
  split <;> simp_all

/-- What begins with neither a blank nor a comment begins with a token. -/
theorem readFront?_of_token {c : Char} {t behind : List Char} {token : Token}
    (hblank : Text.isBlank c = false) (hcomment : afterComment? (c :: t) = none)
    (hdocument : readDocumentation? (c :: t) = none)
    (hread : readToken? c t = some (token, behind)) :
    readFront? c t = some ([token], behind) := by
  rw [readFront?, hcomment, hdocument, hread]
  simp [hblank]

theorem readFront?_word {s : String} (hs : isWordText s = true) (hends : EndsToken rest) :
    ∃ c t, s.toList = c :: t ∧ readFront? c (t ++ rest) = some ([.word s], rest) := by
  simp only [isWordText, Bool.and_eq_true, decide_eq_true_eq, List.all_eq_true] at hs
  obtain ⟨c, t, ht⟩ := List.exists_cons_of_ne_nil hs.1
  rw [ht] at hs
  obtain ⟨hc, hword⟩ := List.forall_mem_cons.1 hs.2
  have hslash : c ≠ '/' := Text.ne_of_class hc (by decide)
  have hname : readWord (c :: (t ++ rest)) = (.word s, rest) := by
    have hread := readWord_append hs.2 hends
    rwa [← ht, String.ofList_toList, ht, List.cons_append] at hread
  refine ⟨c, t, ht, readFront?_of_token (isBlank_of_isWordChar hc) (afterComment?_of_ne hslash _)
    (readDocumentation?_of_ne hslash _) ?_⟩
  rw [readToken?, bracket?_of_isWordChar hc, readLiteral?_word_append hc hword hends,
    readMarkedName?_word_append c hword hends, hname]
  simp [hc]

/-! ## Marks -/

/-- The quote that opens a character is no mark of its own. -/
def isMarkText (s : String) : Bool :=
  match s.toList with
  | [c] => isMark c && c ≠ '\''
  | [c, d] => isDoubleMark c d
  | _ => false

theorem of_isMark {c : Char} (hc : isMark c = true) (hquote : c ≠ '\'') :
    Text.isBlank c = false ∧ bracket? c = none ∧ isWordChar c = false ∧ c ≠ '"' := by
  have hmarks : "~!@#$%^&*-=+|;:,<.>/?'".toList.all (fun d => d ≠ '\'' →
      Text.isBlank d = false ∧ bracket? d = none ∧ isWordChar d = false ∧ d ≠ '"') = true := by
    decide
  exact of_decide_eq_true (List.all_eq_true.1 hmarks c (of_decide_eq_true hc)) hquote

/-- Neither a literal nor a name begins with a mark. -/
theorem readLiteral?_of_mark {c : Char} (hword : isWordChar c = false) (hquote : c ≠ '\'')
    (hdouble : c ≠ '"') (t : List Char) :
    readLiteral? (c :: t) = none ∧ readMarkedName? (c :: t) = none := by
  have hne : ∀ d, isWordChar d = true → c ≠ d := fun d hd => (Text.ne_of_class hd hword).symm
  have hr := hne 'r' (by decide)
  have hb := hne 'b' (by decide)
  have hc := hne 'c' (by decide)
  constructor
  · unfold readLiteral?
    split <;> simp_all
  · unfold readMarkedName?
    split <;> simp_all

theorem readFront?_mark {c : Char} (hc : isMark c = true) (hquote : c ≠ '\'')
    (hends : EndsToken rest) :
    readFront? c rest = some ([.word (String.singleton c)], rest) := by
  obtain ⟨hblank, hbracket, hword, hdouble⟩ := of_isMark hc hquote
  obtain ⟨hliteral, hname⟩ := readLiteral?_of_mark hword hquote hdouble rest
  have hmark : readMark c rest = (.word (String.singleton c), rest) := by
    cases rest with
    | nil => rfl
    | cons d rest =>
      have hsingle : isDoubleMark c d = false := by
        rcases endsToken_cons.1 hends with rfl | rfl | rfl <;> simp [isDoubleMark]
      simp [readMark, hsingle]
  have hcomment : afterComment? (c :: rest) = none ∧ readDocumentation? (c :: rest) = none := by
    cases rest with
    | nil => simp [afterComment?, readDocumentation?]
    | cons d rest =>
      have hslash : d ≠ '/' ∧ d ≠ '*' := by
        rcases endsToken_cons.1 hends with rfl | rfl | rfl <;> decide
      simp [afterComment?, readDocumentation?, hslash.1, hslash.2]
  refine readFront?_of_token hblank hcomment.1 hcomment.2 ?_
  rw [readToken?, hbracket, hliteral, hname, hmark]
  simp [hword, hc]

theorem readFront?_markText {s : String} (hs : isMarkText s = true) (hends : EndsToken rest) :
    ∃ c t, s.toList = c :: t ∧ readFront? c (t ++ rest) = some ([.word s], rest) := by
  rw [isMarkText] at hs
  split at hs
  next c hc =>
    simp only [Bool.and_eq_true, decide_eq_true_eq] at hs
    have hsingle : String.singleton c = s := by rw [← String.toList_inj, hc]; simp
    refine ⟨c, [], hc, ?_⟩
    rw [List.nil_append, readFront?_mark hs.1 hs.2 hends, hsingle]
  next c d hcd =>
    have hpair : s = String.ofList [c, d] := by rw [← hcd, String.ofList_toList]
    refine ⟨c, [d], hcd, ?_⟩
    simp only [isDoubleMark, Bool.or_eq_true, Bool.and_eq_true, decide_eq_true_eq] at hs
    rcases hs with (⟨rfl, rfl⟩ | ⟨rfl, rfl⟩) | ⟨rfl, rfl⟩
    · rw [hpair]; rfl
    · rw [hpair]; rfl
    · rw [hpair]; rfl
  next => cases hs

/-! ## Tokens -/

namespace Token

/-- Words that source can consist of. -/
def isReadable : Token → Bool
  | word s => isWordText s || isMarkText s
  | _ => true

/-- What may stand right behind a token. -/
def EndedBy (t : Token) (rest : List Char) : Prop :=
  t = opening .round ∨ t = opening .square ∨ EndsToken rest

theorem dropSuffix_of_endsToken (hends : EndsToken rest) : dropSuffix rest = rest := by
  cases rest with
  | nil => rfl
  | cons c rest =>
    have hc : isNameStart c = false := by
      rcases endsToken_cons.1 hends with rfl | rfl | rfl <;> decide
    simp [dropSuffix, hc]

theorem readFront?_char (c : Char) (hends : EndsToken rest) :
    readFront? '\'' (Text.escape '\'' c ++ '\'' :: rest) = some ([char c], rest) := by
  refine readFront?_of_token rfl rfl rfl ?_
  have hliteral : readLiteral? ('\'' :: (Text.escape '\'' c ++ '\'' :: rest)) =
      some (char c, rest) := by
    simp [readLiteral?, readChar?_escape, dropSuffix_of_endsToken hends]
  rw [readToken?, hliteral]
  rfl

theorem readFront?_text (s : String) (hends : EndsToken rest) :
    readFront? '"' (literalBody s.toList ++ '"' :: rest) = some ([text s], rest) := by
  refine readFront?_of_token rfl rfl rfl ?_
  have hliteral : readLiteral? ('"' :: (literalBody s.toList ++ '"' :: rest)) =
      some (text s, rest) := by
    simp [readLiteral?, readLiteral?.string, readBody_literalBody, dropSuffix_of_endsToken hends]
  rw [readToken?, hliteral]
  rfl

/-- A token is read back at the front of a text. -/
theorem readFront?_written {t : Token} (ht : t.isReadable = true) (hends : t.EndedBy rest) :
    ∃ c more, t.written = c :: more ∧ readFront? c (more ++ rest) = some ([t], rest) := by
  cases t with
  | opening b => exact ⟨b.openingChar, [], rfl, by cases b <;> rfl⟩
  | closing b => exact ⟨b.closingChar, [], rfl, by cases b <;> rfl⟩
  | word s =>
    have hrest : EndsToken rest := by simpa [EndedBy] using hends
    rcases Bool.or_eq_true_iff.1 ht with hword | hmark
    · exact readFront?_word hword hrest
    · exact readFront?_markText hmark hrest
  | char c =>
    have hrest : EndsToken rest := by simpa [EndedBy] using hends
    refine ⟨'\'', Text.escape '\'' c ++ ['\''], by simp [written, Text.quoteChar], ?_⟩
    simpa using readFront?_char c hrest
  | text s =>
    have hrest : EndsToken rest := by simpa [EndedBy] using hends
    refine ⟨'"', literalBody s.toList ++ ['"'], rfl, ?_⟩
    simpa using readFront?_text s hrest

theorem readTokens?_written_append {t : Token} (ht : t.isReadable = true)
    (hends : t.EndedBy rest) {tokens : List Token} (hrest : readTokens? rest = some tokens) :
    readTokens? (t.written ++ rest) = some (t :: tokens) := by
  obtain ⟨c, more, hwritten, hread⟩ := readFront?_written ht hends
  rw [hwritten, List.cons_append, readTokens?]
  simp [hread, hrest]

/-- Blanks at the front of a text mean nothing. -/
theorem readTokens?_dropWhile (t : List Char) :
    readTokens? (t.dropWhile Text.isBlank) = readTokens? t := by
  cases t with
  | nil => rfl
  | cons c t =>
    by_cases hblank : Text.isBlank c
    · have hlength : (t.dropWhile Text.isBlank).length ≤ t.length :=
        (List.dropWhile_sublist _).length_le
      conv_rhs => rw [readTokens?]
      simp [readFront?, hblank, hlength]
    · simp [hblank]

theorem readTokens?_space (t : List Char) : readTokens? (' ' :: t) = readTokens? t := by
  have hspace : (' ' :: t).dropWhile Text.isBlank = t.dropWhile Text.isBlank := rfl
  rw [← readTokens?_dropWhile, hspace, readTokens?_dropWhile]

theorem layout_cons_cons (t u : Token) (rest : List Token) :
    layout (t :: u :: rest) =
      t.written ++ if t.touches u then layout (u :: rest) else ' ' :: layout (u :: rest) := rfl

/-- A token that touches the next one is ended by it. -/
theorem endedBy_layout {t u : Token} (h : t.touches u = true) (rest : List Token) :
    t.EndedBy (layout (u :: rest)) := by
  have hclosing : ∀ b, b = .round ∨ b = .square → EndsToken (layout (closing b :: rest)) := by
    intro b hb
    cases rest <;> rcases hb with rfl | rfl <;>
      simp [layout, written, endsToken_cons, Bracket.closingChar]
  simp only [touches, Bool.or_eq_true, decide_eq_true_eq] at h
  rcases h with ((h | h) | rfl) | rfl
  · exact .inl h
  · exact .inr (.inl h)
  · exact .inr (.inr (hclosing _ (.inl rfl)))
  · exact .inr (.inr (hclosing _ (.inr rfl)))

/-- Tokens are read back from the line on which they are laid out. -/
theorem readTokens?_layout {tokens : List Token} (h : ∀ t ∈ tokens, t.isReadable = true) :
    readTokens? (layout tokens) = some tokens := by
  induction tokens with
  | nil => rw [layout, readTokens?]
  | cons t tokens ih =>
    obtain ⟨ht, htokens⟩ := List.forall_mem_cons.1 h
    have hrest := ih htokens
    cases tokens with
    | nil =>
      have hends : t.EndedBy [] := .inr (.inr endsToken_nil)
      have hread : readTokens? (t.written ++ []) = some [t] :=
        readTokens?_written_append ht hends (by rw [readTokens?])
      rwa [List.append_nil] at hread
    | cons u rest =>
      rw [layout_cons_cons]
      by_cases htouches : t.touches u
      · rw [if_pos htouches]
        exact readTokens?_written_append ht (endedBy_layout htouches rest) hrest
      · have hspace : EndsToken (' ' :: layout (u :: rest)) := endsToken_cons.2 (.inl rfl)
        rw [if_neg htouches]
        exact readTokens?_written_append ht (.inr (.inr hspace)) ((readTokens?_space _).trans hrest)

/-- Source is read back as its tokens. A mark that tells the order of bytes would be dropped
from its front. -/
theorem ofSource_source {tokens : List Token} (h : ∀ t ∈ tokens, t.isReadable = true)
    (hfront : (layout tokens).head? ≠ some '\uFEFF') : ofSource (source tokens) = tokens := by
  have hmark : withoutByteOrderMark (layout tokens) = layout tokens := by
    unfold withoutByteOrderMark
    split
    next hshape => simp [hshape] at hfront
    next => rfl
  rw [ofSource, source, String.toList_ofList, hmark, readTokens?_layout h, Option.getD_some]

end Token

end Acceptor.Codegen
