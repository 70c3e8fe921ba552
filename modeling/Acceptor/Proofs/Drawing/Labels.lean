import Mathlib.Tactic.SplitIfs
import Acceptor.Drawing
import Acceptor.Label
import Acceptor.Pattern.Vertex
import Acceptor.Proofs.Diagram
import Acceptor.Proofs.Text.Classes

/-!
# Which labels can be read back

Writing a label escapes its quotes but leaves its backslashes alone, while reading takes
a backslash and what follows it for one unit. So a label is read back just if no quote in
it stands behind a backslash that is left over when the backslashes before it are paired
off (`readLabel?_labelBody_iff`). `Pairing` follows this from character to character.

The labels are quoted texts of states and symbols. In these a quote stands behind such a
backslash wherever a string has a quote in it, and nowhere else (`pairsOff_quoted`). So it
depends on the strings in a value alone whether its label can be read back.
-/

namespace Acceptor.Drawing

/-- How the backslashes of a text have paired off with what follows them. -/
inductive Pairing where
  /-- No backslash is left over. -/
  | settled
  /-- The last character is a backslash that is left over. -/
  | waiting
  /-- A quote stood behind a backslash that was left over. -/
  | broken
deriving DecidableEq

namespace Pairing

def next : Pairing → Char → Pairing
  | settled, c => if c = '\\' then waiting else settled
  | waiting, c => if c = '"' then broken else settled
  | broken, _ => broken

def after (pairing : Pairing) (text : List Char) : Pairing := text.foldl next pairing

variable (pairing : Pairing)

@[simp] theorem after_nil : pairing.after [] = pairing := rfl

@[simp] theorem after_cons (c : Char) (text : List Char) :
    pairing.after (c :: text) = (pairing.next c).after text := rfl

@[simp] theorem after_append (t u : List Char) :
    pairing.after (t ++ u) = (pairing.after t).after u := List.foldl_append

@[simp] theorem after_broken (text : List Char) : broken.after text = broken := by
  induction text with
  | nil => rfl
  | cons c text ih => exact ih

/-- Without backslashes, quotes do no harm. -/
theorem after_settled_of_not_mem {text : List Char} (h : '\\' ∉ text) :
    settled.after text = settled := by
  induction text with
  | nil => rfl
  | cons c text ih =>
    rw [List.mem_cons, not_or] at h
    have hnext : settled.next c = settled := if_neg fun heq => h.1 heq.symm
    rw [after_cons, hnext, ih h.2]

end Pairing

/-! ## Reading a label -/

section Reading

variable {c : Char} {t label rest : List Char}

theorem readLabel?_quote_iff :
    readLabel? ('\\' :: '"' :: t) = some ('"' :: label, rest) ↔
      readLabel? t = some (label, rest) := by
  cases h : readLabel? t <;> simp [readLabel?, h, Prod.ext_iff]

theorem readLabel?_backslashes_iff :
    readLabel? ('\\' :: '\\' :: t) = some ('\\' :: '\\' :: label, rest) ↔
      readLabel? t = some (label, rest) := by
  cases h : readLabel? t <;> simp [readLabel?, h, Prod.ext_iff]

theorem readLabel?_plain_iff (hquote : c ≠ '"') (hback : c ≠ '\\') :
    readLabel? (c :: t) = some (c :: label, rest) ↔ readLabel? t = some (label, rest) := by
  cases h : readLabel? t <;> simp [readLabel?, h, hquote, hback, Prod.ext_iff]

/-- A backslash in front of any other character stands for itself. -/
theorem readLabel?_backslash_iff (hquote : c ≠ '"') (hback : c ≠ '\\') :
    readLabel? ('\\' :: c :: t) = some ('\\' :: c :: label, rest) ↔
      readLabel? t = some (label, rest) := by
  cases h : readLabel? t <;> simp [readLabel?, h, hquote, hback, Prod.ext_iff]

end Reading

theorem labelBody_quote (label : List Char) :
    labelBody ('"' :: label) = '\\' :: '"' :: labelBody label := rfl

theorem labelBody_of_ne {c : Char} (hquote : c ≠ '"') (label : List Char) :
    labelBody (c :: label) = c :: labelBody label := by
  rw [labelBody_cons, if_neg hquote, List.singleton_append]

/-- A label is read back from behind its opening quote, or from behind a backslash that is
left over, just if all pairs off. -/
theorem readLabel?_labelBody_iff_and (label rest : List Char) :
    (readLabel? (labelBody label ++ '"' :: rest) = some (label, rest) ↔
      Pairing.settled.after label = .settled) ∧
    (readLabel? ('\\' :: (labelBody label ++ '"' :: rest)) = some ('\\' :: label, rest) ↔
      Pairing.waiting.after label = .settled) := by
  induction label with
  | nil => simp [labelBody, readLabel?]
  | cons c label ih =>
    obtain ⟨hsettled, hwaiting⟩ := ih
    by_cases hquote : c = '"'
    · subst hquote
      rw [labelBody_quote]
      constructor
      · exact readLabel?_quote_iff.trans hsettled
      · -- The two backslashes pair off, and the quote ends the label.
        simp [readLabel?, Pairing.next]
    · rw [labelBody_of_ne hquote, List.cons_append]
      by_cases hback : c = '\\'
      · subst hback
        exact ⟨hwaiting, readLabel?_backslashes_iff.trans hsettled⟩
      · constructor
        · rw [readLabel?_plain_iff hquote hback, hsettled]
          simp [Pairing.next, hback]
        · rw [readLabel?_backslash_iff hquote hback, hsettled]
          simp [Pairing.next, hquote]

theorem readLabel?_labelBody_iff {label rest : List Char} :
    readLabel? (labelBody label ++ '"' :: rest) = some (label, rest) ↔
      Pairing.settled.after label = .settled :=
  (readLabel?_labelBody_iff_and label rest).1

/-! ## Quoted texts -/

/-- The text leaves no backslash over at its end, and all in it pairs off just if `clean`
holds. -/
def PairsOff (t : List Char) (clean : Prop) : Prop :=
  Pairing.settled.after t ≠ .waiting ∧ (Pairing.settled.after t = .settled ↔ clean)

namespace PairsOff

variable {t u : List Char} {clean clean' : Prop}

theorem congr (ht : PairsOff t clean) (h : clean ↔ clean') : PairsOff t clean' :=
  ⟨ht.1, ht.2.trans h⟩

theorem append (ht : PairsOff t clean) (hu : PairsOff u clean') :
    PairsOff (t ++ u) (clean ∧ clean') := by
  rw [PairsOff, Pairing.after_append, ← ht.2, ← hu.2]
  cases hpairing : Pairing.settled.after t with
  | settled => simpa using hu.1
  | waiting => exact absurd hpairing ht.1
  | broken => simp

theorem of_not_mem (h : '\\' ∉ t) : PairsOff t True := by
  simp [PairsOff, Pairing.after_settled_of_not_mem h]

/-- What stands between two marks counts. -/
theorem enclosed (ht : PairsOff t clean) {c d : Char} (hc : c ≠ '\\') (hd : d ≠ '\\') :
    PairsOff (c :: (t ++ [d])) clean := by
  have hfirst : PairsOff [c] True := of_not_mem (by simpa using hc.symm)
  have hlast : PairsOff [d] True := of_not_mem (by simpa using hd.symm)
  exact (hfirst.append (ht.append hlast)).congr (by simp)

theorem numberEscape (c : Char) : PairsOff (Text.numberEscape c) True := by
  have hdigits : '\\' ∉ Nat.toDigits 16 c.toNat :=
    Text.backslash_not_mem_toDigits (by decide) (by decide) _
  have hbraces : '\\' ∉ '{' :: (Nat.toDigits 16 c.toNat ++ ['}']) := by simp [hdigits]
  have hmark : PairsOff ['\\', 'u'] True := by simp [PairsOff, Pairing.next]
  exact (hmark.append (of_not_mem hbraces)).congr (by simp)

/-- A quote stands behind a backslash only in a string. -/
theorem escape (quote c : Char) :
    PairsOff (Text.escape quote c) (¬ (c = '"' ∧ quote = '"')) := by
  by_cases hquote : c = '"'
  · subst hquote
    have hvisible : Text.isVisible '"' = true := by decide
    by_cases hsame : quote = '"'
    · simp [Text.escape, hsame, PairsOff, Pairing.next]
    · simp [Text.escape, Ne.symm hsame, hsame, hvisible, PairsOff, Pairing.next]
  · suffices h : PairsOff (Text.escape quote c) True from h.congr (by simp [hquote])
    rw [Text.escape]
    split_ifs with hzero htab hline hreturn hmark hvisible
    · simp [PairsOff, Pairing.next]
    · simp [PairsOff, Pairing.next]
    · simp [PairsOff, Pairing.next]
    · simp [PairsOff, Pairing.next]
    · simp [PairsOff, Pairing.next, hquote]
    · exact of_not_mem (by simpa using Ne.symm (not_or.1 hmark).1)
    · exact numberEscape c

theorem quoteChar (c : Char) : PairsOff (Text.quoteChar c).toList True := by
  rw [Text.quoteChar, String.toList_ofList]
  exact ((escape '\'' c).enclosed (by decide) (by decide)).congr (by simp)

theorem flatMap_escape (s : List Char) :
    PairsOff (s.flatMap (Text.escape '"')) ('"' ∉ s) := by
  induction s with
  | nil => simp [PairsOff]
  | cons c s ih =>
    rw [List.flatMap_cons]
    exact ((escape '"' c).append ih).congr (by simp [eq_comm])

theorem quoteString (s : String) : PairsOff (Text.quoteString s).toList ('"' ∉ s.toList) := by
  rw [Text.quoteString, String.toList_ofList]
  exact (flatMap_escape s.toList).enclosed (by decide) (by decide)

theorem repr (n : Nat) : PairsOff n.repr.toList True := by
  refine of_not_mem ?_
  rw [Nat.repr_eq_ofList_toDigits, String.toList_ofList]
  exact Text.backslash_not_mem_toDigits (by decide) (by decide) n

theorem commaSeparated {β : Type} {text : β → String} {clean : β → Prop} {values : List β}
    (h : ∀ b ∈ values, PairsOff (text b).toList (clean b)) :
    PairsOff (Text.commaSeparated (values.map text)).toList (∀ b ∈ values, clean b) := by
  have hcomma : PairsOff ", ".toList True := of_not_mem (by decide)
  induction values with
  | nil => simp [PairsOff, Text.commaSeparated]
  | cons b values ih =>
    obtain ⟨hfirst, hrest⟩ := List.forall_mem_cons.1 h
    cases values with
    | nil => simpa [Text.commaSeparated] using hfirst
    | cons c values =>
      have hsplit : (Text.commaSeparated ((b :: c :: values).map text)).toList =
          (text b).toList ++ (", ".toList ++
            (Text.commaSeparated ((c :: values).map text)).toList) := by
        simp [Text.commaSeparated, String.intercalate_cons_cons]
      rw [hsplit]
      exact (hfirst.append (hcomma.append (ih hrest))).congr (by simp)

end PairsOff

/-- Values whose quoted text is put together from numbers, characters and strings. -/
class HasStrings (α : Type) [Quoted α] where
  /-- The strings in a value. -/
  strings : α → List String
  pairsOff_quoted : ∀ a, PairsOff (quoted a).toList (∀ s ∈ strings a, '"' ∉ s.toList)

export HasStrings (strings pairsOff_quoted)

instance : HasStrings Nat where
  strings _ := []
  pairsOff_quoted n := (PairsOff.repr n).congr (by simp)

instance : HasStrings Int where
  strings _ := []
  pairsOff_quoted
    | .ofNat n => (PairsOff.repr n).congr (by simp)
    | .negSucc n => by
      have hsign : PairsOff "-".toList True := PairsOff.of_not_mem (by decide)
      have htext : (quoted (Int.negSucc n)).toList = "-".toList ++ (n + 1).repr.toList := by
        simp [quoted, Int.repr]
      rw [htext]
      exact (hsign.append (PairsOff.repr (n + 1))).congr (by simp)

instance : HasStrings Char where
  strings _ := []
  pairsOff_quoted c := (PairsOff.quoteChar c).congr (by simp)

instance : HasStrings String where
  strings s := [s]
  pairsOff_quoted s := (PairsOff.quoteString s).congr (by simp)

instance : HasStrings Vertex where
  strings _ := []
  pairsOff_quoted v := by
    have hletter : PairsOff "q".toList True := PairsOff.of_not_mem (by decide)
    have htext : (quoted v).toList = "q".toList ++ v.index.repr.toList := by simp [quoted]
    rw [htext]
    exact (hletter.append (PairsOff.repr v.index)).congr (by simp)

instance : HasStrings StateLabel where
  strings
    | .number _ => []
    | .text s => [s]
  pairsOff_quoted
    | .number n => pairsOff_quoted n
    | .text s => pairsOff_quoted s

instance : HasStrings Symbol where
  strings
    | .char _ | .number _ => []
    | .text s => [s]
  pairsOff_quoted
    | .char c => pairsOff_quoted c
    | .number n => pairsOff_quoted n
    | .text s => pairsOff_quoted s

instance {α : Type} [Ordered α] [Quoted α] [HasStrings α] : HasStrings (SortedSet α) where
  strings s := s.toList.flatMap strings
  pairsOff_quoted s := by
    have htext : (quoted s).toList =
        '{' :: ((Text.commaSeparated (s.toList.map quoted)).toList ++ ['}']) := by
      simp [quoted]
    have hmembers : PairsOff (Text.commaSeparated (s.toList.map quoted)).toList
        (∀ a ∈ s.toList, ∀ t ∈ strings a, '"' ∉ t.toList) :=
      PairsOff.commaSeparated fun a _ => pairsOff_quoted a
    rw [htext]
    exact (hmembers.enclosed (by decide) (by decide)).congr (by
      simp only [List.mem_flatMap]
      grind)

/-- The label of a rule can be read back if the symbol on it has no quote in a string. -/
theorem pairsOff_labelText {α : Type} [Quoted α] [HasStrings α] (label : Option α) :
    PairsOff (Text.labelText label).toList (∀ a ∈ label, ∀ s ∈ strings a, '"' ∉ s.toList) := by
  cases label with
  | none =>
    have hletter : '\\' ∉ "ε".toList := by decide
    exact (PairsOff.of_not_mem hletter).congr (by simp)
  | some a => exact (pairsOff_quoted a).congr (by simp)

/-! ## Labels in the text of a drawing -/

theorem toList_quotedLabel (label : String) :
    (quotedLabel label).toList = '"' :: (labelBody label.toList ++ ['"']) :=
  String.toList_ofList

/-- The lines of statements. -/
def lines (statements : List Statement) : List Char :=
  statements.flatMap fun statement => statement.text.toList ++ ['\n']

theorem toList_text (statements : List Statement) :
    (text statements).toList =
      "digraph \x7b\n".toList ++ lines statements ++ "\x7d\n".toList := by
  simp [text, lines, List.flatMap_map]

theorem lines_eq_append {statements : List Statement} {statement : Statement}
    (h : statement ∈ statements) :
    ∃ before behind, lines statements = before ++ statement.text.toList ++ behind := by
  obtain ⟨above, below, rfl⟩ := List.append_of_mem h
  refine ⟨lines above, '\n' :: lines below, ?_⟩
  simp [lines]

end Acceptor.Drawing

namespace Acceptor.Diagram

open Drawing

variable {σ α : Type} [Ordered σ] [Quoted σ] [Quoted α]

/-- In the text of the drawing the label stands between quotes behind `opening`, and
`behind` is what follows its closing quote. -/
def ShowsLabel (d : Diagram σ α) (opening label : String) (behind : List Char) : Prop :=
  ∃ before, d.graph.toList = before ++ (opening ++ quotedLabel label).toList ++ behind

theorem exists_showsLabel {d : Diagram σ α} {statement : Statement} {opening label : String}
    (hstatement : statement ∈ d.drawing) (start ending : String)
    (htext : statement.text = start ++ opening ++ quotedLabel label ++ ending) :
    ∃ behind, d.ShowsLabel opening label behind := by
  obtain ⟨before, behind, hlines⟩ := lines_eq_append hstatement
  refine ⟨ending.toList ++ behind ++ "\x7d\n".toList,
    "digraph \x7b\n".toList ++ before ++ start.toList, ?_⟩
  rw [graph, toList_text, hlines, htext]
  simp

/-- The node that stands for the state. -/
def nodeOf (d : Diagram σ α) (q : σ) : Drawing.Node := .state (d.states.toList.idxOf q)

theorem stateStatement_mem_drawing {d : Diagram σ α} {q : σ} (hq : q ∈ d.states) :
    d.stateStatement d.nodeOf q ∈ d.drawing :=
  List.mem_append_left _ (List.mem_cons_of_mem _ (List.mem_map_of_mem hq))

theorem ruleStatement_mem_drawing {d : Diagram σ α} {rule : Rule σ α} (hrule : rule ∈ d.rules) :
    ruleStatement d.nodeOf rule ∈ d.drawing :=
  List.mem_append_right _ (List.mem_cons_of_mem _ (List.mem_map_of_mem hrule))

theorem exists_showsLabel_state {d : Diagram σ α} {q : σ} (hq : q ∈ d.states) :
    ∃ behind, d.ShowsLabel "node[label=" (quoted q) behind := by
  let ending := (if q ∈ d.accept then ", shape=doublecircle" else "") ++ "] " ++ (d.nodeOf q).text
  refine exists_showsLabel (stateStatement_mem_drawing hq) "" ending ?_
  rw [← String.toList_inj]
  by_cases haccept : q ∈ d.accept
  · simp [ending, stateStatement, Statement.text, Attribute.text, haccept]
  · simp [ending, stateStatement, Statement.text, Attribute.text, haccept]

theorem exists_showsLabel_rule {d : Diagram σ α} {rule : Rule σ α} (hrule : rule ∈ d.rules) :
    ∃ behind, d.ShowsLabel " [label=" (Text.labelText rule.label) behind := by
  refine exists_showsLabel (ruleStatement_mem_drawing hrule)
    ((d.nodeOf rule.source).text ++ " -> " ++ (d.nodeOf rule.target).text) "]" ?_
  simp [ruleStatement, Statement.text]

variable [HasStrings σ] [HasStrings α]

/-- The label of each state and of each rule stands in the text of the drawing. Whatever
follows there, reading it from its opening quote ends at its closing quote and gives the
label just if no string in the state, or in the symbol on the rule, has a quote in it. -/
theorem labels_read_back_iff (d : Diagram σ α) :
    (∀ q ∈ d.states, (∃ behind, d.ShowsLabel "node[label=" (quoted q) behind) ∧
      ∀ behind, readLabel? (labelBody (quoted q).toList ++ '"' :: behind) =
          some ((quoted q).toList, behind) ↔ ∀ s ∈ strings q, '"' ∉ s.toList) ∧
    (∀ rule ∈ d.rules, (∃ behind, d.ShowsLabel " [label=" (Text.labelText rule.label) behind) ∧
      ∀ behind, readLabel? (labelBody (Text.labelText rule.label).toList ++ '"' :: behind) =
          some ((Text.labelText rule.label).toList, behind) ↔
        ∀ a ∈ rule.label, ∀ s ∈ strings a, '"' ∉ s.toList) := by
  constructor
  · intro q hq
    refine ⟨exists_showsLabel_state hq, fun behind => ?_⟩
    rw [readLabel?_labelBody_iff]
    exact (pairsOff_quoted q).2
  · intro rule hrule
    refine ⟨exists_showsLabel_rule hrule, fun behind => ?_⟩
    rw [readLabel?_labelBody_iff]
    exact (pairsOff_labelText rule.label).2

/-- The state is a single backslash, and its label can be read back. The symbol is `a"b`, and
its label can not. -/
theorem labels_read_back_of_backslash :
    ∃ d : Diagram StateLabel Symbol, ∃ q ∈ d.states, ∃ rule ∈ d.rules,
      (∀ behind, readLabel? (labelBody (quoted q).toList ++ '"' :: behind) =
          some ((quoted q).toList, behind)) ∧
      ∀ behind, readLabel? (labelBody (Text.labelText rule.label).toList ++ '"' :: behind) ≠
          some ((Text.labelText rule.label).toList, behind) := by
  let q : StateLabel := .text "\\"
  let rule : Rule StateLabel Symbol := ⟨q, some (.text "a\"b"), q⟩
  let d : Diagram StateLabel Symbol := ⟨q, .ofList [q], [rule]⟩
  have hq : q ∈ d.states := start_mem_states
  have hrule : rule ∈ d.rules := List.mem_singleton_self rule
  obtain ⟨hstates, hrules⟩ := labels_read_back_iff d
  refine ⟨d, q, hq, rule, hrule, fun behind => ?_, fun behind => ?_⟩
  · exact ((hstates q hq).2 behind).2 (by decide)
  · exact fun hread => absurd (((hrules rule hrule).2 behind).1 hread) (by decide)

/-- The label of the state `"` ends at the quote in the middle. -/
theorem not_label_read_back :
    ¬ ∀ (d : Diagram StateLabel Symbol), ∀ q ∈ d.states, ∀ behind,
      d.ShowsLabel "node[label=" (quoted q) behind →
        readLabel? (labelBody (quoted q).toList ++ '"' :: behind) =
          some ((quoted q).toList, behind) := by
  intro h
  let q : StateLabel := .text "\""
  let d : Diagram StateLabel Symbol := ⟨q, .ofList [], []⟩
  have hq : q ∈ d.states := start_mem_states
  obtain ⟨behind, hshows⟩ := exists_showsLabel_state hq
  have hread := readLabel?_labelBody_iff.1 (h d q hq behind hshows)
  exact absurd hread (by decide)

end Acceptor.Diagram
