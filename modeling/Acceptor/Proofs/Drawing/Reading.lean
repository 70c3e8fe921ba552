import Mathlib.Data.List.Basic
import Acceptor.Drawing.Reading
import Acceptor.Proofs.Drawing.Labels

/-!
# Reading undoes drawing

The text of a drawing is read back as the statements that it was written from
(`read?_text`), if their labels can be read back. The text is cut into words first:
`Spells` says that a text consists of certain words, and a text is put together from
words in front, so that it can be seen what ends a name. Then the statements are read off
their words.
-/

namespace Acceptor.Drawing

/-! ## Cutting a text into words -/

/-- Names are made of these characters, and something else must end them. -/
def IsName (s : String) : Prop := s.toList ≠ [] ∧ s.toList.all isNameChar = true

def EndsName (t : List Char) : Prop := ∀ c ∈ t.head?, isNameChar c = false

def isMark (c : Char) : Bool := c ∈ ['[', ']', '{', '}', '=', ',']

/-- The text consists of the words, with blanks between them. -/
inductive Spells : List Char → List Word → Prop
  | nil : Spells [] []
  | space {t : List Char} {words : List Word} : Spells t words → Spells (' ' :: t) words
  | newline {t : List Char} {words : List Word} : Spells t words → Spells ('\n' :: t) words
  | name {s : String} {t : List Char} {words : List Word} : IsName s → EndsName t →
      Spells t words → Spells (s.toList ++ t) (.name s :: words)
  | label {label : String} {t : List Char} {words : List Word} :
      Pairing.settled.after label.toList = .settled → Spells t words →
        Spells ((quotedLabel label).toList ++ t) (.label label :: words)
  | arrow {t : List Char} {words : List Word} :
      Spells t words → Spells ('-' :: '>' :: t) (.arrow :: words)
  | mark {c : Char} {t : List Char} {words : List Word} :
      isMark c → Spells t words → Spells (c :: t) (.mark c :: words)

theorem of_isMark {c : Char} (hc : isMark c = true) :
    c ≠ ' ' ∧ c ≠ '\n' ∧ c ≠ '"' ∧ isNameChar c = false ∧ c ≠ '-' := by
  have hmarks : ['[', ']', '{', '}', '=', ','].all (fun d =>
      d ≠ ' ' ∧ d ≠ '\n' ∧ d ≠ '"' ∧ isNameChar d = false ∧ d ≠ '-') = true := by decide
  exact of_decide_eq_true (List.all_eq_true.1 hmarks c (of_decide_eq_true hc))

theorem endsName_cons {c : Char} (hc : isNameChar c = false) (t : List Char) :
    EndsName (c :: t) := by
  simpa [EndsName] using hc

theorem endsName_of_isMark {c : Char} (hc : isMark c = true) (t : List Char) :
    EndsName (c :: t) :=
  endsName_cons (of_isMark hc).2.2.2.1 t

theorem readWords?_of_spells {t : List Char} {words : List Word} (h : Spells t words) :
    readWords? t = some words := by
  induction h with
  | nil => rw [readWords?]
  | space _ ih =>
    rw [readWords?]
    simpa using ih
  | newline _ ih =>
    rw [readWords?]
    simpa using ih
  | @name s t words hs ht _ ih =>
    obtain ⟨hne, hchars⟩ := hs
    obtain ⟨c, rest, hrest⟩ := List.exists_cons_of_ne_nil hne
    rw [hrest, List.all_eq_true] at hchars
    obtain ⟨hc, hchars⟩ := List.forall_mem_cons.1 hchars
    have htake := Text.takeWhile_append_of_ends hchars ht
    have hdrop := Text.dropWhile_append_of_ends hchars ht
    have hspace : c ≠ ' ' := Text.ne_of_class hc (by decide)
    have hline : c ≠ '\n' := Text.ne_of_class hc (by decide)
    have hquote : c ≠ '"' := Text.ne_of_class hc (by decide)
    have hname : String.ofList (c :: rest) = s := by rw [← hrest, String.ofList_toList]
    rw [hrest, List.cons_append, readWords?]
    simp [hspace, hline, hquote, hc, htake, hdrop, hname, ih]
  | @label label t words hsettled _ ih =>
    have hread : readLabel? (labelBody label.toList ++ '"' :: t) = some (label.toList, t) :=
      readLabel?_labelBody_iff.2 hsettled
    have hshape : (quotedLabel label).toList ++ t =
        '"' :: (labelBody label.toList ++ '"' :: t) := by simp [toList_quotedLabel]
    have hlength : t.length ≤ (labelBody label.toList).length + (t.length + 1) := by omega
    rw [hshape, readWords?, hread]
    simp [hlength, ih]
  | arrow _ ih =>
    have hname : isNameChar '-' = false := by decide
    rw [readWords?]
    simp [hname, ih]
  | @mark c t words hc _ ih =>
    obtain ⟨hspace, hline, hquote, hname, harrow⟩ := of_isMark hc
    rw [readWords?]
    simp [hspace, hline, hquote, hname, harrow, ih]

/-! ## The words of statements -/

def Attribute.words : Attribute → List Word
  | .label text => [.name "label", .mark '=', .label text]
  | .shape name => [.name "shape", .mark '=', .name name]

/-- The words of attributes with commas between them. -/
def attributeWords : List Attribute → List Word
  | [] => []
  | [first] => first.words
  | first :: second :: others => first.words ++ .mark ',' :: attributeWords (second :: others)

def Statement.words : Statement → List Word
  | .node defaults name =>
    .name "node" :: .mark '[' :: (attributeWords defaults ++ [.mark ']', .name name.text])
  | .arrow source target none => [.name source.text, .arrow, .name target.text]
  | .arrow source target (some label) =>
    [.name source.text, .arrow, .name target.text, .mark '[', .name "label", .mark '=',
      .label label, .mark ']']

/-- The label can be read back, or the shape is a name. -/
def Attribute.Readable : Attribute → Prop
  | .label text => Pairing.settled.after text.toList = .settled
  | .shape name => IsName name

def Statement.Readable : Statement → Prop
  | .node defaults _ => ∀ a ∈ defaults, a.Readable
  | .arrow _ _ label => ∀ text ∈ label, Pairing.settled.after text.toList = .settled

theorem Node.isName_text (node : Node) : IsName node.text := by
  cases node with
  | entry => exact ⟨by decide, by decide⟩
  | state place =>
    have hchars : (Node.state place).text.toList = 'i' :: 'd' :: Nat.toDigits 10 place := by
      simp [Node.text]
    have hdigits : (Nat.toDigits 10 place).all isNameChar = true := by
      refine List.all_eq_true.2 fun c hc => ?_
      have hdigit : c.isDigit = true := Nat.isDigit_of_mem_toDigits (by decide) (by decide) hc
      simp [isNameChar, Char.isAlphanum, hdigit]
    have hletters : isNameChar 'i' = true ∧ isNameChar 'd' = true := by decide
    simp [IsName, hchars, hletters, hdigits]

theorem Spells.entry (key : String) (hkey : IsName key) {t : List Char} {words : List Word}
    (ht : Spells t words) : Spells (key.toList ++ '=' :: t) (.name key :: .mark '=' :: words) :=
  .name hkey (endsName_of_isMark (by decide) t) (.mark (by decide) ht)

theorem Attribute.spells {a : Attribute} (ha : a.Readable) {t : List Char} {words : List Word}
    (hends : EndsName t) (ht : Spells t words) :
    Spells (a.text.toList ++ t) (a.words ++ words) := by
  cases a with
  | label text =>
    have hentry := Spells.entry "label" ⟨by decide, by decide⟩ (.label ha ht)
    simpa [Attribute.text, Attribute.words] using hentry
  | shape name =>
    have hentry := Spells.entry "shape" ⟨by decide, by decide⟩ (.name ha hends ht)
    simpa [Attribute.text, Attribute.words] using hentry

theorem spells_attributes {defaults : List Attribute} (h : ∀ a ∈ defaults, a.Readable)
    {t : List Char} {words : List Word} (hends : EndsName t) (ht : Spells t words) :
    Spells ((", ".intercalate (defaults.map Attribute.text)).toList ++ t)
      (attributeWords defaults ++ words) := by
  induction defaults with
  | nil => simpa [attributeWords] using ht
  | cons first others ih =>
    obtain ⟨hfirst, hothers⟩ := List.forall_mem_cons.1 h
    cases others with
    | nil => simpa [attributeWords] using Attribute.spells hfirst hends ht
    | cons second others =>
      have hrest := ih hothers
      have hcomma := Spells.mark (c := ',') (by decide) (Spells.space hrest)
      have hwhole := Attribute.spells hfirst (endsName_of_isMark (by decide) _) hcomma
      simpa [attributeWords, String.intercalate_cons_cons] using hwhole

theorem Statement.spells {statement : Statement} (h : statement.Readable) {t : List Char}
    {words : List Word} (ht : Spells t words) :
    Spells (statement.text.toList ++ '\n' :: t) (statement.words ++ words) := by
  have hline : EndsName ('\n' :: t) := endsName_cons (by decide) t
  have hspace : ∀ u, EndsName (' ' :: u) := endsName_cons (by decide)
  cases statement with
  | node defaults name =>
    have hname := Spells.name name.isName_text hline ht.newline
    have hclose := Spells.mark (c := ']') (by decide) hname.space
    have hdefaults := spells_attributes h (endsName_of_isMark (by decide) _) hclose
    have hopen := Spells.mark (c := '[') (by decide) hdefaults
    have hwhole := Spells.name (s := "node") ⟨by decide, by decide⟩
      (endsName_of_isMark (by decide) _) hopen
    simpa [Statement.text, Statement.words] using hwhole
  | arrow source target label =>
    have hsource : ∀ {u ws}, Spells u ws →
        Spells (source.text.toList ++ ' ' :: '-' :: '>' :: ' ' :: u)
          (.name source.text :: .arrow :: ws) := fun hu =>
      .name source.isName_text (hspace _) (.space (.arrow (.space hu)))
    cases label with
    | none =>
      have hwhole := hsource (.name target.isName_text hline ht.newline)
      simpa [Statement.text, Statement.words] using hwhole
    | some label =>
      have hlabel : Pairing.settled.after label.toList = .settled := h label rfl
      have hclose := Spells.mark (c := ']') (by decide) ht.newline
      have hentry := Spells.entry "label" ⟨by decide, by decide⟩ (.label hlabel hclose)
      have hopen := Spells.mark (c := '[') (by decide) hentry
      have hwhole := hsource (.name target.isName_text (hspace _) hopen.space)
      simpa [Statement.text, Statement.words] using hwhole

theorem spells_lines {statements : List Statement}
    (h : ∀ statement ∈ statements, statement.Readable) {t : List Char} {words : List Word}
    (ht : Spells t words) :
    Spells (lines statements ++ t) (statements.flatMap Statement.words ++ words) := by
  induction statements with
  | nil => exact ht
  | cons statement statements ih =>
    obtain ⟨hfirst, hrest⟩ := List.forall_mem_cons.1 h
    simpa [lines] using Statement.spells hfirst (ih hrest)

/-- The words of a drawing. -/
theorem readWords?_text {statements : List Statement}
    (h : ∀ statement ∈ statements, statement.Readable) :
    readWords? (text statements).toList = some (.name "digraph" :: .mark '{' ::
      (statements.flatMap Statement.words ++ [.mark '}'])) := by
  apply readWords?_of_spells
  have hend := Spells.mark (c := '}') (by decide) Spells.nil.newline
  have hopen := Spells.mark (c := '{') (by decide) (spells_lines h hend).newline
  have hwhole := Spells.name (s := "digraph") ⟨by decide, by decide⟩
    (endsName_cons (by decide) _) hopen.space
  rw [toList_text]
  simpa using hwhole

/-! ## Statements from their words -/

theorem Node.ofName?_text (node : Node) : Node.ofName? node.text = some node := by
  cases node with
  | entry => rfl
  | state place =>
    have hchars : (Node.state place).text.toList = 'i' :: 'd' :: Nat.toDigits 10 place := by
      simp [Node.text]
    have hstart : (Node.state place).text ≠ "start" := by
      intro heq
      rw [heq] at hchars
      exact absurd hchars (by simp)
    have hdigits : (Nat.toDigits 10 place).all Char.isDigit = true :=
      List.all_eq_true.2 fun c hc => Nat.isDigit_of_mem_toDigits (by decide) (by decide) hc
    rw [Node.ofName?, if_neg hstart, hchars]
    simp [hdigits]

theorem readAttributes?_attributeWords (defaults : List Attribute) (rest : List Word) :
    readAttributes? (attributeWords defaults ++ .mark ']' :: rest) = some (defaults, rest) := by
  induction defaults with
  | nil => simp [attributeWords, readAttributes?]
  | cons first others ih =>
    cases others with
    | nil =>
      cases first <;>
        simp [attributeWords, Attribute.words, readAttributes?, Attribute.ofEntry?]
    | cons second others =>
      cases first <;>
        simp [attributeWords, Attribute.words, readAttributes?, Attribute.ofEntry?, ih]

theorem readStatement?_words (statement : Statement) {rest : List Word}
    (hrest : rest.head? ≠ some (.mark '[')) :
    readStatement? (statement.words ++ rest) = some (statement, rest) := by
  cases statement with
  | node defaults name =>
    have hdefaults := readAttributes?_attributeWords defaults (.name name.text :: rest)
    simp [Statement.words, readStatement?, hdefaults, Node.ofName?_text]
  | arrow source target label =>
    cases label with
    | none =>
      have hlabel : readArrowLabel? rest = some (none, rest) := by
        unfold readArrowLabel?
        split
        · simp at hrest
        · rfl
      simp [Statement.words, readStatement?, Node.ofName?_text, hlabel]
    | some label =>
      have hlabel : readAttributes? (.name "label" :: .mark '=' :: .label label :: .mark ']' ::
          rest) = some ([.label label], rest) := readAttributes?_attributeWords [.label label] rest
      simp [Statement.words, readStatement?, readArrowLabel?, Node.ofName?_text, hlabel]

theorem Statement.head?_words (statement : Statement) :
    ∃ name words, statement.words = .name name :: words := by
  rcases statement with ⟨defaults, name⟩ | ⟨source, target, _ | label⟩ <;> exact ⟨_, _, rfl⟩

theorem readStatements?_words (statements : List Statement) :
    readStatements? (statements.flatMap Statement.words ++ [.mark '}']) = some statements := by
  induction statements with
  | nil =>
    rw [readStatements?]
    simp
  | cons statement statements ih =>
    have hnext : (statements.flatMap Statement.words ++ [Word.mark '}']).head? ≠
        some (.mark '[') := by
      cases statements with
      | nil => simp
      | cons second others =>
        obtain ⟨name, words, hwords⟩ := second.head?_words
        simp [hwords]
    obtain ⟨name, words, hwords⟩ := statement.head?_words
    rw [List.flatMap_cons, List.append_assoc]
    generalize statements.flatMap Statement.words ++ [Word.mark '}'] = rest at hnext ih ⊢
    have hlength : rest.length < words.length + rest.length + 1 := by omega
    rw [readStatements?, readStatement?_words statement hnext]
    simp [hwords, hlength, ih]

/-- Reading undoes drawing. -/
theorem read?_text {statements : List Statement}
    (h : ∀ statement ∈ statements, statement.Readable) :
    read? (text statements) = some statements := by
  rw [read?, readWords?_text h]
  simp [readStatements?_words]

end Acceptor.Drawing
