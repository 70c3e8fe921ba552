import Acceptor.Pattern.Basic

/-!
# Reading patterns

The text of a pattern is read from left to right in one pass. What has been read
of a group is kept as a `Group`: the alternatives that are complete, the factors
of the current one, and the last factor by itself, since a `*` may still follow.
An opening bracket starts a new group and remembers where; a closing bracket makes
the group a factor of the one around it. Choices and concatenations are folded to
the left. An alternative without factors is the empty pattern.

The pass stops at the first fault. Offsets count characters from zero.
-/

namespace Acceptor

inductive ParseError where
  /-- The group that opens here never ends. -/
  | unclosedGroup (opened : Nat)
  /-- A closing bracket that closes nothing. -/
  | unmatchedClose (offset : Nat)
  /-- A `*` that follows nothing. -/
  | nothingToRepeat (offset : Nat)
  /-- A backslash before a character that needs no escape. -/
  | unknownEscape (c : Char) (offset : Nat)
  /-- A backslash at the end. -/
  | danglingEscape (offset : Nat)
deriving DecidableEq

def ParseError.message : ParseError → String
  | unclosedGroup opened => "group opened at " ++ opened.repr ++ " is never closed"
  | unmatchedClose offset => "unmatched `)` at " ++ offset.repr
  | nothingToRepeat offset => "nothing to repeat before `*` at " ++ offset.repr
  | unknownEscape c offset =>
    "unknown escape `\\" ++ String.singleton c ++ "` at " ++ offset.repr
  | danglingEscape offset => "`\\` at " ++ offset.repr ++ " escapes nothing"

namespace Pattern

/-- The characters that have a meaning of their own in the text of a pattern. -/
def isMeta (c : Char) : Bool :=
  c = '(' || c = ')' || c = '|' || c = '*' || c = '\\'

theorem isMeta_eq_false_iff {c : Char} :
    isMeta c = false ↔ c ≠ '\\' ∧ c ≠ '(' ∧ c ≠ ')' ∧ c ≠ '|' ∧ c ≠ '*' := by
  grind [isMeta]

/-- What has been read of a group. -/
structure Group where
  /-- The alternatives before the last bar. -/
  alternatives : Option (Pattern Char) := none
  /-- The factors of the current alternative, except for the last one. -/
  factors : Option (Pattern Char) := none
  /-- The last factor of the current alternative. -/
  last : Option (Pattern Char) := none
deriving DecidableEq

namespace Group

/-- The factors of the current alternative, if there are any. -/
def sequence (g : Group) : Option (Pattern Char) :=
  match g.factors, g.last with
  | factors, none => factors
  | none, some p => some p
  | some factors, some p => some (.concat factors p)

/-- The pattern that the group denotes if it ends here. -/
def value (g : Group) : Pattern Char :=
  match g.alternatives with
  | none => g.sequence.getD .empty
  | some alternatives => .choice alternatives (g.sequence.getD .empty)

def push (g : Group) (p : Pattern Char) : Group :=
  ⟨g.alternatives, g.sequence, some p⟩

def bar (g : Group) : Group := ⟨some g.value, none, none⟩

def star? (g : Group) : Option Group :=
  g.last.map fun p => ⟨g.alternatives, g.factors, some (.star p)⟩

end Group

/-- Reads the rest of a text from `offset` on, inside the group `g` and the groups
`outer` around it, the innermost first and each with the offset at which the group
inside it opens. -/
def parseFrom (offset : Nat) (g : Group) (outer : List (Nat × Group)) :
    List Char → Except ParseError (Pattern Char)
  | [] =>
    match outer with
    | [] => .ok g.value
    | (opened, _) :: _ => .error (.unclosedGroup opened)
  | c :: rest =>
    if c = '\\' then
      match rest with
      | [] => .error (.danglingEscape offset)
      | d :: rest =>
        if isMeta d then parseFrom (offset + 2) (g.push (.literal d)) outer rest
        else .error (.unknownEscape d offset)
    else if c = '(' then
      parseFrom (offset + 1) {} ((offset, g) :: outer) rest
    else if c = ')' then
      match outer with
      | [] => .error (.unmatchedClose offset)
      | (_, around) :: outer => parseFrom (offset + 1) (around.push g.value) outer rest
    else if c = '|' then
      parseFrom (offset + 1) g.bar outer rest
    else if c = '*' then
      match g.star? with
      | none => .error (.nothingToRepeat offset)
      | some g => parseFrom (offset + 1) g outer rest
    else
      parseFrom (offset + 1) (g.push (.literal c)) outer rest

section Steps

variable (offset : Nat) (g : Group) (outer : List (Nat × Group)) (rest : List Char)

@[simp] theorem parseFrom_escape {c : Char} (hc : isMeta c = true) :
    parseFrom offset g outer ('\\' :: c :: rest) =
      parseFrom (offset + 2) (g.push (.literal c)) outer rest := by
  rw [parseFrom.eq_def]
  simp [hc]

@[simp] theorem parseFrom_unknownEscape {c : Char} (hc : isMeta c = false) :
    parseFrom offset g outer ('\\' :: c :: rest) = .error (.unknownEscape c offset) := by
  rw [parseFrom.eq_def]
  simp [hc]

@[simp] theorem parseFrom_danglingEscape :
    parseFrom offset g outer ['\\'] = .error (.danglingEscape offset) := by
  rw [parseFrom.eq_def]
  simp

@[simp] theorem parseFrom_open :
    parseFrom offset g outer ('(' :: rest) = parseFrom (offset + 1) {} ((offset, g) :: outer) rest := by
  rw [parseFrom.eq_def]
  simp

@[simp] theorem parseFrom_close (opened : Nat) (around : Group) :
    parseFrom offset g ((opened, around) :: outer) (')' :: rest) =
      parseFrom (offset + 1) (around.push g.value) outer rest := by
  rw [parseFrom.eq_def]
  simp

@[simp] theorem parseFrom_unmatchedClose :
    parseFrom offset g [] (')' :: rest) = .error (.unmatchedClose offset) := by
  rw [parseFrom.eq_def]
  simp

@[simp] theorem parseFrom_bar :
    parseFrom offset g outer ('|' :: rest) = parseFrom (offset + 1) g.bar outer rest := by
  rw [parseFrom.eq_def]
  simp

theorem parseFrom_star {g g' : Group} (hg : g.star? = some g') :
    parseFrom offset g outer ('*' :: rest) = parseFrom (offset + 1) g' outer rest := by
  rw [parseFrom.eq_def]
  simp [hg]

theorem parseFrom_nothingToRepeat {g : Group} (hg : g.star? = none) :
    parseFrom offset g outer ('*' :: rest) = .error (.nothingToRepeat offset) := by
  rw [parseFrom.eq_def]
  simp [hg]

theorem parseFrom_plain {c : Char} (hc : isMeta c = false) :
    parseFrom offset g outer (c :: rest) =
      parseFrom (offset + 1) (g.push (.literal c)) outer rest := by
  obtain ⟨h₁, h₂, h₃, h₄, h₅⟩ := isMeta_eq_false_iff.1 hc
  rw [parseFrom.eq_def]
  simp [h₁, h₂, h₃, h₄, h₅]

end Steps

/-- What holds at the end of a text, where the reader stops at a fault, and before every
step if it holds after the step, holds from every state of the reader on. -/
@[elab_as_elim]
theorem parseFrom_induction
    {motive : Nat → Group → List (Nat × Group) → List Char → Prop}
    (finished : ∀ offset g, motive offset g [] [])
    (unclosed : ∀ offset g opened around outer,
      motive offset g ((opened, around) :: outer) [])
    (dangling : ∀ offset g outer, motive offset g outer ['\\'])
    (unknown : ∀ offset g outer c rest, isMeta c = false →
      motive offset g outer ('\\' :: c :: rest))
    (unmatched : ∀ offset g rest, motive offset g [] (')' :: rest))
    (nothing : ∀ offset g outer rest, g.star? = none → motive offset g outer ('*' :: rest))
    (escape : ∀ offset g outer c rest, isMeta c = true →
      motive (offset + 2) (g.push (.literal c)) outer rest →
        motive offset g outer ('\\' :: c :: rest))
    (opening : ∀ offset g outer rest,
      motive (offset + 1) {} ((offset, g) :: outer) rest → motive offset g outer ('(' :: rest))
    (close : ∀ offset g opened around outer rest,
      motive (offset + 1) (around.push g.value) outer rest →
        motive offset g ((opened, around) :: outer) (')' :: rest))
    (bar : ∀ offset g outer rest,
      motive (offset + 1) g.bar outer rest → motive offset g outer ('|' :: rest))
    (star : ∀ offset g outer rest g', g.star? = some g' →
      motive (offset + 1) g' outer rest → motive offset g outer ('*' :: rest))
    (plain : ∀ offset g outer c rest, isMeta c = false →
      motive (offset + 1) (g.push (.literal c)) outer rest → motive offset g outer (c :: rest))
    (offset : Nat) (g : Group) (outer : List (Nat × Group)) (rest : List Char) :
    motive offset g outer rest := by
  induction offset, g, outer, rest using parseFrom.induct with
  | case1 offset g => exact finished offset g
  | case2 offset g opened around outer => exact unclosed offset g opened around outer
  | case3 offset g outer => exact dangling offset g outer
  | case4 offset g outer c rest hc ih => exact escape offset g outer c rest hc ih
  | case5 offset g outer c rest hc =>
    exact unknown offset g outer c rest (eq_false_of_ne_true hc)
  | case6 offset g outer rest _ ih => exact opening offset g outer rest ih
  | case7 offset g rest => exact unmatched offset g rest
  | case8 offset g rest opened around outer _ _ ih =>
    exact close offset g opened around outer rest ih
  | case9 offset g outer rest _ _ _ ih => exact bar offset g outer rest ih
  | case10 offset g outer rest hg => exact nothing offset g outer rest hg
  | case11 offset g outer rest g' hg _ _ _ _ ih => exact star offset g outer rest g' hg ih
  | case12 offset g outer c rest h₁ h₂ h₃ h₄ h₅ ih =>
    exact plain offset g outer c rest (isMeta_eq_false_iff.2 ⟨h₁, h₂, h₃, h₄, h₅⟩) ih

/-- The pattern that a text denotes, or the first fault in it. -/
def parse (text : String) : Except ParseError (Pattern Char) :=
  parseFrom 0 {} [] text.toList

end Pattern

end Acceptor
