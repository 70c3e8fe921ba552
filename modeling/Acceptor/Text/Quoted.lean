import Acceptor.SortedSet.Basic
import Acceptor.Text.Escape

/-!
# Texts of values

A value has two texts. `Quoted` is the unmistakable one, used in messages, graph
labels and listings: characters and strings stand in quotes with escapes, and
compound values show their structure. `Plain` writes symbols as they are, which
is how patterns and stacks are displayed.
-/

namespace Acceptor

/-- Values with an unmistakable text. -/
class Quoted (α : Type) where
  quoted : α → String

/-- Symbols that are displayed as they are. -/
class Plain (α : Type) where
  plain : α → List Char

export Quoted (quoted)
export Plain (plain)

namespace Text

def commaSeparated (texts : List String) : String := ", ".intercalate texts

/-- The fields of a record, each after its name. -/
def fields (entries : List (String × String)) : List String :=
  entries.map fun entry => entry.1 ++ ": " ++ entry.2

def record (name : String) (entries : List (String × String)) : String :=
  name ++ " \x7b " ++ commaSeparated (fields entries) ++ " \x7d"

/-- A record with further fields that are not shown. -/
def openRecord (name : String) (entries : List (String × String)) : String :=
  name ++ " \x7b " ++ commaSeparated (fields entries ++ [".."]) ++ " \x7d"

/-- The label of a rule: the symbol that it reads, `ε` if it reads none. -/
def labelText {α : Type} [Quoted α] : Option α → String
  | some a => quoted a
  | none => "ε"

end Text

variable {α : Type}

instance : Quoted Nat := ⟨Nat.repr⟩
instance : Quoted Int := ⟨Int.repr⟩
instance : Quoted Char := ⟨Text.quoteChar⟩
instance : Quoted String := ⟨Text.quoteString⟩

instance [Quoted α] : Quoted (Option α) where
  quoted
    | some a => "Some(" ++ quoted a ++ ")"
    | none => "None"

instance [Quoted α] : Quoted (List α) where
  quoted l := "[" ++ Text.commaSeparated (l.map quoted) ++ "]"

instance [Ordered α] [Quoted α] : Quoted (SortedSet α) where
  quoted s := "\x7b" ++ Text.commaSeparated (s.toList.map quoted) ++ "\x7d"

instance : Plain Nat := ⟨fun n => n.repr.toList⟩
instance : Plain Int := ⟨fun n => n.repr.toList⟩
instance : Plain Char := ⟨fun c => [c]⟩
instance : Plain String := ⟨String.toList⟩

end Acceptor
