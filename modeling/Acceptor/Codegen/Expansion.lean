import Acceptor.Codegen.Construction
import Acceptor.Codegen.Declaration
import Acceptor.Codegen.Listing

/-!
# Expanding the declaration of a matcher

A declaration turns into the source of its matcher. Of the attributes that ask for
a drawing of the automaton in a file only the last one counts. Whatever is wrong
becomes an error that the compiler reports next to a matcher that is complete all
the same: for a faulty text it matches the empty pattern.
-/

namespace Acceptor.Codegen

/-- What a declaration turns into: source, and perhaps a file with a drawing. -/
structure Expansion where
  code : List Token
  /-- The path of the file that is written, and its content. -/
  graph : Option (String × String)

namespace Declaration

def graphPath? (d : Declaration) : Option String :=
  (d.attributes.filterMap fun
    | .graph path => some path
    | .other => none).getLast?

/-- One error for each attribute that is not understood. -/
def attributeErrors (d : Declaration) : List String :=
  d.attributes.filterMap fun
    | .graph _ => none
    | .other => some "unexpected attribute"

/-- The pattern that is matched, and the error in its text if there is one. -/
def pattern (d : Declaration) : Pattern Char × List String :=
  match Pattern.parse d.text with
  | .ok p => (p, [])
  | .error fault => (.empty, [invalidPattern fault])

/-- The error for a file at `path` that cannot be made for the given reason. -/
def graphError (path reason : String) : String :=
  "failed while graphing at " ++ path ++ ": " ++ reason

/-- Expands a declaration, where `render` writes the error with a message and
`refusal? path` is the reason for which no file can be made at `path`, if there is one. -/
def expand (d : Declaration) (render : String → List Token)
    (refusal? : String → Option String) : Expansion :=
  let (p, patternErrors) := d.pattern
  let table := p.table
  let (graph, graphErrors) :=
    match d.graphPath? with
    | none => (none, [])
    | some path =>
      match refusal? path with
      | none => (some (path, table.graph), [])
      | some reason => (none, [graphError path reason])
  let errors := d.attributeErrors ++ patternErrors ++ graphErrors
  ⟨(Listing.ofTable table d.visibility d.name errors).tokens render, graph⟩

end Declaration

end Acceptor.Codegen
