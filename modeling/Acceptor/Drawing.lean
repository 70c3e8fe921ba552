import Acceptor.Diagram
import Acceptor.Drawing.QuotedLabel

/-!
# Drawings of diagrams

A diagram is drawn as a Graphviz graph: one statement for each state, an arrow
from a point to the start state, and one arrow for each rule. A statement about a
state sets the attributes that nodes have by default and then names the node, so
what a node looks like hangs on the statements before it. States are told apart by
their place among the states that the diagram mentions.
-/

namespace Acceptor

namespace Drawing

/-- The nodes of a drawing: the point at which reading begins, and the states by
their place. -/
inductive Node where
  | entry
  | state (place : Nat)
deriving DecidableEq

/-- What can be said about the look of a node. -/
inductive Attribute where
  | label (text : String)
  | shape (name : String)
deriving DecidableEq

inductive Statement where
  /-- Gives nodes these attributes by default from here on, and names a node. -/
  | node (defaults : List Attribute) (name : Node)
  /-- An arrow, with a label if it stands for a rule. -/
  | arrow (source target : Node) (label : Option String)
deriving DecidableEq

def Node.text : Node → String
  | entry => "start"
  | state place => "id" ++ place.repr

def Attribute.text : Attribute → String
  | label text => "label=" ++ quotedLabel text
  | shape name => "shape=" ++ name

def Statement.text : Statement → String
  | node defaults name =>
    "node[" ++ ", ".intercalate (defaults.map Attribute.text) ++ "] " ++ name.text
  | arrow source target none => source.text ++ " -> " ++ target.text
  | arrow source target (some label) =>
    source.text ++ " -> " ++ target.text ++ " [label=" ++ quotedLabel label ++ "]"

def text (statements : List Statement) : String :=
  String.join ((["digraph \x7b"] ++ statements.map Statement.text ++ ["\x7d"]).map (· ++ "\n"))

end Drawing

namespace Diagram

open Drawing

variable {σ α : Type} [Ordered σ]

variable [Quoted σ] [Quoted α]

/-- The statement that introduces the state `q`, drawn as `node`. -/
def stateStatement (d : Diagram σ α) (node : σ → Drawing.Node) (q : σ) : Statement :=
  .node (.label (quoted q) :: if q ∈ d.accept then [.shape "doublecircle"] else []) (node q)

def ruleStatement (node : σ → Drawing.Node) (rule : Rule σ α) : Statement :=
  .arrow (node rule.source) (node rule.target) (some (Text.labelText rule.label))

def drawing (d : Diagram σ α) : List Statement :=
  let places := d.states.toList
  let node := fun q => .state (places.idxOf q)
  .node [.shape "point"] .entry :: places.map (d.stateStatement node) ++
    .arrow .entry (node d.start) none :: d.rules.map (ruleStatement node)

def graph (d : Diagram σ α) : String := Drawing.text d.drawing

end Diagram

end Acceptor
