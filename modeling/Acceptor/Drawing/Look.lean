import Acceptor.Drawing

/-!
# What the nodes of a drawing look like

A node takes the attributes that nodes have by default at the statement that names
it first. A statement `node[…]` changes the defaults it mentions and leaves the
others as they are, so a shape that was set for one node stays in force for the
nodes behind it until another shape is set.
-/

namespace Acceptor.Drawing

/-- The attributes of a node, as far as they are set. -/
structure Look where
  label : Option String := none
  shape : Option String := none
deriving DecidableEq

namespace Look

def set (look : Look) : Attribute → Look
  | .label text => { look with label := some text }
  | .shape name => { look with shape := some name }

/-- The look of new nodes after a statement, if it was `look` before. -/
def after (look : Look) : Statement → Look
  | .node defaults _ => defaults.foldl set look
  | .arrow _ _ _ => look

end Look

def Statement.nodes : Statement → List Node
  | .node _ name => [name]
  | .arrow source target _ => [source, target]

/-- What the node looks like, if the statements name it, and new nodes look like
`defaults` before the first statement. -/
def lookFrom? (node : Node) (defaults : Look) : List Statement → Option Look
  | [] => none
  | statement :: rest =>
    if node ∈ statement.nodes then some (defaults.after statement)
    else lookFrom? node (defaults.after statement) rest

/-- What the node looks like in the drawing, if it occurs there. -/
def look? (statements : List Statement) (node : Node) : Option Look :=
  lookFrom? node {} statements

end Acceptor.Drawing
