import MarkupPath.Access.Editing

/-!
# Giving a new node its content

The attributes and the text that a node gets after it was inserted. They are set one by one; the
first one that is refused ends it. A node that can't be given its content isn't left behind:
`Editing.undoing` takes it out of its tree again.
-/

namespace MarkupPath

/-- What a new node contains. -/
structure NodeContent where
  /-- the attributes and their values, in the order in which they are set -/
  attributes : List (String × String) := []
  /-- the text, none if it's empty -/
  text : String := ""
deriving DecidableEq, Repr

namespace Editing

/-- Sets attributes, in their order. -/
def setAttributes (node : NodeId) : List (String × String) → Editing Unit
  | [] => return ()
  | (name, value) :: rest => do
    setAttribute node name value
    setAttributes node rest

/-- Gives a node its content. -/
def setContent (node : NodeId) (content : NodeContent) : Editing Unit := do
  setAttributes node content.attributes
  if content.text.isEmpty then return () else setText node content.text

/-- Does something with a new node, and if that fails takes the node out of its tree again. -/
def undoing {α : Type} (node : NodeId) (action : Editing α) : Editing α :=
  tryCatch action fun error => do
    deleteNode node
    throw error

end Editing
end MarkupPath
