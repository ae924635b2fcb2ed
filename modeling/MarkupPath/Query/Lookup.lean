import MarkupPath.Access.Editing
import MarkupPath.Query.Cursor

/-!
# Queries

A query compiles a path expression in relation to a node and searches for what it selects. A
`Selector` stores a query for later; each time it begins it compiles its path anew, so it sees
the tree as it is then.

Looking up an attribute's value or a text isn't a search. An empty one is as good as none there.
-/

namespace MarkupPath

/-- A query that hasn't begun. -/
structure Selector where
  /-- the node that the path starts from, if there's one -/
  origin : Option NodeId
  /-- the path's expression -/
  expression : String := ""
deriving DecidableEq, Repr

/-- Begins a search from an origin. Without one nothing is found, whatever the expression is. -/
def search (origin : Option Origin) (expression : String) (mode : EmptyPath) : Reading Cursor := do
  match origin with
  | none => return .exhausted
  | some origin => Cursor.start (← Path.compile (some origin) expression mode)

namespace Editing

/-- The origin of a path at a node, if there's one. -/
def originOf (node : Option NodeId) : Editing (Option Origin) := do
  match node with
  | none => return none
  | some node => origin? node

/-- Compiles a path expression in relation to a node. -/
def compilePath (node : Option NodeId) (expression : String) (mode : EmptyPath) :
    Editing Path := do
  read (Path.compile (← originOf node) expression mode)

/-- A cursor at the first match of a query. -/
def begin (selector : Selector) (mode : EmptyPath) : Editing Cursor := do
  read (search (← originOf selector.origin) selector.expression mode)

/-- The first node that a path selects. -/
def findFirst (node : Option NodeId) (expression : String) (mode : EmptyPath) :
    Editing (Option NodeId) := do
  return (← begin ⟨node, expression⟩ mode).current?.map Position.id

/-! ## Values and texts -/

/-- The value of an attribute, empty if it's missing and not required. -/
def attributeValue (node : Option NodeId) (name : String) (required : Bool := false) :
    Editing String := do
  match node with
  | none => throw .absentOrigin
  | some node =>
    if name.isEmpty then throw .unnamedAttribute
    else
      match ← attr node name with
      | some value => return value
      | none => if required then throw (.missingAttribute name) else return ""

/-- The text in front of the first child, empty if there's none. -/
def textOf (node : Option NodeId) : Editing String := do
  match node with
  | none => throw .absentOrigin
  | some node => return (← text node).getD ""

end Editing

/-- A path whose anchor stands where it does in the given forest. -/
def Path.relocate (path : Path) (forest : Forest) : Path :=
  { path with anchor := path.anchor.bind fun anchor => forest.position? anchor.id }

end MarkupPath
