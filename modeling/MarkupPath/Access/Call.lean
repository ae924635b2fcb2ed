import MarkupPath.Tree.Content

/-!
# Calls

Trees are accessed by a small set of operations. The calls of operations that are made in the
course of a search or an edit tell how much of a tree has been looked at and what was done to it.
-/

namespace MarkupPath

/-- The operations by which a tree is accessed. -/
inductive Operation where
  /-- the value of an attribute is looked up -/
  | attr
  /-- an attribute is given a value -/
  | setAttribute
  /-- the first child is asked for -/
  | firstChild
  /-- the next sibling is asked for -/
  | nextSibling
  /-- the last child is asked for -/
  | lastChild
  /-- the parent is asked for -/
  | parent
  /-- the root of the tree is asked for -/
  | rootOf
  /-- a node is created -/
  | createNode
  /-- a node is inserted in front of the children of another one -/
  | insertFirstChild
  /-- a node is inserted behind another one -/
  | insertAfter
  /-- a node is taken out of its tree -/
  | deleteNode
  /-- the text is asked for -/
  | text
  /-- the text is replaced -/
  | setText
deriving DecidableEq, Repr

/-- A call of an operation on a node, that is the one it reads or adds to. -/
structure Call where
  /-- what was done -/
  operation : Operation
  /-- the node that it was done to -/
  node : NodeId
deriving DecidableEq, Repr

/-- The number of calls of an operation. -/
def tally (calls : List Call) (operation : Operation) : Nat :=
  calls.countP (·.operation == operation)

end MarkupPath
