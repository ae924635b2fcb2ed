import MarkupPath.Edit.Branch
import MarkupPath.Query.Lookup

/-!
# Adding nodes

The edits that are offered: adding a branch behind or in front of the children of a node, fetching
a node or adding the branch that leads to it, and adding a node next to another one.
-/

namespace MarkupPath.Editing

/-- Adds a branch behind the children of a node. -/
def append (parent : Option NodeId) (expression : String) (mode : EmptyPath)
    (content : NodeContent := {}) : Editing NodeId :=
  addBranch .back parent expression mode content

/-- Adds a branch in front of the children of a node. -/
def prepend (parent : Option NodeId) (expression : String) (mode : EmptyPath)
    (content : NodeContent := {}) : Editing NodeId :=
  addBranch .front parent expression mode content

/-- Answers the first node that a path selects, or adds a branch along the path if there's none. -/
def fetchOrCreate (parent : Option NodeId) (expression : String) (mode : EmptyPath)
    (content : NodeContent := {}) : Editing NodeId := do
  match ← findFirst parent expression mode with
  | some node => return node
  | none => append parent expression mode content

/-- Adds a node behind another one and its tail. -/
def insertNext (sibling : Option NodeId) (name : String) (content : NodeContent := {}) :
    Editing NodeId := do
  match sibling with
  | none => throw .absentOrigin
  | some sibling =>
    match ← parent sibling with
    | none => throw .orphanedSibling
    | some above =>
      let node ← createNode above name
      undoing node do
        if ← insertAfter above sibling node then setContent node content
        else throw (.insertion (.refused name))
      return node

end MarkupPath.Editing
