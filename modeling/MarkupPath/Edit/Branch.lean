import MarkupPath.Edit.NodeContent
import MarkupPath.Query.Lookup

/-!
# Adding branches

A branch is a chain of new nodes, one for each step of a path behind its anchor, each the only
child of the one before. It's added to the anchor either behind the last child or in front of the
first one. The constraints of a step become attributes of its node, the last node gets further
content.

Either the whole branch is added or nothing is: when a node can't be created, inserted or given
its content, the nodes that were created are taken out again, the last one first.
-/

namespace MarkupPath

/-- Where a branch is added. -/
inductive Side where
  /-- in front of the first child of any kind -/
  | front
  /-- behind the last child and its tail -/
  | back
deriving DecidableEq, Repr

namespace Editing

/-- Inserts a node at a side of the children of another one. -/
def insertAt (side : Side) (parent node : NodeId) : Editing Bool := do
  match side with
  | .front => insertFirstChild parent node
  | .back =>
    match ← lastChild parent with
    | none => insertFirstChild parent node
    | some last => insertAfter parent last node

/-- Inserts a new node for a step and sets the attributes that its constraints ask for. -/
def insertFor (side : Side) (parent node : NodeId) (step : Step) : Editing Unit := do
  if ← insertAt side parent node then
    setAttributes node (step.constraints.map fun constraint =>
      (constraint.name, constraint.value))
  else throw (.insertion (.refused step.name))

/-- Adds nodes for steps, each below the one before, gives the last one its content and answers it.
If something fails all of them are taken out again: each node by the call that created it, so the
last one goes first. -/
def grow (side : Side) (content : NodeContent) (parent : NodeId) : List Step → Editing NodeId
  | [] => do
    setContent parent content
    return parent
  | step :: steps => do
    let node ← createNode parent step.name
    undoing node do
      insertFor side parent node step
      grow side content node steps

/-- The failure of a branch. If a node couldn't be created or be given its content, the branch
couldn't be inserted because of that. -/
def branchError (expression : String) : Error → Error
  | .creation failure => .insertion (.branch expression failure)
  | error => error

/-- Adds a branch along steps below a node. -/
def addSteps (side : Side) (expression : String) (content : NodeContent) (anchor : NodeId)
    (steps : List Step) : Editing NodeId :=
  if steps.isEmpty then throw (.insertion .nothingToAdd)
  else
    match steps.find? (!·.isMaterializable) with
    | some step => throw (.insertion (.notMaterializable step))
    | none =>
      tryCatch (grow side content anchor steps) fun error =>
        throw (branchError expression error)

/-- Adds a branch along a path and answers its last node. -/
def addBranch (side : Side) (parent : Option NodeId) (expression : String)
    (mode : EmptyPath) (content : NodeContent) : Editing NodeId := do
  let path ← compilePath parent expression mode
  match path.anchor with
  | none => throw .absentAnchor
  | some anchor => addSteps side expression content anchor.id (path.steps.drop 1)

end Editing
end MarkupPath
