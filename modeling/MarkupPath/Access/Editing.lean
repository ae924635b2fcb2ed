import MarkupPath.Access.Reading
import MarkupPath.Path.Compile
import MarkupPath.Tree.Creation

/-!
# Editing a forest

A forest is edited through an `Access`. That records the calls of operations that are made through
it, and it may restrain them: it can hide the roots of trees, or refuse one insertion.

`Editing` is the monad of computations that change a forest. What has been done until an error
stays done; whoever makes several changes that belong together has to undo them.
-/

namespace MarkupPath

/-- How an access restrains the operations. -/
inductive Restraint where
  /-- not at all -/
  | unrestrained
  /-- the root of a tree is never known -/
  | hidesRoots
  /-- the insertion with the given number, counted from one, is refused -/
  | refusesInsertion (number : Nat)
deriving DecidableEq, Repr

/-- What trees are accessed through. -/
structure Access where
  /-- how the operations are restrained -/
  restraint : Restraint := .unrestrained
  /-- the calls that were made, in their order -/
  calls : List Call := []
  /-- how many insertions have been asked for -/
  insertions : Nat := 0
deriving DecidableEq, Repr

/-- Adds calls to the record. -/
def Access.record (access : Access) (calls : List Call) : Access :=
  { access with calls := access.calls ++ calls }

/-- A forest and what it's accessed through. -/
structure Workspace where
  /-- the trees -/
  forest : Forest := {}
  /-- the access -/
  access : Access := {}
deriving DecidableEq, Repr

/-- A computation that changes a forest and may fail. -/
abbrev Editing := ExceptT Error (StateM Workspace)

namespace Editing

variable {α : Type}

/-- Reads from a tree. -/
def read (reading : Reading α) : Editing α := do
  modify fun workspace =>
    { workspace with access := workspace.access.record reading.calls }
  match reading.outcome with
  | .ok a => return a
  | .error error => throw error

/-- The forest as it is. -/
def forest : Editing Forest := return (← get).forest

/-- Records a call of an operation. -/
def record (operation : Operation) (node : NodeId) : Editing Unit :=
  modify fun workspace =>
    { workspace with access := workspace.access.record [⟨operation, node⟩] }

/-- Replaces the forest. -/
def setForest (forest : Forest) : Editing Unit :=
  modify fun workspace => { workspace with forest }

/-! ## Operations that read -/

/-- A path's origin: a node and the root of its tree, unless that is hidden. -/
def origin? (node : NodeId) : Editing (Option Origin) := do
  let workspace ← get
  let forest := workspace.forest
  let root :=
    match workspace.access.restraint with
    | .hidesRoots => none
    | _ => (forest.rootOf? node).bind forest.position?
  return (forest.position? node).map fun position => { position, root }

/-- Asks for the root of the tree that a node belongs to. -/
def rootOf (node : NodeId) : Editing (Option NodeId) := do
  match ← origin? node with
  | none => return none
  | some origin =>
    return (← read (.call .rootOf node origin.root)).map Position.id

/-- Reads at the position of a node. -/
def readAt (node : NodeId) (absent : α) (reading : Position → Reading α) : Editing α := do
  match (← forest).position? node with
  | none => return absent
  | some position => read (reading position)

/-- The written name of a node, unless no node can have it. -/
def name (node : NodeId) : Editing (Option String) :=
  readAt node none fun position => some <$> position.tellName

/-- Asks for the last child. -/
def lastChild (node : NodeId) : Editing (Option NodeId) :=
  readAt node none fun position => return (← position.lastChild).map Position.id

/-- Asks for the parent. -/
def parent (node : NodeId) : Editing (Option NodeId) :=
  readAt node none fun position => return (← position.parent).map Position.id

/-- Asks for the first child of the given name, or of any. -/
def firstChild (node : NodeId) (filter : Option String) : Editing (Option NodeId) :=
  readAt node none fun position => return (← position.firstChild filter).map (·.val.id)

/-- Asks for the next sibling of the given name, or of any. -/
def nextSibling (node : NodeId) (filter : Option String) : Editing (Option NodeId) :=
  readAt node none fun position => return (← position.nextSibling filter).map (·.val.id)

/-- Looks up the value of an attribute. -/
def attr (node : NodeId) (name : String) : Editing (Option String) :=
  readAt node none (·.attr name)

/-- Asks for the text in front of the first child. -/
def text (node : NodeId) : Editing (Option String) :=
  readAt node none Position.text

/-! ## Operations that change something -/

/-- Creates a node whose name is understood like that of a child of `context`. -/
def createNode (context : NodeId) (name : String) : Editing NodeId := do
  record .createNode context
  match (← forest).create context name with
  | .error failure => throw (.creation failure)
  | .ok (node, forest) =>
    setForest forest
    return node

/-- Whether the access refuses the insertion that is asked for now. -/
def refusesNow : Editing Bool := do
  let access := (← get).access
  let number := access.insertions + 1
  modify fun workspace => { workspace with access := { access with insertions := number } }
  return access.restraint == .refusesInsertion number

/-- Inserts a node, unless the access or the forest refuses it. The answer tells. -/
def insert (operation : Operation) (parent : NodeId) (change : Forest → Option Forest) :
    Editing Bool := do
  if ← refusesNow then return false
  record operation parent
  match change (← forest) with
  | none => return false
  | some forest =>
    setForest forest
    return true

/-- Inserts a node in front of the children of another one. -/
def insertFirstChild (parent node : NodeId) : Editing Bool :=
  insert .insertFirstChild parent (·.insertFirst parent node)

/-- Inserts a node behind a child of another one. -/
def insertAfter (parent reference node : NodeId) : Editing Bool :=
  insert .insertAfter parent (·.insertAfter parent reference node)

/-- Takes a node out of its tree. -/
def deleteNode (node : NodeId) : Editing Unit := do
  record .deleteNode node
  setForest ((← forest).delete node)

/-- Gives an attribute a value. -/
def setAttribute (node : NodeId) (name value : String) : Editing Unit := do
  record .setAttribute node
  match (← forest).setAttribute node name value with
  | .error failure => throw (.creation failure)
  | .ok forest => setForest forest

/-- Replaces the text in front of the first child. -/
def setText (node : NodeId) (text : String) : Editing Unit := do
  record .setText node
  let (outcome, forest) := (← forest).setText node text
  setForest forest
  match outcome with
  | .error failure => throw (.creation failure)
  | .ok () => return ()

end Editing
end MarkupPath
