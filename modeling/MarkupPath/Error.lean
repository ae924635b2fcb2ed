import MarkupPath.Path.StepReader
import MarkupPath.Tree.Refusal

/-!
# What can go wrong

Every failure of a query or an edit is an `Error` that names its cause. Edits fail in two ways: a
tree can refuse to hold something (`CreationFailure`), or nodes can't be linked into a tree
(`InsertionFailure`), possibly because of the former.
-/

namespace MarkupPath

/-- Why a node couldn't be created, or be given an attribute or a text. -/
inductive CreationFailure where
  /-- the qualifier of the node's name isn't declared -/
  | undeclaredTag (name : String)
  /-- no node can have the name -/
  | tag (name : String) (refusal : Refusal)
  /-- the qualifier of the attribute's name isn't declared -/
  | undeclaredAttribute (name : String)
  /-- no attribute can have the name, or the value -/
  | attr (refusal : Refusal)
  /-- no node can have the text -/
  | text (text : String) (refusal : Refusal)
deriving DecidableEq, Repr

/-- What the tree refused, if that is what failed. -/
def CreationFailure.refusal? : CreationFailure → Option Refusal
  | .undeclaredTag _ => none
  | .tag _ refusal => some refusal
  | .undeclaredAttribute _ => none
  | .attr refusal => some refusal
  | .text _ refusal => some refusal

/-- The wording of the failure. -/
def CreationFailure.message : CreationFailure → String
  | .undeclaredTag name => "The node name `" ++ name ++ "` uses an undeclared prefix."
  | .tag name refusal => "Can't create a node named `" ++ name ++ "`: " ++ refusal.message
  | .undeclaredAttribute name => "The attribute name `" ++ name ++ "` uses an undeclared prefix."
  | .attr refusal => refusal.message
  | .text given refusal => "Can't set the text " ++ quoted given ++ ": " ++ refusal.message

/-- Why nodes couldn't be added to a tree. -/
inductive InsertionFailure where
  /-- the path describes nothing but its anchor -/
  | nothingToAdd
  /-- a step doesn't describe a node well enough -/
  | notMaterializable (step : Step)
  /-- the insertion of a node was refused -/
  | refused (name : String)
  /-- a node of a branch couldn't be created -/
  | branch (expression : String) (cause : CreationFailure)
deriving DecidableEq, Repr

/-- The wording of the failure. -/
def InsertionFailure.message : InsertionFailure → String
  | .nothingToAdd => "The path expression doesn't describe any node to add."
  | .notMaterializable step =>
    "The location step `" ++ step.text
      ++ "` can't be created, only named child steps are supported."
  | .refused name => "Couldn't insert a node named `" ++ name ++ "`."
  | .branch expression cause =>
    "Couldn't add the branch `" ++ expression ++ "`: " ++ cause.message

/-- What a search takes for granted. -/
inductive Assumption where
  /-- the step that moves on, and the one before it, are bound to nodes -/
  | bound
  /-- a walk through a subtree climbs no higher than to where it started -/
  | within
deriving DecidableEq, Repr

/-- A failure of a query or an edit. -/
inductive Error where
  /-- a path expression can't be compiled -/
  | malformed (step : MalformedStep)
  /-- an absolute path names another node than the root -/
  | rootMismatch (expected actual : String)
  /-- there's no node to start from -/
  | absentOrigin
  /-- there's no node to add others to -/
  | absentAnchor
  /-- a node shall be added next to one without a parent -/
  | orphanedSibling
  /-- an attribute is asked for without a name -/
  | unnamedAttribute
  /-- an attribute is required and missing -/
  | missingAttribute (name : String)
  /-- a path without any step is searched -/
  | emptyPath
  /-- a tree refuses to look up an attribute's name -/
  | lookup (refusal : Refusal)
  /-- a node can't be created, or be given its content -/
  | creation (failure : CreationFailure)
  /-- nodes can't be linked into a tree -/
  | insertion (failure : InsertionFailure)
  /-- a search finds that an assumption doesn't hold -/
  | broken (assumption : Assumption)
deriving DecidableEq, Repr

/-- The wording of an error. A broken assumption has none. -/
def Error.message : Error → String
  | .malformed step => step.message
  | .rootMismatch expected actual =>
    "The path addresses a root node named `" ++ expected
      ++ "`, but the document's root node is named `" ++ actual ++ "`."
  | .absentOrigin => "The origin node is absent."
  | .absentAnchor => "The path's anchor node doesn't exist."
  | .orphanedSibling => "The sibling node has no parent."
  | .unnamedAttribute => "An attribute name is required."
  | .missingAttribute name => "The node has no attribute `" ++ name ++ "`."
  | .emptyPath =>
    "An unintended path was taken through the code. Please report this bug."
  | .lookup refusal => refusal.message
  | .creation failure => failure.message
  | .insertion failure => failure.message
  | .broken _ => ""

end MarkupPath
