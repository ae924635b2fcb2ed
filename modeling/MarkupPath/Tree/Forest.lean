import MarkupPath.Tree.Binding
import MarkupPath.Tree.Position

/-!
# Forests

All trees that exist at a time. A tree has a root, unless that was moved into another tree, with
comments and processing instructions around it. An element that is taken out of its tree becomes a
`Fragment`: it has no parent any more, but it still belongs to that tree until it's inserted
somewhere.

## Changes

An element is moved with all that it contains and with its tail. Inserting it into itself is
refused, and so is putting it next to an element without a parent. What is refused leaves the
forest as it is.
-/

namespace MarkupPath

/-- A tree: a root with comments and processing instructions around it. -/
structure Tree where
  /-- the root and what is around it -/
  content : Content
  /-- how many qualifiers have been minted for the tree -/
  minted : Nat := 0
deriving DecidableEq, Repr

/-- An element that was taken out of a tree and still belongs to it. -/
structure Fragment where
  /-- the index of the tree -/
  owner : Nat
  /-- the element with its tail -/
  content : Content
deriving DecidableEq, Repr

/-- All trees, and the identity that the next new element gets. -/
structure Forest where
  /-- the trees, in the order of their creation -/
  trees : List Tree := []
  /-- the elements that were taken out of trees -/
  fragments : List Fragment := []
  /-- the number of identities that have been given away -/
  next : Nat := 0
deriving DecidableEq, Repr

/-- The root of a tree. -/
def Tree.root? (tree : Tree) : Option Element := tree.content.firstElement?

namespace Forest

/-! ## Looking up -/

/-- The contents of all trees and fragments. -/
def contents (forest : Forest) : List Content :=
  forest.trees.map (·.content) ++ forest.fragments.map (·.content)

/-- Where an element stands. -/
def position? (forest : Forest) (id : NodeId) : Option Position :=
  forest.contents.findSome? (Position.locate id)

/-- An element and its tail. -/
def find? (forest : Forest) (id : NodeId) : Option (Element × Option String) :=
  forest.contents.findSome? (Content.find? id)

/-- The index of the tree that an element belongs to. -/
def owner? (forest : Forest) (id : NodeId) : Option Nat :=
  (forest.trees.findIdx? fun tree => tree.content.ids.contains id).or
    ((forest.fragments.find? fun fragment => fragment.content.ids.contains id).map (·.owner))

/-- The tree that an element belongs to. -/
def treeOf? (forest : Forest) (id : NodeId) : Option Tree :=
  (forest.owner? id).bind fun owner => forest.trees[owner]?

/-- The root of the tree that an element belongs to. -/
def rootOf? (forest : Forest) (id : NodeId) : Option NodeId :=
  ((forest.treeOf? id).bind Tree.root?).map Element.id

/-- The declarations in effect for an element. -/
def scope (forest : Forest) (id : NodeId) : Scope :=
  ((forest.position? id).map Position.scope).getD []

/-- The number of qualifiers that have been minted for the tree that an element belongs to. -/
def minted (forest : Forest) (id : NodeId) : Nat :=
  ((forest.treeOf? id).map (·.minted)).getD 0

/-! ## Changing contents -/

/-- Changes the contents of all trees and fragments in the same way. -/
def mapContent (forest : Forest) (change : Content → Content) : Forest :=
  { forest with
    trees := forest.trees.map fun tree => { tree with content := change tree.content }
    fragments := forest.fragments.map fun fragment =>
      { fragment with content := change fragment.content } }

/-- Sets the number of qualifiers that have been minted for the tree that an element belongs to. -/
def setMinted (forest : Forest) (id : NodeId) (minted : Nat) : Forest :=
  match forest.owner? id with
  | none => forest
  | some owner =>
    { forest with trees := forest.trees.modify owner fun tree => { tree with minted } }

/-- Takes an element with its tail away from where it is. -/
def detach (forest : Forest) (id : NodeId) : Forest :=
  let forest := forest.mapContent (Content.remove id)
  { forest with fragments := forest.fragments.filter fun fragment => fragment.content != .nil }

/-- Adds a tree. Its elements get new identities. -/
def addTree (forest : Forest) (content : Content) (minted : Nat := 0) : Forest :=
  { forest with
    trees := forest.trees ++ [⟨content.renumber forest.next, minted⟩]
    next := forest.next + content.size }

/-! ## Moving elements -/

/-- Moves an element to a place below `parent`, unless it's the parent itself or contains it. -/
def move (forest : Forest) (parent node : NodeId)
    (place : Element → Option String → Content → Content) : Option Forest :=
  match forest.position? parent, forest.find? node with
  | some position, some (element, tail) =>
    if position.lineage.contains node then none
    else
      let (element, minted) := element.rebind position.scope (forest.minted parent)
      some (((forest.detach node).mapContent (place element tail)).setMinted parent minted)
  | _, _ => none

/-- Moves an element in front of the first child of any kind of `parent`. -/
def insertFirst (forest : Forest) (parent node : NodeId) : Option Forest :=
  forest.move parent node (Content.insertFirst parent)

/-- Moves an element behind a child of `parent` and its tail. -/
def insertAfter (forest : Forest) (parent reference node : NodeId) : Option Forest :=
  match (forest.position? reference).bind Position.parent? with
  | none => none
  | some position =>
    if position.id ≠ parent then none
    else if node = reference then some forest
    else forest.move parent node (Content.insertAfter reference)

/-- Takes an element out of its tree. An element without a parent stays where it is. -/
def delete (forest : Forest) (node : NodeId) : Forest :=
  match (forest.position? node).bind Position.parent?, forest.find? node, forest.owner? node with
  | some _, some (element, tail), some owner =>
    let (element, minted) := element.rebind [] (forest.minted node)
    let forest := (forest.setMinted node minted).detach node
    { forest with
      fragments := forest.fragments ++
        [⟨owner, .element element.tag element.content tail .nil⟩] }
  | _, _, _ => forest

end Forest
end MarkupPath
