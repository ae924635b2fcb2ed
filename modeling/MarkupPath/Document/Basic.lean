import MarkupPath.Document.Loading
import MarkupPath.Markup.Writer
import MarkupPath.Path.Split

/-!
# Documents

A document is a handle to the root of a tree that was loaded for it. It has no root if it was
created empty. The handle stays with its root even if that is moved into another tree.
-/

namespace MarkupPath

/-- A document. -/
structure Document where
  /-- its root, if there's one -/
  root : Option NodeId := none
  /-- whether white space that lays out the markup is kept when content is loaded -/
  keepBlanks : Bool := false
deriving DecidableEq, Repr

namespace Document

/-- Adds a tree to a forest and makes its root that of a document. -/
def setContent (document : Document) (forest : Forest) (content : Content) : Document × Forest :=
  let new := content.renumber forest.next
  ({ document with root := new.firstElement?.map Element.id }, forest.addTree content)

/-- A document that is loaded from a source. -/
def load (forest : Forest) (keepBlanks : Bool) (source : Source) :
    Except LoadFailure (Document × Forest) :=
  (loadWith forest keepBlanks source [] Loader.all).map (setContent { keepBlanks } forest)

/-- Replaces the content of a document by what is loaded from a text. -/
def parse (document : Document) (forest : Forest) (source : Source) :
    Except LoadFailure (Document × Forest) :=
  (loadWith forest document.keepBlanks source [] [.text]).map (document.setContent forest)

/-- Whether an element belongs to a document's tree. -/
def contains (document : Document) (forest : Forest) (node : NodeId) : Bool :=
  document.root.isSome && forest.rootOf? node == document.root

end Document

namespace Forest

/-- The markup of an element without its tail. It declares what is in effect around it. -/
def markup (forest : Forest) (node : NodeId) : String :=
  match forest.position? node with
  | none => ""
  | some position =>
    let outer := (position.parent?.map Position.scope).getD []
    Markup.writeOne (position.element.withScope outer)

/-- The markup of the root of the tree that an element belongs to. -/
def treeMarkup (forest : Forest) (node : NodeId) : String :=
  (((forest.treeOf? node).bind Tree.root?).map Markup.writeOne).getD ""

/-- The markup of a document with the given root: with what is around the root, unless that isn't
the root of a tree any more. -/
def documentMarkup (forest : Forest) (root : NodeId) : String :=
  match forest.trees.find? fun tree => tree.root?.any (·.id = root) with
  | some tree => Markup.write tree.content
  | none =>
    forest.markup root ++ Markup.writeTail ((forest.find? root).bind (·.2))

end Forest

/-- The markup of a document. -/
def Document.markup (document : Document) (forest : Forest) : String :=
  (document.root.map forest.documentMarkup).getD ""

end MarkupPath
