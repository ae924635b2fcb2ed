import MarkupPath.Tree.Name

/-!
# The content of elements and documents

What stands between two tags: elements, comments and processing instructions, in their order, each
with the text that follows it. The text in front of the first one belongs to the enclosing
element. That way every text has one place, and a node can be added or removed without
distributing the texts around it anew.

Elements carry an identity that tells them apart even if they look alike. `Content.ids` lists the
identities in document order; the operations that add and remove a node are described by what
they do at the node with a given identity.
-/

namespace MarkupPath

/-- The identity of an element. -/
structure NodeId where
  /-- the number that makes the element distinct -/
  index : Nat
deriving DecidableEq, Repr

/-- An attribute of an element. -/
structure Attribute where
  /-- its name -/
  name : Name
  /-- its value -/
  value : String
deriving DecidableEq, Repr

/-- An element without what it contains behind its leading text. -/
structure Tag where
  /-- its identity -/
  id : NodeId
  /-- its name -/
  name : Name
  /-- the namespace declarations, in their order -/
  declarations : List Declaration := []
  /-- the attributes, in their order -/
  attributes : List Attribute := []
  /-- the text in front of the first child of any kind -/
  text : Option String := none
deriving DecidableEq, Repr

/-- A sequence of elements, comments and processing instructions, each with its tail, that is the
text behind it. -/
inductive Content where
  /-- nothing -/
  | nil
  /-- an element that contains `children` behind its leading text -/
  | element (tag : Tag) (children : Content) (tail : Option String) (rest : Content)
  /-- a comment -/
  | comment (text : String) (tail : Option String) (rest : Content)
  /-- a processing instruction -/
  | instruction (target : String) (data : Option String) (tail : Option String) (rest : Content)
deriving DecidableEq, Repr

/-- An element with all that it contains. -/
structure Element where
  /-- the element itself -/
  tag : Tag
  /-- what it contains behind its leading text -/
  content : Content
deriving DecidableEq, Repr

/-- The identity of an element. -/
def Element.id (element : Element) : NodeId := element.tag.id

namespace Content

/-- The number of elements, at any depth. -/
def size : Content → Nat
  | nil => 0
  | element _ children _ rest => children.size + rest.size + 1
  | comment _ _ rest => rest.size
  | instruction _ _ _ rest => rest.size

/-- The identities of all elements in document order. -/
def ids : Content → List NodeId
  | nil => []
  | element tag children _ rest => tag.id :: (children.ids ++ rest.ids)
  | comment _ _ rest => rest.ids
  | instruction _ _ _ rest => rest.ids

/-- The first element that isn't contained in another one. -/
def firstElement? : Content → Option Element
  | nil => none
  | element tag children _ _ => some ⟨tag, children⟩
  | comment _ _ rest => rest.firstElement?
  | instruction _ _ _ rest => rest.firstElement?

/-! ## Looking up, adding and removing by identity -/

/-- The element with the given identity, with its tail. -/
def find? (id : NodeId) : Content → Option (Element × Option String)
  | nil => none
  | element tag children tail rest =>
    if tag.id = id then some (⟨tag, children⟩, tail)
    else (children.find? id).or (rest.find? id)
  | comment _ _ rest => rest.find? id
  | instruction _ _ _ rest => rest.find? id

/-- Changes the element with the given identity, but not its children. -/
def mapTag (id : NodeId) (change : Tag → Tag) : Content → Content
  | nil => nil
  | element tag children tail rest =>
    if tag.id = id then element (change tag) children tail rest
    else element tag (children.mapTag id change) tail (rest.mapTag id change)
  | comment text tail rest => comment text tail (rest.mapTag id change)
  | instruction target data tail rest => instruction target data tail (rest.mapTag id change)

/-- Adds an element to the parent with the given identity, in front of its first child of any kind
and behind its leading text. -/
def insertFirst (parent : NodeId) (new : Element) (newTail : Option String) : Content → Content
  | nil => nil
  | element tag children tail rest =>
    if tag.id = parent then
      element tag (element new.tag new.content newTail children) tail rest
    else
      element tag (children.insertFirst parent new newTail) tail
        (rest.insertFirst parent new newTail)
  | comment text tail rest => comment text tail (rest.insertFirst parent new newTail)
  | instruction target data tail rest =>
    instruction target data tail (rest.insertFirst parent new newTail)

/-- Adds an element behind the element with the given identity and its tail. -/
def insertAfter (reference : NodeId) (new : Element) (newTail : Option String) :
    Content → Content
  | nil => nil
  | element tag children tail rest =>
    if tag.id = reference then
      element tag children tail (element new.tag new.content newTail rest)
    else
      element tag (children.insertAfter reference new newTail) tail
        (rest.insertAfter reference new newTail)
  | comment text tail rest => comment text tail (rest.insertAfter reference new newTail)
  | instruction target data tail rest =>
    instruction target data tail (rest.insertAfter reference new newTail)

/-- Removes the element with the given identity, with its tail. -/
def remove (id : NodeId) : Content → Content
  | nil => nil
  | element tag children tail rest =>
    if tag.id = id then rest else element tag (children.remove id) tail (rest.remove id)
  | comment text tail rest => comment text tail (rest.remove id)
  | instruction target data tail rest => instruction target data tail (rest.remove id)

/-! ## Copies -/

/-- Gives all elements new identities, counting up from `next` in document order. -/
def renumber (next : Nat) : Content → Content
  | nil => nil
  | element tag children tail rest =>
    element { tag with id := ⟨next⟩ } (children.renumber (next + 1)) tail
      (rest.renumber (next + 1 + children.size))
  | comment text tail rest => comment text tail (rest.renumber next)
  | instruction target data tail rest => instruction target data tail (rest.renumber next)

/-! ## What the operations do to the identities -/

/-- Removing what isn't there changes nothing. -/
theorem remove_of_notMem {id : NodeId} {content : Content} (h : id ∉ content.ids) :
    content.remove id = content := by
  induction content with
  | nil => rfl
  | element tag children tail rest ihc ihr =>
    simp only [ids, List.mem_cons, List.mem_append, not_or] at h
    simp [remove, Ne.symm h.1, ihc h.2.1, ihr h.2.2]
  | comment text tail rest ih => simp [remove, ih h]
  | instruction target data tail rest ih => simp [remove, ih h]

end Content
end MarkupPath
