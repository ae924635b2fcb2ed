import MarkupPath.Tree.UniversalName

/-!
# Positions in a tree

An element together with the place where it stands: the chain of its ancestors and what follows it
among the children of each. From a position one gets to the first and the last child, to the next
sibling and to the parent; only elements are stopped at, comments and processing instructions are
passed over.

## How far there is to go

`Position.after` counts the elements that stand behind an element and its descendants,
`Position.ahead` all that come later in document order. Each move forwards makes the latter
smaller, which is why every search that keeps moving forwards comes to an end.

## Addresses

`Position.address` lists the indices of a position and its ancestors among their element siblings,
its own first. Positions within one tree are the same exactly if their addresses are.
-/

namespace MarkupPath

/-- An element and where it stands. -/
inductive Position where
  /-- an element without a parent -/
  | top (element : Element)
  /-- a child of the element at `parent`, with its index among the element children there and what
  follows it and its tail -/
  | child (parent : Position) (index : Nat) (element : Element) (following : Content)
deriving DecidableEq, Repr

namespace Position

/-- The element that stands at a position. -/
def element : Position → Element
  | top element => element
  | child _ _ element _ => element

/-- The identity of the element. -/
def id (position : Position) : NodeId := position.element.id

/-- The written name of the element. -/
def name (position : Position) : String := position.element.tag.name.written

/-- Why the element doesn't tell its name, if it doesn't. -/
def refusal? (position : Position) : Option Refusal := position.element.tag.name.refusal?

/-- The position of the parent. -/
def parent? : Position → Option Position
  | top _ => none
  | child parent _ _ _ => some parent

/-- The indices among the element siblings, of the position itself and then of its ancestors. -/
def address : Position → List Nat
  | top _ => []
  | child parent index _ _ => index :: parent.address

/-- The identities of the element and its ancestors, its own first. -/
def lineage : Position → List NodeId
  | top element => [element.id]
  | child parent _ element _ => element.id :: parent.lineage

/-- The declarations that are in effect for the element, its own first. -/
def scope : Position → Scope
  | top element => element.tag.declarations
  | child parent _ element _ => element.tag.declarations ++ parent.scope

/-- The number of elements behind the element and its descendants. -/
def after : Position → Nat
  | top _ => 0
  | child parent _ _ following => following.size + parent.after

/-- The number of elements that come later in document order. -/
def ahead (position : Position) : Nat :=
  position.element.content.size + position.after

/-! ## Moving -/

/-- Whether an element passes a test for a name, if there's one. -/
def passes (filter : Option String) (element : Element) : Bool :=
  match filter with
  | none => true
  | some name => element.tag.name.written == name

/-- The first element of the given name, or of any, in a part of the content of `parent`; `index`
is the number of elements in front of that part. -/
def firstIn (parent : Position) (filter : Option String) (index : Nat) :
    Content → Option Position
  | .nil => none
  | .element tag children _ rest =>
    if passes filter ⟨tag, children⟩ then some (child parent index ⟨tag, children⟩ rest)
    else firstIn parent filter (index + 1) rest
  | .comment _ _ rest => firstIn parent filter index rest
  | .instruction _ _ _ rest => firstIn parent filter index rest

/-- The first child of the given name, or of any. -/
def firstChild? (position : Position) (filter : Option String := none) : Option Position :=
  firstIn position filter 0 position.element.content

/-- The next sibling of the given name, or of any. -/
def nextSibling? (position : Position) (filter : Option String := none) : Option Position :=
  match position with
  | top _ => none
  | child parent index _ following => firstIn parent filter (index + 1) following

/-- Why the first element of the given name can't be found in content, if an element in front of it
doesn't tell its name. -/
def refusalIn (name : String) : Content → Option Refusal
  | .nil => none
  | .element tag _ _ rest =>
    match tag.name.refusal? with
    | some refusal => some refusal
    | none => if tag.name.written == name then none else refusalIn name rest
  | .comment _ _ rest => refusalIn name rest
  | .instruction _ _ _ rest => refusalIn name rest

/-- Why the first child of the given name can't be found. Any child can. -/
def childRefusal? (position : Position) (filter : Option String) : Option Refusal :=
  filter.bind fun name => refusalIn name position.element.content

/-- Why the next sibling of the given name can't be found. Any sibling can. -/
def siblingRefusal? (position : Position) (filter : Option String) : Option Refusal :=
  match position with
  | top _ => none
  | child _ _ _ following => filter.bind fun name => refusalIn name following

/-- The last element in a part of the content of `parent`, or else the one that was found in front
of that part. -/
def lastIn (parent : Position) (index : Nat) (found : Option Position) :
    Content → Option Position
  | .nil => found
  | .element tag children _ rest =>
    lastIn parent (index + 1) (some (child parent index ⟨tag, children⟩ rest)) rest
  | .comment _ _ rest => lastIn parent index found rest
  | .instruction _ _ _ rest => lastIn parent index found rest

/-- The last child. -/
def lastChild? (position : Position) : Option Position :=
  lastIn position 0 none position.element.content

/-- The child with the given index, counted from the elements of a part of the content of
`parent`. -/
def nthIn (parent : Position) (index : Nat) : Nat → Content → Option Position
  | _, .nil => none
  | 0, .element tag children _ rest => some (child parent index ⟨tag, children⟩ rest)
  | n + 1, .element _ _ _ rest => nthIn parent (index + 1) n rest
  | n, .comment _ _ rest => nthIn parent index n rest
  | n, .instruction _ _ _ rest => nthIn parent index n rest

/-- The child with the given index among the element children. -/
def nthChild? (position : Position) (n : Nat) : Option Position :=
  nthIn position 0 n position.element.content

/-- The positions of the elements in a part of the content of `parent`. -/
def allIn (parent : Position) (index : Nat) : Content → List Position
  | .nil => []
  | .element tag children _ rest =>
    child parent index ⟨tag, children⟩ rest :: allIn parent (index + 1) rest
  | .comment _ _ rest => allIn parent index rest
  | .instruction _ _ _ rest => allIn parent index rest

/-- The positions of the children. -/
def children (position : Position) : List Position :=
  allIn position 0 position.element.content

/-! ## Looking up an identity -/

/-- The position of an element with the given identity in a part of the content of `parent`. -/
def locateIn (id : NodeId) (parent : Position) (index : Nat) : Content → Option Position
  | .nil => none
  | .element tag content _ rest =>
    if tag.id = id then some (child parent index ⟨tag, content⟩ rest)
    else
      (locateIn id (child parent index ⟨tag, content⟩ rest) 0 content).or
        (locateIn id parent (index + 1) rest)
  | .comment _ _ rest => locateIn id parent index rest
  | .instruction _ _ _ rest => locateIn id parent index rest

/-- The position of an element with the given identity in the content of a document, whose
elements have no parent. -/
def locate (id : NodeId) : Content → Option Position
  | .nil => none
  | .element tag content _ rest =>
    if tag.id = id then some (top ⟨tag, content⟩)
    else (locateIn id (top ⟨tag, content⟩) 0 content).or (locate id rest)
  | .comment _ _ rest => locate id rest
  | .instruction _ _ _ rest => locate id rest

/-! ## Moves lead forwards -/

theorem ahead_firstIn {parent position : Position} {filter : Option String} {index : Nat}
    {content : Content} (h : firstIn parent filter index content = some position) :
    position.ahead < content.size + parent.after := by
  induction content generalizing index with
  | nil => simp [firstIn] at h
  | element tag children tail rest _ ih =>
    rw [firstIn] at h
    split at h
    · cases h
      simp only [ahead, after, element, Content.size]
      omega
    · have := ih h
      simp only [Content.size]
      omega
  | comment text tail rest ih => exact ih h
  | instruction target data tail rest ih => exact ih h

theorem ahead_firstChild {position next : Position} {filter : Option String}
    (h : position.firstChild? filter = some next) : next.ahead < position.ahead :=
  ahead_firstIn h

theorem ahead_nextSibling {position next : Position} {filter : Option String}
    (h : position.nextSibling? filter = some next) : next.ahead < position.after := by
  cases position with
  | top element => simp [nextSibling?] at h
  | child parent index element following => exact ahead_firstIn h

theorem after_le_ahead (position : Position) : position.after ≤ position.ahead := by
  simp [ahead]

end Position
end MarkupPath
