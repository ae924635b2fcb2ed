import MarkupPath.Markup.Encoding
import MarkupPath.Markup.Heading
import MarkupPath.Markup.Identity
import MarkupPath.Markup.Notice
import MarkupPath.Markup.UriReference
import MarkupPath.Tree.Content

/-!
# Nesting tokens

Tokens are nested one after the other; what has been read so far is an `Outline`, that is the
elements that are still open and what precedes them, with the notices about it. Names are resolved
in the scope of declarations of the open elements, and each attribute may occur only once.

This is the last stage of reading a document (`readDocument`, `readBytes`). Every stage refuses what
isn't well-formed.

## Flaws

A name whose qualifier isn't declared is in no namespace, and all that is written is its local part.
A declaration that makes no sense has no effect. Such things, namespaces that aren't URI references,
attributes that only differ in their qualifier, and identities that aren't names or occur twice are
flaws. A relative reference as default namespace, an unknown value of `xml:space` and a target that
starts with `xml` are worth a warning.

## Layout

Unless blanks are kept, a white space token is dropped where it only lays out the markup. It's
kept if an attribute `xml:space` asks for that, if it's all that its element contains, if text
precedes it in its element, either directly or as the first child, and if a text of the element
has been kept before.
-/

namespace MarkupPath.Markup

/-- What becomes of white space in an element. -/
inductive Spacing where
  /-- it may be layout -/
  | undecided
  /-- it's kept, as other text has been -/
  | mixed
  /-- it may be layout, by an attribute -/
  | default
  /-- it's kept, by an attribute -/
  | preserve
deriving DecidableEq, Repr

/-- A child of any kind, without its tail. -/
inductive Child where
  /-- an element -/
  | element (tag : Tag) (children : Content)
  /-- a comment -/
  | comment (text : String)
  /-- a processing instruction -/
  | instruction (target : String) (data : Option String)
deriving DecidableEq, Repr

/-- Puts a child with its tail in front of other content. -/
def Child.cons (child : Child) (tail : Option String) (rest : Content) : Content :=
  match child with
  | .element tag children => .element tag children tail rest
  | .comment text => .comment text tail rest
  | .instruction target data => .instruction target data tail rest

/-- The content that consists of children, given with their tails and the last one first, in front
of other content. -/
def contentOf (children : List (Child × Option String)) : Content :=
  children.foldl (fun rest (child, tail) => child.cons tail rest) .nil

/-- An element whose end tag hasn't been read. -/
structure OpenElement where
  /-- the name in its start tag -/
  written : WrittenName
  /-- the element -/
  tag : Tag
  /-- the declarations in effect in it -/
  scope : Scope
  /-- what becomes of white space in it -/
  spacing : Spacing
  /-- its children so far with their tails, the last one first -/
  children : List (Child × Option String) := []

/-- What has been read of a document. -/
structure Outline where
  /-- the elements that are open, the innermost first -/
  path : List OpenElement := []
  /-- what is complete outside the root, the last one first -/
  children : List (Child × Option String) := []
  /-- the values of `xml:id` so far -/
  identities : List String := []
  /-- what has been noticed -/
  notices : Notices := {}

/-! ## Texts and children of an open element -/

namespace OpenElement

/-- Whether the last thing in the element is text. -/
def endsInText (element : OpenElement) : Bool :=
  match element.children with
  | [] => element.tag.text.isSome
  | (_, tail) :: _ => tail.isSome

/-- Whether nothing precedes the end of what has been read of the element. -/
def isEmpty (element : OpenElement) : Bool :=
  element.children.isEmpty && element.tag.text.isNone

/-- Adds text behind what the element contains. -/
def addText (element : OpenElement) (text : String) : OpenElement :=
  match element.children with
  | [] =>
    { element with tag := { element.tag with text := some (element.tag.text.getD "" ++ text) } }
  | (child, tail) :: others =>
    { element with children := (child, some (tail.getD "" ++ text)) :: others }

/-- Adds text that has been kept, which decides on the white space that comes later. -/
def keepText (element : OpenElement) (text : String) : OpenElement :=
  let spacing := if element.spacing = .undecided then .mixed else element.spacing
  { element.addText text with spacing }

/-- Whether white space that markup follows is mere layout. -/
def isLayout (element : OpenElement) (beforeEnd : Bool) : Bool :=
  (element.spacing == .undecided || element.spacing == .default)
    && !(element.isEmpty && beforeEnd) && !element.endsInText && element.tag.text.isNone

/-- Adds a child behind what the element contains. -/
def addChild (element : OpenElement) (child : Child) : OpenElement :=
  { element with children := (child, none) :: element.children }

end OpenElement

/-! ## Declarations -/

/-- Whether a namespace can't be declared. -/
def isReserved (space : String) : Bool := space == xmlSpace || space == declarationSpace

/-- The declaration that an attribute makes, given the qualifier that it's about, and what is to be
noticed about it. The qualifier `xml` stands for its namespace anyway. -/
def declarationOf (qualifier : Option String) (space : String) :
    Option Declaration × List Notice :=
  let isReference := UriReference.isValid space.toList
  match qualifier with
  | none =>
    if isReserved space then (none, [.flaw])
    else
      (some ⟨none, space⟩,
        if space.isEmpty || UriReference.isAbsolute space.toList then []
        else if isReference then [.warning]
        else [.flaw])
  | some "xml" => (none, flawUnless (space == xmlSpace))
  | some name =>
    if name = "xmlns" || isReserved space || space.isEmpty then (none, [.flaw])
    else (some ⟨qualifier, space⟩, flawUnless isReference)

/-- What an attribute declares, if it's a declaration: the qualifier, absent for the default
namespace. -/
def declared? (name : WrittenName) : Option (Option String) :=
  if name.qualifier = some "xmlns" then some (some name.localPart)
  else if name.qualifier = none ∧ name.localPart = "xmlns" then some none
  else none

/-- The declarations in a start tag. -/
def declarationsOf (attributes : List (WrittenName × String)) : List Declaration :=
  attributes.filterMap fun (name, value) =>
    (declared? name).bind fun qualifier => (declarationOf qualifier value).1

/-- What is to be noticed about an attribute as such. -/
def noticesOfAttribute (name : WrittenName) (value : String) : List Notice :=
  let ofSpacing :=
    if name = ⟨some "xml", "space"⟩ ∧ value ≠ "default" ∧ value ≠ "preserve" then
      [Notice.warning]
    else []
  let ofDeclaration :=
    match declared? name with
    | some qualifier => (declarationOf qualifier value).2
    | none => []
  flawUnless name.isProper ++ ofSpacing ++ ofDeclaration

/-! ## Start tags -/

/-- Whether a name has a qualifier that isn't declared. -/
def isUnbound (scope : Scope) (name : WrittenName) : Bool :=
  name.qualifier.any fun qualifier =>
    qualifier != "xml" && (scope.space? (some qualifier)).isNone

/-- The name of an element or an attribute. Names of attributes without a qualifier are in no
namespace. -/
def resolve (scope : Scope) (forAttribute : Bool) (name : WrittenName) : Name :=
  match name.qualifier with
  | none =>
    let space := if forAttribute then none else (scope.space? none).filter (!·.isEmpty)
    ⟨none, name.localPart, space⟩
  | some "xml" => ⟨some "xml", name.localPart, some xmlSpace⟩
  | some qualifier =>
    match scope.space? (some qualifier) with
    | some space => ⟨some qualifier, name.localPart, some space⟩
    | none => ⟨none, qualifier ++ ":" ++ name.localPart, none⟩

/-- Flaws for the attributes that have the same local part and namespace as an earlier one. An
undeclared qualifier counts as none. -/
def noticesOfRepeated (scope : Scope) (names : List WrittenName) : List Notice :=
  let key (name : WrittenName) : String × Option String :=
    (name.localPart, if isUnbound scope name then none else (resolve scope true name).space)
  let rec go (earlier : List (String × Option String)) : List WrittenName → List Notice
    | [] => []
    | name :: rest =>
      flawUnless (!earlier.contains (key name)) ++ go (key name :: earlier) rest
  go [] names

/-- The value of an attribute whose name has the qualifier `xml`. -/
def reservedValue? (attributes : List Attribute) (localPart : String) : Option String :=
  (attributes.find? fun attr =>
    attr.name.space = some xmlSpace && attr.name.localPart = localPart).map (·.value)

/-- The element that a start tag opens within the given scope and spacing, and what is to be noticed
about the tag. -/
def OpenElement.ofStartTag (scope : Scope) (spacing : Spacing) (written : WrittenName)
    (attributes : List (WrittenName × String)) : Option (OpenElement × List Notice) :=
  let declarations := declarationsOf attributes
  let scope := declarations ++ scope
  let others := attributes.filter fun (name, _) => (declared? name).isNone
  let names := others.map (·.1)
  if (declarations.map (·.qualifier)).eraseDups.length < declarations.length
      ∨ names.eraseDups.length < names.length then none
  else
    let attributes' := others.map fun (name, value) => ⟨resolve scope true name, value⟩
    let spacing : Spacing :=
      match reservedValue? attributes' "space" with
      | some "preserve" => .preserve
      | some "default" => .default
      | _ => if spacing = .mixed then .undecided else spacing
    let notices :=
      flawUnless written.isProper
        ++ attributes.flatMap (fun (name, value) => noticesOfAttribute name value)
        ++ (names ++ [written]).flatMap (fun name => flawUnless (!isUnbound scope name))
        ++ noticesOfRepeated scope names
    let name := resolve scope false written
    some ({ written, scope, spacing,
            tag := { id := ⟨0⟩, name, declarations, attributes := attributes' } }, notices)

/-! ## Processing instructions -/

/-- The targets that start with `xml` and are known nevertheless. -/
def knownTargets : List String := ["xml-stylesheet", "xml-model"]

/-- What is to be noticed about the target of a processing instruction. -/
def noticesOfTarget (target : String) : List Notice :=
  let startsReserved := (target.toList.take 3).map Char.toLower = ['x', 'm', 'l']
  (if startsReserved && !knownTargets.contains target then [.warning] else [])
    ++ flawUnless (!target.toList.contains ':')

/-! ## Taking tokens -/

namespace Outline

/-- How many elements may be open at a time. -/
def maximalDepth : Nat := 256

/-- Whether the root has been read. -/
def hasRoot (outline : Outline) : Bool :=
  outline.children.any fun (child, _) => child matches .element ..

/-- Adds a child to the innermost open element. -/
def addChild (outline : Outline) (child : Child) : Outline :=
  match outline.path with
  | [] => { outline with children := (child, none) :: outline.children }
  | element :: outer => { outline with path := element.addChild child :: outer }

/-- Closes the innermost open element. -/
def close (outline : Outline) (written : WrittenName) : Option Outline :=
  match outline.path with
  | [] => none
  | element :: outer =>
    if element.written = written then
      some ({ outline with path := outer }.addChild
        (.element element.tag (contentOf element.children)))
    else none

/-- Changes the innermost open element by a text; outside the root there's only white space. -/
def addText (outline : Outline) (text : String) (add : OpenElement → OpenElement) :
    Option Outline :=
  match outline.path with
  | [] => if text.toList.all isSpace then some outline else none
  | element :: outer => some { outline with path := add element :: outer }

/-- Takes notices. -/
def notice (outline : Outline) (notices : List Notice) : Outline :=
  { outline with notices := outline.notices.addAll notices }

/-- Opens an element. Its identity is noted. -/
def enter (outline : Outline) (element : OpenElement) : Outline :=
  let outline := { outline with path := element :: outline.path }
  match reservedValue? element.tag.attributes "id" with
  | none => outline
  | some identity =>
    let isNew := !identity.isEmpty && !outline.identities.contains identity
    { outline with identities := identity :: outline.identities }.notice
      (flawUnless (isIdentity identity) ++ flawUnless isNew)

/-- Takes one token, or refuses it. -/
def take (keepBlanks : Bool) (outline : Outline) : Token → Option Outline
  | .startTag name attributes closed => do
    let (scope, spacing) :=
      match outline.path with
      | [] => ([], .undecided)
      | element :: _ => (element.scope, element.spacing)
    if outline.path.isEmpty && outline.hasRoot then none
    if outline.path.length ≥ maximalDepth then none
    let (element, notices) ← OpenElement.ofStartTag scope spacing name attributes
    let outline := (outline.notice notices).enter element
    if closed then outline.close name else some outline
  | .endTag name => outline.close name
  | .blank text beforeEnd => outline.addText text fun element =>
    if keepBlanks then element.addText text
    else if element.isLayout beforeEnd then element
    else element.keepText text
  | .text text => outline.addText text (·.keepText text)
  | .literal text =>
    match outline.path with
    | [] => none
    | element :: outer => some { outline with path := element.addText text :: outer }
  | .comment text => some (outline.addChild (.comment text))
  | .instruction target data =>
    some ((outline.notice (noticesOfTarget target)).addChild (.instruction target data))

/-- The content of a document whose tokens have all been taken: the root, and the comments and
processing instructions around it. The last notice mustn't be a flaw. -/
def finish (outline : Outline) : Option Content :=
  if outline.path.isEmpty && outline.hasRoot && !outline.notices.endInFlaw then
    some (contentOf outline.children)
  else none

end Outline

/-- Nests the tokens of a document. -/
def nest (keepBlanks : Bool) (tokens : List Token) : Option Content :=
  (tokens.foldlM (Outline.take keepBlanks) {}).bind Outline.finish

/-! ## Reading documents -/

/-- Reads the characters of a document: its declaration, and what follows in tokens. -/
def readDocument (keepBlanks : Bool) (cs : List Char) : Option Content :=
  (readHeading cs).bind fun (_, body) => (Token.ofMarkup body).bind (nest keepBlanks)

/-- Reads a document that is given as bytes. -/
def readBytes (keepBlanks : Bool) (bytes : List UInt8) : Option Content :=
  (decodeDocument bytes).bind (readDocument keepBlanks)

end MarkupPath.Markup
