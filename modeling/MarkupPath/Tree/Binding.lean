import MarkupPath.Tree.Content

/-!
# Binding namespaces to qualifiers

A name can only be written where its namespace is declared. When an element is moved to another
place its names may have to be bound anew:

* declarations of namespaces that are in effect at the new place already aren't repeated;
* a name whose namespace isn't declared there, nor within the moved element, gets a declaration on
  the moved element. It keeps its qualifier if that is free. If it has none, it gets the one that is
  customary for its namespace, if there's one and that is free. Else a qualifier is minted: `ns0`,
  `ns1` and so on. Every tree counts the qualifiers that have been minted for it.

A copy that becomes the root of a tree of its own keeps all names as they are written, and gets the
declarations that it would lack.
-/

namespace MarkupPath

/-- The n-th minted qualifier. -/
def mintedQualifier (n : Nat) : String := "ns" ++ toString n

/-- Namespaces that have a customary qualifier, without the `http` scheme that they all start
with. -/
def customaryQualifiers : List (String × String) :=
  [("www.w3.org/1999/xhtml", "html"),
    ("www.w3.org/1999/XSL/Transform", "xsl"),
    ("www.w3.org/1999/02/22-rdf-syntax-ns#", "rdf"),
    ("schemas.xmlsoap.org/wsdl/", "wsdl"),
    ("www.w3.org/2001/XMLSchema", "xs"),
    ("www.w3.org/2001/XMLSchema-instance", "xsi"),
    ("purl.org/dc/elements/1.1/", "dc"),
    ("codespeak.net/lxml/objectify/pytype", "py")]

/-- The customary qualifier of a namespace. -/
def customaryQualifier? (space : String) : Option String :=
  (customaryQualifiers.find? fun (address, _) => "http://" ++ address == space).map (·.2)

/-- A way to write names of a namespace. -/
structure Binding where
  /-- what is written and what it stands for -/
  declaration : Declaration
  /-- whether the declaration has to be added -/
  isNew : Bool
  /-- how many qualifiers have been minted -/
  minted : Nat
deriving DecidableEq, Repr

namespace Scope

/-- A qualifier that isn't declared yet, the first one of those that haven't been minted. -/
def mint (scope : Scope) (space : String) (minted : Nat) : Binding :=
  let isFree (n : Nat) : Bool := (scope.space? (some (mintedQualifier (minted + n)))).isNone
  let n := ((List.range (scope.length + 1)).find? isFree).getD scope.length
  ⟨⟨some (mintedQualifier (minted + n)), space⟩, true, minted + n + 1⟩

/-- Binds a namespace: to a declaration that is in effect, or to the qualifier that is asked for or
else is customary, or to a minted one. -/
def bind (scope : Scope) (space : String) (qualifier : Option String) (forAttribute : Bool)
    (minted : Nat) : Binding :=
  if space = xmlSpace then ⟨⟨some "xml", xmlSpace⟩, false, minted⟩
  else
    match scope.declaring? space forAttribute with
    | some declaration => ⟨declaration, false, minted⟩
    | none =>
      let qualifier := qualifier.or (customaryQualifier? space)
      if qualifier.isSome && (scope.space? qualifier).isNone then
        ⟨⟨qualifier, space⟩, true, minted⟩
      else scope.mint space minted

end Scope

/-! ## Moved elements -/

/-- What has been decided while the names of a moved element are bound. -/
structure Rebinding where
  /-- the declarations of the moved element -/
  declared : List Declaration := []
  /-- which declarations replace which -/
  replaced : List (Declaration × Declaration) := []
  /-- how many qualifiers have been minted -/
  minted : Nat

namespace Rebinding

/-- Binds a name anew. `outer` is in effect at the new place. -/
def rename (state : Rebinding) (outer : Scope) (forAttribute : Bool) (name : Name) :
    Name × Rebinding :=
  match name.space with
  | none => (name, state)
  | some space =>
    let former : Declaration := ⟨name.qualifier, space⟩
    let known := state.replaced.find? fun (old, new) =>
      old = former && !(forAttribute && new.qualifier.isNone)
    match known with
    | some (_, new) => ({ name with qualifier := new.qualifier }, state)
    | none =>
      let binding :=
        Scope.bind (state.declared ++ outer) space name.qualifier forAttribute state.minted
      let new := binding.declaration
      ({ name with qualifier := new.qualifier },
        { declared := if binding.isNew then state.declared ++ [new] else state.declared
          replaced := state.replaced ++ [(former, new)]
          minted := binding.minted })

/-- Binds the names of attributes anew. -/
def renameAttributes (state : Rebinding) (outer : Scope) :
    List Attribute → List Attribute × Rebinding
  | [] => ([], state)
  | attr :: rest =>
    let (name, state) := state.rename outer true attr.name
    let (rest, state) := state.renameAttributes outer rest
    ({ attr with name } :: rest, state)

/-- Removes the declarations of namespaces that are in effect around the element. -/
def dropRepeated (state : Rebinding) (around : Scope) :
    List Declaration → List Declaration × Rebinding
  | [] => ([], state)
  | declaration :: rest =>
    match around.declaring? declaration.space false with
    | some new =>
      { state with replaced := state.replaced ++ [(declaration, new)] }.dropRepeated around rest
    | none =>
      let (kept, state) :=
        { state with replaced := state.replaced ++ [(declaration, declaration)] }.dropRepeated
          around rest
      (declaration :: kept, state)

/-- Binds the names in the content of a moved element anew. `inner` has the declarations of the
elements between the moved one and the content. -/
def renameContent (outer inner : Scope) : Content → Rebinding → Content × Rebinding
  | .nil, state => (.nil, state)
  | .element tag children tail rest, state =>
    let (declarations, state) :=
      state.dropRepeated (inner ++ state.declared ++ outer) tag.declarations
    let (name, state) := state.rename outer false tag.name
    let (attributes, state) := state.renameAttributes outer tag.attributes
    let (children, state) := renameContent outer (declarations ++ inner) children state
    let (rest, state) := renameContent outer inner rest state
    (.element { tag with name, declarations, attributes } children tail rest, state)
  | .comment text tail rest, state =>
    let (rest, state) := renameContent outer inner rest state
    (.comment text tail rest, state)
  | .instruction target data tail rest, state =>
    let (rest, state) := renameContent outer inner rest state
    (.instruction target data tail rest, state)

end Rebinding

/-- An element as it is at a new place where `outer` is in effect, and the number of qualifiers that
have been minted for the tree there. -/
def Element.rebind (outer : Scope) (minted : Nat) (element : Element) : Element × Nat :=
  let (declared, state) :=
    Rebinding.dropRepeated { minted } outer element.tag.declarations
  let state := { state with declared }
  let (name, state) := state.rename outer false element.tag.name
  let (attributes, state) := state.renameAttributes outer element.tag.attributes
  let (content, state) := Rebinding.renameContent outer [] element.content state
  (⟨{ element.tag with name, declarations := state.declared, attributes }, content⟩, state.minted)

/-! ## Copied elements -/

/-- The declaration that a name needs if it isn't bound in the given scope. -/
def Name.lacks (scope : Scope) (name : Name) : List Declaration :=
  match name.space with
  | none => []
  | some space =>
    if space = xmlSpace || (scope.space? name.qualifier).isSome then []
    else [⟨name.qualifier, space⟩]

/-- The declarations that the names of an element need. -/
def Tag.lacks (scope : Scope) (tag : Tag) : List Declaration :=
  tag.name.lacks scope ++ tag.attributes.flatMap (·.name.lacks scope)

/-- The declarations that the names in content need, in document order. -/
def Content.lacks (scope : Scope) : Content → List Declaration
  | .nil => []
  | .element tag children _ rest =>
    tag.lacks (tag.declarations ++ scope) ++ children.lacks (tag.declarations ++ scope)
      ++ rest.lacks scope
  | .comment _ _ rest => rest.lacks scope
  | .instruction _ _ _ rest => rest.lacks scope

/-- An element with declarations for all its names. -/
def Element.selfContained (element : Element) : Element :=
  let tag := element.tag
  let lacking := tag.lacks tag.declarations ++ element.content.lacks tag.declarations
  { element with
    tag := { tag with declarations := tag.declarations ++ lacking.eraseDups } }

/-- An element with the declarations that are in effect around it, apart from those of qualifiers
that it declares itself. -/
def Element.withScope (outer : Scope) (element : Element) : Element :=
  let add (declared : List Declaration) (declaration : Declaration) : List Declaration :=
    if (Scope.space? declared declaration.qualifier).isSome then declared
    else declared ++ [declaration]
  { element with
    tag := { element.tag with declarations := outer.foldl add element.tag.declarations } }

end MarkupPath
