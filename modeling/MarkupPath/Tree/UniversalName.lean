import MarkupPath.Tree.Content
import MarkupPath.Tree.Refusal

/-!
# Universal names

The universal form `{namespace}local` of a name needs no declaration. Attributes are looked up and
set by such names, or by names with a qualifier, which is resolved in the scope of declarations
where the attribute's element stands. Either way the name stands for a `UniversalName`.

A universal name is taken apart at the first closing brace. A namespace that holds one itself thus
loses a part to the local name. No element can have the name that this makes, which is why such an
element doesn't tell its name.
-/

namespace MarkupPath

/-- A name without a qualifier, as it's compared: by namespace and local part. -/
structure UniversalName where
  /-- the namespace -/
  space : Option String
  /-- the local part -/
  localPart : String
deriving DecidableEq, Repr

namespace UniversalName

/-- Takes the universal form of a name apart, given what follows the opening brace. An empty
namespace is none. -/
def ofBraced (rest : List Char) : UniversalName :=
  let space := rest.takeWhile (· != '}')
  ⟨if space.isEmpty then none else some (String.ofList space),
    String.ofList ((rest.dropWhile (· != '}')).drop 1)⟩

/-- Reads a name that is given in universal form, or is in no namespace. The local part isn't
checked for being a name. -/
def read (name : String) : Except Refusal UniversalName :=
  if !isCompatible name then .error .incompatible
  else
    match name.toList with
    | [] => .error .emptyName
    | '{' :: rest =>
      if !rest.contains '}' then .error .unclosedBrace
      else if (ofBraced rest).localPart.isEmpty then .error .emptyName
      else .ok (ofBraced rest)
    | _ => .ok ⟨none, name⟩

/-- The universal name that a namespace and a local part make. -/
def join (space localPart : String) : UniversalName :=
  ofBraced (space.toList ++ '}' :: localPart.toList)

/-- A local part in a namespace, which must be compatible and not empty. -/
def within (space localPart : String) : Except Refusal UniversalName :=
  if !isCompatible localPart then .error .incompatible
  else if (join space localPart).localPart.isEmpty then .error .emptyName
  else .ok (join space localPart)

/-- The name of an element whose local part and namespace are known, unless no element can have
it. -/
def element (space : Option String) (localPart : String) : Except Refusal UniversalName :=
  let name : UniversalName :=
    match space with
    | none => ⟨none, localPart⟩
    | some space => join space localPart
  if Markup.isPlainName name.localPart.toList then .ok name
  else .error (.tagName name.localPart)

/-- Reads the name of an attribute as it's written in the given scope. The answer is none if its
qualifier isn't declared. A name that starts with a colon has no qualifier. -/
def ofAttribute? (scope : Scope) (name : String) : Except Refusal (Option UniversalName) :=
  match splitQualifier name.toList with
  | none | some ([], _) => (read name).map some
  | some (qualifier, localPart) =>
    let qualifier := String.ofList qualifier
    let space := if qualifier = "xml" then some xmlSpace else scope.space? (some qualifier)
    match space with
    | none => .ok none
    | some space => (within space (String.ofList localPart)).map some

end UniversalName

/-- Why an element with the given name doesn't tell it, if it doesn't: because it's none that an
element can have. Markup with such names is read nonetheless. -/
def Name.refusal? (name : Name) : Option Refusal :=
  match UniversalName.element name.space name.localPart with
  | .ok _ => none
  | .error refusal => some refusal

/-- Whether an attribute has the given name. -/
def Attribute.hasName (attr : Attribute) (name : UniversalName) : Bool :=
  attr.name.space == name.space && attr.name.localPart == name.localPart

/-- The value of the attribute with the given name. -/
def Tag.value? (tag : Tag) (name : UniversalName) : Option String :=
  (tag.attributes.find? (·.hasName name)).map (·.value)

/-- Gives the attribute of the given name a value, adding the attribute behind the others if there's
none. -/
def Tag.setValue (tag : Tag) (name : UniversalName) (qualifier : Option String) (value : String) :
    Tag :=
  let new : Attribute := ⟨⟨qualifier, name.localPart, name.space⟩, value⟩
  if tag.attributes.any (·.hasName name) then
    { tag with
      attributes := tag.attributes.map fun attr => if attr.hasName name then new else attr }
  else { tag with attributes := tag.attributes ++ [new] }

end MarkupPath
