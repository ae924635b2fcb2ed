import MarkupPath.Error
import MarkupPath.Markup.UriReference
import MarkupPath.Tree.Forest
import MarkupPath.Tree.UniversalName

/-!
# New elements and what they hold

Elements are created as roots of trees of their own; their names are understood in the scope of the
element below which they shall be put. Attributes and texts are given to elements wherever these
are.

What can't be written is refused, and the forest stays as it is. The exception is a text: the
one that was there is gone before the new one is looked at.
-/

namespace MarkupPath

/-- Checks whether an element with the given local part can be created in a namespace, and the
namespace declared for the qualifier. A namespace that is given in universal form counts without
its local part until the name is checked. -/
def checkName (qualifier : Option String) (space localPart : String) : Except Refusal Unit := do
  let spaceName ← UniversalName.read space
  if !isCompatible localPart then throw .incompatible
  let name ← UniversalName.element none localPart
  let _ ← UniversalName.element (spaceName.space.getD spaceName.localPart) name.localPart
  if !Markup.UriReference.isValid space.toList then throw (.spaceName space)
  match qualifier with
  | none => return ()
  | some qualifier =>
    if Markup.isPlainName qualifier.toList then return () else throw (.qualifierName qualifier)

/-- The tag of a new element, without an identity yet, given the declarations in effect where its
name shall be understood, and how many qualifiers were minted for it. -/
def newTag (scope : Scope) (name : String) : Except CreationFailure (Tag × Nat) :=
  let (qualifier, localPart) := (splitQualifier name.toList).getD ([], name.toList)
  let qualifier := if qualifier.isEmpty then none else some (String.ofList qualifier)
  let localPart := String.ofList localPart
  match qualifier, scope.space? qualifier with
  | some _, none => .error (.undeclaredTag name)
  | qualifier, some space =>
    match checkName qualifier space localPart with
    | .error refusal => .error (.tag name refusal)
    | .ok () =>
      .ok ({ id := ⟨0⟩
             name := ⟨qualifier, localPart, some space⟩
             declarations := [⟨qualifier, space⟩] }, 0)
  | none, none =>
    match UniversalName.read localPart with
    | .error refusal => .error (.tag name refusal)
    | .ok key =>
      match UniversalName.element none key.localPart with
      | .error refusal => .error (.tag name refusal)
      | .ok _ =>
        match key.space with
        | none => .ok ({ id := ⟨0⟩, name := ⟨none, key.localPart, none⟩ }, 0)
        | some space =>
          if !Markup.UriReference.isValid space.toList then
            .error (.tag name (.spaceName space))
          else
            let binding := Scope.bind [] space none false 0
            .ok ({ id := ⟨0⟩
                   name := ⟨binding.declaration.qualifier, key.localPart, some space⟩
                   declarations := if binding.isNew then [binding.declaration] else [] },
              binding.minted)

namespace Forest

/-- Creates an element as the root of a tree of its own. Its name is understood like that of a child
of `context`. -/
def create (forest : Forest) (context : NodeId) (name : String) :
    Except CreationFailure (NodeId × Forest) :=
  match newTag (forest.scope context) name with
  | .error failure => .error failure
  | .ok (tag, minted) =>
    .ok (⟨forest.next⟩, forest.addTree (.element tag .nil none .nil) minted)

/-! ## Attributes and texts -/

/-- Gives an attribute of an element a value. -/
def setAttribute (forest : Forest) (node : NodeId) (name value : String) :
    Except CreationFailure Forest :=
  let scope := forest.scope node
  match UniversalName.ofAttribute? scope name with
  | .error refusal => .error (.attr refusal)
  | .ok none => .error (.undeclaredAttribute name)
  | .ok (some key) =>
    if !Markup.isPlainName key.localPart.toList then
      .error (.attr (.attributeName key.localPart))
    else if !isCompatible value then .error (.attr .incompatible)
    else
      match key.space with
      | none => .ok (forest.mapContent (Content.mapTag node (·.setValue key none value)))
      | some space =>
        let binding := scope.bind space none true (forest.minted node)
        let change (tag : Tag) : Tag :=
          let tag := tag.setValue key binding.declaration.qualifier value
          if binding.isNew then
            { tag with declarations := tag.declarations ++ [binding.declaration] }
          else tag
        .ok ((forest.mapContent (Content.mapTag node change)).setMinted node binding.minted)

/-- Replaces the text in front of the first child of an element. The text that was there is gone
even if the new one is refused, so the forest is given in both cases. -/
def setText (forest : Forest) (node : NodeId) (text : String) :
    Except CreationFailure Unit × Forest :=
  let change (new : Option String) : Forest :=
    forest.mapContent (Content.mapTag node fun tag => { tag with text := new })
  if isCompatible text then (.ok (), change (some text))
  else (.error (.text text .incompatible), change none)

end Forest
end MarkupPath
