/-!
# Names in namespaces

Names of elements and attributes consist of a local part and an optional qualifier, a short word
that stands for a namespace by way of a declaration. Names are the same when their local parts
and namespaces are, the qualifier is only what is written.
-/

namespace MarkupPath

/-- The namespace that the qualifier `xml` always stands for. -/
def xmlSpace : String := "http://www.w3.org/XML/1998/namespace"

/-- The namespace of declarations. It's bound to no qualifier. -/
def declarationSpace : String := "http://www.w3.org/" ++ "2000/xmlns/"

/-- The name of an element or an attribute. -/
structure Name where
  /-- the word that is written in front of a colon -/
  qualifier : Option String := none
  /-- what is written behind the colon -/
  localPart : String
  /-- the namespace -/
  space : Option String := none
deriving DecidableEq, Repr

/-- A name as it's written. -/
def Name.written (name : Name) : String :=
  match name.qualifier with
  | some qualifier => qualifier ++ ":" ++ name.localPart
  | none => name.localPart

/-- A declaration of what a qualifier stands for, or of the namespace of names without one. -/
structure Declaration where
  /-- the qualifier, absent for the default namespace -/
  qualifier : Option String
  /-- the namespace -/
  space : String
deriving DecidableEq, Repr

/-- The declarations that are in effect at some place, the nearest ones first. -/
abbrev Scope := List Declaration

namespace Scope

/-- The namespace that a qualifier stands for. -/
def space? (scope : Scope) (qualifier : Option String) : Option String :=
  (scope.find? (·.qualifier = qualifier)).map (·.space)

/-- A declaration of the given namespace that isn't hidden by a nearer one. Attributes without a
qualifier are in no namespace, so for them default declarations are of no use. -/
def declaring? (scope : Scope) (space : String) (forAttribute : Bool) : Option Declaration :=
  scope.find? fun declaration =>
    declaration.space == space && !(forAttribute && declaration.qualifier.isNone)
      && scope.space? declaration.qualifier == some space

end Scope

/-- Splits a written name at its last colon. Without a colon there's no qualifier. -/
def splitQualifier (name : List Char) : Option (List Char × List Char) :=
  if name.contains ':' then
    let localPart := (name.reverse.takeWhile (· != ':')).reverse
    some (name.take (name.length - localPart.length - 1), localPart)
  else none

end MarkupPath
