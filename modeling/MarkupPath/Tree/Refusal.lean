import MarkupPath.Markup.Character
import MarkupPath.Text.Quoted

/-!
# Names and texts that a tree refuses

A tree holds only names and texts that can be written. `Refusal` says what is wrong with others.
-/

namespace MarkupPath

/-- Why a tree refuses a name, a value or a text. -/
inductive Refusal where
  /-- it holds a character that can't occur in markup -/
  | incompatible
  /-- a name is empty, or its local part behind a namespace is -/
  | emptyName
  /-- the brace in front of a namespace isn't closed -/
  | unclosedBrace
  /-- no element can have the name -/
  | tagName (name : String)
  /-- no attribute can have the name -/
  | attributeName (name : String)
  /-- no namespace can have the name -/
  | spaceName (space : String)
  /-- a namespace can't have the qualifier -/
  | qualifierName (qualifier : String)
deriving DecidableEq, Repr

/-- The wording of a refusal. -/
def Refusal.message : Refusal → String
  | .incompatible =>
    "All strings must be XML compatible: Unicode or ASCII, no NULL bytes or control characters"
  | .emptyName => "Empty tag name"
  | .unclosedBrace => "Invalid tag name"
  | .tagName name => "Invalid tag name " ++ quoted name
  | .attributeName name => "Invalid attribute name " ++ quoted name
  | .spaceName space => "Invalid namespace URI " ++ quoted space
  | .qualifierName qualifier => "Invalid namespace prefix " ++ quoted qualifier

/-- Whether all characters of a text can occur in markup. -/
def isCompatible (text : String) : Bool := text.toList.all Markup.isCharacter

end MarkupPath
