import MarkupPath.Markup.Token

/-!
# The declaration at the start of a document

A document may start with a declaration of the XML version, of the encoding of its bytes and of
whether it stands alone. Only the encoding is of use; all else is checked and disregarded.
-/

namespace MarkupPath.Markup

/-- Reads one entry of the declaration, given its name. White space precedes it. -/
def readEntry (name : String) (cs : List Char) : Option (List Char × List Char) :=
  let start := cs.dropWhile isSpace
  if cs.head?.any isSpace && name.toList.isPrefixOf start then
    readAssigned (start.drop name.length)
  else none

/-- A version number: a digit, a point and further digits. Versions other than `1.0` are read like
that one. -/
def isVersion : List Char → Bool
  | '1' :: '.' :: digits => digits.all fun c => '0' ≤ c && c ≤ '9'
  | _ => false

/-- Whether a text can name an encoding. -/
def isEncodingName : List Char → Bool
  | [] => false
  | c :: rest =>
    c.isAlpha && rest.all fun c => c.isAlphanum || c == '.' || c == '_' || c == '-'

/-- Reads the end of the declaration. -/
def readHeadingEnd (cs : List Char) : Option (List Char) :=
  match cs.dropWhile isSpace with
  | '?' :: '>' :: rest => some rest
  | _ => none

/-- Reads whether the document stands alone, if that is declared, and the end of the
declaration. -/
def readStandalone (cs : List Char) : Option (List Char) :=
  match readEntry "standalone" cs with
  | some (value, rest) =>
    if value = ['y', 'e', 's'] ∨ value = ['n', 'o'] then readHeadingEnd rest else none
  | none => readHeadingEnd cs

/-- Reads the declaration at the start of a document, if there's one: the encoding that it names
and what follows it. -/
def readHeading (cs : List Char) : Option (Option String × List Char) :=
  match cs with
  | '<' :: '?' :: 'x' :: 'm' :: 'l' :: c :: rest =>
    if isSpace c then
      match readEntry "version" (c :: rest) with
      | none => none
      | some (version, rest) =>
        if isVersion version then
          match readEntry "encoding" rest with
          | some (name, rest) =>
            if isEncodingName name then
              (readStandalone rest).map (some (String.ofList name), ·)
            else none
          | none => (readStandalone rest).map (none, ·)
        else none
    else some (none, cs)
  | _ => some (none, cs)

/-- Whether a text starts with a declaration that names an encoding. That makes no sense in a text
that isn't made of bytes. Only the outline of a declaration is looked at. -/
def declaresEncoding (text : String) : Bool :=
  match text.toList with
  | '<' :: '?' :: 'x' :: 'm' :: 'l' :: c :: rest =>
    if c == '>' then false
    else
      let heading := rest.takeWhile (· != '>')
      match breakOnEncoding heading with
      | some value => (readQuoted value).isSome
      | none => false
  | _ => false
where
  /-- What follows the equals sign behind the word `encoding`, which white space precedes. -/
  breakOnEncoding : List Char → Option (List Char)
    | [] => none
    | c :: rest =>
      let behind :=
        if isSpace c && "encoding".toList.isPrefixOf rest then
          match (rest.drop 8).dropWhile isSpace with
          | '=' :: value => some (value.dropWhile isSpace)
          | _ => none
        else none
      behind.or (breakOnEncoding rest)

end MarkupPath.Markup
