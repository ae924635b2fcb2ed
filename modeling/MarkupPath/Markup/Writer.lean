import MarkupPath.Tree.Content

/-!
# Writing markup

The markup of content: an element without content is a single tag, declarations precede the
attributes, values are put between double quotes. What would be read differently is escaped.
-/

namespace MarkupPath.Markup

/-- The written form of a character of a text. -/
def escapeText (c : Char) : String :=
  match c with
  | '&' => "&amp;"
  | '<' => "&lt;"
  | '>' => "&gt;"
  | '\r' => "&#13;"
  | c => String.singleton c

/-- The written form of a character of an attribute's value. -/
def escapeValue (c : Char) : String :=
  match c with
  | '"' => "&quot;"
  | '\n' => "&#10;"
  | '\t' => "&#9;"
  | c => escapeText c

/-- The markup of a text. -/
def writeText (text : String) : String :=
  String.join (text.toList.map escapeText)

/-- The markup of the text behind a child, if there's one. -/
def writeTail (tail : Option String) : String :=
  (tail.map writeText).getD ""

/-- The markup of an attribute, given its written name. -/
def writeAttribute (name value : String) : String :=
  " " ++ name ++ "=\"" ++ String.join (value.toList.map escapeValue) ++ "\""

/-- The markup of a declaration. -/
def writeDeclaration (declaration : Declaration) : String :=
  match declaration.qualifier with
  | none => writeAttribute "xmlns" declaration.space
  | some qualifier => writeAttribute ("xmlns:" ++ qualifier) declaration.space

/-- The name, the declarations and the attributes in a start tag. -/
def writeHead (tag : Tag) : String :=
  tag.name.written ++ String.join (tag.declarations.map writeDeclaration)
    ++ String.join (tag.attributes.map fun attr => writeAttribute attr.name.written attr.value)

/-- The markup of an element, given that of its children, if it has any. -/
def writeElement (tag : Tag) (children : Option String) : String :=
  match tag.text, children with
  | none, none => "<" ++ writeHead tag ++ "/>"
  | text, children =>
    "<" ++ writeHead tag ++ ">" ++ writeTail text ++ children.getD "" ++ "</" ++ tag.name.written
      ++ ">"

/-- The markup of a comment. -/
def writeComment (text : String) : String :=
  "<!--" ++ text ++ "-->"

/-- The markup of a processing instruction. -/
def writeInstruction (target : String) (data : Option String) : String :=
  "<?" ++ target ++ ((data.map (" " ++ ·)).getD "") ++ "?>"

/-- The markup of content, none if there's nothing. -/
def write? : Content → Option String
  | .nil => none
  | .element tag children tail rest =>
    some (writeElement tag (write? children) ++ writeTail tail ++ (write? rest).getD "")
  | .comment text tail rest =>
    some (writeComment text ++ writeTail tail ++ (write? rest).getD "")
  | .instruction target data tail rest =>
    some (writeInstruction target data ++ writeTail tail ++ (write? rest).getD "")

/-- The markup of content. -/
def write (content : Content) : String :=
  (write? content).getD ""

/-- The markup of an element, without its tail. -/
def writeOne (element : Element) : String :=
  writeElement element.tag (write? element.content)

end MarkupPath.Markup
