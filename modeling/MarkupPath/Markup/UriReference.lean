import MarkupPath.Markup.Character

/-!
# URI references

A namespace is named by a URI reference. What it refers to is of no concern, but its form is: an
optional scheme, an optional authority, a path, and optionally a query and a fragment. Each of these
parts admits certain ASCII characters, and any byte in the form `%41`.

The parts are read from front to back. Every reader gives what follows its part; the whole is a
reference when nothing follows the last one.
-/

namespace MarkupPath.Markup.UriReference

/-! ## Characters -/

/-- The characters that mean nothing but themselves. -/
def isUnreserved (c : Char) : Bool :=
  c.isAlphanum || c == '-' || c == '.' || c == '_' || c == '~'

/-- The characters that may divide a part further. -/
def isDivider (c : Char) : Bool :=
  ['!', '$', '&', '\'', '(', ')', '*', '+', ',', ';', '='].contains c

/-- The characters of a host's name. -/
def isOfHost (c : Char) : Bool := isUnreserved c || isDivider c

/-- The characters between two slashes of a path. -/
def isOfSegment (c : Char) : Bool := isOfHost c || c == ':' || c == '@'

/-- The characters of a path. -/
def isOfPath (c : Char) : Bool := isOfSegment c || c == '/'

/-- The characters of a query. -/
def isOfQuery (c : Char) : Bool := isOfPath c || c == '?'

/-- The characters of a fragment. -/
def isOfFragment (c : Char) : Bool := isOfQuery c || c == '[' || c == ']'

/-- A hexadecimal digit. -/
def isHexDigit (c : Char) : Bool :=
  c.isDigit || ('a' ≤ c && c ≤ 'f') || ('A' ≤ c && c ≤ 'F')

/-- What follows the characters of a class and the percent-encoded bytes at the start. -/
def skip (isOfPart : Char → Bool) : List Char → List Char
  | [] => []
  | '%' :: rest =>
    match rest with
    | a :: b :: rest =>
      if isHexDigit a && isHexDigit b then skip isOfPart rest else '%' :: a :: b :: rest
    | rest => '%' :: rest
  | c :: rest => if isOfPart c then skip isOfPart rest else c :: rest

/-! ## Parts -/

/-- What follows a scheme and its colon. -/
def skipScheme : List Char → Option (List Char)
  | [] => none
  | c :: rest =>
    if c.isAlpha then
      match rest.dropWhile fun c => c.isAlphanum || c == '+' || c == '-' || c == '.' with
      | ':' :: rest => some rest
      | _ => none
    else none

/-- What follows a host: a name, or an address in brackets. -/
def skipHost : List Char → Option (List Char)
  | '[' :: rest =>
    match rest.dropWhile (· != ']') with
    | [] => none
    | _ :: rest => some rest
  | cs => some (skip isOfHost cs)

/-- What follows the number of a service, if a colon announces one. -/
def skipService : List Char → Option (List Char)
  | ':' :: rest => if rest.head?.any Char.isDigit then some (rest.dropWhile Char.isDigit) else none
  | cs => some cs

/-- What follows an authority, which consists of a user, a host and the number of a service. Only
the host has to be there. -/
def skipAuthority (cs : List Char) : Option (List Char) :=
  let host :=
    match skip (fun c => isOfHost c || c == ':') cs with
    | '@' :: rest => rest
    | _ => cs
  (skipHost host).bind skipService

/-- What follows a path that starts with a slash, if there's one. -/
def skipRooted : List Char → List Char
  | '/' :: rest => skip isOfPath rest
  | cs => cs

/-- What follows an authority and a path, both of which may be missing. -/
def skipHierarchy : List Char → Option (List Char)
  | '/' :: '/' :: rest => (skipAuthority rest).map skipRooted
  | cs => some (skip isOfPath cs)

/-- Whether the rest of a reference is a query and a fragment, both of which may be missing. -/
def isEnd (cs : List Char) : Bool :=
  let fragment :=
    match cs with
    | '?' :: rest => skip isOfQuery rest
    | cs => cs
  match fragment with
  | '#' :: rest => (skip isOfFragment rest).isEmpty
  | rest => rest.isEmpty

/-- Whether the first segment of a path has a colon. Without a scheme it would be taken for one. -/
def startsAmbiguously (cs : List Char) : Bool :=
  (skip (fun c => isOfSegment c && c != ':') cs).head? == some ':'

/-- Whether a text is a URI reference with a scheme. -/
def isAbsolute (cs : List Char) : Bool :=
  ((skipScheme cs).bind skipHierarchy).any isEnd

/-- Whether a text is a URI reference. -/
def isValid (cs : List Char) : Bool :=
  isAbsolute cs || (!startsAmbiguously cs && (skipHierarchy cs).any isEnd)

end MarkupPath.Markup.UriReference
