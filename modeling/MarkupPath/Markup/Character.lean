/-!
# The characters of markup

The character classes of XML 1.0 (fifth edition) and of its namespaces: what may occur in a
document at all, what is white space between its parts, and what names are made of.
-/

namespace MarkupPath.Markup

/-- The characters that a document may hold: everything but the controls other than tab, line feed
and carriage return, and the two noncharacters at the end of the basic plane. -/
def isCharacter (c : Char) : Bool :=
  let n := c.toNat
  n == 0x9 || n == 0xA || n == 0xD || (0x20 ≤ n && n ≤ 0xFFFD) || 0x10000 ≤ n

/-- The white space of XML. -/
def isSpace (c : Char) : Bool :=
  c == ' ' || c == '\t' || c == '\n' || c == '\r'

/-- Whether a code point lies in one of the given closed intervals. -/
def isWithin (intervals : List (Nat × Nat)) (point : Nat) : Bool :=
  intervals.any fun (first, last) => first ≤ point && point ≤ last

/-- The characters that a name may start with, apart from the colon. -/
def isNameStart (c : Char) : Bool :=
  isWithin
    [(0x41, 0x5A), (0x5F, 0x5F), (0x61, 0x7A), (0xC0, 0xD6), (0xD8, 0xF6), (0xF8, 0x2FF),
      (0x370, 0x37D), (0x37F, 0x1FFF), (0x200C, 0x200D), (0x2070, 0x218F), (0x2C00, 0x2FEF),
      (0x3001, 0xD7FF), (0xF900, 0xFDCF), (0xFDF0, 0xFFFD), (0x10000, 0xEFFFF)] c.toNat

/-- The characters that a name may hold, apart from the colon. -/
def isNameCharacter (c : Char) : Bool :=
  isNameStart c ||
    isWithin
      [(0x2D, 0x2E), (0x30, 0x39), (0xB7, 0xB7), (0x300, 0x36F), (0x203F, 0x2040)] c.toNat

/-- A name without a colon. -/
def isPlainName : List Char → Bool
  | [] => false
  | c :: rest => isNameStart c && rest.all isNameCharacter

end MarkupPath.Markup
