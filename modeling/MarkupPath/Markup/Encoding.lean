import MarkupPath.Markup.Charset.Catalogue
import MarkupPath.Markup.Heading

/-!
# Bytes and characters

Documents are read from bytes. A byte order mark says how they encode characters. Else the zeros
among the first bytes tell how wide characters are, else the declaration at the start of the
document names the encoding, and without one it's UTF-8.
-/

namespace MarkupPath.Markup

/-- A way to write characters as bytes. -/
inductive Encoding where
  /-- one to four bytes for a character -/
  | utf8
  /-- units of two bytes, the more significant one first or last -/
  | utf16 (bigEndian : Bool)
  /-- four bytes for a character, the most significant one first or last -/
  | utf32 (bigEndian : Bool)
  /-- a byte for a character -/
  | charset (table : Charset)
deriving DecidableEq, Repr

namespace Encoding

/-- The encoding that a declaration names. Wide characters can't be declared, as the declaration
couldn't have been read. -/
def ofName? (name : String) : Option Encoding :=
  if ["UTF-8", "UTF8"].contains (name.map Char.toUpper) then some .utf8
  else (Charset.ofName? name).map .charset

/-- The units that pairs of bytes make up. -/
def units (bigEndian : Bool) : List UInt8 → Option (List Nat)
  | [] => some []
  | [_] => none
  | a :: b :: rest =>
    (units bigEndian rest).map
      ((if bigEndian then a.toNat * 256 + b.toNat else b.toNat * 256 + a.toNat) :: ·)

/-- The characters that units of UTF-16 stand for, two of them for a character beyond the basic
plane. -/
def ofUnits : List Nat → Option (List Char)
  | [] => some []
  | unit :: rest =>
    if 0xD800 ≤ unit ∧ unit < 0xDC00 then
      match rest with
      | [] => none
      | low :: rest =>
        if 0xDC00 ≤ low ∧ low < 0xE000 then
          (ofUnits rest).map
            (Char.ofNat (0x10000 + (unit - 0xD800) * 0x400 + (low - 0xDC00)) :: ·)
        else none
    else if 0xDC00 ≤ unit ∧ unit < 0xE000 then none
    else (ofUnits rest).map (Char.ofNat unit :: ·)

/-- The characters that groups of four bytes stand for. -/
def ofQuadruples (bigEndian : Bool) : List UInt8 → Option (List Char)
  | [] => some []
  | a :: b :: c :: d :: rest =>
    let digits := if bigEndian then [a, b, c, d] else [d, c, b, a]
    let n := digits.foldl (fun n digit => n * 256 + digit.toNat) 0
    if n.isValidChar then (ofQuadruples bigEndian rest).map (Char.ofNat n :: ·) else none
  | _ => none

/-- The characters that bytes stand for. -/
def decode (encoding : Encoding) (bytes : List UInt8) : Option (List Char) :=
  match encoding with
  | .utf8 => (String.fromUTF8? ⟨bytes.toArray⟩).map (·.toList)
  | .utf16 bigEndian => (units bigEndian bytes).bind ofUnits
  | .utf32 bigEndian => ofQuadruples bigEndian bytes
  | .charset table => table.decode bytes

/-- The encoding that the first bytes give away, and what follows a byte order mark. -/
def detect? (bytes : List UInt8) : Option (Encoding × List UInt8) :=
  match bytes with
  | 0xFF :: 0xFE :: 0x00 :: 0x00 :: rest => some (.utf32 false, rest)
  | 0x00 :: 0x00 :: 0xFE :: 0xFF :: rest => some (.utf32 true, rest)
  | 0x3C :: 0x00 :: 0x00 :: 0x00 :: _ => some (.utf32 false, bytes)
  | 0x00 :: 0x00 :: 0x00 :: 0x3C :: _ => some (.utf32 true, bytes)
  | 0xEF :: 0xBB :: 0xBF :: rest => some (.utf8, rest)
  | 0xFF :: 0xFE :: rest => some (.utf16 false, rest)
  | 0xFE :: 0xFF :: rest => some (.utf16 true, rest)
  | 0x3C :: 0x00 :: 0x3F :: 0x00 :: _ => some (.utf16 false, bytes)
  | 0x00 :: 0x3C :: 0x00 :: 0x3F :: _ => some (.utf16 true, bytes)
  | _ => none

/-- The encoding that the declaration at the start of the bytes names, UTF-8 without one. -/
def declared? (bytes : List UInt8) : Option Encoding :=
  match readHeading (bytes.map fun byte => Char.ofNat byte.toNat) with
  | some (some name, _) => ofName? name
  | _ => some .utf8

end Encoding

/-- The characters of a document that is given as bytes. -/
def decodeDocument (bytes : List UInt8) : Option (List Char) :=
  match Encoding.detect? bytes with
  | some (encoding, rest) => encoding.decode rest
  | none => (Encoding.declared? bytes).bind (·.decode bytes)

end MarkupPath.Markup
