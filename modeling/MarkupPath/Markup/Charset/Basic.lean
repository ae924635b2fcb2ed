/-!
# Charsets

A charset assigns a character to a byte. It's ASCII as far as the bytes below 0x80 are concerned,
with few exceptions, and has its own table for the others. Some bytes stand for no character.

Charsets are known by many names, which are compared without regard to case.
-/

namespace MarkupPath.Markup

/-- An assignment of characters to bytes. -/
structure Charset where
  /-- the names by which it's known, in upper case -/
  names : List String
  /-- the characters of the bytes from 0x80 on; bytes behind the last one have none -/
  high : String := ""
  /-- the bytes below 0x80 with other characters than in ASCII -/
  exceptions : List (Nat × Char) := []
deriving DecidableEq, Repr

namespace Charset

/-- Marks the bytes in a table that stand for no character. -/
def absent : Char := '∅'

/-- A charset with control characters from 0x80 on and the given characters from 0xA0 on. -/
def standard (names : List String) (high : String) : Charset :=
  { names, high := String.ofList ((List.range 0x20).map fun n => Char.ofNat (0x80 + n)) ++ high }

/-- The character of a byte below 0x80. -/
def low (charset : Charset) (n : Nat) : Char :=
  (charset.exceptions.lookup n).getD (Char.ofNat n)

/-- The characters of all bytes. -/
def table (charset : Charset) : Array Char :=
  (((List.range 0x80).map charset.low) ++ charset.high.toList).toArray

/-- The characters that bytes stand for, unless one of them stands for none. -/
def decode (charset : Charset) (bytes : List UInt8) : Option (List Char) :=
  let table := charset.table
  bytes.mapM fun byte => (table[byte.toNat]?).filter (· != absent)

end Charset
end MarkupPath.Markup
