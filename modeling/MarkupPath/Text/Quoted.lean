import MarkupPath.Text.Printable

/-!
# Quoted literals

How a text is shown in messages and descriptions: between quotes, on one line, with an escape for
everything that can't be seen.

The single quote is used unless the text holds a single quote and no double quote. A backslash
and the quote in use are escaped by a backslash, tab, line feed and carriage return have their
letter, any other unprintable character is written by its number in lower-case hexadecimal digits
behind `\x`, `\u` or `\U`, whichever is the shortest that fits.
-/

namespace MarkupPath.Quoted

/-- The quote that encloses a text. -/
def mark (text : List Char) : Char :=
  if text.contains '\'' && !text.contains '"' then '"' else '\''

/-- A number in lower-case hexadecimal digits, with leading zeros up to the given width. -/
def hexadecimal (width n : Nat) : List Char :=
  let digits := Nat.toDigits 16 n
  List.replicate (width - digits.length) '0' ++ digits

/-- The written form of one character between the given quotes. -/
def escape (quote c : Char) : List Char :=
  if c == quote || c == '\\' then ['\\', c]
  else if c == '\t' then ['\\', 't']
  else if c == '\n' then ['\\', 'n']
  else if c == '\r' then ['\\', 'r']
  else if isPrintable c then [c]
  else if c.toNat < 0x100 then '\\' :: 'x' :: hexadecimal 2 c.toNat
  else if c.toNat < 0x10000 then '\\' :: 'u' :: hexadecimal 4 c.toNat
  else '\\' :: 'U' :: hexadecimal 8 c.toNat

end Quoted

/-- The quoted literal of a text. -/
def quoted (text : String) : String :=
  let quote := Quoted.mark text.toList
  String.ofList (quote :: text.toList.flatMap (Quoted.escape quote) ++ [quote])

end MarkupPath
