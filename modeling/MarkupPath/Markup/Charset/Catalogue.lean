import MarkupPath.Markup.Charset.CodePage
import MarkupPath.Markup.Charset.EastAsian
import MarkupPath.Markup.Charset.Macintosh
import MarkupPath.Markup.Charset.Regional
import MarkupPath.Markup.Charset.Standard

/-!
# The catalogue of charsets

All charsets that a document can name.
-/

namespace MarkupPath.Markup.Charset

/-- The charset that all others start from. -/
def ascii : Charset where
  names := ["US-ASCII", "ASCII", "ISO646-US", "ISO-IR-6", "ANSI_X3.4-1968", "ANSI_X3.4-1986",
            "CP367", "IBM367", "US", "CSASCII"]

/-- The form of Unicode that is made of seven bits, as far as it agrees with ASCII. -/
def sevenBits : Charset where
  names := ["UTF-7", "UNICODE-1-1-UTF-7", "CSUNICODE11UTF7"]
  exceptions := [(0x2B, absent), (0x5C, absent), (0x7E, absent)]

/-- All charsets. -/
def all : List Charset :=
  .ascii :: .sevenBits :: (standards ++ codePages ++ regionals ++ macintoshes ++ eastAsian)

/-- The charset of the given name. -/
def ofName? (name : String) : Option Charset :=
  let name := name.map Char.toUpper
  all.find? fun charset => charset.names.contains name

end MarkupPath.Markup.Charset
