import MarkupPath.Markup.Charset.Basic

/-!
# Charsets of East Asia

Most of these charsets use one byte for some characters and several for all others. Only the former
are known here, so text is read if it's made of these: ASCII, and the half-width forms of the
Japanese syllables where they have bytes of their own.
-/

namespace MarkupPath.Markup.Charset

/-- The half-width Japanese syllables, that start at 0xA1. -/
def halfWidthSyllables : String :=
  String.ofList (List.replicate 0x21 absent ++ (List.range 63).map fun n => Char.ofNat (0xFF61 + n))

/-- What ASCII is replaced by in Japan: the sign of the yen and an overline. -/
def japaneseExceptions : List (Nat × Char) := [(0x5C, '¥'), (0x7E, '‾')]

/-- ASCII in Japan. -/
def japaneseLatin : Charset where
  names := ["ISO646-JP", "JIS_C6220-1969-RO", "ISO-IR-14", "JP", "CSISO14JISC6220RO"]
  exceptions := japaneseExceptions

/-- ASCII in Japan and the half-width syllables. -/
def japaneseBytes : Charset where
  names := ["JIS_X0201", "JISX0201-1976", "X0201", "CSHALFWIDTHKATAKANA"]
  high := halfWidthSyllables
  exceptions := japaneseExceptions

/-- The same, among characters of two bytes. -/
def shiftedJapanese : Charset where
  names := ["SHIFT_JIS", "SHIFT-JIS", "SJIS", "MS_KANJI", "CSSHIFTJIS"]
  high := halfWidthSyllables
  exceptions := japaneseExceptions

/-- The half-width syllables and ASCII without exceptions, among characters of two bytes. -/
def windowsJapanese : Charset where
  names := ["CP932"]
  high := halfWidthSyllables

/-- Further Japanese charsets. -/
def japanese : Charset where
  names := ["EUC-JP", "EUCJP", "EXTENDED_UNIX_CODE_PACKED_FORMAT_FOR_JAPANESE",
            "CSEUCPKDFMTJAPANESE", "ISO-2022-JP", "CSISO2022JP", "ISO-2022-JP-1", "ISO-2022-JP-2",
            "CSISO2022JP2", "ISO-2022-JP-MS", "CP50221"]

/-- ASCII in China. -/
def chineseLatin : Charset where
  names := ["ISO646-CN", "GB_1988-80", "ISO-IR-57", "CN", "CSISO57GB1988"]
  exceptions := [(0x24, '¥'), (0x7E, '‾')]

/-- Chinese charsets. -/
def chinese : Charset where
  names := ["EUC-CN", "EUCCN", "GB2312", "CN-GB", "CSGB2312", "GBK", "GB18030", "CSGB18030",
            "ISO-2022-CN", "CSISO2022CN", "ISO-2022-CN-EXT", "EUC-TW", "EUCTW", "CSEUCTW", "BIG5",
            "BIG-5", "BIG-FIVE", "BIGFIVE", "CN-BIG5", "CSBIG5", "CP950", "BIG5-HKSCS",
            "BIG5HKSCS"]

/-- Chinese with the sign of the euro in one byte. -/
def windowsChinese : Charset where
  names := ["CP936", "MS936", "WINDOWS-936"]
  high := "€"

/-- Chinese where a tilde switches to characters of two bytes. -/
def switchedChinese : Charset where
  names := ["HZ", "HZ-GB-2312"]
  exceptions := [(0x7E, absent)]

/-- Korean charsets. -/
def korean : Charset where
  names := ["EUC-KR", "EUCKR", "CSEUCKR", "CP949", "UHC", "ISO-2022-KR", "CSISO2022KR"]

/-- Korean with the sign of the won in place of the backslash. -/
def combinedKorean : Charset where
  names := ["JOHAB", "CP1361"]
  exceptions := [(0x5C, '₩')]

/-- The charsets of East Asia. -/
def eastAsian : List Charset :=
  [.japaneseLatin, .japaneseBytes, .shiftedJapanese, .windowsJapanese, .japanese, .chineseLatin,
    .chinese, .windowsChinese, .switchedChinese, .korean, .combinedKorean]

end MarkupPath.Markup.Charset
