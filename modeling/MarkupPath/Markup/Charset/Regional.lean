import MarkupPath.Markup.Charset.Basic

/-!
# Charsets of regions

Charsets that are standards of a country, or were made by a vendor for a region.
-/

namespace MarkupPath.Markup.Charset

/-- Russian. -/
def russian : Charset where
  names := ["KOI8-R", "CSKOI8R"]
  high :=
    "─│┌┐└┘├┤┬┴┼▀▄█▌▐░▒▓⌠■∙√≈≤≥\u00a0⌡°²·÷"
    ++ "═║╒ё╓╔╕╖╗╘╙╚╛╜╝╞╟╠╡Ё╢╣╤╥╦╧╨╩╪╫╬©"
    ++ "юабцдефгхийклмнопярстужвьызшэщчъ"
    ++ "ЮАБЦДЕФГХИЙКЛМНОПЯРСТУЖВЬЫЗШЭЩЧЪ"

/-- Ukrainian. -/
def ukrainian : Charset where
  names := ["KOI8-U"]
  high :=
    "─│┌┐└┘├┤┬┴┼▀▄█▌▐░▒▓⌠■∙√≈≤≥\u00a0⌡°²·÷"
    ++ "═║╒ёє╔ії╗╘╙╚╛ґ╝╞╟╠╡ЁЄ╣ІЇ╦╧╨╩╪Ґ╬©"
    ++ "юабцдефгхийклмнопярстужвьызшэщчъ"
    ++ "ЮАБЦДЕФГХИЙКЛМНОПЯРСТУЖВЬЫЗШЭЩЧЪ"

/-- Russian, Ukrainian and Belarusian. -/
def russianUkrainian : Charset where
  names := ["KOI8-RU"]
  high :=
    "─│┌┐└┘├┤┬┴┼▀▄█▌▐░▒▓“■∙”—№™\u00a0»®«·¤"
    ++ "═║╒ёє╔ії╗╘╙╚╛ґў╞╟╠╡ЁЄ╣ІЇ╦╧╨╩╪ҐЎ©"
    ++ "юабцдефгхийклмнопярстужвьызшэщчъ"
    ++ "ЮАБЦДЕФГХИЙКЛМНОПЯРСТУЖВЬЫЗШЭЩЧЪ"

/-- Tajik. -/
def tajik : Charset where
  names := ["KOI8-T"]
  high :=
    "қғ‚Ғ„…†‡∅‰ҳ‹ҲҷҶ∅Қ‘’“”•–—∅™∅›∅∅∅∅"
    ++ "∅ӯӮё¤ӣ¦§∅∅∅«¬\u00ad®∅°±²Ё∅Ӣ¶·∅№∅»∅∅∅©"
    ++ "юабцдефгхийклмнопярстужвьызшэщчъ"
    ++ "ЮАБЦДЕФГХИЙКЛМНОПЯРСТУЖВЬЫЗШЭЩЧЪ"

/-- Kazakh. -/
def kazakh : Charset where
  names := ["RK1048", "STRK1048-2002", "KZ-1048", "CSKZ1048"]
  high :=
    "ЂЃ‚ѓ„…†‡€‰Љ‹ЊҚҺЏђ‘’“”•–—∅™љ›њқһџ"
    ++ "\u00a0ҰұӘ¤Ө¦§Ё©Ғ«¬\u00ad®Ү°±Ііөµ¶·ё№ғ»әҢңү"
    ++ "АБВГДЕЖЗИЙКЛМНОПРСТУФХЦЧШЩЪЫЬЭЮЯ"
    ++ "абвгдежзийклмнопрстуфхцчшщъыьэюя"

/-- Languages of Central Asia with the Cyrillic script. -/
def asianCyrillic : Charset where
  names := ["PT154", "PTCP154", "CP154", "CYRILLIC-ASIAN", "CSPTCP154"]
  high :=
    "ҖҒӮғ„…ҶҮҲүҠӢҢҚҺҸҗ‘’“”•–—ҳҷҡӣңқһҹ"
    ++ "\u00a0ЎўЈӨҘҰ§Ё©Ә«¬ӯ®Ҝ°ұІіҙө¶·ё№ә»јҪҫҝ"
    ++ "АБВГДЕЖЗИЙКЛМНОПРСТУФХЦЧШЩЪЫЬЭЮЯ"
    ++ "абвгдежзийклмнопрстуфхцчшщъыьэюя"

/-- Armenian. -/
def armenian : Charset where
  names := ["ARMSCII-8"]
  high :=
    "\u0080\u0081\u0082\u0083\u0084\u0085\u0086\u0087\u0088\u0089\u008a\u008b\u008c\u008d"
    ++ "\u008e\u008f\u0090\u0091\u0092\u0093\u0094\u0095\u0096\u0097\u0098\u0099\u009a\u009b"
    ++ "\u009c\u009d\u009e\u009f\u00a0∅և։)(»«—.՝,-֊…՜՛՞ԱաԲբԳգԴդԵե"
    ++ "ԶզԷէԸըԹթԺժԻիԼլԽխԾծԿկՀհՁձՂղՃճՄմՅյ"
    ++ "ՆնՇշՈոՉչՊպՋջՌռՍսՎվՏտՐրՑցՒւՓփՔքՕօ"
    ++ "Ֆֆ՚"

/-- Georgian, by the academy. -/
def georgianAcademy : Charset where
  names := ["GEORGIAN-ACADEMY"]
  high :=
    "\u0080\u0081‚ƒ„…†‡ˆ‰Š‹Œ\u008d\u008e\u008f\u0090‘’“”•–—˜™š›œ\u009d\u009eŸ"
    ++ "\u00a0¡¢£¤¥¦§¨©ª«¬\u00ad®¯°±²³´µ¶·¸¹º»¼½¾¿"
    ++ "აბგდევზთიკლმნოპჟრსტუფქღყშჩცძწჭხჯ"
    ++ "ჰჱჲჳჴჵჶçèéêëìíîïðñòóôõö÷øùúûüýþÿ"

/-- Georgian. -/
def georgianStandard : Charset where
  names := ["GEORGIAN-PS"]
  high :=
    "\u0080\u0081‚ƒ„…†‡ˆ‰Š‹Œ\u008d\u008e\u008f\u0090‘’“”•–—˜™š›œ\u009d\u009eŸ"
    ++ "\u00a0¡¢£¤¥¦§¨©ª«¬\u00ad®¯°±²³´µ¶·¸¹º»¼½¾¿"
    ++ "აბგდევზჱთიკლმნჲოპჟრსტჳუფქღყშჩცძწ"
    ++ "ჭხჴჯჰჵæçèéêëìíîïðñòóôõö÷øùúûüýþÿ"

/-- Thai. -/
def nationalThai : Charset where
  names := ["TIS-620", "TIS620", "TIS620-0", "TIS620.2529-1", "TIS620.2533-0", "TIS620.2533-1",
            "ISO-IR-166"]
  high :=
    "∅∅∅∅∅∅∅∅∅∅∅∅∅∅∅∅∅∅∅∅∅∅∅∅∅∅∅∅∅∅∅∅"
    ++ "∅กขฃคฅฆงจฉชซฌญฎฏฐฑฒณดตถทธนบปผฝพฟ"
    ++ "ภมยรฤลฦวศษสหฬอฮฯะ\u0e31าำ\u0e34\u0e35\u0e36\u0e37\u0e38\u0e39\u0e3a∅∅∅∅฿"
    ++ "เแโใไๅๆ\u0e47\u0e48\u0e49\u0e4a\u0e4b\u0e4c\u0e4d\u0e4e๏๐๑๒๓๔๕๖๗๘๙๚๛"

/-- Lao. -/
def lao : Charset where
  names := ["CP1133", "IBM-CP1133"]
  high :=
    "\u0080\u0081\u0082\u0083\u0084\u0085\u0086\u0087\u0088\u0089\u008a\u008b\u008c\u008d"
    ++ "\u008e\u008f\u0090\u0091\u0092\u0093\u0094\u0095\u0096\u0097\u0098\u0099\u009a\u009b"
    ++ "\u009c\u009d\u009e\u009f∅ກຂຄງຈສຊຍດຕຖທນບປຜຝພຟມຢຣລວຫອຮ"
    ++ "∅∅∅ຯະາຳ\u0eb4\u0eb5\u0eb6\u0eb7\u0eb8\u0eb9\u0ebc\u0eb1\u0ebbຽ∅∅∅ເແໂໃໄ\u0ec8\u0ec9"
    ++ "\u0eca\u0ecb\u0ecc\u0ecdໆ∅ໜໝ₭∅∅∅∅∅∅∅∅∅∅∅∅∅∅∅∅໐໑໒໓໔໕໖"
    ++ "໗໘໙∅∅¢¬¦\u00a0"

/-- Vietnamese. Some letters take the place of control characters. -/
def vietnamese : Charset where
  names := ["VISCII", "VISCII1.1-1", "CSVISCII"]
  high :=
    "ẠẮẰẶẤẦẨẬẼẸẾỀỂỄỆỐỒỔỖỘỢỚỜỞỊỎỌỈỦŨỤỲ"
    ++ "ÕắằặấầẩậẽẹếềểễệốồổỗỠƠộờởịỰỨỪỬơớƯ"
    ++ "ÀÁÂÃẢĂẳẵÈÉÊẺÌÍĨỳĐứÒÓÔạỷừửÙÚỹỵÝỡư"
    ++ "àáâãảăữẫèéêẻìíĩỉđựòóôõỏọụùúũủýợỮ"
  exceptions :=
    [(0x02, 'Ẳ'), (0x05, 'Ẵ'), (0x06, 'Ẫ'), (0x14, 'Ỷ'), (0x19, 'Ỹ'), (0x1E, 'Ỵ')]

/-- Vietnamese, by the national standard. -/
def vietnameseStandard : Charset where
  names := ["TCVN", "TCVN-5712", "TCVN5712-1"]
  high :=
    "ÀẢÃÁẠẶẬÈẺẼÉẸỆÌỈĨÍỊÒỎÕÓỌỘỜỞỠỚỢÙỦŨ"
    ++ "\u00a0ĂÂÊÔƠƯĐăâêôơưđẰ\u0300\u0309\u0303\u0301\u0323àảãáạẲằẳẵắẴ"
    ++ "ẮẦẨẪẤỀặầẩẫấậèỂẻẽéẹềểễếệìỉỄẾỒĩíịò"
    ++ "ỔỏõóọồổỗốộờởỡớợùỖủũúụừửữứựỳỷỹýỵỐ"
  exceptions :=
    [(0x01, 'Ú'), (0x02, 'Ụ'), (0x04, 'Ừ'), (0x05, 'Ử'), (0x06, 'Ữ'), (0x11, 'Ứ'), (0x12, 'Ự'),
     (0x13, 'Ỳ'), (0x14, 'Ỷ'), (0x15, 'Ỹ'), (0x16, 'Ý'), (0x17, 'Ỵ')]

/-- Western European languages, for printers. -/
def roman8 : Charset where
  names := ["HP-ROMAN8", "ROMAN8", "R8", "CSHPROMAN8"]
  high :=
    "\u0080\u0081\u0082\u0083\u0084\u0085\u0086\u0087\u0088\u0089\u008a\u008b\u008c\u008d"
    ++ "\u008e\u008f\u0090\u0091\u0092\u0093\u0094\u0095\u0096\u0097\u0098\u0099\u009a\u009b"
    ++ "\u009c\u009d\u009e\u009f\u00a0ÀÂÈÊËÎÏ´ˋˆ¨˜ÙÛ₤¯Ýý°ÇçÑñ¡¿¤£"
    ++ "¥§ƒ¢âêôûáéóúàèòùäëöüÅîØÆåíøæÄìÖÜ"
    ++ "ÉïßÔÁÃãÐðÍÌÓÒÕõŠšÚŸÿÞþ·µ¶¾—¼½ªº«"
    ++ "■»±"

/-- The charsets of regions. -/
def regionals : List Charset :=
  [.russian, .ukrainian, .russianUkrainian, .tajik, .kazakh, .asianCyrillic, .armenian,
    .georgianAcademy, .georgianStandard, .nationalThai, .lao, .vietnamese, .vietnameseStandard,
    .roman8]

end MarkupPath.Markup.Charset
