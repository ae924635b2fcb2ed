import MarkupPath.Markup.Charset.Basic

/-!
# Code pages

Charsets that are known by the number of their code page. Those for terminals have lines to draw
frames with.
-/

namespace MarkupPath.Markup.Charset

/-- Central European languages. -/
def centralEuropean : Charset where
  names := ["CP1250", "WINDOWS-1250", "MS-EE"]
  high :=
    "€∅‚∅„…†‡∅‰Š‹ŚŤŽŹ∅‘’“”•–—∅™š›śťžź"
    ++ "\u00a0ˇ˘Ł¤Ą¦§¨©Ş«¬\u00ad®Ż°±˛ł´µ¶·¸ąş»Ľ˝ľż"
    ++ "ŔÁÂĂÄĹĆÇČÉĘËĚÍÎĎĐŃŇÓÔŐÖ×ŘŮÚŰÜÝŢß"
    ++ "ŕáâăäĺćçčéęëěíîďđńňóôőö÷řůúűüýţ˙"

/-- Languages with the Cyrillic script. -/
def windowsCyrillic : Charset where
  names := ["CP1251", "WINDOWS-1251", "MS-CYRL"]
  high :=
    "ЂЃ‚ѓ„…†‡€‰Љ‹ЊЌЋЏђ‘’“”•–—∅™љ›њќћџ"
    ++ "\u00a0ЎўЈ¤Ґ¦§Ё©Є«¬\u00ad®Ї°±Ііґµ¶·ё№є»јЅѕї"
    ++ "АБВГДЕЖЗИЙКЛМНОПРСТУФХЦЧШЩЪЫЬЭЮЯ"
    ++ "абвгдежзийклмнопрстуфхцчшщъыьэюя"

/-- Western European languages. -/
def western : Charset where
  names := ["CP1252", "WINDOWS-1252", "MS-ANSI"]
  high :=
    "€∅‚ƒ„…†‡ˆ‰Š‹Œ∅Ž∅∅‘’“”•–—˜™š›œ∅žŸ"
    ++ "\u00a0¡¢£¤¥¦§¨©ª«¬\u00ad®¯°±²³´µ¶·¸¹º»¼½¾¿"
    ++ "ÀÁÂÃÄÅÆÇÈÉÊËÌÍÎÏÐÑÒÓÔÕÖ×ØÙÚÛÜÝÞß"
    ++ "àáâãäåæçèéêëìíîïðñòóôõö÷øùúûüýþÿ"

/-- Greek. -/
def windowsGreek : Charset where
  names := ["CP1253", "WINDOWS-1253", "MS-GREEK"]
  high :=
    "€∅‚ƒ„…†‡∅‰∅‹∅∅∅∅∅‘’“”•–—∅™∅›∅∅∅∅"
    ++ "\u00a0΅Ά£¤¥¦§¨©∅«¬\u00ad®―°±²³΄µ¶·ΈΉΊ»Ό½ΎΏ"
    ++ "ΐΑΒΓΔΕΖΗΘΙΚΛΜΝΞΟΠΡ∅ΣΤΥΦΧΨΩΪΫάέήί"
    ++ "ΰαβγδεζηθικλμνξοπρςστυφχψωϊϋόύώ"

/-- Turkish. -/
def windowsTurkish : Charset where
  names := ["CP1254", "WINDOWS-1254", "MS-TURK"]
  high :=
    "€∅‚ƒ„…†‡ˆ‰Š‹Œ∅∅∅∅‘’“”•–—˜™š›œ∅∅Ÿ"
    ++ "\u00a0¡¢£¤¥¦§¨©ª«¬\u00ad®¯°±²³´µ¶·¸¹º»¼½¾¿"
    ++ "ÀÁÂÃÄÅÆÇÈÉÊËÌÍÎÏĞÑÒÓÔÕÖ×ØÙÚÛÜİŞß"
    ++ "àáâãäåæçèéêëìíîïğñòóôõö÷øùúûüışÿ"

/-- Hebrew. -/
def windowsHebrew : Charset where
  names := ["CP1255", "WINDOWS-1255", "MS-HEBR"]
  high :=
    "€∅‚ƒ„…†‡ˆ‰∅‹∅∅∅∅∅‘’“”•–—˜™∅›∅∅∅∅"
    ++ "\u00a0¡¢£₪¥¦§¨©×«¬\u00ad®¯°±²³´µ¶·¸¹÷»¼½¾¿"
    ++ "\u05b0\u05b1\u05b2\u05b3\u05b4\u05b5\u05b6\u05b7\u05b8\u05b9∅\u05bb\u05bc\u05bd"
    ++ "\u05be\u05bf\u05c0\u05c1\u05c2\u05c3\u05f0\u05f1\u05f2\u05f3\u05f4∅∅∅∅∅∅∅\u05d0"
    ++ "\u05d1\u05d2\u05d3\u05d4\u05d5\u05d6\u05d7\u05d8\u05d9\u05da\u05db\u05dc\u05dd\u05de"
    ++ "\u05df\u05e0\u05e1\u05e2\u05e3\u05e4\u05e5\u05e6\u05e7\u05e8\u05e9\u05ea∅∅\u200e"
    ++ "\u200f"

/-- Arabic. -/
def windowsArabic : Charset where
  names := ["CP1256", "WINDOWS-1256", "MS-ARAB"]
  high :=
    "€\u067e‚ƒ„…†‡ˆ‰\u0679‹Œ\u0686\u0698\u0688\u06af‘’“”•–—\u06a9™\u0691›œ\u200c\u200d"
    ++ "\u06ba\u00a0،¢£¤¥¦§¨©\u06be«¬\u00ad®¯°±²³´µ¶·¸¹\u061b»¼½¾"
    ++ "\u061f\u06c1\u0621\u0622\u0623\u0624\u0625\u0626\u0627\u0628\u0629\u062a\u062b\u062c"
    ++ "\u062d\u062e\u062f\u0630\u0631\u0632\u0633\u0634\u0635\u0636×\u0637\u0638\u0639"
    ++ "\u063a\u0640\u0641\u0642\u0643à\u0644â\u0645\u0646\u0647\u0648çèéêë\u0649\u064aîï"
    ++ "\u064b\u064c\u064d\u064eô\u064f\u0650÷\u0651ù\u0652ûü\u200e\u200f\u06d2"

/-- Baltic languages. -/
def windowsBaltic : Charset where
  names := ["CP1257", "WINDOWS-1257", "WINBALTRIM"]
  high :=
    "€∅‚∅„…†‡∅‰∅‹∅¨ˇ¸∅‘’“”•–—∅™∅›∅¯˛∅"
    ++ "\u00a0∅¢£¤∅¦§Ø©Ŗ«¬\u00ad®Æ°±²³´µ¶·ø¹ŗ»¼½¾æ"
    ++ "ĄĮĀĆÄÅĘĒČÉŹĖĢĶĪĻŠŃŅÓŌÕÖ×ŲŁŚŪÜŻŽß"
    ++ "ąįāćäåęēčéźėģķīļšńņóōõö÷ųłśūüżž˙"

/-- Vietnamese. -/
def windowsVietnamese : Charset where
  names := ["CP1258", "WINDOWS-1258"]
  high :=
    "€∅‚ƒ„…†‡ˆ‰∅‹Œ∅∅∅∅‘’“”•–—˜™∅›œ∅∅Ÿ"
    ++ "\u00a0¡¢£¤¥¦§¨©ª«¬\u00ad®¯°±²³´µ¶·¸¹º»¼½¾¿"
    ++ "ÀÁÂĂÄÅÆÇÈÉÊË\u0300ÍÎÏĐÑ\u0309ÓÔƠÖ×ØÙÚÛÜƯ\u0303ß"
    ++ "àáâăäåæçèéêë\u0301íîïđñ\u0323óôơö÷øùúûüư₫ÿ"

/-- Thai. -/
def windowsThai : Charset where
  names := ["CP874", "WINDOWS-874"]
  high :=
    "€∅∅∅∅…∅∅∅∅∅∅∅∅∅∅∅‘’“”•–—∅∅∅∅∅∅∅∅"
    ++ "\u00a0กขฃคฅฆงจฉชซฌญฎฏฐฑฒณดตถทธนบปผฝพฟ"
    ++ "ภมยรฤลฦวศษสหฬอฮฯะ\u0e31าำ\u0e34\u0e35\u0e36\u0e37\u0e38\u0e39\u0e3a∅∅∅∅฿"
    ++ "เแโใไๅๆ\u0e47\u0e48\u0e49\u0e4a\u0e4b\u0e4c\u0e4d\u0e4e๏๐๑๒๓๔๕๖๗๘๙๚๛"

/-- Western European languages, for terminals. -/
def terminalWestern : Charset where
  names := ["CP850", "IBM850", "CSPC850MULTILINGUAL"]
  high :=
    "ÇüéâäàåçêëèïîìÄÅÉæÆôöòûùÿÖÜø£Ø×ƒ"
    ++ "áíóúñÑªº¿®¬½¼¡«»░▒▓│┤ÁÂÀ©╣║╗╝¢¥┐"
    ++ "└┴┬├─┼ãÃ╚╔╩╦╠═╬¤ðÐÊËÈıÍÎÏ┘┌█▄¦Ì▀"
    ++ "ÓßÔÒõÕµþÞÚÛÙýÝ¯´\u00ad±‗¾¶§÷¸°¨·¹³²■\u00a0"

/-- Hebrew, for terminals. -/
def terminalHebrew : Charset where
  names := ["CP862", "IBM862", "CSPC862LATINHEBREW"]
  high :=
    "\u05d0\u05d1\u05d2\u05d3\u05d4\u05d5\u05d6\u05d7\u05d8\u05d9\u05da\u05db\u05dc\u05dd"
    ++ "\u05de\u05df\u05e0\u05e1\u05e2\u05e3\u05e4\u05e5\u05e6\u05e7\u05e8\u05e9\u05ea¢£¥₧ƒá"
    ++ "íóúñÑªº¿⌐¬½¼¡«»░▒▓│┤╡╢╖╕╣║╗╝╜╛┐└"
    ++ "┴┬├─┼╞╟╚╔╩╦╠═╬╧╨╤╥╙╘╒╓╫╪┘┌█▄▌▐▀α"
    ++ "ßΓπΣσµτΦΘΩδ∞φε∩≡±≥≤⌠⌡÷≈°∙·√ⁿ²■\u00a0"

/-- Languages with the Cyrillic script, for terminals. -/
def terminalCyrillic : Charset where
  names := ["CP866", "IBM866", "CSIBM866"]
  high :=
    "АБВГДЕЖЗИЙКЛМНОПРСТУФХЦЧШЩЪЫЬЭЮЯ"
    ++ "абвгдежзийклмноп░▒▓│┤╡╢╖╕╣║╗╝╜╛┐"
    ++ "└┴┬├─┼╞╟╚╔╩╦╠═╬╧╨╤╥╙╘╒╓╫╪┘┌█▄▌▐▀"
    ++ "рстуфхцчшщъыьэюяЁёЄєЇїЎў°∙·√№¤■\u00a0"

/-- The code pages. -/
def codePages : List Charset :=
  [.centralEuropean, .windowsCyrillic, .western, .windowsGreek, .windowsTurkish, .windowsHebrew,
    .windowsArabic, .windowsBaltic, .windowsVietnamese, .windowsThai, .terminalWestern,
    .terminalHebrew, .terminalCyrillic]

end MarkupPath.Markup.Charset
