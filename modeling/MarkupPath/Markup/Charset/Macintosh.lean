import MarkupPath.Markup.Charset.Basic

/-!
# Charsets of the Macintosh

Nine charsets that differ in the second half. The logo among their characters has no counterpart.
-/

namespace MarkupPath.Markup.Charset

/-- Western European languages. -/
def macintosh : Charset where
  names := ["MACINTOSH", "MACROMAN", "MAC", "CSMACINTOSH"]
  high :=
    "ÄÅÇÉÑÖÜáàâäãåçéèêëíìîïñóòôöõúùûü"
    ++ "†°¢£§•¶ß®©™´¨≠ÆØ∞±≤≥¥µ∂∑∏π∫ªºΩæø"
    ++ "¿¡¬√ƒ≈∆«»…\u00a0ÀÃÕŒœ–—“”‘’÷◊ÿŸ⁄€‹›ﬁﬂ"
    ++ "‡·‚„‰ÂÊÁËÈÍÎÏÌÓÔ∅ÒÚÛÙıˆ˜¯˘˙˚¸˝˛ˇ"

/-- Central European languages. -/
def macCentralEuropean : Charset where
  names := ["MACCENTRALEUROPE"]
  high :=
    "ÄĀāÉĄÖÜáąČäčĆćéŹźĎíďĒēĖóėôöõúĚěü"
    ++ "†°Ę£§•¶ß®©™ę¨≠ģĮįĪ≤≥īĶ∂∑łĻļĽľĹĺŅ"
    ++ "ņŃ¬√ńŇ∆«»…\u00a0ňŐÕőŌ–—“”‘’÷◊ōŔŕŘ‹›řŖ"
    ++ "ŗŠ‚„šŚśÁŤťÍŽžŪÓÔūŮÚůŰűŲųÝýķŻŁżĢˇ"

/-- Icelandic. -/
def macIcelandic : Charset where
  names := ["MACICELAND"]
  high :=
    "ÄÅÇÉÑÖÜáàâäãåçéèêëíìîïñóòôöõúùûü"
    ++ "Ý°¢£§•¶ß®©™´¨≠ÆØ∞±≤≥¥µ∂∑∏π∫ªºΩæø"
    ++ "¿¡¬√ƒ≈∆«»…\u00a0ÀÃÕŒœ–—“”‘’÷◊ÿŸ⁄€ÐðÞþ"
    ++ "ý·‚„‰ÂÊÁËÈÍÎÏÌÓÔ∅ÒÚÛÙıˆ˜¯˘˙˚¸˝˛ˇ"

/-- Croatian. -/
def macCroatian : Charset where
  names := ["MACCROATIAN"]
  high :=
    "ÄÅÇÉÑÖÜáàâäãåçéèêëíìîïñóòôöõúùûü"
    ++ "†°¢£§•¶ß®Š™´¨≠ŽØ∞±≤≥∆µ∂∑∏š∫ªºΩžø"
    ++ "¿¡¬√ƒ≈Ć«Č…\u00a0ÀÃÕŒœĐ—“”‘’÷◊∅©⁄€‹›Æ»"
    ++ "–·‚„‰ÂćÁčÈÍÎÏÌÓÔđÒÚÛÙıˆ˜¯πË˚¸Êæˇ"

/-- Romanian. -/
def macRomanian : Charset where
  names := ["MACROMANIA"]
  high :=
    "ÄÅÇÉÑÖÜáàâäãåçéèêëíìîïñóòôöõúùûü"
    ++ "†°¢£§•¶ß®©™´¨≠ĂȘ∞±≤≥¥µ∂∑∏π∫ªºΩăș"
    ++ "¿¡¬√ƒ≈∆«»…\u00a0ÀÃÕŒœ–—“”‘’÷◊ÿŸ⁄€‹›Țț"
    ++ "‡·‚„‰ÂÊÁËÈÍÎÏÌÓÔ∅ÒÚÛÙıˆ˜¯˘˙˚¸˝˛ˇ"

/-- Languages with the Cyrillic script. -/
def macCyrillic : Charset where
  names := ["MACCYRILLIC"]
  high :=
    "АБВГДЕЖЗИЙКЛМНОПРСТУФХЦЧШЩЪЫЬЭЮЯ"
    ++ "†°Ґ£§•¶І®©™Ђђ≠Ѓѓ∞±≤≥іµґЈЄєЇїЉљЊњ"
    ++ "јЅ¬√ƒ≈∆«»…\u00a0ЋћЌќѕ–—“”‘’÷„ЎўЏџ№Ёёя"
    ++ "абвгдежзийклмнопрстуфхцчшщъыьэю€"

/-- Ukrainian. -/
def macUkrainian : Charset where
  names := ["MACUKRAINE"]
  high :=
    "АБВГДЕЖЗИЙКЛМНОПРСТУФХЦЧШЩЪЫЬЭЮЯ"
    ++ "†°Ґ£§•¶І®©™Ђђ≠Ѓѓ∞±≤≥іµґЈЄєЇїЉљЊњ"
    ++ "јЅ¬√ƒ≈∆«»…\u00a0ЋћЌќѕ–—“”‘’÷„ЎўЏџ№Ёёя"
    ++ "абвгдежзийклмнопрстуфхцчшщъыьэю¤"

/-- Greek. -/
def macGreek : Charset where
  names := ["MACGREEK"]
  high :=
    "Ä¹²É³ÖÜ΅àâä΄¨çéèêë£™îï•½‰ôö¦€ùûü"
    ++ "†ΓΔΘΛΞΠß®©ΣΪ§≠°·Α±≤≥¥ΒΕΖΗΙΚΜΦΫΨΩ"
    ++ "άΝ¬ΟΡ≈Τ«»…\u00a0ΥΧΆΈœ–―“”‘’÷ΉΊΌΎέήίόΏ"
    ++ "ύαβψδεφγηιξκλμνοπώρστθωςχυζϊϋΐΰ\u00ad"

/-- Turkish. -/
def macTurkish : Charset where
  names := ["MACTURKISH"]
  high :=
    "ÄÅÇÉÑÖÜáàâäãåçéèêëíìîïñóòôöõúùûü"
    ++ "†°¢£§•¶ß®©™´¨≠ÆØ∞±≤≥¥µ∂∑∏π∫ªºΩæø"
    ++ "¿¡¬√ƒ≈∆«»…\u00a0ÀÃÕŒœ–—“”‘’÷◊ÿŸĞğİıŞş"
    ++ "‡·‚„‰ÂÊÁËÈÍÎÏÌÓÔ∅ÒÚÛÙ∅ˆ˜¯˘˙˚¸˝˛ˇ"

/-- The charsets of the Macintosh. -/
def macintoshes : List Charset :=
  [.macintosh, .macCentralEuropean, .macIcelandic, .macCroatian, .macRomanian, .macCyrillic,
    .macUkrainian, .macGreek, .macTurkish]

end MarkupPath.Markup.Charset
