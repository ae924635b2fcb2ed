import MarkupPath.Markup.Character

/-!
# The tokens of markup

Markup is read in two stages. The first one, here, cuts it into tokens: tags with their
attributes, comments, processing instructions and stretches of text. It resolves references,
normalizes line ends and refuses what can't be told apart. The second one
(`MarkupPath.Markup.Outline`) nests the tokens and resolves namespaces.

There's no token for a document type declaration. Documents that have one are refused, also those
that are well-formed.

## White space between tags

Whether a stretch of white space is part of the content or only lays out the markup is decided
when tokens are nested. Here it's only noted which stretches are candidates: `Token.blank` is one
that consists of white space only and that markup or a carriage return follows. Carriage returns
therefore divide a text, see `Token.ofText`.
-/

namespace MarkupPath.Markup

/-- A name as it's written, with its qualifier. -/
structure WrittenName where
  /-- what precedes the first colon -/
  qualifier : Option String
  /-- what follows that -/
  localPart : String
deriving DecidableEq, Repr

/-- Whether a name has no other colon than the one behind its qualifier. -/
def WrittenName.isProper (name : WrittenName) : Bool := !name.localPart.toList.contains ':'

/-- A token of markup. -/
inductive Token where
  /-- a start tag, or if `closed` an element without content -/
  | startTag (name : WrittenName) (attributes : List (WrittenName × String)) (closed : Bool)
  /-- an end tag -/
  | endTag (name : WrittenName)
  /-- white space that may be mere layout; `beforeEnd` if an end tag follows -/
  | blank (text : String) (beforeEnd : Bool)
  /-- text as it's written -/
  | text (text : String)
  /-- text that is written by a reference or a literal section -/
  | literal (text : String)
  /-- a comment -/
  | comment (text : String)
  /-- a processing instruction -/
  | instruction (target : String) (data : Option String)
deriving DecidableEq, Repr

/-! ## Pieces of text -/

/-- Line ends are read as line feeds. -/
def normalizeLines : List Char → List Char
  | [] => []
  | '\r' :: '\n' :: rest => '\n' :: normalizeLines rest
  | c :: rest => (if c = '\r' then '\n' else c) :: normalizeLines rest

/-- What is in front of the first occurrence of a pattern, and what is behind it. -/
def breakOn (pattern : List Char) : List Char → Option (List Char × List Char)
  | [] => none
  | c :: rest =>
    if pattern.isPrefixOf (c :: rest) then some ([], (c :: rest).drop pattern.length)
    else (breakOn pattern rest).map fun (front, back) => (c :: front, back)

theorem length_dropWhile_le (p : Char → Bool) (cs : List Char) :
    (cs.dropWhile p).length ≤ cs.length :=
  (List.dropWhile_sublist p).length_le

theorem length_breakOn_le {pattern cs front back : List Char}
    (h : breakOn pattern cs = some (front, back)) : back.length ≤ cs.length := by
  induction cs generalizing front with
  | nil => simp [breakOn] at h
  | cons c rest ih =>
    rw [breakOn] at h
    split at h
    · cases h
      simp
    · obtain ⟨⟨front', back'⟩, hf, he⟩ := Option.map_eq_some_iff.mp h
      cases he
      exact Nat.le_succ_of_le (ih hf)

/-- The number that digits of the given base stand for. -/
def readNumber (base : Nat) (digits : List Char) : Option Nat :=
  if digits.isEmpty then none
  else
    digits.foldlM (fun n c =>
      let value :=
        if '0' ≤ c ∧ c ≤ '9' then c.toNat - 0x30
        else if 'a' ≤ c ∧ c ≤ 'f' then c.toNat - 0x57
        else if 'A' ≤ c ∧ c ≤ 'F' then c.toNat - 0x37
        else base
      if value < base then some (n * base + value) else none) 0

/-- The character with a given number, if a document may hold it. -/
def characterOf? (n : Nat) : Option Char :=
  if h : n.isValidChar then
    let c := Char.ofNatAux n h
    if isCharacter c then some c else none
  else none

/-- The character that a reference stands for, given what is between `&` and `;`. -/
def readReference : List Char → Option Char
  | '#' :: 'x' :: digits => (readNumber 16 digits).bind characterOf?
  | '#' :: digits => (readNumber 10 digits).bind characterOf?
  | name =>
    if name = ['l', 't'] then some '<'
    else if name = ['g', 't'] then some '>'
    else if name = ['a', 'm', 'p'] then some '&'
    else if name = ['q', 'u', 'o', 't'] then some '"'
    else if name = ['a', 'p', 'o', 's'] then some '\''
    else none

/-- An attribute's value, given what is between the quotes: references are resolved, white space is
read as spaces. `pending` holds the characters of the reference that is being read. -/
def readValue (pending : Option (List Char)) : List Char → Option (List Char)
  | [] => if pending.isNone then some [] else none
  | c :: rest =>
    match pending with
    | some name =>
      if c = ';' then (readReference name).bind fun d => (readValue none rest).map (d :: ·)
      else readValue (some (name ++ [c])) rest
    | none =>
      if c = '<' then none
      else if c = '&' then readValue (some []) rest
      else (readValue none rest).map ((if isSpace c then ' ' else c) :: ·)

/-! ## Stretches of text -/

/-- A character that doesn't divide a text: ASCII, and no carriage return. -/
def isPlainText (c : Char) : Bool :=
  c == '\t' || c == '\n' || (' ' ≤ c && c ≤ '\x7f')

/-- What follows a stretch of text. -/
inductive Follower where
  /-- an end tag -/
  | endTag
  /-- other markup or a carriage return -/
  | markup
  /-- a reference, or further text -/
  | other
deriving DecidableEq, Repr

/-- The token for an undivided stretch of text, none if there's nothing. -/
def Token.ofStretch (text : List Char) (follower : Follower) : List Token :=
  if text.isEmpty then []
  else if text.all isSpace && follower ≠ .other then
    [.blank (String.ofList text) (follower = .endTag)]
  else [.text (String.ofList text)]

/-- The tokens of the text between two pieces of markup or references. A carriage return ends a
stretch; if a line feed follows it, that starts the next one. Everything from the first character
on that is neither plain nor part of such a line end makes up one last stretch. -/
def Token.ofText (follower : Follower) (collected : List Char) : List Char → List Token
  | [] => ofStretch collected follower
  | '\r' :: '\n' :: rest =>
    if rest.head?.all isPlainText then
      ofStretch collected .markup ++ ofText follower ['\n'] rest
    else ofStretch collected .markup ++ ofStretch ('\n' :: normalizeLines rest) follower
  | c :: rest =>
    if isPlainText c then ofText follower (collected ++ [c]) rest
    else
      ofStretch collected (if c = '\r' then .markup else .other)
        ++ ofStretch (normalizeLines (c :: rest)) follower

/-! ## Names and tags -/

/-- The characters of a name that may hold colons. -/
def isOfName (c : Char) : Bool := isNameCharacter c || c == ':'

/-- Reads a name without a colon. -/
def readPlainName (cs : List Char) : Option (List Char × List Char) :=
  let name := cs.takeWhile isNameCharacter
  if isPlainName name then some (name, cs.dropWhile isNameCharacter) else none

/-- Reads a name that may hold any number of colons. -/
def readAnyName : List Char → Option (List Char × List Char)
  | [] => none
  | c :: rest =>
    if isNameStart c || c == ':' then
      some (c :: rest.takeWhile isOfName, rest.dropWhile isOfName)
    else none

/-- Reads a name. In front of the first colon is its qualifier, but where no name follows the colon
all of it is the local part. So it is where there's nothing in front of the colon. -/
def readName (cs : List Char) : Option (WrittenName × List Char) :=
  match readPlainName cs with
  | none => (readAnyName cs).map fun (name, rest) => (⟨none, String.ofList name⟩, rest)
  | some (first, ':' :: rest) =>
    match readPlainName rest with
    | none =>
      some (⟨none, String.ofList (first ++ ':' :: rest.takeWhile isOfName)⟩,
        rest.dropWhile isOfName)
    | some (second, ':' :: rest) =>
      let (third, rest) := (readAnyName rest).getD ([], rest)
      some (⟨some (String.ofList first), String.ofList (second ++ ':' :: third)⟩, rest)
    | some (second, rest) => some (⟨some (String.ofList first), String.ofList second⟩, rest)
  | some (first, rest) => some (⟨none, String.ofList first⟩, rest)

theorem length_readPlainName {cs name rest : List Char}
    (h : readPlainName cs = some (name, rest)) : rest.length < cs.length := by
  cases cs with
  | nil => simp [readPlainName, isPlainName] at h
  | cons c cs =>
    simp only [readPlainName] at h
    split at h
    · rename_i hn
      cases h
      by_cases hc : isNameCharacter c
      · simp only [List.dropWhile_cons, hc, if_true, List.length_cons]
        exact Nat.lt_succ_of_le (length_dropWhile_le _ _)
      · simp [hc, isPlainName] at hn
    · cases h

theorem length_readAnyName {cs name rest : List Char}
    (h : readAnyName cs = some (name, rest)) : rest.length < cs.length := by
  cases cs with
  | nil => simp [readAnyName] at h
  | cons c cs =>
    simp only [readAnyName] at h
    split at h
    · cases h
      exact Nat.lt_succ_of_le (length_dropWhile_le _ _)
    · cases h

theorem length_readName {cs rest : List Char} {name : WrittenName}
    (h : readName cs = some (name, rest)) : rest.length < cs.length := by
  simp only [readName] at h
  split at h
  · obtain ⟨⟨any, rest'⟩, ha, he⟩ := Option.map_eq_some_iff.mp h
    cases he
    exact length_readAnyName ha
  · rename_i first second hs
    have hl := length_readPlainName hs
    simp only [List.length_cons] at hl
    split at h
    · cases h
      have := length_dropWhile_le isOfName second
      omega
    · rename_i third ht
      have hm := length_readPlainName ht
      simp only [List.length_cons] at hm
      cases h
      cases ha : readAnyName third with
      | none =>
        simp only [Option.getD_none]
        omega
      | some any =>
        have := length_readAnyName ha
        simp only [Option.getD_some]
        omega
    · rename_i ht
      cases h
      have := length_readPlainName ht
      omega
  · rename_i hs
    cases h
    exact length_readPlainName hs

/-- Reads a value between quotes, and gives what is between them. -/
def readQuoted : List Char → Option (List Char × List Char)
  | '"' :: rest => breakOn ['"'] rest
  | '\'' :: rest => breakOn ['\''] rest
  | _ => none

/-- Reads an equals sign and the quoted value behind it. -/
def readAssigned (cs : List Char) : Option (List Char × List Char) :=
  match cs.dropWhile isSpace with
  | '=' :: rest => readQuoted (rest.dropWhile isSpace)
  | _ => none

theorem length_readQuoted {cs value rest : List Char}
    (h : readQuoted cs = some (value, rest)) : rest.length < cs.length := by
  unfold readQuoted at h
  split at h
  · exact Nat.lt_succ_of_le (length_breakOn_le h)
  · exact Nat.lt_succ_of_le (length_breakOn_le h)
  · cases h

theorem length_readAssigned {cs value rest : List Char}
    (h : readAssigned cs = some (value, rest)) : rest.length < cs.length := by
  unfold readAssigned at h
  split at h
  · rename_i assigned hs
    have h₁ := length_readQuoted h
    have h₂ := length_dropWhile_le isSpace assigned
    have h₃ := length_dropWhile_le isSpace cs
    rw [hs, List.length_cons] at h₃
    omega
  · cases h

/-- Reads an attribute, its name and its value. -/
def readAttribute (cs : List Char) : Option ((WrittenName × String) × List Char) :=
  match readName cs with
  | none => none
  | some (name, rest) =>
    match readAssigned rest with
    | none => none
    | some (raw, rest) =>
      (readValue none (normalizeLines raw)).map fun value => ((name, String.ofList value), rest)

theorem length_readAttribute {cs rest : List Char} {attr : WrittenName × String}
    (h : readAttribute cs = some (attr, rest)) : rest.length < cs.length := by
  unfold readAttribute at h
  split at h
  · cases h
  · rename_i hn
    split at h
    · cases h
    · rename_i ha
      obtain ⟨value, _, he⟩ := Option.map_eq_some_iff.mp h
      cases he
      exact Nat.lt_trans (length_readAssigned ha) (length_readName hn)

set_option linter.unusedVariables false in
/-- Reads the attributes of a start tag up to its end, and whether that has a slash. Attributes are
set apart by white space. -/
def readAttributes (cs : List Char) : Option (List (WrittenName × String) × Bool × List Char) :=
  match hs : cs.dropWhile isSpace with
  | '>' :: rest => some ([], false, rest)
  | '/' :: '>' :: rest => some ([], true, rest)
  | start =>
    if !cs.head?.all isSpace then none
    else
      match ha : readAttribute start with
      | none => none
      | some (attr, rest) =>
        (readAttributes rest).map fun (others, closed, rest) => (attr :: others, closed, rest)
termination_by cs.length
decreasing_by
  have h₁ := length_readAttribute ha
  have h₂ := length_dropWhile_le isSpace cs
  rw [hs] at h₂
  omega

theorem length_readAttributes {cs rest : List Char} {closed : Bool}
    {attributes : List (WrittenName × String)}
    (h : readAttributes cs = some (attributes, closed, rest)) : rest.length ≤ cs.length := by
  induction hn : cs.length using Nat.strongRecOn generalizing cs attributes with
  | ind n ih =>
    subst hn
    have hd := length_dropWhile_le isSpace cs
    rw [readAttributes] at h
    split at h
    · rename_i hs
      cases h
      rw [hs, List.length_cons] at hd
      omega
    · rename_i hs
      cases h
      rw [hs, List.length_cons, List.length_cons] at hd
      omega
    · split at h
      · cases h
      · split at h
        · cases h
        · rename_i ha
          obtain ⟨⟨others, closed', rest'⟩, hr, he⟩ := Option.map_eq_some_iff.mp h
          cases he
          have hl := length_readAttribute ha
          have := ih _ (by omega) hr rfl
          omega

/-- The data of a processing instruction, given what follows its target: nothing, or white space
and then the data. -/
def readData : List Char → Option (Option String)
  | [] => some none
  | c :: rest =>
    if isSpace c then
      some (some (String.ofList (normalizeLines (rest.dropWhile isSpace))))
    else none

/-- Reads a processing instruction behind `<?`. The target `xml` is reserved. -/
def readInstruction (cs : List Char) : Option (Token × List Char) :=
  match readAnyName cs with
  | none => none
  | some (target, rest) =>
    if target.map Char.toLower = ['x', 'm', 'l'] then none
    else
      match breakOn ['?', '>'] rest with
      | none => none
      | some (body, rest) =>
        (readData body).map fun data => (.instruction (String.ofList target) data, rest)

/-- Reads a comment behind `<!--`. There are no two hyphens in it. -/
def readComment (cs : List Char) : Option (Token × List Char) :=
  match breakOn ['-', '-'] cs with
  | some (body, '>' :: rest) => some (.comment (String.ofList (normalizeLines body)), rest)
  | _ => none

/-! ## Tokens -/

/-- Reads the markup that begins with `<`. -/
def readMarkup (cs : List Char) : Option (Token × List Char) :=
  match cs with
  | '<' :: '!' :: '-' :: '-' :: rest => readComment rest
  | '<' :: '!' :: '[' :: 'C' :: 'D' :: 'A' :: 'T' :: 'A' :: '[' :: rest =>
    (breakOn [']', ']', '>'] rest).map fun (body, rest) =>
      (.literal (String.ofList (normalizeLines body)), rest)
  | '<' :: '?' :: rest => readInstruction rest
  | '<' :: '/' :: rest =>
    match readName rest with
    | none => none
    | some (name, rest) =>
      match rest.dropWhile isSpace with
      | '>' :: rest => some (.endTag name, rest)
      | _ => none
  | '<' :: rest =>
    match readName rest with
    | none => none
    | some (name, rest) =>
      (readAttributes rest).map fun (attributes, closed, rest) =>
        (.startTag name attributes closed, rest)
  | _ => none

/-- Reads the tokens that come next: one piece of markup, one reference or a whole text. -/
def readTokens (cs : List Char) : Option (List Token × List Char) :=
  match cs with
  | '<' :: _ => (readMarkup cs).map fun (token, rest) => ([token], rest)
  | '&' :: rest =>
    match breakOn [';'] rest with
    | none => none
    | some (name, rest) =>
      (readReference name).map fun c => ([.literal (String.singleton c)], rest)
  | _ =>
    let isText (c : Char) : Bool := c != '<' && c != '&'
    let text := cs.takeWhile isText
    let rest := cs.dropWhile isText
    let follower :=
      match rest with
      | '<' :: '/' :: _ => .endTag
      | '<' :: _ => .markup
      | _ => .other
    if (breakOn [']', ']', '>'] text).isSome then none
    else some (Token.ofText follower [] text, rest)

theorem length_readComment {cs rest : List Char} {token : Token}
    (h : readComment cs = some (token, rest)) : rest.length < cs.length := by
  unfold readComment at h
  split at h
  · rename_i hb
    cases h
    exact length_breakOn_le hb
  · cases h

theorem length_readInstruction {cs rest : List Char} {token : Token}
    (h : readInstruction cs = some (token, rest)) : rest.length < cs.length := by
  simp only [readInstruction] at h
  split at h
  · cases h
  · rename_i hn
    split at h
    · cases h
    · split at h
      · cases h
      · rename_i hb
        obtain ⟨data, _, he⟩ := Option.map_eq_some_iff.mp h
        cases he
        exact Nat.lt_of_le_of_lt (length_breakOn_le hb) (length_readAnyName hn)

theorem length_readMarkup {cs rest : List Char} {token : Token}
    (h : readMarkup cs = some (token, rest)) : rest.length < cs.length := by
  unfold readMarkup at h
  split at h
  · have := length_readComment h
    simp only [List.length_cons]
    omega
  · obtain ⟨⟨body, rest'⟩, hb, he⟩ := Option.map_eq_some_iff.mp h
    cases he
    have := length_breakOn_le hb
    simp only [List.length_cons]
    omega
  · have := length_readInstruction h
    simp only [List.length_cons]
    omega
  · split at h
    · cases h
    · rename_i behind hn
      split at h
      · rename_i hd
        cases h
        have h₁ := length_readName hn
        have h₂ := length_dropWhile_le isSpace behind
        rw [hd, List.length_cons] at h₂
        simp only [List.length_cons]
        omega
      · cases h
  · split at h
    · cases h
    · rename_i hn
      obtain ⟨⟨attributes, closed, rest'⟩, ha, he⟩ := Option.map_eq_some_iff.mp h
      cases he
      have h₁ := length_readName hn
      have h₂ := length_readAttributes ha
      simp only [List.length_cons]
      omega
  · cases h

theorem length_readTokens {cs rest : List Char} {tokens : List Token}
    (h : readTokens cs = some (tokens, rest)) (hne : cs ≠ []) : rest.length < cs.length := by
  unfold readTokens at h
  split at h
  · obtain ⟨⟨token, rest'⟩, hm, he⟩ := Option.map_eq_some_iff.mp h
    cases he
    exact length_readMarkup hm
  · split at h
    · cases h
    · rename_i hb
      obtain ⟨c, _, he⟩ := Option.map_eq_some_iff.mp h
      cases he
      exact Nat.lt_succ_of_le (length_breakOn_le hb)
  · rename_i hlt hamp
    simp only at h
    split at h
    · cases h
    · cases h
      cases cs with
      | nil => exact absurd rfl hne
      | cons c cs =>
        have hc : (c != '<' && c != '&') = true := by
          simp only [Bool.and_eq_true, bne_iff_ne, ne_eq]
          exact ⟨fun he => hlt cs (by rw [he]), fun he => hamp cs (by rw [he])⟩
        simp only [List.dropWhile_cons, hc, if_true, List.length_cons]
        exact Nat.lt_succ_of_le (length_dropWhile_le _ _)

set_option linter.unusedVariables false in
/-- Cuts markup into tokens. -/
def Token.readAll (cs : List Char) : Option (List Token) :=
  match cs with
  | [] => some []
  | c :: rest =>
    match hr : readTokens (c :: rest) with
    | none => none
    | some (tokens, rest) => (readAll rest).map (tokens ++ ·)
termination_by cs.length
decreasing_by exact length_readTokens hr (List.cons_ne_nil _ _)

/-- The tokens of a document without its declaration. -/
def Token.ofMarkup (cs : List Char) : Option (List Token) :=
  if cs.all isCharacter then readAll cs else none

end MarkupPath.Markup
