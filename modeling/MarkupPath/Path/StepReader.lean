import MarkupPath.Path.Step

/-!
# Reading step expressions

A step expression is a node test followed by predicates in brackets. It's read character by
character; what has been read so far is a `Progress`, whose `Mode` says which kind of text the
next character belongs to. The same character means different things in different modes: a dot
is a marker in a node test and itself in an attribute's value.

The position of the expression in the whole path matters for slashes: only the slash at the very
start of a path anchors it at the root, anywhere else it asks for descendants.

Blanks around an attribute's name and around its value don't count. XML itself knows only four
blanks (see `MarkupPath.Markup.Character`); expressions are written by people, so here every Unicode
space and the separator controls are blanks.
-/

namespace MarkupPath

/-! ## Blank characters -/

/-- Blank characters: the ASCII blanks with the four information separators, next line, and the
Unicode space, line and paragraph separators. -/
def isBlank (c : Char) : Bool :=
  let n := c.toNat
  (0x09 ≤ n && n ≤ 0x0D) || (0x1C ≤ n && n ≤ 0x20) || n == 0x85 || n == 0xA0 || n == 0x1680
    || (0x2000 ≤ n && n ≤ 0x200A) || n == 0x2028 || n == 0x2029 || n == 0x202F || n == 0x205F
    || n == 0x3000

/-- A text without the blanks at its start and at its end. -/
def strip (text : List Char) : List Char :=
  ((text.dropWhile isBlank).reverse.dropWhile isBlank).reverse

/-! ## What is wrong with an expression -/

/-- What is wrong with a step expression. -/
inductive StepProblem where
  /-- a bracket is opened in a predicate that isn't understood -/
  | nestedPredicate
  /-- a character that can't stand where it does -/
  | unexpected (c : Char)
  /-- a predicate on an attribute without a name -/
  | missingAttributeName
  /-- the expression ends in a predicate -/
  | unterminated
deriving DecidableEq, Repr

/-- The wording of a problem. -/
def StepProblem.message : StepProblem → String
  | .nestedPredicate => "Nested predicates aren't supported."
  | .unexpected c => "Unexpected `" ++ String.singleton c ++ "`."
  | .missingAttributeName => "Missing attribute name."
  | .unterminated => "Unterminated predicate."

/-- A step expression that can't be compiled, with the position of its first problem. -/
structure MalformedStep where
  /-- the step's expression -/
  expression : String
  /-- the position in the whole path -/
  position : Int
  /-- what is wrong there -/
  problem : StepProblem
deriving DecidableEq, Repr

/-- The wording of the refusal. -/
def MalformedStep.message (malformed : MalformedStep) : String :=
  "Malformed path at character " ++ toString malformed.position ++ " (`" ++ malformed.expression
    ++ "`): " ++ malformed.problem.message

namespace StepReader

/-- Which kind of text the next character of a step expression belongs to. -/
inductive Mode where
  /-- the node test, or what is between two predicates -/
  | name
  /-- the start of a predicate -/
  | filter
  /-- an attribute's name -/
  | attributeName
  /-- an attribute's value, outside quotes -/
  | assignment
  /-- an attribute's value, between quotes -/
  | quoted (quote : Char)
  /-- a predicate that isn't understood -/
  | predicate
deriving DecidableEq, Repr

/-- What has been read of a step expression. -/
structure Progress where
  /-- what the next character belongs to -/
  mode : Mode := .name
  /-- the axis, as far as it's known -/
  axis : Axis := .children
  /-- the characters of the name -/
  name : List Char := []
  /-- whether a wildcard has been read -/
  wildcard : Bool := false
  /-- whether a predicate has been closed -/
  filtered : Bool := false
  /-- the constraints of the closed predicates -/
  constraints : List Constraint := []
  /-- the attribute's name in the open predicate -/
  attributeName : List Char := []
  /-- the attribute's value in the open predicate -/
  value : List Char := []
deriving DecidableEq, Repr

namespace Progress

/-- Closes a predicate on an attribute and keeps its constraint. -/
def close (progress : Progress) : Progress :=
  { progress with
    mode := .name
    constraints := progress.constraints ++
      [⟨String.ofList (strip progress.attributeName), String.ofList progress.value⟩]
    attributeName := []
    value := [] }

/-- A dot: the first one asks for the context node, the second for its parent, and within a name
it's a character of that. -/
def dot (progress : Progress) : Except StepProblem Progress :=
  if progress.filtered || progress.wildcard then .error (.unexpected '.')
  else
    match progress.axis with
    | .children =>
      if progress.name.isEmpty then .ok { progress with axis := .self }
      else .ok { progress with name := progress.name ++ ['.'] }
    | .self => .ok { progress with axis := .parent }
    | _ => .error (.unexpected '.')

/-- A star stands for any name, so nothing but a slash may precede it. -/
def star (progress : Progress) : Except StepProblem Progress :=
  if !progress.name.isEmpty || progress.filtered || progress.wildcard then
    .error (.unexpected '*')
  else
    match progress.axis with
    | .children => .ok { progress with wildcard := true, axis := .anyChild }
    | .root | .descendants => .ok { progress with wildcard := true }
    | _ => .error (.unexpected '*')

/-- A slash: at the very start of the path it anchors the step at the root, followed by another
one or elsewhere it asks for descendants. -/
def slash (progress : Progress) (position : Int) : Except StepProblem Progress :=
  if !progress.name.isEmpty || progress.filtered || progress.wildcard then
    .error (.unexpected '/')
  else
    match progress.axis with
    | .children => .ok { progress with axis := if position = 0 then .root else .descendants }
    | .root =>
      if position = 1 then .ok { progress with axis := .descendants }
      else .error (.unexpected '/')
    | _ => .error (.unexpected '/')

/-- Any other character of a node test belongs to its name. -/
def letter (progress : Progress) (c : Char) : Except StepProblem Progress :=
  if progress.filtered || progress.wildcard || progress.axis == .self || progress.axis == .parent
  then .error (.unexpected c)
  else .ok { progress with name := progress.name ++ [c] }

/-- Whether a character is one of those that delimit predicates and their parts. -/
def isDelimiter (c : Char) : Bool :=
  c == '[' || c == ']' || c == '@' || c == '=' || c == '\'' || c == '"'

/-- A character of the node test. -/
def inName (progress : Progress) (position : Int) (c : Char) : Except StepProblem Progress :=
  if c = '[' then .ok { progress with mode := .filter }
  else if isDelimiter c then .error (.unexpected c)
  else if c = '.' then progress.dot
  else if c = '*' then progress.star
  else if c = '/' then progress.slash position
  else progress.letter c

/-- A character at the start of a predicate: anything but an attribute makes it one that isn't
understood, an empty predicate is disregarded. -/
def inFilter (progress : Progress) (c : Char) : Except StepProblem Progress :=
  if c = ']' then .ok { progress with mode := .name, filtered := true }
  else if c = '@' then .ok { progress with mode := .attributeName }
  else if isDelimiter c then .error (.unexpected c)
  else if isBlank c then .ok progress
  else .ok { progress with mode := .predicate, axis := .unsupported }

/-- A character of an attribute's name. -/
def inAttributeName (progress : Progress) (c : Char) : Except StepProblem Progress :=
  if c = ']' then
    if (strip progress.attributeName).isEmpty then .error .missingAttributeName
    else .ok { progress.close with filtered := true }
  else if c = '=' then
    if (strip progress.attributeName).isEmpty then .error (.unexpected c)
    else .ok { progress with mode := .assignment }
  else if isDelimiter c then .error (.unexpected c)
  else .ok { progress with attributeName := progress.attributeName ++ [c] }

/-- A character of an attribute's value, outside quotes. -/
def inAssignment (progress : Progress) (c : Char) : Except StepProblem Progress :=
  if c = ']' then .ok { progress.close with filtered := true }
  else if c = '\'' ∨ c = '"' then .ok { progress with mode := .quoted c }
  else if isDelimiter c then .error (.unexpected c)
  else if isBlank c then .ok progress
  else .ok { progress with value := progress.value ++ [c] }

/-- A character of an attribute's value, between quotes. A closing bracket ends the predicate,
but it doesn't count as one that has been closed. -/
def inQuoted (progress : Progress) (quote c : Char) : Progress :=
  if c = quote then { progress with mode := .assignment }
  else if c = ']' then progress.close
  else { progress with value := progress.value ++ [c] }

/-- A character of a predicate that isn't understood. -/
def inPredicate (progress : Progress) (c : Char) : Except StepProblem Progress :=
  if c = '[' then .error .nestedPredicate
  else if c = ']' then .ok { progress with mode := .name, filtered := true }
  else .ok progress

/-- Reads one character that stands at the given position of the path. -/
def take (progress : Progress) (position : Int) (c : Char) : Except StepProblem Progress :=
  match progress.mode with
  | .name => progress.inName position c
  | .filter => progress.inFilter c
  | .attributeName => progress.inAttributeName c
  | .assignment => progress.inAssignment c
  | .quoted quote => .ok (progress.inQuoted quote c)
  | .predicate => progress.inPredicate c

/-- Reads characters that start at the given position of the path. Where it fails, the position
of the refused character is given. -/
def run (progress : Progress) (position : Int) :
    List Char → Except (Int × StepProblem) Progress
  | [] => .ok progress
  | c :: rest =>
    match progress.take position c with
    | .ok next => next.run (position + 1) rest
    | .error problem => .error (position, problem)

/-- The step that has been read when the expression ends, which it can't do in a predicate. -/
def finish (progress : Progress) : Option Step :=
  if progress.mode = .name then
    some ⟨String.ofList progress.name, progress.axis, progress.constraints⟩
  else none

end Progress
end StepReader

/-- Compiles the expression of a single step that starts at the given position of the path. -/
def Step.compile (expression : List Char) (offset : Int := 0) : Except MalformedStep Step :=
  match StepReader.Progress.run {} offset expression with
  | .error (position, problem) => .error ⟨String.ofList expression, position, problem⟩
  | .ok progress =>
    match progress.finish with
    | some step => .ok step
    | none => .error ⟨String.ofList expression, offset + expression.length, .unterminated⟩

end MarkupPath
