/-!
# Splitting a path expression into its parts

A path expression is a sequence of step expressions with slashes between them. A slash separates
two parts when it stands outside quotes and brackets and the part in front of it already holds
something other than slashes; so the second one of two adjacent slashes opens the following part,
and a slash at the very start belongs to the first part.

Quotes are recognized everywhere, brackets outside quotes only, and a closing bracket without an
opening one is disregarded.
-/

namespace MarkupPath

/-- A part of a path expression and the position of its first character in the whole. -/
structure Part where
  /-- the position in the whole expression, counted in characters -/
  offset : Nat
  /-- the characters of the part -/
  text : List Char
deriving DecidableEq, Repr

namespace Split

/-- What enclosing marks are open at a position of an expression. -/
structure Nesting where
  /-- the quote that is open -/
  quote : Option Char := none
  /-- the number of open brackets -/
  brackets : Nat := 0
deriving DecidableEq, Repr

/-- The nesting behind a character. -/
def Nesting.after (nesting : Nesting) (c : Char) : Nesting :=
  match nesting.quote with
  | some quote => if c = quote then { nesting with quote := none } else nesting
  | none =>
    if c = '\'' ∨ c = '"' then { nesting with quote := some c }
    else if c = '[' then { nesting with brackets := nesting.brackets + 1 }
    else if c = ']' then { nesting with brackets := nesting.brackets - 1 }
    else nesting

/-- Outside quotes and brackets. -/
def Nesting.isOpen (nesting : Nesting) : Bool :=
  nesting.quote.isNone && nesting.brackets == 0

/-- Whether a character ends the part that has been collected up to it. -/
def separates (nesting : Nesting) (collected : List Char) (c : Char) : Bool :=
  c == '/' && nesting.isOpen && collected.any (· != '/')

/-- The parts of what is left of an expression: `position` is that of the first character left,
`offset` and `collected` describe the part that is being read. -/
def parts (position offset : Nat) (nesting : Nesting) (collected : List Char) :
    List Char → List Part
  | [] => [⟨offset, collected⟩]
  | c :: rest =>
    if separates nesting collected c then
      ⟨offset, collected⟩ :: parts (position + 1) (position + 1) nesting [] rest
    else
      parts (position + 1) offset (nesting.after c) (collected ++ [c]) rest

end Split

/-- The parts of a path expression, in their order. There is always at least one. -/
def splitPath (expression : List Char) : List Part :=
  Split.parts 0 0 {} [] expression

/-- A path expression that is anchored at the root of a tree. -/
def absolutePath (expression : String) : String :=
  if expression.toList.head? = some '/' then expression else "/" ++ expression

end MarkupPath
