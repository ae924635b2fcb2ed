/-!
# Notices

Markup can break a rule about names and still be read: every tag ends somewhere, only what a name
stands for isn't clear. That is a *flaw*. Other markup is in order, but likely to be a mistake, and
deserves a *warning*. Both are noticed in the order of the markup.

The last notice decides on a document. If it's a flaw the document is refused; a warning behind a
flaw makes up for it. Of either kind no more than `Notices.limit` are noticed.
-/

namespace MarkupPath.Markup

/-- Something that is noticed about markup that can be read all the same. -/
inductive Notice where
  /-- a rule is broken -/
  | flaw
  /-- something is likely to be a mistake -/
  | warning
deriving DecidableEq, Repr

/-- What has been noticed so far. -/
structure Notices where
  /-- the number of flaws -/
  flaws : Nat := 0
  /-- the number of warnings -/
  warnings : Nat := 0
  /-- whether the last notice is a flaw -/
  endInFlaw : Bool := false
deriving DecidableEq, Repr

namespace Notices

/-- How many notices of a kind are taken. -/
def limit : Nat := 100

/-- Takes a notice. -/
def add (notices : Notices) : Notice → Notices
  | .flaw =>
    if notices.flaws < limit then { notices with flaws := notices.flaws + 1, endInFlaw := true }
    else notices
  | .warning =>
    if notices.warnings < limit then
      { notices with warnings := notices.warnings + 1, endInFlaw := false }
    else notices

/-- Takes notices in their order. -/
def addAll (notices : Notices) (more : List Notice) : Notices := more.foldl add notices

end Notices

/-- A flaw, unless a rule is kept. -/
def flawUnless (kept : Bool) : List Notice := if kept then [] else [.flaw]

end MarkupPath.Markup
