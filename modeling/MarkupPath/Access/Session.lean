import MarkupPath.Access.Editing

/-!
# Sessions

A forest that several accesses are used on in turn, and what is assumed where a query or an edit
doesn't say otherwise: which access it uses and what an empty path expression selects.
-/

namespace MarkupPath

/-- A forest with its accesses and defaults. -/
structure Session where
  /-- the trees -/
  forest : Forest := {}
  /-- the accesses, in the order of their creation; the first one is unrestrained -/
  accesses : List Access := [{}]
  /-- the index of the access that is used by default -/
  chosen : Nat := 0
  /-- what an empty path expression selects by default -/
  emptyPath : EmptyPath := .self

namespace Session

variable {α : Type}

/-- Adds an access and answers its index. -/
def addAccess (session : Session) (restraint : Restraint) : Nat × Session :=
  (session.accesses.length,
    { session with accesses := session.accesses ++ [{ restraint }] })

/-- Makes an access the default one. -/
def choose (session : Session) (access : Nat) : Session := { session with chosen := access }

/-- Restores the defaults: a new unrestrained access, and an empty path selects its origin. -/
def reset (session : Session) : Session :=
  let (access, session) := session.addAccess .unrestrained
  { session with chosen := access, emptyPath := .self }

/-- The index of the access that is used if possibly one is given. -/
def accessFor (session : Session) (access : Option Nat) : Nat := access.getD session.chosen

/-- Edits the forest through an access. -/
def run (session : Session) (access : Option Nat) (editing : Editing α) :
    Except Error α × Session :=
  let index := session.accessFor access
  let workspace : Workspace := ⟨session.forest, (session.accesses[index]?).getD {}⟩
  let (outcome, workspace) := editing.run workspace
  (outcome,
    { session with
      forest := workspace.forest
      accesses := session.accesses.set index workspace.access })

/-- The number of calls of an operation through an access. -/
def count (session : Session) (access : Nat) (operation : Operation) : Nat :=
  tally ((session.accesses[access]?).map (·.calls) |>.getD []) operation

end Session
end MarkupPath
