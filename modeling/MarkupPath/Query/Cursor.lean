import MarkupPath.Query.Candidates

/-!
# Searching a tree lazily

A search binds the steps of a path to nodes, each to a candidate at the node of the step before.
It goes depth first: the next step is bound before the current one tries its following candidate,
and when a step has no candidate left the one before moves on.

## The cursor

A `Cursor` is a search that rests at a match. It remembers the bound steps, the deepest first, and
nothing else; `Cursor.advance` resumes the search from there, so no more of the tree is looked at
than the next match needs. A cursor that is past the last match is exhausted and stays so.

A fresh cursor rests at the first match already. `Cursor.pull`, that is for iterating, therefore
yields this match before it advances.
-/

namespace MarkupPath

/-- A step and the node that it's bound to. -/
structure Bound where
  /-- the step -/
  step : Step
  /-- where the node stands -/
  position : Position

namespace Search

variable {α : Type}

/-- What `accept` finds for a candidate, if that meets the step's constraints. -/
def examine (step : Step) (accept : Position → Reading (Option α)) (candidate : Position) :
    Reading (Option α) := do
  if ← step.accepts candidate then accept candidate else return none

/-- The first node from a candidate on that meets the step's constraints and that `accept` finds
something for. -/
def settleFrom (step : Step) (context : Position) (accept : Position → Reading (Option α))
    (candidate : Position) : Reading (Option (Position × α)) := do
  match ← examine step accept candidate with
  | some a => return some (candidate, a)
  | none =>
    match ← step.next context candidate with
    | none => return none
    | some ⟨next, _⟩ => settleFrom step context accept next
termination_by candidate.ahead

/-- The first of a candidate and those behind it that meets the step's constraints and that
`accept` finds something for. -/
def settle (step : Step) (context : Position) (accept : Position → Reading (Option α)) :
    Option Position → Reading (Option (Position × α))
  | none => return none
  | some candidate => settleFrom step context accept candidate

/-- Binds all the given steps below a node. The steps are bound in their order, the result has the
last one first, in front of what is bound already. -/
def bindBelow (trail : List Bound) (context : Position) :
    List Step → Reading (Option (List Bound))
  | [] => return some trail
  | step :: steps => do
    let candidate ← step.first context
    let found ← settle step context
      (fun position => bindBelow (⟨step, position⟩ :: trail) position steps) candidate
    return found.map (·.2)

/-- The node at the end of a trail that starts at the anchor. -/
def endOf (anchor : Position) : List Bound → Position
  | [] => anchor
  | bound :: _ => bound.position

/-- Moves the deepest step of a trail to its next candidate below which the given steps can be
bound; if there's none, the step before it moves, and so on. The anchor never moves. -/
def resume (anchor : Position) : (trail : List Bound) → (below : List Step) →
    Reading (Option (List Bound))
  | [], _ => return none
  | bound :: trail, below => do
    let context := endOf anchor trail
    let candidate ← (bound.step.next context bound.position).plain
    match ← settle bound.step context
      (fun position => bindBelow (⟨bound.step, position⟩ :: trail) position below) candidate with
    | some (_, trail) => return some trail
    | none => resume anchor trail (bound.step :: below)

end Search

/-- A search that rests at a match, or is exhausted. -/
inductive Cursor where
  /-- there's no further match -/
  | exhausted
  /-- the search rests where the trail ends; `pending` if that match hasn't been pulled yet -/
  | resting (anchor : Position) (trail : List Bound) (pending : Bool)

namespace Cursor

/-- The match where the cursor rests. -/
def current? : Cursor → Option Position
  | exhausted => none
  | resting anchor trail _ => some (Search.endOf anchor trail)

/-- Whether there's no further match. -/
def isExhausted : Cursor → Bool
  | exhausted => true
  | resting .. => false

/-- The cursor for what a search has bound. -/
def ofTrail (anchor : Position) (pending : Bool) : Option (List Bound) → Cursor
  | none => exhausted
  | some trail => resting anchor trail pending

/-- A cursor at the first match of a path. Without an anchor there's none. -/
def start (path : Path) : Reading Cursor :=
  match path.steps, path.anchor with
  | [], _ => .fail .emptyPath
  | _ :: _, none => return exhausted
  | _ :: steps, some anchor => return ofTrail anchor true (← Search.bindBelow [] anchor steps)

/-- Moves to the next match. -/
def advance : Cursor → Reading Cursor
  | exhausted => return exhausted
  | resting anchor trail _ => return ofTrail anchor false (← Search.resume anchor trail [])

/-- The next match that hasn't been pulled yet, and the cursor that rests there. -/
def pull : Cursor → Reading (Option Position × Cursor)
  | resting anchor trail true =>
    let cursor := resting anchor trail false
    return (cursor.current?, cursor)
  | cursor => do
    let next ← cursor.advance
    return (next.current?, next)

/-- Pulls up to `limit` matches. -/
def collect : (limit : Nat) → Cursor → Reading (List Position × Cursor)
  | 0, cursor => return ([], cursor)
  | limit + 1, cursor => do
    match ← cursor.pull with
    | (none, cursor) => return ([], cursor)
    | (some position, cursor) =>
      let (rest, cursor) ← collect limit cursor
      return (position :: rest, cursor)

end Cursor
end MarkupPath
