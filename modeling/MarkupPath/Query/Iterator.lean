import MarkupPath.Access.Overwriting
import MarkupPath.Query.Lookup

/-!
# Iterating over matches

An iterator searches like a `Cursor`, but in place: it has one `Slot` for each step of a path, the
anchor step's first, and overwrites them while it looks for the next match. A slot is bound to the
candidate that is looked at, and it's cleared when there are none left. So in the course of a move
a slot can be bound to a node that the search won't rest at, and those behind it can still be bound
to what they were before.

A move that fails leaves the slots as they are then. Whoever moves such an iterator once more may
find that its assumption is `broken`: the slot that moves on, or the one before it, isn't bound.
-/

namespace MarkupPath

/-- A step and the node that it's bound to, if it's bound. -/
structure Slot where
  /-- the step -/
  step : Step
  /-- where the node stands -/
  node : Option Position := none
deriving DecidableEq, Repr

/-! ## Filling slots -/

namespace Slots

/-- Binds the slot with the given index to a node, or clears it. -/
def bind (index : Nat) (node : Option Position) : Overwriting (List Slot) Unit :=
  modify fun slots => slots.modify index fun slot => { slot with node }

/-- Whether a candidate meets the step's constraints and `accept` says yes to it. -/
def examine (step : Step) (accept : Position → Overwriting (List Slot) Bool)
    (candidate : Position) : Overwriting (List Slot) Bool := do
  if ← Overwriting.read (step.accepts candidate) then accept candidate else return false

/-- Binds a slot to the first node from a candidate on that meets the step's constraints and that
`accept` says yes to, and clears it if there's none. -/
def settleFrom (step : Step) (index : Nat) (context : Position)
    (accept : Position → Overwriting (List Slot) Bool) (candidate : Position) :
    Overwriting (List Slot) Bool := do
  bind index (some candidate)
  if ← examine step accept candidate then return true
  else
    match ← Overwriting.read (step.next context candidate) with
    | none =>
      bind index none
      return false
    | some ⟨next, _⟩ => settleFrom step index context accept next
termination_by candidate.ahead

/-- Binds a slot to the first of a candidate and those behind it that meets the step's constraints
and that `accept` says yes to. -/
def settle (step : Step) (index : Nat) (context : Position)
    (accept : Position → Overwriting (List Slot) Bool) :
    Option Position → Overwriting (List Slot) Bool
  | none => do
    bind index none
    return false
  | some candidate => settleFrom step index context accept candidate

/-- Binds the slots behind the one with the given index, which is bound to `context`. The steps are
those of the slots behind. -/
def descend (index : Nat) (context : Position) : List Step → Overwriting (List Slot) Bool
  | [] => return true
  | step :: steps => do
    let candidate ← Overwriting.read (step.first context)
    settle step (index + 1) context (fun node => descend (index + 1) node steps) candidate

/-- Moves the slot with the given index on to its next candidate below which the slots behind it can
be bound; if there's none, the slot before it moves on, and so forth. The first slot never moves. -/
def moveOn : (index : Nat) → Overwriting (List Slot) Bool
  | 0 => return false
  | index + 1 => do
    let slots ← get
    match slots[index]?.bind Slot.node, slots[index + 1]? with
    | some context, some ⟨step, some node⟩ =>
      let candidate ← Overwriting.read (step.next context node).plain
      let below := (slots.drop (index + 2)).map Slot.step
      if ← settle step (index + 1) context (fun node => descend (index + 1) node below) candidate
      then return true
      else moveOn index
    | _, _ => Overwriting.read (.fail (.broken .bound))

end Slots

/-! ## Iterators -/

/-- An iterator over the matches of a path. Without slots it's exhausted; `pending` if the match
where it rests hasn't been iterated over yet. -/
structure Iterator where
  /-- the slots of the steps, none if there's no further match -/
  slots : List Slot := []
  /-- whether the match is still to be given -/
  pending : Bool := false
deriving DecidableEq, Repr

namespace Iterator

/-- The match where the iterator rests. -/
def current? (iterator : Iterator) : Option Position := iterator.slots.getLast?.bind Slot.node

/-- Whether there's no further match. -/
def isExhausted (iterator : Iterator) : Bool := iterator.slots.isEmpty

/-- Whether two iterators rest at the same node, or at none. -/
def restsLike (iterator other : Iterator) : Bool :=
  iterator.current?.map Position.id == other.current?.map Position.id

/-- An iterator at the first match of a path. Without an anchor there's none. -/
def start (path : Path) : Reading Iterator :=
  match path.steps, path.anchor with
  | [], _ => .fail .emptyPath
  | _ :: _, none => return {}
  | first :: steps, some anchor =>
    let slots : List Slot := ⟨first, some anchor⟩ :: steps.map fun step => { step }
    let (found, slots) := (Slots.descend 0 anchor steps).run slots
    return if ← found then { slots, pending := true } else {}

/-- Moves to the next match. -/
def advance : Overwriting Iterator Unit where
  run iterator :=
    let (found, slots) := (Slots.moveOn (iterator.slots.length - 1)).run iterator.slots
    let isOver : Bool := found.outcome matches .ok false
    ((fun _ => ()) <$> found, { slots := if isOver then [] else slots })

/-- The next match, that is the one where the iterator rests if it's pending. -/
def next : Overwriting Iterator (Option Position) := do
  if (← get).pending then modify fun iterator => { iterator with pending := false }
  else advance
  return (← get).current?

/-- Up to `limit` matches, one after the other. -/
def collect : (limit : Nat) → Overwriting Iterator (List Position)
  | 0 => return []
  | limit + 1 => do
    match ← next with
    | none => return []
    | some node => return node :: (← collect limit)

/-- A description of an iterator that is exhausted. -/
def exhaustedDescription : String := "<MatchIterator current=None>"

end Iterator

/-- Begins to iterate over what a path selects from an origin. Without one nothing is found,
whatever the expression is. -/
def iterate (origin : Option Origin) (expression : String) (mode : EmptyPath) :
    Reading Iterator := do
  match origin with
  | none => return {}
  | some origin => Iterator.start (← Path.compile (some origin) expression mode)

/-- Begins to iterate over what a query selects. -/
def Editing.iterate (selector : Selector) (mode : EmptyPath) : Editing Iterator := do
  read (MarkupPath.iterate (← originOf selector.origin) selector.expression mode)

end MarkupPath
