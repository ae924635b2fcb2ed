import MarkupPath.Path.Compile

/-!
# The candidates of a step

In relation to a context node a step has a sequence of candidates: the nodes on its axis that pass
its name test. They are never listed, a search gets the first one by `Step.first` and from one of
them to the next by `Step.next`.

Only elements whose names are tested have to tell them. One that doesn't makes the search fail.

Descendants are visited in document order by a walk that keeps no record of the way it took: from
an element without children it climbs until there's a next sibling, and stops when it's back where
it started. It takes for granted that it gets there and isn't led out of the tree.
-/

namespace MarkupPath

namespace Position

/-- Climbs from an element whose descendants have all been visited to the element that comes next,
unless that is outside the subtree below `base`. -/
def climb (base : Position) :
    (position : Position) → Reading (Option { next : Position // next.ahead < position.after })
  | top element =>
    let position := top element
    if position.address = base.address then return none
    else do
      let _ ← position.nextSibling
      let _ ← position.parent
      .fail (.broken .within)
  | child up index element following =>
    let position := child up index element following
    if position.address = base.address then return none
    else do
      match ← position.nextSibling with
      | some next => return some next
      | none =>
        let _ ← position.parent
        (climb base up).weaken fun _ h => Nat.lt_of_lt_of_le h (Nat.le_add_left _ _)

/-- The element that comes next in document order in the subtree below `base`. -/
def nextInSubtree (base position : Position) :
    Reading (Option { next : Position // next.ahead < position.ahead }) := do
  match ← position.firstChild with
  | some next => return some next
  | none => (climb base position).weaken fun _ h => Nat.lt_of_lt_of_le h position.after_le_ahead

end Position

namespace Step

/-- The next element in the subtree below `context` that passes the name test. -/
def followingDescendant (step : Step) (context position : Position) :
    Reading (Option { next : Position // next.ahead < position.ahead }) := do
  match ← context.nextInSubtree position with
  | none => return none
  | some ⟨next, hn⟩ =>
    if step.matchesName (← next.tellName) then return some ⟨next, hn⟩
    else (step.followingDescendant context next).weaken fun _ h => Nat.lt_trans h hn
termination_by position.ahead

/-- A node, if it passes the name test. -/
def named (step : Step) (position : Position) : Reading (Option Position) := do
  return if step.matchesName (← position.tellName) then some position else none

/-- The first candidate at a context node. -/
def first (step : Step) (context : Position) : Reading (Option Position) :=
  match step.axis with
  | .children | .anyChild => (context.firstChild step.nameFilter).plain
  | .descendants => (step.followingDescendant context context).plain
  | .self => step.named context
  | .parent => do
    match ← context.parent with
    | none => return none
    | some parent => step.named parent
  | .root | .unsupported => return none

/-- The candidate behind another one. -/
def next (step : Step) (context position : Position) :
    Reading (Option { next : Position // next.ahead < position.ahead }) :=
  match step.axis with
  | .children | .anyChild =>
    (position.nextSibling step.nameFilter).weaken fun _ h =>
      Nat.lt_of_lt_of_le h position.after_le_ahead
  | .descendants => step.followingDescendant context position
  | .self | .parent | .root | .unsupported => return none

end Step
end MarkupPath
