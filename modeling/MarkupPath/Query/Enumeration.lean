import MarkupPath.Query.Candidates

/-!
# What a path selects

The nodes that a path selects, listed all at once and without regard to how they are found. In
contrast to a cursor this needs no operations on a tree, only what is below, above and at a
position.

`selected context steps` is the list of matches of `steps` at `context`: for each candidate of the
first step that meets its constraints, in their order, the matches of the other steps there. The
same node is listed as often as it's reached.
-/

namespace MarkupPath

namespace Position

/-- The positions of the elements in a part of the content of `parent`, each in front of its
descendants; that is document order. -/
def allBelowIn (parent : Position) (index : Nat) : Content → List Position
  | .nil => []
  | .element tag content _ rest =>
    let position := child parent index ⟨tag, content⟩ rest
    position :: (allBelowIn position 0 content ++ allBelowIn parent (index + 1) rest)
  | .comment _ _ rest => allBelowIn parent index rest
  | .instruction _ _ _ rest => allBelowIn parent index rest

/-- The positions of the descendants in document order. -/
def descendants (position : Position) : List Position :=
  allBelowIn position 0 position.element.content

end Position

/-- Whether a node meets a constraint. An attribute whose name is refused is none that it has. -/
def Constraint.IsMet (constraint : Constraint) (position : Position) : Prop :=
  ∃ value, position.value? constraint.name = .ok (some value) ∧
    (constraint.value = "" ∨ value = constraint.value)

instance (constraint : Constraint) (position : Position) :
    Decidable (constraint.IsMet position) :=
  match h : position.value? constraint.name with
  | .ok (some value) =>
    if hv : constraint.value = "" ∨ value = constraint.value then isTrue ⟨value, h, hv⟩
    else isFalse fun ⟨other, ho, hm⟩ => by
      rw [h] at ho
      cases ho
      exact hv hm
  | .ok none => isFalse fun ⟨_, ho, _⟩ => by rw [h] at ho; cases ho
  | .error _ => isFalse fun ⟨_, ho, _⟩ => by rw [h] at ho; cases ho

namespace Step

/-- The nodes on the axis of a step, in the order in which they are visited. -/
def reachable (step : Step) (context : Position) : List Position :=
  match step.axis with
  | .children | .anyChild => context.children
  | .descendants => context.descendants
  | .self => [context]
  | .parent => context.parent?.toList
  | .root | .unsupported => []

/-- The candidates of a step: what is on its axis and passes its name test. -/
def candidates (step : Step) (context : Position) : List Position :=
  (step.reachable context).filter fun position => step.matchesName position.name

/-- The nodes that a step selects: its candidates that meet all constraints. -/
def selects (step : Step) (context : Position) : List Position :=
  (step.candidates context).filter fun position =>
    step.constraints.all fun constraint => constraint.IsMet position

end Step

/-- The matches of steps at a context node. -/
def selected (context : Position) : List Step → List Position
  | [] => [context]
  | step :: steps => (step.selects context).flatMap fun position => selected position steps

end MarkupPath
