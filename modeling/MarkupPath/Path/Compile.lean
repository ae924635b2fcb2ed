import MarkupPath.Access.Reading
import MarkupPath.Path.Split

/-!
# Paths

A path is a sequence of steps. The first one, the anchor step, belongs to the node where a search
starts and isn't searched for; in a relative path that is the origin, in an absolute one the root
of its tree.

`Path.compile` compiles the expression of a path in relation to an origin. It refuses, in this
order: an absent origin, an origin that doesn't tell its name, the first malformed step, a root of
an absolute path that doesn't tell its name or has another one than the path asks for. If the root doesn't
meet the constraints on it, or isn't known, the path has no anchor and selects nothing.
-/

namespace MarkupPath

/-- What an empty path expression selects. -/
inductive EmptyPath where
  /-- the origin itself -/
  | self
  /-- the children of the origin -/
  | children
deriving DecidableEq, Repr

/-- A node that a path starts from, and the root of the tree that it belongs to as far as that is
known. -/
structure Origin where
  /-- where the node stands -/
  position : Position
  /-- the root of its tree -/
  root : Option Position

/-- A compiled path. -/
structure Path where
  /-- where a search starts -/
  anchor : Option Position
  /-- the anchor step and those that are searched for -/
  steps : List Step

/-! ## The text of a path -/

/-- The expression that stands for a path, given its steps. A path without steps has none. -/
def pathText : List Step → Option String
  | [] => none
  | anchor :: steps =>
    let text := "/".intercalate (steps.map Step.text)
    if anchor.axis = .root then
      some (if steps.isEmpty then anchor.text else anchor.text ++ "/" ++ text)
    else if steps.head?.any (·.axis == .descendants) then some ("/" ++ text)
    else some text

/-- The expression that stands for a path. -/
def Path.text? (path : Path) : Option String := pathText path.steps

/-! ## Compiling -/

/-- Whether an expression starts at the root of a tree. Two slashes at the start don't. -/
def isAbsolute (expression : String) : Bool :=
  match expression.toList with
  | '/' :: '/' :: _ => false
  | '/' :: _ => true
  | _ => false

/-- Compiles the parts of a path expression, up to the first one that is malformed. -/
def compileParts : List Part → Except MalformedStep (List Step)
  | [] => .ok []
  | part :: rest => do
    let step ← Step.compile part.text part.offset
    let steps ← compileParts rest
    return step :: steps

/-- Compiles the steps of a path expression. -/
def compileSteps (expression : String) : Except MalformedStep (List Step) :=
  compileParts (splitPath expression.toList)

/-- Tests whether a node meets one constraint. -/
def Constraint.holds (constraint : Constraint) (position : Position) : Reading Bool := do
  match ← position.attr constraint.name with
  | none => return false
  | some value => return constraint.value.isEmpty || value == constraint.value

/-- Tests whether a node meets constraints, up to the first one that it doesn't meet. -/
def allHold (position : Position) : List Constraint → Reading Bool
  | [] => return true
  | constraint :: rest => do
    if ← constraint.holds position then allHold position rest else return false

/-- Tests whether a node meets the constraints of a step. -/
def Step.accepts (step : Step) (position : Position) : Reading Bool :=
  allHold position step.constraints

/-- The anchor of an absolute path with the given first step. -/
def Origin.anchor (origin : Origin) (step : Step) : Reading (Option Position) := do
  let root ← Reading.call .rootOf origin.position.id origin.root
  match root with
  | none => return none
  | some root =>
    if step.axis = .unsupported then return none
    else
      let name ← root.tellName
      if !step.matchesName name then .fail (.rootMismatch step.name name)
      else if ← step.accepts root then return some root
      else return none

/-- Compiles a path expression in relation to an origin. -/
def Path.compile (origin : Option Origin) (expression : String) (mode : EmptyPath) :
    Reading Path := do
  match origin with
  | none => .fail .absentOrigin
  | some origin =>
    let here : Step := { name := ← origin.position.tellName }
    if expression.isEmpty then
      match mode with
      | .self => return ⟨some origin.position, [here]⟩
      | .children => return ⟨some origin.position, [here, { axis := .anyChild }]⟩
    else
      match compileSteps expression with
      | .error step => .fail (.malformed step)
      | .ok steps =>
        if isAbsolute expression then
          match steps with
          | [] => .fail .emptyPath
          | first :: _ =>
            let anchor ← origin.anchor first
            return ⟨anchor, steps⟩
        else return ⟨some origin.position, here :: steps⟩

end MarkupPath
