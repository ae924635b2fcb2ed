import MarkupPath.Text.Quoted

/-!
# Location steps

One step of a path: an axis that says where its nodes are looked for in relation to a context
node, a name that they must have and constraints on their attributes.

The text of a step is the shortest expression that stands for it; `MarkupPath.Path.StepReader`
compiles expressions.
-/

namespace MarkupPath

/-- Where the nodes of a step are looked for. -/
inductive Axis where
  /-- the child elements of the context node -/
  | children
  /-- the child elements, asked for by a wildcard -/
  | anyChild
  /-- the elements below the context node, at any depth -/
  | descendants
  /-- the context node -/
  | self
  /-- the parent of the context node -/
  | parent
  /-- the root of the tree, only as the first step of an absolute path -/
  | root
  /-- nowhere: the step holds a predicate that isn't understood -/
  | unsupported
deriving DecidableEq, Repr

/-- A condition on an attribute. Without a value it asks for the attribute's presence. -/
structure Constraint where
  /-- the attribute's name, possibly with a namespace qualifier -/
  name : String
  /-- the value that the attribute must have, unless it's empty -/
  value : String := ""
deriving DecidableEq, Repr

/-- A compiled step of a path. -/
structure Step where
  /-- the name that nodes must have, any if it's empty -/
  name : String := ""
  /-- where the nodes are looked for -/
  axis : Axis := .children
  /-- the conditions on attributes, all of which must hold -/
  constraints : List Constraint := []
deriving DecidableEq, Repr

/-! ## The text of a step -/

/-- The predicate expression of a constraint. The value is put between single quotes, or double
ones if it holds a single quote. -/
def Constraint.text (constraint : Constraint) : String :=
  if constraint.value.isEmpty then "[@" ++ constraint.name ++ "]"
  else
    let quote := if constraint.value.toList.contains '\'' then "\"" else "'"
    "[@" ++ constraint.name ++ "=" ++ quote ++ constraint.value ++ quote ++ "]"

/-- The part of a step's text in front of its constraints. -/
def Step.nodeTest (step : Step) : String :=
  match step.axis with
  | .anyChild => "*"
  | .descendants | .root => "/" ++ (if step.name.isEmpty then "*" else step.name)
  | .self => "."
  | .parent => ".."
  | .children | .unsupported => step.name

/-- The expression that stands for a step. -/
def Step.text (step : Step) : String :=
  step.nodeTest ++ String.join (step.constraints.map Constraint.text)

/-! ## What a step asks for -/

/-- The name that is asked for, if there's one. -/
def Step.nameFilter (step : Step) : Option String :=
  if step.name.isEmpty then none else some step.name

/-- Whether a node of the given name passes the step's name test. -/
def Step.matchesName (step : Step) (name : String) : Bool :=
  step.name.isEmpty || name == step.name

/-- Whether a node can be made that the step selects: only a named child is described well
enough. -/
def Step.isMaterializable (step : Step) : Bool :=
  step.axis == .children && !step.name.isEmpty

/-! ## Descriptions -/

/-- The word for an axis in descriptions. -/
def Axis.label : Axis → String
  | .children => "Children"
  | .anyChild => "AnyChild"
  | .descendants => "AllDescendants"
  | .self => "Self"
  | .parent => "Parent"
  | .root => "Root"
  | .unsupported => "Unsupported"

/-- A description of a constraint that shows all of its fields. -/
def Constraint.description (constraint : Constraint) : String :=
  "AttributeConstraint(name=" ++ quoted constraint.name ++ ", value=" ++ quoted constraint.value
    ++ ")"

/-- A description of a step that shows all of its fields. -/
def Step.description (step : Step) : String :=
  "<LocationStep " ++ step.axis.label ++ " name_test=" ++ quoted step.name
    ++ " attribute_constraints=["
    ++ ", ".intercalate (step.constraints.map Constraint.description) ++ "]>"

end MarkupPath
