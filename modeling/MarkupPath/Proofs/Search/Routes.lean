import MarkupPath.Proofs.Search.Descent
import MarkupPath.Proofs.Search.Origins

/-!
# Routes

A match comes with the nodes that the steps before it were bound to. `Forest.routes` lists these
chains, from the node where the search starts to the match, in the order in which a search gets to
them. Their ends are the nodes that the steps select (`ends_routes`).

Nodes are given by their identities here, so that routes in different forests can be compared. All
that a step does at a node is told by how that node and those on the axis are set (`selectsAt_eq`).
-/

namespace MarkupPath

/-! ## Steps -/

namespace Step

/-- The nodes on the axis of a step, given how the node is set where it starts. -/
def reach (step : Step) (setting : Setting) : List NodeId :=
  match step.axis with
  | .children | .anyChild => setting.element.content.elements.map Element.id
  | .descendants => setting.element.content.ids
  | .self => [setting.element.id]
  | .parent => setting.parent.toList
  | .root | .unsupported => []

/-- Whether a node on the axis is selected. -/
def admits (step : Step) (position : Position) : Bool :=
  step.matchesName position.name &&
    step.constraints.all fun constraint => constraint.IsMet position

theorem selects_eq_filter (step : Step) (context : Position) :
    step.selects context = (step.reachable context).filter step.admits := by
  rw [selects, candidates, List.filter_filter]
  apply List.filter_congr
  intro position _
  exact Bool.and_comm _ _

theorem ids_reachable (step : Step) (context : Position) :
    (step.reachable context).map Position.id = step.reach context.setting := by
  have hchildren (parent : Position) (index : Nat) (content : Content) :
      (Position.allIn parent index content).map Position.id =
        content.elements.map Element.id := by
    induction content generalizing index with
    | nil => rfl
    | element tag children tail rest _ ih => exact congrArg (_ :: ·) (ih _)
    | comment text tail rest ih => exact ih index
    | instruction target data tail rest ih => exact ih index
  simp only [reachable, reach]
  cases step.axis
  case children | anyChild => exact hchildren _ _ _
  case descendants => exact context.ids_descendants
  case parent => cases context <;> rfl
  case self | root | unsupported => rfl

/-- Whether a node is selected is told by its tag and the declarations in effect. -/
theorem admits_congr {position other : Position} (step : Step)
    (ht : other.element.tag = position.element.tag) (hs : other.scope = position.scope) :
    step.admits other = step.admits position := by
  have hv (name : String) : other.value? name = position.value? name := by
    rw [Position.value?, Position.value?, ht, hs]
  have hm (constraint : Constraint) : constraint.IsMet other ↔ constraint.IsMet position := by
    rw [Constraint.IsMet, Constraint.IsMet, hv]
  rw [admits, admits, Position.name, Position.name, ht]
  exact congrArg (_ && List.all _ ·) (funext fun constraint => decide_eq_decide.mpr (hm constraint))

end Step

namespace Forest

variable {forest : Forest} {step : Step} {id : NodeId}

/-! ## Routes -/

/-- The nodes that a step selects at a node. -/
def selectsAt (forest : Forest) (step : Step) (id : NodeId) : List NodeId :=
  match forest.position? id with
  | none => []
  | some position => (step.selects position).map Position.id

/-- The chains of nodes that steps are bound to one after the other, each behind the node where the
search starts. -/
def routes (forest : Forest) : (steps : List Step) → NodeId → List (List NodeId)
  | [], id => [[id]]
  | step :: steps, id =>
    (forest.selectsAt step id).flatMap fun next => (forest.routes steps next).map (id :: ·)

/-- Whether a node is selected that is on the axis of a step. -/
def admits (forest : Forest) (step : Step) (id : NodeId) : Bool :=
  (forest.position? id).any step.admits

/-- A route starts where the search does. -/
theorem exists_cons_of_mem_routes {steps : List Step} {route : List NodeId}
    (h : route ∈ forest.routes steps id) : ∃ rest, route = id :: rest := by
  cases steps with
  | nil => exact ⟨[], List.mem_singleton.mp h⟩
  | cons step steps =>
    obtain ⟨next, -, hm⟩ := List.mem_flatMap.mp h
    obtain ⟨rest, -, rfl⟩ := List.mem_map.mp hm
    exact ⟨rest, rfl⟩

/-- What a step selects is those on its axis that it admits. -/
theorem selectsAt_eq {setting : Setting} (h : forest.IsSound)
    (hs : forest.setting? id = some setting) :
    forest.selectsAt step id = (step.reach setting).filter (forest.admits step) := by
  obtain ⟨context, hc, rfl⟩ := exists_position? hs
  have hadmits : ∀ position ∈ step.reachable context,
      step.admits position = forest.admits step position.id := by
    intro position hm
    have hp := (position?_eq_some_iff h).mpr
      ⟨(reachable_sublist step (mem_positions h hc)).subset hm, rfl⟩
    rw [admits, hp, Option.any_some]
  rw [selectsAt, hc, ← Step.ids_reachable, List.filter_map]
  dsimp only
  rw [Step.selects_eq_filter, List.filter_congr hadmits]
  rfl

/-- The ends of the routes are the nodes that the steps select. -/
theorem ends_routes {context : Position} (h : forest.IsSound) (hc : context ∈ forest.positions)
    (steps : List Step) :
    (forest.routes steps context.id).map List.getLast? =
      ((selected context steps).map Position.id).map some := by
  induction steps generalizing context with
  | nil => rfl
  | cons step steps ih =>
    have hp := (position?_eq_some_iff h).mpr ⟨hc, rfl⟩
    -- a route ends where it goes on to
    have hlast (next : NodeId) :
        ((forest.routes steps next).map (context.id :: ·)).map List.getLast? =
          (forest.routes steps next).map List.getLast? := by
      rw [List.map_map]
      apply List.map_congr_left
      intro route hm
      obtain ⟨rest, rfl⟩ := exists_cons_of_mem_routes hm
      exact List.getLast?_cons_cons
    rw [routes, selectsAt, hp, selected, List.map_flatMap, List.map_flatMap, List.map_flatMap,
      List.flatMap_map]
    apply List.flatMap_congr
    intro position hm
    rw [hlast]
    exact ih ((selects_sublist step hc).subset hm)

end Forest

/-- The routes that a search along a path takes to its matches. Without an anchor there are none. -/
def Path.routes (forest : Forest) (path : Path) : List (List NodeId) :=
  path.anchor.toList.flatMap fun anchor => forest.routes (path.steps.drop 1) anchor.id

/-- The matches of a path are the ends of its routes. -/
theorem Path.ends_routes {forest : Forest} {node : NodeId} {expression : String} {mode : EmptyPath}
    {path : Path} (h : forest.IsSound)
    (hc : (compile (forest.origin? node) expression mode).outcome = .ok path) :
    (path.routes forest).map List.getLast? = (path.selected.map Position.id).map some := by
  rw [routes, selected]
  cases ha : path.anchor with
  | none => rfl
  | some anchor =>
    rw [Option.toList_some, List.flatMap_singleton]
    exact Forest.ends_routes h (Forest.mem_positions h (Forest.position?_anchor hc ha)) _

end MarkupPath
