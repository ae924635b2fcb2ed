import MarkupPath.Proofs.Search.Sightings
import MarkupPath.Proofs.Tree.Setting

/-!
# Searching downwards

A search for children depends on nothing but the element where it starts and the declarations in
effect there: neither on what is above it nor on its siblings. `Element.sightings` is such a search,
by recursion on the steps and without positions; it comes upon the same nodes and refusals as a
search that starts at a position of the element (`sightings_descend`).
-/

namespace MarkupPath

/-- The elements of a content that aren't contained in others. -/
def Content.elements : Content → List Element
  | nil => []
  | element tag children _ rest => ⟨tag, children⟩ :: rest.elements
  | comment _ _ rest => rest.elements
  | instruction _ _ _ rest => rest.elements

@[simp] theorem Content.elements_append (content more : Content) :
    (content ++ more).elements = content.elements ++ more.elements := by
  induction content with
  | nil => rfl
  | element tag children tail rest _ ih => simp [elements, ih]
  | comment text tail rest ih => simpa [elements] using ih
  | instruction target data tail rest ih => simpa [elements] using ih

@[simp] theorem Content.elements_single (element : Element) (tail : Option String) :
    (single element tail).elements = [element] := rfl

/-- A step to the children of a given name. -/
def Step.IsNamedChild (step : Step) : Prop := step.axis = .children ∧ step.name.isEmpty = false

/-! ## Without positions -/

/-- The value of an attribute, given its written name and the declarations in effect. -/
def Tag.valueIn? (scope : Scope) (tag : Tag) (name : String) : Except Refusal (Option String) :=
  (UniversalName.ofAttribute? scope name).map fun key => key.bind tag.value?

/-- Whether a tag meets constraints where `scope` is in effect. -/
def Tag.judge (scope : Scope) (tag : Tag) : List Constraint → Except Refusal Bool
  | [] => .ok true
  | constraint :: rest =>
    match tag.valueIn? scope constraint.name with
    | .error refusal => .error refusal
    | .ok value => if constraint.isMetBy value then tag.judge scope rest else .ok false

/-- What a search comes upon at a child: what is below it if the step selects it. -/
def Step.visit (step : Step) (scope : Scope) (tag : Tag) (below : List (Except Refusal NodeId)) :
    List (Except Refusal NodeId) :=
  match tag.name.refusal? with
  | some refusal => [.error refusal]
  | none =>
    if step.matchesName tag.name.written then
      match tag.judge scope step.constraints with
      | .error refusal => [.error refusal]
      | .ok true => below
      | .ok false => []
    else []

/-- What a search for children comes upon below an element where `scope` is in effect. -/
def Element.sightings (scope : Scope) (element : Element) :
    List Step → List (Except Refusal NodeId)
  | [] => [.ok element.id]
  | step :: steps =>
    element.content.elements.flatMap fun child =>
      step.visit (child.tag.declarations ++ scope) child.tag
        (child.sightings (child.tag.declarations ++ scope) steps)

/-! ## With positions -/

theorem Position.judge_eq (position : Position) (constraints : List Constraint) :
    position.judge constraints = position.element.tag.judge position.scope constraints := by
  induction constraints with
  | nil => rfl
  | cons constraint rest ih =>
    rw [judge, Tag.judge, ih]
    rfl

namespace Step

variable {step : Step}

theorem pursue_sight (h : step.IsNamedChild) (below : Position → List Sighting)
    (position : Position) :
    ((step.sight position).toList.flatMap (step.pursue below)).map (Except.map Position.id) =
      step.visit position.scope position.element.tag
        ((below position).map (Except.map Position.id)) := by
  have ha : step.asksNames = true := by simp [asksNames, h.1, h.2]
  cases hr : position.refusal? with
  | some refusal =>
    rw [sight_of_refusal ha hr]
    have hr : position.element.tag.name.refusal? = some refusal := hr
    simp [visit, hr, pursue, Except.map]
  | none =>
    rw [sight_of_told step fun _ => hr]
    have hr : position.element.tag.name.refusal? = none := hr
    rw [visit, hr]
    by_cases hm : step.matchesName position.name = true
    · have hm' : step.matchesName position.element.tag.name.written = true := hm
      rw [if_pos hm, if_pos hm', ← Position.judge_eq]
      simp only [Option.toList_some, List.flatMap_cons, List.flatMap_nil, List.append_nil, pursue]
      cases position.judge step.constraints with
      | error refusal => rfl
      | ok verdict => cases verdict <;> rfl
    · have hm' : ¬ step.matchesName position.element.tag.name.written = true := hm
      rw [if_neg hm, if_neg hm']
      rfl

theorem map_pursue_allIn (h : step.IsNamedChild) (below : Position → List Sighting)
    (parent : Position) (index : Nat) (content : Content) :
    (((Position.allIn parent index content).filterMap step.sight).flatMap
        (step.pursue below)).map (Except.map Position.id) =
      (Position.allIn parent index content).flatMap fun position =>
        step.visit position.scope position.element.tag
          ((below position).map (Except.map Position.id)) := by
  induction Position.allIn parent index content with
  | nil => rfl
  | cons position rest ih =>
    have hf : (position :: rest).filterMap step.sight =
        (step.sight position).toList ++ rest.filterMap step.sight := by
      rw [List.filterMap_cons]
      cases step.sight position <;> rfl
    rw [hf, List.flatMap_append, List.map_append, ih, pursue_sight h, List.flatMap_cons]

end Step

theorem flatMap_allIn {β : Type} (f : Position → List β) (g : Element → List β)
    (parent : Position) (index : Nat) (content : Content)
    (h : ∀ index element following, f (.child parent index element following) = g element) :
    (Position.allIn parent index content).flatMap f = content.elements.flatMap g := by
  induction content generalizing index with
  | nil => rfl
  | element tag children tail rest _ ih =>
    rw [Position.allIn, Content.elements, List.flatMap_cons, List.flatMap_cons, h, ih]
  | comment text tail rest ih => exact ih _
  | instruction target data tail rest ih => exact ih _

/-- A search for children comes upon the same at all positions of an element where the same
declarations are in effect. -/
theorem sightings_descend {steps : List Step} (h : ∀ step ∈ steps, step.IsNamedChild)
    (position : Position) :
    (sightings position steps).map (Except.map Position.id) =
      position.element.sightings position.scope steps := by
  induction steps generalizing position with
  | nil => rfl
  | cons step steps ih =>
    have hstep := h step List.mem_cons_self
    have hbelow := fun position => ih (fun step hm => h step (List.mem_cons_of_mem _ hm)) position
    have hr : step.reachable position = position.children := by
      rw [Step.reachable, hstep.1]
    rw [sightings, Step.candidateSightings, hr, Position.children, Step.map_pursue_allIn hstep,
      Element.sightings]
    simp only [hbelow]
    exact flatMap_allIn _ _ _ _ _ fun index element following => rfl

end MarkupPath
