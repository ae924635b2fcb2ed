import MarkupPath.Proofs.Search.Routes

/-!
# The order of the matches

A search gets to the nodes that a step selects at one node in document order, and goes on from each
of them before it gets to the next. So its routes come in lexicographic order, compared by the first
step at which they part (`routes_pairwise`).

The matches at their ends are in document order as long as the nodes in between are apart: a step
downwards keeps the order of nodes none of which is contained in another one, a step upwards keeps
it if that holds of the nodes that it gets to (`Step.KeepsOrder`). Two nodes, one in the other, have
descendants in common, and these are matched again for each of them. Main statement:
`Path.inDocumentOrder`.
-/

namespace MarkupPath

/-! ## Routes -/

namespace Forest

variable {forest : Forest} {step : Step}

/-- A node comes before another one in document order. -/
def Precedes (forest : Forest) (former later : NodeId) : Prop := [former, later].Sublist forest.ids

/-- A list that is in document order. -/
theorem pairwise_precedes {ids : List NodeId} (h : ids.Sublist forest.ids) :
    ids.Pairwise forest.Precedes :=
  List.pairwise_iff_forall_sublist.mpr fun hp => hp.trans h

theorem Precedes.ne {former later : NodeId} (h : forest.IsSound)
    (hp : forest.Precedes former later) : former ≠ later :=
  List.pairwise_iff_forall_sublist.mp h.nodup hp

/-- At one node a step selects nodes in document order. -/
theorem selectsAt_sublist (h : forest.IsSound) (step : Step) (id : NodeId) :
    (forest.selectsAt step id).Sublist forest.ids := by
  rw [selectsAt]
  split
  · exact List.nil_sublist _
  · rename_i position hp
    rw [← ids_positions]
    exact (selects_sublist step (mem_positions h hp)).map Position.id

/-- Routes come in lexicographic order, none of them twice. By induction on the steps: routes part
at the first one or behind it. -/
theorem routes_pairwise (h : forest.IsSound) (steps : List Step) (id : NodeId) :
    (forest.routes steps id).Pairwise (List.Lex forest.Precedes) := by
  induction steps generalizing id with
  | nil => exact List.pairwise_singleton _ _
  | cons step steps ih =>
    rw [routes, List.pairwise_flatMap]
    constructor
    · intro next _
      exact (ih next).map _ fun _ _ hl => .cons hl
    · apply (pairwise_precedes (selectsAt_sublist h step id)).imp
      intro former later hp route hr other ho
      obtain ⟨front, hf, rfl⟩ := List.mem_map.mp hr
      obtain ⟨back, hb, rfl⟩ := List.mem_map.mp ho
      obtain ⟨-, rfl⟩ := exists_cons_of_mem_routes hf
      obtain ⟨-, rfl⟩ := exists_cons_of_mem_routes hb
      exact .cons (.rel hp)

end Forest

/-! ## Steps -/

/-- Whether nodes are found in document order along an axis: downwards if those are apart that the
way starts from, upwards if those are that are found. -/
def Axis.KeepsOrder (starts found : List Position) : Axis → Prop
  | .children | .anyChild | .descendants => AreApart starts
  | .parent => AreApart found
  | .self | .root | .unsupported => True

instance Axis.decidableKeepsOrder (starts found : List Position) :
    (axis : Axis) → Decidable (axis.KeepsOrder starts found)
  | .children | .anyChild | .descendants => inferInstanceAs (Decidable (AreApart starts))
  | .parent => inferInstanceAs (Decidable (AreApart found))
  | .self | .root | .unsupported => .isTrue trivial

/-- A step that selects nodes in document order if it starts from nodes in document order. -/
def Step.KeepsOrder (step : Step) (starts : List Position) : Prop :=
  step.axis.KeepsOrder starts (starts.flatMap step.selects)

instance (step : Step) (starts : List Position) : Decidable (step.KeepsOrder starts) :=
  step.axis.decidableKeepsOrder starts _

namespace Step

variable {step : Step} {up : Option Position} {nodes starts : List Position}

/-- What a step upwards selects is the parent, or nothing. -/
theorem selects_of_parent (hx : step.axis = .parent) (context : Position) :
    step.selects context = (step.selects context).head?.toList ∧
      ∀ parent, (step.selects context).head? = some parent → context.parent? = some parent := by
  have hs := step.selects_sublist context
  simp only [reachable, hx] at hs
  cases hp : context.parent? with
  | none =>
    rw [hp] at hs
    rw [List.sublist_nil.mp hs]
    exact ⟨rfl, fun _ h => by cases h⟩
  | some parent =>
    rw [hp] at hs
    rcases List.sublist_singleton.mp hs with hn | hone
    · rw [hn]
      exact ⟨rfl, fun _ h => by cases h⟩
    · rw [hone]
      exact ⟨rfl, fun _ h => h⟩

/-- What is selected below nodes that are apart is in document order. -/
theorem flatMap_selects_below (h : IsPreorder none nodes) (hs : starts.Sublist nodes)
    (ha : AreApart starts)
    (hr : ∀ context, (step.reachable context).Sublist context.descendants) :
    (starts.flatMap step.selects).Sublist nodes := by
  have hbelow : (starts.flatMap step.selects).Sublist (starts.flatMap Position.descendants) := by
    apply List.Sublist.flatMap_right
    intro context _
    exact (step.selects_sublist context).trans (hr context)
  exact hbelow.trans (h.flatMap_descendants_sublist hs ha)

/-- What is selected at the nodes themselves is in the order that they are in. -/
theorem flatMap_selects_here (hs : starts.Sublist nodes)
    (hr : ∀ context, (step.reachable context).Sublist [context]) :
    (starts.flatMap step.selects).Sublist nodes := by
  have hself : (starts.flatMap step.selects).Sublist (starts.flatMap fun context => [context]) := by
    apply List.Sublist.flatMap_right
    intro context _
    exact (step.selects_sublist context).trans (hr context)
  rw [List.flatMap_singleton'] at hself
  exact hself.trans hs

/-- What a step selects from nodes in document order is in document order, if the step keeps it. -/
theorem flatMap_selects_sublist (h : IsPreorder none nodes) (hs : starts.Sublist nodes)
    (hk : step.KeepsOrder starts) : (starts.flatMap step.selects).Sublist nodes := by
  simp only [KeepsOrder] at hk
  cases hx : step.axis <;> simp only [hx, Axis.KeepsOrder] at hk
  case children | anyChild =>
    apply flatMap_selects_below h hs hk
    intro context
    simp only [reachable, hx]
    exact context.children_sublist
  case descendants =>
    apply flatMap_selects_below h hs hk
    intro context
    simp only [reachable, hx]
    exact List.Sublist.refl _
  case parent =>
    have he : starts.flatMap step.selects =
        starts.filterMap fun context => (step.selects context).head? := by
      rw [List.filterMap_eq_flatMap_toList]
      apply List.flatMap_congr
      intro context _
      exact (selects_of_parent hx context).1
    rw [he] at hk ⊢
    refine h.filterMap_parent_sublist (fun context => (selects_of_parent hx context).2) hs hk ?_
    intro parent _ hn
    cases hn
  case self =>
    apply flatMap_selects_here hs
    intro context
    simp only [reachable, hx]
    exact List.Sublist.refl _
  case root | unsupported =>
    apply flatMap_selects_here hs
    intro context
    simp only [reachable, hx]
    exact List.nil_sublist _

end Step

/-! ## Paths -/

/-- Steps each of which keeps the order of the nodes that those before it select. -/
def KeepOrder : List Step → List Position → Prop
  | [], _ => True
  | step :: steps, starts => step.KeepsOrder starts ∧ KeepOrder steps (starts.flatMap step.selects)

instance decidableKeepOrder : (steps : List Step) → (starts : List Position) →
    Decidable (KeepOrder steps starts)
  | [], _ => .isTrue trivial
  | step :: steps, starts =>
    have := decidableKeepOrder steps (starts.flatMap step.selects)
    inferInstanceAs (Decidable (_ ∧ _))

/-- What steps select from nodes in document order is in document order, if they keep it. -/
theorem flatMap_selected_sublist {nodes starts : List Position} {steps : List Step}
    (h : IsPreorder none nodes) (hs : starts.Sublist nodes) (hk : KeepOrder steps starts) :
    (starts.flatMap fun context => selected context steps).Sublist nodes := by
  induction steps generalizing starts with
  | nil =>
    simp only [selected]
    rwa [List.flatMap_singleton']
  | cons step steps ih =>
    simp only [selected]
    rw [← List.flatMap_assoc]
    exact ih (Step.flatMap_selects_sublist h hs hk.1) hk.2

namespace Path

/-- All steps behind the anchor step keep the order. -/
def KeepsOrder (path : Path) : Prop := KeepOrder (path.steps.drop 1) path.anchor.toList

instance (path : Path) : Decidable path.KeepsOrder :=
  inferInstanceAs (Decidable (KeepOrder _ _))

variable {forest : Forest} {node : NodeId} {expression : String} {mode : EmptyPath} {path : Path}

/-- The enumeration of the nodes that a path selects is in document order, if the path starts at a
node of the forest. -/
theorem selected_sublist_of_mem
    (ha : ∀ anchor, path.anchor = some anchor → anchor ∈ forest.positions)
    (hk : path.KeepsOrder) : (path.selected.map Position.id).Sublist forest.ids := by
  rw [← forest.ids_positions]
  apply List.Sublist.map
  rw [KeepsOrder] at hk
  rw [selected]
  cases hp : path.anchor with
  | none => exact List.nil_sublist _
  | some anchor =>
    rw [hp] at hk
    have hs := flatMap_selected_sublist forest.positions_isPreorder
      (List.singleton_sublist.mpr (ha anchor hp)) hk
    rwa [List.flatMap_singleton] at hs

/-- The same for a path that is compiled there. -/
theorem selected_sublist (h : forest.IsSound)
    (hc : (compile (forest.origin? node) expression mode).outcome = .ok path)
    (hk : path.KeepsOrder) : (path.selected.map Position.id).Sublist forest.ids :=
  selected_sublist_of_mem
    (fun _ ha => Forest.mem_positions h (Forest.position?_anchor hc ha)) hk

/-- What a cursor rests at is one of the nodes that are enumerated, that with the number of moves as
its index. -/
theorem getElem?_of_currentAfter {n : Nat} {position : Position} (hn : path.steps ≠ [])
    (h : (path.currentAfter n).outcome = .ok (some position)) :
    path.selected[n]? = some position := by
  rw [outcome_currentAfter hn] at h
  cases hs : sightingAt n path.sightings with
  | error refusal =>
    rw [hs] at h
    cases h
  | ok found =>
    rw [hs] at h
    cases h
    exact (path.sightings_agrees.sightingAt hs).symm

/-- A search takes its routes in lexicographic order and none of them twice, and after a number of
moves it rests at the end of the route with that index. If all steps keep the order, it gets to the
nodes in document order and to none of them twice. Unless there's a refusal it gets to the ends of
all routes. -/
theorem inDocumentOrder (h : forest.IsSound)
    (hc : (compile (forest.origin? node) expression mode).outcome = .ok path) :
    (path.routes forest).Pairwise (List.Lex forest.Precedes) ∧
    (∀ n position, (path.currentAfter n).outcome = .ok (some position) →
      ∃ route, (path.routes forest)[n]? = some route ∧ route.getLast? = some position.id) ∧
    (path.KeepsOrder → ∀ m n former later, m < n →
      (path.currentAfter m).outcome = .ok (some former) →
      (path.currentAfter n).outcome = .ok (some later) →
      forest.Precedes former.id later.id ∧ former.id ≠ later.id) ∧
    (path.IsReadable → ∃ nodes, forest.Selects node expression mode nodes ∧
      nodes.map some = (path.routes forest).map List.getLast? ∧
      (path.KeepsOrder → nodes.Sublist forest.ids ∧ nodes.Nodup)) := by
  have hends := ends_routes h hc
  have hsteps := steps_ne_nil hc
  refine ⟨?_, ?_, ?_, ?_⟩
  · rw [routes]
    cases path.anchor with
    | none => exact .nil
    | some anchor =>
      rw [Option.toList_some, List.flatMap_singleton]
      exact Forest.routes_pairwise h _ _
  · intro n position hn
    have hget := congrArg (·[n]?) hends
    simp only [List.getElem?_map, getElem?_of_currentAfter hsteps hn, Option.map_some] at hget
    exact Option.map_eq_some_iff.mp hget
  · intro hk m n former later hlt hm hn
    obtain ⟨hml, rfl⟩ := List.getElem?_eq_some_iff.mp (getElem?_of_currentAfter hsteps hm)
    obtain ⟨hnl, rfl⟩ := List.getElem?_eq_some_iff.mp (getElem?_of_currentAfter hsteps hn)
    have hall := Forest.pairwise_precedes (selected_sublist h hc hk)
    have hp := List.pairwise_iff_getElem.mp (List.pairwise_map.mp hall) m n hml hnl hlt
    exact ⟨hp, hp.ne h⟩
  · intro hr
    refine ⟨_, (Forest.selects_iff_selected hc).mpr ⟨hr, rfl⟩, hends.symm, fun hk => ?_⟩
    have hs := selected_sublist h hc hk
    exact ⟨hs, hs.nodup h.nodup⟩

end Path

/-- Two nodes, one in the other, each with a child of the same name. -/
def nestedForest : Forest where
  trees := [⟨.element { id := ⟨0⟩, name := { localPart := "r" } }
    (.element { id := ⟨1⟩, name := { localPart := "a" } }
      (.element { id := ⟨2⟩, name := { localPart := "a" } }
        (.element { id := ⟨3⟩, name := { localPart := "b" } } .nil none .nil) none
        (.element { id := ⟨4⟩, name := { localPart := "b" } } .nil none .nil)) none .nil)
    none .nil, 0⟩]
  next := 5

theorem nestedForest_isSound : nestedForest.IsSound := ⟨by decide, by decide, by decide⟩

theorem inDocumentOrder_nestedForest :
    nestedForest.IsSound ∧ ∃ path : Path,
      (Path.compile (nestedForest.origin? ⟨0⟩) "a/a/..//b" .self).outcome = .ok path ∧
        path.routes nestedForest = [[⟨0⟩, ⟨1⟩, ⟨2⟩, ⟨1⟩, ⟨3⟩], [⟨0⟩, ⟨1⟩, ⟨2⟩, ⟨1⟩, ⟨4⟩]] ∧
        (path.routes nestedForest).Pairwise (List.Lex nestedForest.Precedes) ∧
        ∃ nodes, nestedForest.Selects ⟨0⟩ "a/a/..//b" .self nodes ∧
          nodes.Sublist nestedForest.ids ∧ nodes.Nodup := by
  obtain ⟨path, hc, hroutes, hk, hr⟩ : ∃ path : Path,
      (Path.compile (nestedForest.origin? ⟨0⟩) "a/a/..//b" .self).outcome = .ok path ∧
        path.routes nestedForest = [[⟨0⟩, ⟨1⟩, ⟨2⟩, ⟨1⟩, ⟨3⟩], [⟨0⟩, ⟨1⟩, ⟨2⟩, ⟨1⟩, ⟨4⟩]] ∧
        path.KeepsOrder ∧ path.IsReadable := ⟨_, rfl, by decide, by decide, by decide⟩
  obtain ⟨hlex, -, -, hread⟩ := Path.inDocumentOrder nestedForest_isSound hc
  obtain ⟨nodes, hs, -, ho⟩ := hread hr
  exact ⟨nestedForest_isSound, path, hc, hroutes, hlex, nodes, hs, ho hk⟩

/-- A node below two others, one in the other, is selected for both of them, and after a node that
comes later. -/
theorem selects_nestedForest : nestedForest.Selects ⟨0⟩ "//a//b" .self [⟨3⟩, ⟨4⟩, ⟨3⟩] := by
  obtain ⟨path, hc, hr, hs⟩ : ∃ path : Path,
      (Path.compile (nestedForest.origin? ⟨0⟩) "//a//b" .self).outcome = .ok path ∧
        path.IsReadable ∧ path.selected.map Position.id = [⟨3⟩, ⟨4⟩, ⟨3⟩] :=
    ⟨_, rfl, by decide, by decide⟩
  exact (Forest.selects_iff_selected hc).mpr ⟨hr, hs⟩

/-- Not all searches list the nodes in document order, and not all list each node once. -/
theorem not_inDocumentOrder :
    ¬ ∀ (forest : Forest) (node : NodeId) (expression : String) (mode : EmptyPath)
      (nodes : List NodeId), forest.IsSound → forest.Selects node expression mode nodes →
      nodes.Sublist forest.ids ∧ nodes.Nodup := by
  intro h
  obtain ⟨-, hn⟩ := h nestedForest ⟨0⟩ "//a//b" .self _ nestedForest_isSound selects_nestedForest
  exact absurd hn (by decide)

end MarkupPath
