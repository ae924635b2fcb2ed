import Mathlib.Data.List.Nodup
import MarkupPath.Proofs.Forest.Soundness
import MarkupPath.Proofs.Tree.Preorder

/-!
# The positions in a forest

`Forest.positions` lists where all elements of a forest stand, in document order. Looking up an
identity finds the first position with it, which in a sound forest is the only one
(`position?_eq_some_iff`). What is below or above a position of the forest is one of its positions,
too (`reachable_sublist`), so every node that a search gets to is the one that is looked up by its
identity.
-/

namespace MarkupPath

namespace Position

variable {id : NodeId}

@[simp] theorem ids_allBelowIn (parent : Position) (index : Nat) (content : Content) :
    (allBelowIn parent index content).map Position.id = content.ids := by
  induction content generalizing parent index with
  | nil => rfl
  | element tag content tail rest ihc ihr =>
    rw [allBelowIn, List.map_cons, List.map_append, ihc, ihr]
    rfl
  | comment text tail rest ih => exact ih parent index
  | instruction target data tail rest ih => exact ih parent index

@[simp] theorem ids_descendants (position : Position) :
    position.descendants.map Position.id = position.element.content.ids :=
  ids_allBelowIn _ _ _

@[simp] theorem ids_allTop (content : Content) :
    (allTop content).map Position.id = content.ids := by
  induction content with
  | nil => rfl
  | element tag content tail rest _ ih =>
    rw [allTop, List.map_cons, List.map_append, ids_descendants, ih]
    rfl
  | comment text tail rest ih => exact ih
  | instruction target data tail rest ih => exact ih

theorem locateIn_eq_find? (id : NodeId) (parent : Position) (index : Nat) (content : Content) :
    locateIn id parent index content =
      (allBelowIn parent index content).find? (·.id = id) := by
  induction content generalizing parent index with
  | nil => rfl
  | element tag content tail rest ihc ihr =>
    rw [locateIn, allBelowIn]
    split
    · rename_i ht
      exact (List.find?_cons_of_pos (by exact decide_eq_true ht)).symm
    · rename_i ht
      rw [List.find?_cons_of_neg (by exact mt of_decide_eq_true ht), List.find?_append, ihc, ihr]
  | comment text tail rest ih => exact ih parent index
  | instruction target data tail rest ih => exact ih parent index

theorem locate_eq_find? (id : NodeId) (content : Content) :
    locate id content = (allTop content).find? (·.id = id) := by
  induction content with
  | nil => rfl
  | element tag content tail rest _ ih =>
    rw [locate, allTop]
    split
    · rename_i ht
      exact (List.find?_cons_of_pos (by exact decide_eq_true ht)).symm
    · rename_i ht
      rw [List.find?_cons_of_neg (by exact mt of_decide_eq_true ht), List.find?_append,
        locateIn_eq_find?, ih]
      rfl
  | comment text tail rest ih => exact ih
  | instruction target data tail rest ih => exact ih

end Position

theorem Step.selects_sublist (step : Step) (context : Position) :
    (step.selects context).Sublist (step.reachable context) :=
  List.filter_sublist.trans List.filter_sublist

namespace Forest

variable {forest : Forest} {position : Position} {id : NodeId}

/-- Where the elements stand, in document order. -/
def positions (forest : Forest) : List Position := forest.contents.flatMap Position.allTop

theorem ids_positions (forest : Forest) : forest.positions.map Position.id = forest.ids := by
  rw [positions, ids, joined]
  induction forest.contents with
  | nil => rfl
  | cons content rest ih =>
    rw [List.flatMap_cons, List.map_append, ih, Position.ids_allTop, Content.join,
      Content.ids_append]

theorem positions_isPreorder (forest : Forest) : IsPreorder none forest.positions := by
  rw [positions]
  induction forest.contents with
  | nil => exact .nil _
  | cons content rest ih => exact (Position.allTop_isPreorder content).append ih

theorem position?_eq_find? (forest : Forest) (id : NodeId) :
    forest.position? id = forest.positions.find? (·.id = id) := by
  rw [positions, List.find?_flatMap, position?]
  exact congrArg (List.findSome? · _) (funext (Position.locate_eq_find? id))

/-- In a sound forest an identity tells where its element stands. -/
theorem position?_eq_some_iff (h : forest.IsSound) :
    forest.position? id = some position ↔ position ∈ forest.positions ∧ position.id = id := by
  rw [position?_eq_find?]
  constructor
  · intro hf
    exact ⟨List.mem_of_find?_eq_some hf, by simpa using List.find?_some hf⟩
  · rintro ⟨hm, rfl⟩
    cases hf : forest.positions.find? (·.id = position.id) with
    | none => exact absurd (decide_eq_true rfl) (List.find?_eq_none.mp hf position hm)
    | some other =>
      have hn := h.nodup
      rw [← ids_positions] at hn
      have hi : other.id = position.id := by simpa using List.find?_some hf
      rw [List.inj_on_of_nodup_map hn (List.mem_of_find?_eq_some hf) hm hi]

theorem mem_positions (h : forest.IsSound) (hp : forest.position? id = some position) :
    position ∈ forest.positions :=
  ((position?_eq_some_iff h).mp hp).1

/-- The nodes on the axis of a step stand in the same forest, in the same order. -/
theorem reachable_sublist {context : Position} (step : Step) (hc : context ∈ forest.positions) :
    (step.reachable context).Sublist forest.positions := by
  have hbelow := forest.positions_isPreorder.descendants_sublist hc
  simp only [Step.reachable]
  cases step.axis
  case children | anyChild => exact context.children_sublist.trans hbelow
  case descendants => exact hbelow
  case self => exact List.singleton_sublist.mpr hc
  case parent =>
    cases hp : context.parent? with
    | none => exact List.nil_sublist _
    | some parent =>
      rcases forest.positions_isPreorder.mem_of_parent hc hp with hn | hm
      · cases hn
      · exact List.singleton_sublist.mpr hm
  case root | unsupported => exact List.nil_sublist _

theorem selects_sublist {context : Position} (step : Step) (hc : context ∈ forest.positions) :
    (step.selects context).Sublist forest.positions :=
  (step.selects_sublist context).trans (reachable_sublist step hc)

end Forest
end MarkupPath
