import MarkupPath.Proofs.Forest.Roots
import MarkupPath.Proofs.Markup.Legibility

/-!
# The names in a forest

In all forests that there can be, names are legible (`Reached.isLegible`), wherever their parts come
from: markup, names that elements are created for, or namespaces that are bound anew. So whatever
name an element has, whether it tells it or not, it's one in a node test (`Reached.isName`).
-/

namespace MarkupPath

open Markup StepReader

/-! ## Positions -/

/-- What stands at a position is legible, and so are the declarations in effect there. -/
structure Position.IsLegible (position : Position) : Prop where
  /-- the element is -/
  element : position.element.IsLegible
  /-- the declarations are -/
  scope : position.scope.IsLegible

theorem Content.IsLegible.allBelowIn {content : Content} {parent : Position}
    (h : content.IsLegible) (hp : parent.scope.IsLegible) (index : Nat) :
    ∀ position ∈ Position.allBelowIn parent index content, position.IsLegible := by
  induction content generalizing parent index with
  | nil => exact List.forall_mem_nil _
  | element tag children tail rest ihc ihr =>
    have hfirst : Position.IsLegible (.child parent index ⟨tag, children⟩ rest) :=
      ⟨⟨h.1, h.2.1⟩, h.1.declarations.append hp⟩
    intro position hm
    rcases List.mem_cons.mp hm with rfl | hm
    · exact hfirst
    · rcases List.mem_append.mp hm with hm | hm
      · exact ihc h.2.1 hfirst.scope 0 position hm
      · exact ihr h.2.2 hp (index + 1) position hm
  | comment text tail rest ih => exact ih h hp index
  | instruction target data tail rest ih => exact ih h hp index

theorem Content.IsLegible.allTop {content : Content} (h : content.IsLegible) :
    ∀ position ∈ Position.allTop content, position.IsLegible := by
  induction content with
  | nil => exact List.forall_mem_nil _
  | element tag children tail rest _ ih =>
    have hfirst : Position.IsLegible (.top ⟨tag, children⟩) := ⟨⟨h.1, h.2.1⟩, h.1.declarations⟩
    intro position hm
    rcases List.mem_cons.mp hm with rfl | hm
    · exact hfirst
    · rcases List.mem_append.mp hm with hm | hm
      · exact h.2.1.allBelowIn hfirst.scope 0 position hm
      · exact ih h.2.2 position hm
  | comment text tail rest ih => exact ih h
  | instruction target data tail rest ih => exact ih h

/-! ## New elements -/

theorem Name.IsPlain.isLegible {name : Name} (h : name.IsPlain) : name.IsLegible :=
  ⟨.of_isPlainName h.localPart, fun word hw => .of_isPlainName (h.qualifier word hw)⟩

theorem newTag_isLegible {scope : Scope} {name : String} {made : Tag} {minted : Nat}
    (h : newTag scope name = .ok (made, minted)) : made.IsLegible := by
  have hmade := newTag_isMade h
  have hname := hmade.plain.isLegible
  refine ⟨hname, fun declaration hm => ?_, ?_⟩
  · rw [hmade.declarations declaration hm]
    exact hname.qualifier
  · rw [hmade.attributes]
    exact List.forall_mem_nil _

/-- An attribute is written with a legible qualifier, whether that is declared already or not. -/
theorem Tag.IsLegible.give {tag : Tag} {scope : Scope} (h : tag.IsLegible) (hs : scope.IsLegible)
    (minted : Nat) (key : UniversalName) (value : String) :
    (tag.give scope minted key value).IsLegible := by
  unfold Tag.give
  split
  · exact h.setValue isLegibleQualifier_none key value
  · rename_i space _
    have hb : IsLegibleQualifier (scope.bind space none true minted).declaration.qualifier :=
      hs.bind isLegibleQualifier_none
    have hset := h.setValue hb key value
    dsimp only
    split
    · exact ⟨hset.name, hset.declarations.append (.singleton hb), hset.attributes⟩
    · exact hset

namespace Forest

variable {forest before after : Forest} {id node : NodeId}

/-- All tags in a forest are legible. -/
def IsLegible (forest : Forest) : Prop := ∀ content ∈ forest.contents, content.IsLegible

namespace IsLegible

theorem position {position : Position} (h : forest.IsLegible) (hp : position ∈ forest.positions) :
    position.IsLegible := by
  obtain ⟨content, hc, hm⟩ := List.mem_flatMap.mp hp
  exact (h content hc).allTop position hm

theorem position? {position : Position} (h : forest.IsLegible)
    (hp : forest.position? id = some position) : position.IsLegible := by
  rw [position?_eq_find?] at hp
  exact h.position (List.mem_of_find?_eq_some hp)

theorem scope (h : forest.IsLegible) (id : NodeId) : (forest.scope id).IsLegible := by
  rw [Forest.scope]
  cases hp : forest.position? id with
  | none => exact .nil
  | some position => exact (h.position? hp).scope

theorem find? {found : Element} {tail : Option String} (h : forest.IsLegible)
    (hf : forest.find? id = some (found, tail)) : found.IsLegible := by
  obtain ⟨content, hc, hf⟩ := List.exists_of_findSome?_eq_some hf
  exact (h content hc).find? hf

/-! ## Operations -/

theorem setMinted (h : forest.IsLegible) (id : NodeId) (minted : Nat) :
    (forest.setMinted id minted).IsLegible := by
  rw [IsLegible, contents_setMinted]
  exact h

theorem mapContent {change : Content → Content} (h : forest.IsLegible)
    (hc : ∀ content, content.IsLegible → (change content).IsLegible) :
    (forest.mapContent change).IsLegible := by
  rw [IsLegible, contents_mapContent]
  exact List.forall_mem_map.mpr fun content hm => hc content (h content hm)

theorem detach (h : forest.IsLegible) (node : NodeId) : (forest.detach node).IsLegible := by
  intro content hm
  obtain ⟨former, hf, rfl⟩ := exists_remove_of_mem_detach hm
  exact (h former hf).remove node

theorem addTree {content : Content} (h : forest.IsLegible) (hc : content.IsLegible)
    (minted : Nat) : (forest.addTree content minted).IsLegible := by
  intro other hm
  simp only [contents, Forest.addTree, List.map_append, List.mem_append, List.map_cons,
    List.map_nil, List.mem_singleton] at hm
  rcases hm with (hm | rfl) | hm
  · exact h other (List.mem_append_left _ hm)
  · exact hc.renumber _
  · exact h other (List.mem_append_right _ hm)

theorem load {document former : Document} {keepBlanks : Bool} {source : Source}
    {loaders : List Loader} (h : before.IsLegible)
    (hl : (loadWith before keepBlanks source [] loaders).map (former.setContent before) =
      .ok (document, after)) : after.IsLegible := by
  obtain ⟨content, loader, hload, rfl⟩ := exists_loader_of_load hl
  refine h.addTree ?_ 0
  rcases loader.cases_of_load hload with ⟨bytes, hr⟩ | ⟨node, hc⟩ | ⟨tree, ht, rfl⟩ | rfl
  · exact isLegible_readBytes hr
  · obtain ⟨⟨element, tail⟩, hf, rfl⟩ := Option.map_eq_some_iff.mp hc
    exact .single (h.find? hf).selfContained tail
  · exact h _ (List.mem_append_left _ (List.mem_map_of_mem ht))
  · trivial

theorem move {parent : NodeId} {spot : Spot} {place : Element → Option String → Content → Content}
    (h : before.IsLegible)
    (hp : ∀ new tail content, place new tail content = content.plant spot (.single new tail))
    (hm : before.move parent node place = some after) : after.IsLegible := by
  obtain ⟨position, found, tail, hposition, hf, -, rfl⟩ := move_eq_some hm
  have hmoved := (h.find? hf).rebind (h.position? hposition).scope (before.minted parent)
  refine ((h.detach node).mapContent fun content hc => ?_).setMinted _ _
  rw [hp]
  exact hc.plant spot (.single hmoved tail)

theorem insertFirst {parent : NodeId} (h : before.IsLegible)
    (hi : before.insertFirst parent node = some after) : after.IsLegible :=
  h.move (Content.insertFirst_eq_plant parent) hi

theorem insertAfter {parent reference : NodeId} (h : before.IsLegible)
    (hi : before.insertAfter parent reference node = some after) : after.IsLegible := by
  obtain ⟨position, -, rfl | hm⟩ := insertAfter_eq_some hi
  · exact h
  · exact h.move (Content.insertAfter_eq_plant reference) hm

theorem delete (h : forest.IsLegible) (node : NodeId) : (forest.delete node).IsLegible := by
  simp only [Forest.delete]
  split
  · rename_i position found tail owner _ hf _
    have hmoved := (h.find? hf).rebind .nil (forest.minted node)
    have hrest := (h.setMinted node (found.rebind [] (forest.minted node)).2).detach node
    intro content hm
    simp only [contents, List.map_append, List.mem_append, List.map_cons, List.map_nil,
      List.mem_singleton] at hm
    rcases hm with hm | hm | rfl
    · exact hrest content (List.mem_append_left _ hm)
    · exact hrest content (List.mem_append_right _ hm)
    · exact .single hmoved tail
  · exact h

theorem mapTag {change : Tag → Tag} (h : forest.IsLegible) (node : NodeId)
    (hc : ∀ tag, tag.IsLegible → (change tag).IsLegible) :
    (forest.mapContent (Content.mapTag node change)).IsLegible :=
  h.mapContent fun _ hm => hm.mapTag hc

end IsLegible

/-- In all forests that there can be, names are legible. -/
theorem Reached.isLegible (h : Reached forest) : forest.IsLegible := by
  induction h with
  | empty => exact List.forall_mem_nil _
  | load _ hl ih => exact ih.load hl
  | parse _ hl ih => exact ih.load hl
  | create _ hc ih =>
    obtain ⟨tag, minted, ht, -, rfl⟩ := create_eq_ok.mp hc
    have hnew : Element.IsLegible ⟨tag, .nil⟩ := ⟨newTag_isLegible ht, trivial⟩
    exact ih.addTree (.single hnew none) minted
  | insertFirst _ hi ih => exact ih.insertFirst hi
  | insertAfter _ hi ih => exact ih.insertAfter hi
  | delete node _ ih => exact ih.delete node
  | @setAttribute forest after node name value _ hs ih =>
    have hgive (tag : Tag) (key : UniversalName) (ht : tag.IsLegible) :=
      ht.give (ih.scope node) (forest.minted node) key value
    obtain ⟨key, count, -, -, rfl | rfl⟩ := setAttribute_eq_ok hs
    · exact ih.mapTag node fun tag ht => hgive tag key ht
    · exact (ih.mapTag node fun tag ht => hgive tag key ht).setMinted _ _
  | setText node text _ ih =>
    obtain ⟨new, he⟩ := exists_mapTag_of_setText _ node text
    rw [he]
    exact ih.mapTag node fun tag ht => ⟨ht.name, ht.declarations, ht.attributes⟩

end Forest

/-- Whatever name an element in a forest has, it's one in a node test. -/
theorem Forest.Reached.isName {forest : Forest} {position : Position} (h : Reached forest)
    (hp : position ∈ forest.positions) : IsName position.name.toList :=
  (h.isLegible.position hp).element.tag.name.isName

end MarkupPath
