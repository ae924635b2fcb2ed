import MarkupPath.Proofs.Forest.Ownership
import MarkupPath.Proofs.Search.Descent

/-!
# Enlarged forests

`Forest.Enlarges before after` says that there may be further elements in the later forest, while
those that there were have the same tags and parents, and among themselves the same order: leaving
out the further ones, each element contains what it contained. That is all that a search can tell of
a forest.

A forest is enlarged when an element is planted in it (`IsPlanted.enlarges`).
-/

namespace MarkupPath

/-! ## Settings -/

/-- An element is set as before, and it contains what it contained if elements that aren't old are
left out. -/
structure Setting.Widens (isOld : NodeId → Bool) (setting later : Setting) : Prop where
  /-- the parent is the same one -/
  parent : later.parent = setting.parent
  /-- the declarations around the element are the same -/
  around : later.around = setting.around
  /-- the element itself is the same one -/
  tag : later.element.tag = setting.element.tag
  /-- the children are the same ones, with others in between -/
  children : (later.element.content.elements.map Element.id).filter isOld =
    setting.element.content.elements.map Element.id
  /-- the descendants are the same ones, with others in between -/
  descendants : later.element.content.ids.filter isOld = setting.element.content.ids

namespace Content

variable {isOld : NodeId → Bool} {content piece : Content}

theorem map_id_elements_sublist (content : Content) :
    (content.elements.map Element.id).Sublist content.ids := by
  induction content with
  | nil => exact .slnil
  | element tag children tail rest _ ih =>
    exact .cons_cons _ (ih.trans (List.sublist_append_right _ _))
  | comment text tail rest ih => exact ih
  | instruction target data tail rest ih => exact ih

theorem filter_eq_nil {ids : List NodeId} (h : ∀ id ∈ ids, isOld id = false) :
    ids.filter isOld = [] :=
  List.filter_eq_nil_iff.mpr fun id hm => Bool.eq_false_iff.mp (h id hm)

/-- Only what is in the piece has to be left out to have the elements that there were. -/
theorem filter_ids_plant (spot : Spot) (content : Content)
    (hp : ∀ id ∈ piece.ids, isOld id = false) :
    (content.plant spot piece).ids.filter isOld = content.ids.filter isOld := by
  have hpiece := filter_eq_nil hp
  simp only [plant]
  induction content with
  | nil => rfl
  | element tag children tail rest ihc ihr =>
    rw [replace]
    split
    · cases spot <;> simp [Spot.fill, ids, hpiece, List.filter_cons, Element.id]
    · rw [ids, ids, List.filter_cons, List.filter_cons, List.filter_append, List.filter_append,
        ihc, ihr]
  | comment text tail rest ih => exact ih
  | instruction target data tail rest ih => exact ih

theorem filter_elements_plant (spot : Spot) (content : Content)
    (hp : ∀ id ∈ piece.ids, isOld id = false) :
    ((content.plant spot piece).elements.map Element.id).filter isOld =
      (content.elements.map Element.id).filter isOld := by
  have hpiece := filter_eq_nil fun id hm => hp id (piece.map_id_elements_sublist.subset hm)
  simp only [plant]
  induction content with
  | nil => rfl
  | element tag children tail rest _ ih =>
    rw [replace]
    split
    · cases spot <;> simp [Spot.fill, elements, hpiece, List.filter_cons, Element.id]
    · rw [elements, elements, List.map_cons, List.map_cons, List.filter_cons, List.filter_cons, ih]
      rfl
  | comment text tail rest ih => exact ih
  | instruction target data tail rest ih => exact ih

end Content

theorem Element.content_plant (element : Element) (spot : Spot) (piece : Content) :
    (element.plant spot piece).content = piece ++ element.content ∨
      (element.plant spot piece).content = element.content.plant spot piece := by
  rw [plant]
  split
  · exact .inl rfl
  · exact .inr rfl

namespace Setting.Widens

variable {isOld : NodeId → Bool} {setting : Setting}

theorem refl (h : ∀ id ∈ setting.element.content.ids, isOld id = true) :
    setting.Widens isOld setting :=
  ⟨rfl, rfl, rfl,
    List.filter_eq_self.mpr fun id hm =>
      h id (setting.element.content.map_id_elements_sublist.subset hm),
    List.filter_eq_self.mpr h⟩

/-- Nothing but the piece is added to an element in which it's planted. -/
theorem plant {piece : Content} (spot : Spot)
    (h : ∀ id ∈ setting.element.content.ids, isOld id = true)
    (hp : ∀ id ∈ piece.ids, isOld id = false) :
    setting.Widens isOld (setting.plant spot piece) := by
  have hw := refl h
  have helements := Content.filter_eq_nil fun id hm =>
    hp id (piece.map_id_elements_sublist.subset hm)
  refine ⟨rfl, rfl, rfl, ?_, ?_⟩
  · rw [← hw.children]
    rcases setting.element.content_plant spot piece with hc | hc
    · change ((setting.element.plant spot piece).content.elements.map Element.id).filter isOld = _
      rw [hc, Content.elements_append, List.map_append, List.filter_append, helements,
        List.nil_append]
    · exact hc ▸ Content.filter_elements_plant spot _ hp
  · rw [← hw.descendants]
    rcases setting.element.content_plant spot piece with hc | hc
    · change (setting.element.plant spot piece).content.ids.filter isOld = _
      rw [hc, Content.ids_append, List.filter_append, Content.filter_eq_nil hp, List.nil_append]
    · exact hc ▸ Content.filter_ids_plant spot _ hp

end Setting.Widens

/-! ## Forests -/

namespace Forest

variable {before after : Forest} {id : NodeId}

/-- Whether an element is one of a forest. -/
def has (forest : Forest) (id : NodeId) : Bool := id ∈ forest.ids

/-- There may be further elements, and those that there were are set as before among themselves. -/
structure Enlarges (before after : Forest) : Prop where
  /-- it was all right before -/
  sound : before.IsSound
  /-- it's still all right -/
  sound_after : after.IsSound
  /-- the elements are still there -/
  setting : ∀ id setting, before.setting? id = some setting →
    ∃ later, after.setting? id = some later ∧ setting.Widens before.has later
  /-- they belong to trees with the same roots -/
  root : ∀ id ∈ before.ids, after.rootOf? id = before.rootOf? id

theorem has_of_setting? {setting : Setting} (h : before.setting? id = some setting) :
    ∀ below ∈ setting.element.content.ids, before.has below = true := fun _ hm =>
  decide_eq_true ((Content.element_of_setting? h).2 hm)

theorem Enlarges.refl (h : before.IsSound) : before.Enlarges before :=
  ⟨h, h, fun _ setting hs => ⟨setting, hs, .refl (has_of_setting? hs)⟩, fun _ _ => rfl⟩

/-- Planting an element enlarges a forest. -/
theorem IsPlanted.enlarges {spot : Spot} {parent : NodeId} {scope : Scope} {new : Element}
    (h : IsPlanted before.next spot parent scope new before after) (ho : before.IsOwned) :
    before.Enlarges after := by
  refine ⟨h.sound, h.amends.sound, fun id setting hs => ?_, fun id hi => h.rootOf?_eq ho hi⟩
  refine ⟨setting.plant spot (.single new none), ?_, ?_⟩
  · rw [h.setting?_of_mem (mem_ids_of_setting? hs), hs, Option.map_some]
  · refine .plant spot (has_of_setting? hs) fun id hm => decide_eq_false ?_
    exact h.sound.notMem_of_areNew h.areNew hm

end Forest
end MarkupPath
