import MarkupPath.Proofs.Forest.Reached
import MarkupPath.Proofs.Forest.Standing
import MarkupPath.Proofs.Markup.SingleRoot

/-!
# Trees have a single root

In all forests that there can be no tree has more than one element without a parent
(`Reached.isRooted`). What is loaded has a single root, and an element only gets a place outside of
all others when it's taken out of its tree, and then it doesn't stay in the tree. So no element is
put next to a root: that would take a reference that has a parent and is a root (`notMem_tops`).
-/

namespace MarkupPath

namespace Content

variable {id : NodeId} {content piece : Content}

/-- The identities of the elements that aren't contained in others. -/
def tops (content : Content) : List NodeId := content.elements.map Element.id

theorem length_tops (content : Content) : content.tops.length = content.elements.length :=
  List.length_map _

theorem length_tops_renumber (next : Nat) (content : Content) :
    (content.renumber next).tops.length = content.tops.length := by
  rw [length_tops, length_tops]
  induction content generalizing next with
  | nil => rfl
  | element tag children tail rest _ ih => exact congrArg Nat.succ (ih _)
  | comment text tail rest ih => exact ih next
  | instruction target data tail rest ih => exact ih next

theorem tops_remove_sublist (id : NodeId) (content : Content) :
    (content.remove id).tops.Sublist content.tops := by
  simp only [tops]
  induction content with
  | nil => exact .slnil
  | element tag children tail rest _ ih =>
    rw [remove]
    split
    · exact .cons _ (.refl _)
    · exact .cons_cons _ ih
  | comment text tail rest ih => exact ih
  | instruction target data tail rest ih => exact ih

theorem tops_mapTag {change : Tag → Tag} (h : ∀ tag, (change tag).id = tag.id) :
    (content.mapTag id change).tops = content.tops := by
  simp only [tops]
  induction content with
  | nil => rfl
  | element tag children tail rest _ ih =>
    rw [mapTag]
    split
    · exact congrArg (· :: _) (h tag)
    · exact congrArg (_ :: ·) ih
  | comment text tail rest ih => exact ih
  | instruction target data tail rest ih => exact ih

/-- Within an element nothing is put beside a root. -/
theorem tops_plant_inFront (parent : NodeId) (piece content : Content) :
    (content.plant (.inFront parent) piece).tops = content.tops := by
  simp only [plant, tops]
  induction content with
  | nil => rfl
  | element tag children tail rest _ ih =>
    rw [replace]
    split
    · rfl
    · exact congrArg (_ :: ·) ih
  | comment text tail rest ih => exact ih
  | instruction target data tail rest ih => exact ih

/-- Nor is it behind an element that isn't a root. -/
theorem tops_plant_behind {reference : NodeId} (h : reference ∉ content.tops) :
    (content.plant (.behind reference) piece).tops = content.tops := by
  simp only [plant, tops] at h ⊢
  induction content with
  | nil => rfl
  | element tag children tail rest _ ih =>
    -- the reference is none of those that the recursion goes along
    rw [elements, List.map_cons, List.mem_cons, not_or] at h
    have hne : tag.id ≠ reference := Ne.symm h.1
    change ((element tag children tail rest).replace reference _).elements.map _ = _
    rw [replace, if_neg hne]
    exact congrArg (_ :: ·) (ih h.2)
  | comment text tail rest ih => exact ih h
  | instruction target data tail rest ih => exact ih h

/-- The elements that aren't contained in others have no parents. -/
theorem top_mem_allTop {element : Element} (h : element ∈ content.elements) :
    Position.top element ∈ Position.allTop content := by
  induction content with
  | nil => cases h
  | element tag children tail rest _ ih =>
    rcases List.mem_cons.mp h with rfl | h
    · exact List.mem_cons_self
    · exact List.mem_cons_of_mem _ (List.mem_append_right _ (ih h))
  | comment text tail rest ih => exact ih h
  | instruction target data tail rest ih => exact ih h

end Content

/-! ## What is loaded -/

theorem exists_loader_of_loadWith {forest : Forest} {keepBlanks : Bool} {source : Source}
    {excuses : List (Loader × Excuse)} {loaders : List Loader} {content : Content}
    (h : loadWith forest keepBlanks source excuses loaders = .ok content) :
    ∃ loader, Loader.load loader forest keepBlanks source = .content content := by
  induction loaders generalizing excuses with
  | nil => cases h
  | cons loader rest ih =>
    rw [loadWith] at h
    split at h
    · rename_i found hl
      cases h
      exact ⟨loader, hl⟩
    · exact ih h
    · cases h

/-- By loading, a forest gets a tree of what one of the loaders gives. -/
theorem exists_loader_of_load {before after : Forest} {document former : Document}
    {keepBlanks : Bool} {source : Source} {loaders : List Loader}
    (h : (loadWith before keepBlanks source [] loaders).map (former.setContent before) =
      .ok (document, after)) :
    ∃ content loader, Loader.load loader before keepBlanks source = .content content ∧
      after = before.addTree content 0 := by
  obtain ⟨content, hw, rfl, -⟩ := Forest.exists_content_of_load h
  obtain ⟨loader, hl⟩ := exists_loader_of_loadWith hw
  exact ⟨content, loader, hl, rfl⟩

/-- What a loader gives was read, or is what there was in a tree, or a copy of an element, or
nothing. -/
theorem Loader.cases_of_load {loader : Loader} {forest : Forest} {keepBlanks : Bool}
    {source : Source} {content : Content}
    (h : loader.load forest keepBlanks source = .content content) :
    (∃ bytes, Markup.readBytes keepBlanks bytes = some content) ∨
      (∃ node, forest.copyOf? node = some content) ∨
      (∃ tree ∈ forest.trees, tree.content = content) ∨ content = .nil := by
  have hread {excuse : Excuse} {read : Option Content} (h : Loaded.ofRead excuse read =
      .content content) : read = some content := by
    cases read with
    | none => cases h
    | some found =>
      cases h
      rfl
  cases loader with
  | path =>
    cases source with
    | file markup =>
      obtain ⟨bytes, -, hb⟩ := Option.bind_eq_some_iff.mp (hread h)
      exact .inl ⟨bytes, hb⟩
    | _ => cases h
  | buffer =>
    cases source with
    | textBuffer markup =>
      simp only [Loader.load] at h
      split at h
      · cases h
      · exact .inl ⟨_, hread h⟩
    | byteBuffer markup => exact .inl ⟨_, hread h⟩
    | _ => cases h
  | text =>
    cases source with
    | text markup => exact .inl ⟨_, hread h⟩
    | bytes markup => exact .inl ⟨_, hread h⟩
    | _ => cases h
  | tree =>
    cases source with
    | element node => exact .inr (.inl ⟨node, hread h⟩)
    | tree node =>
      obtain ⟨tree, ht, rfl⟩ := Option.map_eq_some_iff.mp (hread h)
      obtain ⟨owner, -, ho⟩ := Option.bind_eq_some_iff.mp ht
      exact .inr (.inr (.inl ⟨tree, List.mem_of_getElem? ho, rfl⟩))
    | emptyTree =>
      cases h
      exact .inr (.inr (.inr rfl))
    | _ => cases h

namespace Forest

variable {forest before after : Forest} {id node : NodeId}

/-- No tree has several roots. -/
def IsRooted (forest : Forest) : Prop :=
  ∀ content ∈ forest.trees.map Tree.content, content.tops.length ≤ 1

instance (forest : Forest) : Decidable forest.IsRooted :=
  inferInstanceAs (Decidable (∀ content ∈ forest.trees.map Tree.content, _))

/-! ## Operations -/

namespace IsRooted

theorem setMinted (h : forest.IsRooted) (id : NodeId) (minted : Nat) :
    (forest.setMinted id minted).IsRooted := by
  rw [IsRooted, (forest.setMinted_eq id minted).1]
  exact h

theorem mapContent {change : Content → Content} (h : forest.IsRooted)
    (hc : ∀ content ∈ forest.contents, (change content).tops.length ≤ content.tops.length) :
    (forest.mapContent change).IsRooted := by
  intro content hm
  obtain ⟨tree, ht, rfl⟩ := List.mem_map.mp hm
  obtain ⟨former, hf, rfl⟩ := List.mem_map.mp ht
  have hformer : former.content ∈ forest.trees.map Tree.content := List.mem_map_of_mem hf
  exact Nat.le_trans (hc former.content (List.mem_append_left _ hformer)) (h _ hformer)

theorem detach (h : forest.IsRooted) (id : NodeId) : (forest.detach id).IsRooted :=
  h.mapContent fun content _ => (content.tops_remove_sublist id).length_le

theorem addTree {content : Content} (h : forest.IsRooted) (hc : content.tops.length ≤ 1)
    (minted : Nat) : (forest.addTree content minted).IsRooted := by
  intro other hm
  rw [Forest.addTree, List.map_append] at hm
  rcases List.mem_append.mp hm with hm | hm
  · exact h other hm
  · obtain rfl := List.mem_singleton.mp hm
    rw [Content.length_tops_renumber]
    exact hc

theorem load {document former : Document} {keepBlanks : Bool} {source : Source}
    {loaders : List Loader} (h : before.IsRooted)
    (hl : (loadWith before keepBlanks source [] loaders).map (former.setContent before) =
      .ok (document, after)) : after.IsRooted := by
  obtain ⟨content, loader, hload, rfl⟩ := exists_loader_of_load hl
  refine h.addTree ?_ 0
  rcases loader.cases_of_load hload with ⟨bytes, hr⟩ | ⟨node, hc⟩ | ⟨tree, ht, rfl⟩ | rfl
  · rw [Content.length_tops]
    exact Markup.length_elements_readBytes hr
  · obtain ⟨⟨element, tail⟩, -, rfl⟩ := Option.map_eq_some_iff.mp hc
    exact Nat.le_refl 1
  · exact h _ (List.mem_map_of_mem ht)
  · exact Nat.zero_le 1

theorem move {parent : NodeId} {place : Element → Option String → Content → Content}
    (h : before.IsRooted)
    (hp : ∀ new tail, ∀ content ∈ (before.detach node).contents,
      (place new tail content).tops = content.tops)
    (hm : before.move parent node place = some after) : after.IsRooted := by
  obtain ⟨position, found, tail, -, -, -, rfl⟩ := move_eq_some hm
  refine ((h.detach node).mapContent fun content hc => ?_).setMinted _ _
  exact Nat.le_of_eq (congrArg List.length (hp _ tail content hc))

theorem insertFirst {parent : NodeId} (h : before.IsRooted)
    (hi : before.insertFirst parent node = some after) : after.IsRooted := by
  refine h.move (fun new tail content _ => ?_) hi
  rw [Content.insertFirst_eq_plant, Content.tops_plant_inFront]

end IsRooted

/-- An element with a parent isn't a root of a tree or a fragment. -/
theorem notMem_tops {parent : Position} {content : Content} (h : forest.IsSound)
    (hp : (forest.position? id).bind Position.parent? = some parent)
    (hc : content ∈ forest.contents) : id ∉ content.tops := by
  intro hm
  obtain ⟨element, he, rfl⟩ := List.mem_map.mp hm
  have htop : Position.top element ∈ forest.positions :=
    List.mem_flatMap.mpr ⟨content, hc, Content.top_mem_allTop he⟩
  have hposition : forest.position? element.id = some (.top element) :=
    (position?_eq_some_iff h).mpr ⟨htop, rfl⟩
  rw [hposition] at hp
  cases hp

theorem exists_remove_of_mem_detach {content : Content}
    (h : content ∈ (forest.detach node).contents) :
    ∃ former ∈ forest.contents, content = former.remove node := by
  rw [detach, contents] at h
  rcases List.mem_append.mp h with h | h
  · obtain ⟨tree, ht, rfl⟩ := List.mem_map.mp h
    obtain ⟨former, hf, rfl⟩ := List.mem_map.mp ht
    exact ⟨former.content, List.mem_append_left _ (List.mem_map_of_mem hf), rfl⟩
  · obtain ⟨fragment, hf, rfl⟩ := List.mem_map.mp h
    obtain ⟨former, hm, rfl⟩ := List.mem_map.mp (List.mem_filter.mp hf).1
    exact ⟨former.content, List.mem_append_right _ (List.mem_map_of_mem hm), rfl⟩

namespace IsRooted

theorem insertAfter {parent reference : NodeId} (h : before.IsRooted) (hs : before.IsSound)
    (hi : before.insertAfter parent reference node = some after) : after.IsRooted := by
  obtain ⟨above, hp, rfl | hm⟩ := insertAfter_eq_some hi
  · exact h
  · refine h.move (fun new tail content hc => ?_) hm
    -- the reference has a parent, so it isn't a root, and it doesn't become one by the removal
    obtain ⟨former, hf, rfl⟩ := exists_remove_of_mem_detach hc
    rw [Content.insertAfter_eq_plant, Content.tops_plant_behind]
    exact fun hm => notMem_tops hs hp hf ((former.tops_remove_sublist node).subset hm)

theorem delete (h : forest.IsRooted) (node : NodeId) : (forest.delete node).IsRooted := by
  simp only [Forest.delete]
  split
  · exact (h.setMinted _ _).detach node
  · exact h

theorem mapTag {change : Tag → Tag} (h : forest.IsRooted)
    (hc : ∀ tag, (change tag).id = tag.id) :
    (forest.mapContent (Content.mapTag node change)).IsRooted :=
  h.mapContent fun _ _ => Nat.le_of_eq (congrArg List.length (Content.tops_mapTag hc))

end IsRooted

/-- No tree in a forest that there can be has several roots. -/
theorem Reached.isRooted (h : Reached forest) : forest.IsRooted := by
  induction h with
  | empty => exact fun _ hm => by cases hm
  | load _ hl ih => exact ih.load hl
  | parse _ hl ih => exact ih.load hl
  | create _ hc ih =>
    obtain ⟨tag, minted, -, -, rfl⟩ := create_eq_ok.mp hc
    have hsingle : (Content.single ⟨tag, .nil⟩ none).tops.length ≤ 1 := Nat.le_refl 1
    exact ih.addTree hsingle minted
  | insertFirst _ hi ih => exact ih.insertFirst hi
  | insertAfter hr hi ih => exact ih.insertAfter hr.isSound hi
  | delete node _ ih => exact ih.delete node
  | setAttribute hr hs ih =>
    obtain ⟨key, count, -, -, rfl | rfl⟩ := setAttribute_eq_ok hs
    · exact ih.mapTag fun tag => tag.id_give ..
    · exact (ih.mapTag fun tag => tag.id_give ..).setMinted _ _
  | setText node text _ ih =>
    obtain ⟨new, he⟩ := exists_mapTag_of_setText _ node text
    rw [he]
    exact ih.mapTag fun _ => rfl

end Forest
end MarkupPath
