import MarkupPath.Proofs.Forest.Amendment

/-!
# What operations amend

The operations on a forest that an edit is made of, as amendments: a new element is created, planted
at a spot in a tree, given attributes and a text, and possibly taken out again. The last of these
undoes the second one, whatever happened to the planted element in the meantime (`delete_planted`).
-/

namespace MarkupPath

theorem Position.id_mem_lineage (position : Position) : position.id ∈ position.lineage := by
  cases position with
  | top element => exact List.mem_cons_self
  | child parent index element following => exact List.mem_cons_self

@[simp] theorem Tag.id_setValue (tag : Tag) (key : UniversalName) (qualifier : Option String)
    (value : String) : (tag.setValue key qualifier value).id = tag.id := by
  simp only [setValue]
  split <;> rfl

/-- A tag with an attribute that is given a value. The declarations in effect decide how the name is
written, and a new one is added if they don't have one for its namespace. -/
def Tag.give (scope : Scope) (minted : Nat) (key : UniversalName) (value : String) (tag : Tag) : Tag :=
  match key.space with
  | none => tag.setValue key none value
  | some space =>
    let binding := scope.bind space none true minted
    let given := tag.setValue key binding.declaration.qualifier value
    if binding.isNew then
      { given with declarations := given.declarations ++ [binding.declaration] }
    else given

@[simp] theorem Tag.id_give (scope : Scope) (minted : Nat) (key : UniversalName) (value : String)
    (tag : Tag) : (tag.give scope minted key value).id = tag.id := by
  unfold give
  split
  · exact id_setValue ..
  · dsimp only
    split <;> exact id_setValue ..

namespace Forest

variable {since : Nat} {change : Content → Content} {before after : Forest}
  {id node parent : NodeId}

theorem Amends.setMinted (h : Amends since change before after) (id : NodeId) (minted : Nat) :
    Amends since change before (after.setMinted id minted) := by
  obtain ⟨ht, hf, hx⟩ := after.setMinted_eq id minted
  refine ⟨?_, ?_, ?_, h.sound.setMinted id minted⟩
  · rw [ht]
    exact h.trees
  · rw [hf]
    exact h.fragments
  · rw [hx]
    exact h.next

/-! ## Attributes and texts -/

theorem mapTag_amends {edit : Tag → Tag} (since : Nat) (node : NodeId) (h : before.IsSound)
    (he : ∀ tag, (edit tag).id = tag.id) :
    Amends since (Content.mapTag node edit) before
      (before.mapContent (Content.mapTag node edit)) := by
  refine ⟨⟨[], ?_, by simp⟩, ⟨[], ?_, by simp⟩, Nat.le_refl _, h.mapTag he⟩
  · simp [mapContent, Function.comp_def]
  · simp [mapContent]

theorem Amends.refl_mapTag (h : before.IsSound) :
    Amends since (Content.mapTag node fun tag => tag) before before := by
  apply (Amends.refl h since).congr
  intro content _
  rw [Content.mapTag_eq_replace]
  exact (content.replace_self node).symm

theorem Amends.trans_mapTag {edit further : Tag → Tag} {between : Forest}
    (h : Amends since (Content.mapTag node edit) before between)
    (he : ∀ tag, (edit tag).id = tag.id)
    (hf : Amends since (Content.mapTag node further) between after)
    (hi : ∀ tag, (further tag).id = tag.id) :
    Amends since (Content.mapTag node fun tag => further (edit tag)) before after := by
  refine (h.trans hf fun content id hm => .inl ?_).congr fun content _ => Content.mapTag_mapTag he
  rwa [Content.ids_mapTag hi] at hm

/-- A changed tag is found where the tag was. -/
theorem Amends.setting?_mapTag {edit : Tag → Tag} {setting : Setting}
    (h : Amends since (Content.mapTag node edit) before after) (hb : before.IsSound)
    (he : ∀ tag, (edit tag).id = tag.id) (hs : before.setting? node = some setting) :
    after.setting? node = some
      { setting with element := ⟨edit setting.element.tag, setting.element.content⟩ } := by
  have hset : (before.mapContent (Content.mapTag node edit)).setting? node = some
      { setting with element := ⟨edit setting.element.tag, setting.element.content⟩ } := by
    rw [Forest.setting?, funext (Content.mapTag_eq_replace node edit),
      joined_mapContent hb.nodup, ← Content.mapTag_eq_replace, Content.setting?_mapTag he]
    change (before.setting? node).map _ = _
    rw [hs, Option.map_some]
  rw [h.setting? (mem_ids_of_setting? hset), hset]

/-- What it takes to give an attribute a value, and what becomes of the forest. -/
theorem setAttribute_eq_ok {name value : String}
    (hs : before.setAttribute node name value = .ok after) :
    ∃ key count, UniversalName.ofAttribute? (before.scope node) name = .ok (some key) ∧
      Markup.isPlainName key.localPart.toList = true ∧
      (after = before.mapContent
          (Content.mapTag node (Tag.give (before.scope node) (before.minted node) key value)) ∨
        after = (before.mapContent
          (Content.mapTag node
            (Tag.give (before.scope node) (before.minted node) key value))).setMinted node
              count) := by
  unfold setAttribute at hs
  dsimp only at hs
  split at hs
  · cases hs
  · cases hs
  rename_i key hk
  split at hs
  · cases hs
  rename_i hplain
  split at hs
  · cases hs
  split at hs
  · rename_i hspace
    cases hs
    refine ⟨key, 0, hk, by simpa using hplain, .inl ?_⟩
    unfold Tag.give
    simp only [hspace]
  · rename_i space hspace
    cases hs
    refine ⟨key, ((before.scope node).bind space none true (before.minted node)).minted, hk,
      by simpa using hplain, .inr ?_⟩
    unfold Tag.give
    simp only [hspace]

/-- The forest is changed in one tag, whether the new text is refused or not. -/
theorem exists_mapTag_of_setText (before : Forest) (node : NodeId) (text : String) :
    ∃ new, (before.setText node text).2 =
      before.mapContent (Content.mapTag node fun tag => { tag with text := new }) := by
  simp only [setText]
  split
  · exact ⟨_, rfl⟩
  · exact ⟨_, rfl⟩

theorem setAttribute_amends {name value : String} (since : Nat) (h : before.IsSound)
    (hs : before.setAttribute node name value = .ok after) :
    ∃ key, UniversalName.ofAttribute? (before.scope node) name = .ok (some key) ∧
      Amends since (Content.mapTag node (Tag.give (before.scope node) (before.minted node) key value))
        before after := by
  obtain ⟨key, count, hk, -, ha⟩ := setAttribute_eq_ok hs
  have hm := mapTag_amends since node h
    fun tag => tag.id_give (before.scope node) (before.minted node) key value
  refine ⟨key, hk, ?_⟩
  rcases ha with rfl | rfl
  · exact hm
  · exact hm.setMinted _ _

/-- Without regard to whether the new text is refused. -/
theorem setText_amends (since : Nat) (node : NodeId) (h : before.IsSound) (text : String) :
    ∃ new, Amends since (Content.mapTag node fun tag => { tag with text := new }) before
        (before.setText node text).2 ∧
      ((before.setText node text).1 = .ok () → new = some text) := by
  unfold setText
  dsimp only
  split
  · exact ⟨some text, mapTag_amends since node h fun _ => rfl, fun _ => rfl⟩
  · exact ⟨none, mapTag_amends since node h fun _ => rfl, fun h => by cases h⟩

/-! ## New elements -/

theorem areNew_renumber {count : Nat} (hs : since ≤ count) (content : Content) :
    AreNew since (content.renumber count) := by
  intro id hi
  rw [Content.ids_renumber] at hi
  obtain ⟨index, hr, rfl⟩ := List.mem_map.mp hi
  exact Nat.le_trans hs (List.mem_range'_1.mp hr).1

theorem addTree_amends (h : before.IsSound) (hs : since ≤ before.next) (content : Content)
    (minted : Nat) :
    Amends since (fun content => content) before (before.addTree content minted) := by
  refine ⟨⟨[content.renumber before.next], ?_, ?_⟩, ⟨[], ?_, by simp⟩, Nat.le_add_right _ _,
    h.addTree content minted⟩
  · simp [addTree]
  · intro added hm
    obtain rfl := List.mem_singleton.mp hm
    exact areNew_renumber hs content
  · simp [addTree]

theorem IsSound.next_notMem (h : before.IsSound) : (⟨before.next⟩ : NodeId) ∉ before.ids :=
  fun hm => Nat.lt_irrefl _ (h.bounded _ hm)

theorem joined_addTree (forest : Forest) (content : Content) (minted : Nat) :
    (forest.addTree content minted).joined =
      .join (forest.trees.map Tree.content) ++ (content.renumber forest.next ++
        .join (forest.fragments.map Fragment.content)) := by
  simp [joined, contents, addTree, Content.join]

theorem notMem_ids (h : id ∉ before.ids) :
    id ∉ (Content.join (before.trees.map Tree.content)).ids ∧
      id ∉ (Content.join (before.fragments.map Fragment.content)).ids := by
  rw [ids, joined, contents, Content.join_append, Content.ids_append, List.mem_append] at h
  exact not_or.mp h

section

variable {tag : Tag} {minted : Nat}

/-- The new element as it is in its own tree. -/
theorem new_addTree (tag : Tag) (minted : Nat) (h : before.IsSound) :
    (before.addTree (.single ⟨tag, .nil⟩ none) minted).find? ⟨before.next⟩ =
        some (⟨{ tag with id := ⟨before.next⟩ }, .nil⟩, none) ∧
      (before.addTree (.single ⟨tag, .nil⟩ none) minted).setting? ⟨before.next⟩ =
        some ⟨none, [], ⟨{ tag with id := ⟨before.next⟩ }, .nil⟩⟩ := by
  obtain ⟨ht, -⟩ := notMem_ids h.next_notMem
  constructor
  · rw [find?_eq, joined_addTree, Content.find?_append, Content.find?_eq_none_iff.mpr ht,
      Option.none_or, Content.find?_append]
    simp [Content.single, Content.renumber, Content.find?]
  · rw [setting?, joined_addTree, Content.setting?_append, Content.setting?_eq_none_iff.mpr ht,
      Option.none_or, Content.setting?_append]
    simp [Content.single, Content.renumber, Content.setting?]

theorem mem_ids_new :
    id ∈ (before.addTree (.single ⟨tag, .nil⟩ none) minted).ids ↔
      id ∈ before.ids ∨ id = ⟨before.next⟩ := by
  rw [ids, ids, joined_addTree, joined, contents, Content.join_append]
  simp only [Content.ids_append, List.mem_append, Content.ids_renumber, Content.single,
    Content.size, Nat.zero_add, List.range'_one, List.map_cons, List.map_nil, List.mem_singleton]
  grind

/-- Taking a new element out of its tree leaves what was there before, and an empty tree. -/
theorem detach_new (tag : Tag) (minted : Nat) (h : before.IsSound) :
    ((before.addTree (.single ⟨tag, .nil⟩ none) minted).detach ⟨before.next⟩).trees =
        before.trees ++ [⟨.nil, minted⟩] ∧
      ((before.addTree (.single ⟨tag, .nil⟩ none) minted).detach ⟨before.next⟩).fragments =
        before.fragments := by
  have hkeep : ∀ content ∈ before.contents, content.remove ⟨before.next⟩ = content := fun content hm =>
    Content.remove_of_notMem fun hi => h.next_notMem (mem_ids.mpr ⟨content, hm, hi⟩)
  constructor
  · simp only [addTree, detach, mapContent, List.map_append, List.map_cons, List.map_nil]
    congr 1
    · refine (List.map_congr_left fun tree hm => ?_).trans (List.map_id _)
      rw [hkeep _ (List.mem_append_left _ (List.mem_map_of_mem hm))]
      rfl
    · simp [Content.single, Content.renumber, Content.remove]
  · simp only [addTree, detach, mapContent]
    have hmap : before.fragments.map (fun fragment =>
        { fragment with content := fragment.content.remove ⟨before.next⟩ }) = before.fragments := by
      refine (List.map_congr_left fun fragment hm => ?_).trans (List.map_id _)
      rw [hkeep _ (List.mem_append_right _ (List.mem_map_of_mem hm))]
      rfl
    rw [hmap]
    exact List.filter_eq_self.mpr fun fragment hm => by simpa using h.filled fragment hm

/-- Moving a new element to a spot plants it there. -/
theorem move_new {spot : Spot} {place : Element → Option String → Content → Content}
    (h : before.IsSound) (hs : since ≤ before.next)
    (hp : ∀ new tail content, place new tail content = content.plant spot (.single new tail))
    (hm : (before.addTree (.single ⟨tag, .nil⟩ none) minted).move parent ⟨before.next⟩ place =
      some after) :
    ∃ position count new, before.position? parent = some position ∧
      (Element.rebind position.scope count ⟨{ tag with id := ⟨before.next⟩ }, .nil⟩).1 = new ∧
      Amends since (Content.plant · spot (.single new none)) before after := by
  have hadd := addTree_amends h hs (.single ⟨tag, .nil⟩ none) minted
  have hsound := hadd.sound.move hp hm
  obtain ⟨position, found, tail, hposition, hf, hl, hafter⟩ := move_eq_some hm
  rw [(new_addTree _ _ h).1] at hf
  cases hf
  have hset := setting?_of_position? hposition
  have hid : position.id = parent := id_of_setting? hset
  -- no element is moved into itself, so the parent was there before
  have hne : parent ≠ ⟨before.next⟩ := by
    rintro rfl
    exact hl (hid ▸ position.id_mem_lineage)
  have hparent : parent ∈ before.ids :=
    (mem_ids_new.mp (mem_ids_of_setting? hset)).resolve_right hne
  generalize (before.addTree (.single ⟨tag, .nil⟩ none) minted).minted parent = count at hafter
  generalize hmoved : Element.rebind position.scope count
    ⟨{ tag with id := ⟨before.next⟩ }, .nil⟩ = moved at hafter
  refine ⟨position, count, moved.1, ?_, by rw [hmoved], ?_⟩
  · rw [← hposition, hadd.position? (by rwa [mapContent_id]), mapContent_id]
  · rw [funext (hp _ none)] at hafter
    obtain ⟨ht, hf⟩ := detach_new tag minted h
    obtain ⟨ht', hf', hx'⟩ := setMinted_eq (((before.addTree (.single ⟨tag, .nil⟩ none) minted).detach
      ⟨before.next⟩).mapContent (Content.plant · spot (.single moved.1 none))) parent moved.2
    rw [← hafter] at ht' hf' hx'
    -- the tree that the element was created as stays behind, with nothing in it
    refine ⟨⟨[.nil], ?_, ?_⟩, ⟨[], ?_, by simp⟩, ?_, hsound⟩
    · rw [ht', mapContent, ht]
      simp [Content.plant, Content.replace]
    · intro content hm
      obtain rfl := List.mem_singleton.mp hm
      simp [AreNew, Content.ids]
    · rw [hf', mapContent, hf, List.append_nil]
    · rw [hx']
      exact Nat.le_add_right _ _

theorem position?_addTree (h : before.IsSound) (hi : id ∈ before.ids) (content : Content) :
    (before.addTree content minted).position? id = before.position? id := by
  have hadd := addTree_amends h (Nat.le_refl _) content minted
  rw [hadd.position? (by rwa [mapContent_id]), mapContent_id]

theorem insertFirst_new (h : before.IsSound) (hs : since ≤ before.next)
    (hi : (before.addTree (.single ⟨tag, .nil⟩ none) minted).insertFirst parent ⟨before.next⟩ =
      some after) :
    ∃ position count new, before.position? parent = some position ∧
      (Element.rebind position.scope count ⟨{ tag with id := ⟨before.next⟩ }, .nil⟩).1 = new ∧
      Amends since (Content.plant · (.inFront parent) (.single new none)) before after :=
  move_new h hs (Content.insertFirst_eq_plant parent) hi

/-- The declarations around a child are those in effect for its parent. -/
theorem setting?_child {setting upper : Setting} (h : before.IsSound)
    (hs : before.setting? id = some setting) (hp : setting.parent = some parent)
    (hu : before.setting? parent = some upper) : setting.around = upper.scope := by
  rcases Content.setting?_parent h.nodup hs with ⟨hn, -⟩ | ⟨found, hf, hfp, ha⟩
  · rw [hp] at hn
    cases hn
  · rw [hp, Option.some.injEq] at hfp
    rw [← hfp] at hf
    rw [ha, Option.some.inj (hf.symm.trans hu)]

theorem insertAfter_new {reference : NodeId} (h : before.IsSound) (hs : since ≤ before.next)
    (hi : (before.addTree (.single ⟨tag, .nil⟩ none) minted).insertAfter parent reference
      ⟨before.next⟩ = some after) :
    ∃ position count new, before.position? parent = some position ∧
      (Element.rebind position.scope count ⟨{ tag with id := ⟨before.next⟩ }, .nil⟩).1 = new ∧
      (∃ setting, before.setting? reference = some setting ∧ setting.parent = some parent ∧
        setting.around = position.scope) ∧
      Amends since (Content.plant · (.behind reference) (.single new none)) before after := by
  simp only [Forest.insertAfter] at hi
  split at hi
  · cases hi
  · rename_i upper hupper
    split at hi
    · cases hi
    · rename_i hparent
      obtain ⟨child, hchild, hup⟩ := Option.bind_eq_some_iff.mp hupper
      have hset := setting?_of_position? hchild
      have hcp : child.setting.parent = some parent := by
        rw [Position.setting, hup, Option.map_some, Decidable.not_not.mp hparent]
      split at hi
      · -- the element itself has no parent, so it can't be its own reference
        rename_i hr
        rw [← hr, (new_addTree _ _ h).2] at hset
        rw [← Option.some.inj hset] at hcp
        cases hcp
      · rename_i hr
        obtain ⟨position, count, new, hposition, hnew, hamends⟩ :=
          move_new h hs (Content.insertAfter_eq_plant reference) hi
        have hm := (mem_ids_new.mp (mem_ids_of_setting? hset)).resolve_right (Ne.symm hr)
        rw [(addTree_amends h hs _ minted).setting? (by rwa [mapContent_id]), mapContent_id] at hset
        refine ⟨position, count, new, hposition, hnew, ⟨child.setting, hset, hcp, ?_⟩, hamends⟩
        rw [← Position.scope_setting]
        exact setting?_child h hset hcp (setting?_of_position? hposition)

end

/-! ## Taking elements out -/

theorem exists_owner? (h : id ∈ before.ids) : ∃ owner, before.owner? id = some owner := by
  obtain ⟨content, hc, hi⟩ := mem_ids.mp h
  rw [owner?]
  rcases List.mem_append.mp hc with hm | hm
  · obtain ⟨tree, ht, rfl⟩ := List.mem_map.mp hm
    cases hf : before.trees.findIdx? fun tree => tree.content.ids.contains id with
    | some owner => exact ⟨owner, rfl⟩
    | none =>
      have := List.findIdx?_eq_none_iff.mp hf tree ht
      simp [hi] at this
  · obtain ⟨fragment, ht, rfl⟩ := List.mem_map.mp hm
    cases hf : before.fragments.find? fun fragment => fragment.content.ids.contains id with
    | some found => cases before.trees.findIdx? _ <;> exact ⟨_, rfl⟩
    | none =>
      have := List.find?_eq_none.mp hf fragment ht
      simp [hi] at this

theorem delete_of_top (h : ((before.position? node).bind Position.parent?) = none) :
    before.delete node = before := by
  simp only [delete]
  rw [h]

theorem delete_of_parent {above : Position}
    (h : ((before.position? node).bind Position.parent?) = some above) :
    ∃ owner found tail count moved, before.find? node = some (found, tail) ∧
      found.rebind [] (before.minted node) = (moved, count) ∧
      before.delete node = { (before.setMinted node count).detach node with
        fragments := ((before.setMinted node count).detach node).fragments ++
          [⟨owner, .single moved tail⟩] } := by
  obtain ⟨position, hp, -⟩ := Option.bind_eq_some_iff.mp h
  have hm : node ∈ before.ids := mem_ids_of_setting? (setting?_of_position? hp)
  obtain ⟨owner, ho⟩ := exists_owner? hm
  obtain ⟨found, tail, hf⟩ := Content.exists_find? hm
  rw [← find?_eq] at hf
  refine ⟨owner, found, tail, _, _, hf, rfl, ?_⟩
  simp only [delete]
  rw [h, hf, ho]
  rfl

/-- Without a new element that was planted all is as it was before. -/
theorem Amends.detach_planted {spot : Spot} {new : Element} {newTail : Option String}
    (h : Amends since (Content.plant · spot (.single new newTail)) before after)
    (hb : before.IsSound) (hn : new.id ∉ before.ids) :
    Amends since (fun content => content) before (after.detach new.id) := by
  have hkeep : ∀ content ∈ before.contents,
      (content.plant spot (.single new newTail)).remove new.id = content := fun content hm =>
    Content.remove_plant fun hi => hn (mem_ids.mpr ⟨content, hm, hi⟩)
  have hless : ∀ content, AreNew since content → AreNew since (content.remove new.id) :=
    fun content hc id hi => hc id ((Content.ids_remove_sublist _ _).subset hi)
  obtain ⟨trees, ht, htn⟩ := h.trees
  obtain ⟨fragments, hf, hfn⟩ := h.fragments
  let strip (fragment : Fragment) : Fragment :=
    { fragment with content := fragment.content.remove new.id }
  refine ⟨⟨trees.map (Content.remove new.id), ?_, ?_⟩, ⟨(fragments.map strip).filter
    (fun fragment => fragment.content != .nil), ?_, ?_⟩, h.next, h.sound.detach new.id⟩
  · have := congrArg (List.map (Content.remove new.id)) ht
    rw [List.map_map, List.map_append, List.map_map] at this
    simp only [detach, mapContent, List.map_map]
    refine this.trans (congrArg (· ++ _) (List.map_congr_left fun tree hm => ?_))
    exact hkeep _ (List.mem_append_left _ (List.mem_map_of_mem hm))
  · intro content hm
    obtain ⟨former, hfm, rfl⟩ := List.mem_map.mp hm
    exact hless former (htn former hfm)
  · -- a fragment that gets empty is dropped, but none was before and none is now
    have hmap : (before.fragments.map fun fragment =>
        { fragment with content := fragment.content.plant spot (.single new newTail) }).map strip =
          before.fragments := by
      rw [List.map_map]
      refine (List.map_congr_left fun fragment hm => ?_).trans (List.map_id _)
      simp only [Function.comp, strip, id]
      rw [hkeep _ (List.mem_append_right _ (List.mem_map_of_mem hm))]
    have hfilled : before.fragments.filter (fun fragment => fragment.content != .nil) =
        before.fragments :=
      List.filter_eq_self.mpr fun fragment hm => by simpa using hb.filled fragment hm
    simp only [detach, mapContent, hf, List.map_id']
    rw [List.map_append, List.filter_append]
    change List.filter _ (List.map strip _) ++ _ = _
    rw [hmap, hfilled]
  · intro fragment hm
    obtain ⟨former, hfm, rfl⟩ := List.mem_map.mp (List.mem_filter.mp hm).1
    exact hless _ (hfn former hfm)

theorem Amends.addFragment {fragment : Fragment} (h : Amends since change before after)
    (hn : AreNew since fragment.content)
    (hs : IsSound { after with fragments := after.fragments ++ [fragment] }) :
    Amends since change before { after with fragments := after.fragments ++ [fragment] } := by
  obtain ⟨fragments, hf, hfn⟩ := h.fragments
  refine ⟨h.trees, ⟨fragments ++ [fragment], by rw [hf, List.append_assoc], ?_⟩, h.next, hs⟩
  intro added hm
  rcases List.mem_append.mp hm with hm | hm
  · exact hfn added hm
  · obtain rfl := List.mem_singleton.mp hm
    exact hn

end Forest
end MarkupPath
