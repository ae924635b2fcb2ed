import MarkupPath.Proofs.Forest.Operations

/-!
# Planted elements

`Forest.IsPlanted` says of two forests that the later one is the former one with a new element at a
spot. That stays so while the element gets attributes, a text and what it shall contain, and it comes
to its end when the element is taken out: then all that there was before is as it was before
(`IsPlanted.delete`), whatever happened to the element in the meantime.
-/

namespace MarkupPath.Forest

variable {since : Nat} {spot : Spot} {parent : NodeId} {scope : Scope} {new : Element}
  {before between after : Forest}

/-- A new element stands at a spot, below `parent` and where `scope` is in effect. All else is as it
was. -/
structure IsPlanted (since : Nat) (spot : Spot) (parent : NodeId) (scope : Scope) (new : Element)
    (before after : Forest) : Prop where
  /-- the spot is there -/
  anchored : ∃ setting, before.setting? spot.anchor = some setting ∧
    spot.parent setting = some parent ∧ spot.around setting = scope
  /-- the element and all in it is newer than everything else -/
  areNew : AreNew before.next (.single new none)
  /-- identities are as new as they need to be -/
  since_le : since ≤ before.next
  /-- it was all right before -/
  sound : before.IsSound
  /-- the element is planted -/
  amends : Amends since (Content.plant · spot (.single new none)) before after

theorem IsSound.notMem_of_areNew {content : Content} {id : NodeId} (h : before.IsSound)
    (hn : AreNew before.next content) (hi : id ∈ content.ids) : id ∉ before.ids :=
  fun hm => Nat.not_lt.mpr (hn id hi) (h.bounded id hm)

theorem mem_ids_of_owner? {id : NodeId} {owner : Nat} (h : before.owner? id = some owner) :
    id ∈ before.ids := by
  rw [mem_ids]
  rcases Option.or_eq_some_iff.mp h with hi | ⟨-, hf⟩
  · obtain ⟨hlt, hm, -⟩ := List.findIdx?_eq_some_iff_getElem.mp hi
    exact ⟨_, List.mem_append_left _ (List.mem_map_of_mem (List.getElem_mem hlt)),
      List.contains_iff_mem.mp hm⟩
  · obtain ⟨fragment, hf, -⟩ := Option.map_eq_some_iff.mp hf
    have hm : fragment.content.ids.contains id = true := by simpa using List.find?_some hf
    exact ⟨_, List.mem_append_right _ (List.mem_map_of_mem (List.mem_of_find?_eq_some hf)),
      List.contains_iff_mem.mp hm⟩

namespace IsPlanted

theorem id_notMem (h : IsPlanted since spot parent scope new before after) :
    new.id ∉ before.ids :=
  h.sound.notMem_of_areNew h.areNew (by simp)

/-- What becomes of the contents when something happens within the planted element. -/
theorem amends_within {change : Content → Content} {piece : Content}
    (h : IsPlanted since spot parent scope new before between)
    (hc : Amends since change between after)
    (hn : ∀ content, ∀ id ∈ (change content).ids, id ∈ content.ids ∨ since ≤ id.index)
    (hp : ∀ content : Content, new.id ∉ content.ids →
      change (content.plant spot (.single new none)) = content.plant spot piece) :
    Amends since (Content.plant · spot piece) before after :=
  (h.amends.trans hc hn).congr fun content hm =>
    hp content fun hi => h.id_notMem (mem_ids.mpr ⟨content, hm, hi⟩)

theorem mem_ids_mapContent {id : NodeId} {piece : Content} (hi : id ∈ before.ids) :
    id ∈ (before.mapContent (Content.plant · spot piece)).ids := by
  obtain ⟨content, hm, hi⟩ := mem_ids.mp hi
  rw [mem_ids, contents_mapContent]
  exact ⟨_, List.mem_map_of_mem hm, Content.mem_ids_plant hi⟩

theorem joined_plant (h : before.IsSound) (piece : Content) :
    (before.mapContent (Content.plant · spot piece)).joined = before.joined.plant spot piece :=
  joined_mapContent h.nodup

/-- How the elements that were there before are set. -/
theorem setting?_of_mem (h : IsPlanted since spot parent scope new before after) {id : NodeId}
    (hi : id ∈ before.ids) :
    after.setting? id =
      (before.setting? id).map (Setting.plant · spot (.single new none)) := by
  have hn : id ∉ (Content.single new none).ids := fun hm =>
    h.sound.notMem_of_areNew h.areNew hm hi
  rw [h.amends.setting? (mem_ids_mapContent hi), Forest.setting?, joined_plant h.sound,
    Content.setting?_plant h.sound.nodup hn]
  rfl

/-- How the planted element and those in it are set. -/
theorem setting?_within (h : IsPlanted since spot parent scope new before after) {id : NodeId}
    (hi : id ∈ (Content.single new none).ids) :
    after.setting? id = (Content.single new none).setting? id (some parent) scope := by
  obtain ⟨setting, hs, hp, ha⟩ := h.anchored
  obtain ⟨found, hf⟩ := Content.exists_setting? (some parent) scope hi
  have hset : (before.mapContent (Content.plant · spot (.single new none))).setting? id =
      some found := by
    rw [Forest.setting?, joined_plant h.sound,
      Content.setting?_plant_piece (h.sound.notMem_of_areNew h.areNew hi) hi]
    change (before.setting? spot.anchor).bind _ = _
    rw [hs, Option.bind_some, hp, ha, hf]
  rw [h.amends.setting? (mem_ids_of_setting? hset), hset, hf]

theorem setting? (h : IsPlanted since spot parent scope new before after) :
    after.setting? new.id = some ⟨some parent, scope, new⟩ := by
  rw [h.setting?_within (by simp), Content.setting?_single]

/-- Nothing has happened to what is there. -/
theorem trans (h : IsPlanted since spot parent scope new before between)
    (ha : Amends since (fun content => content) between after) :
    IsPlanted since spot parent scope new before after :=
  { h with amends := h.amends.trans ha fun _ _ hi => .inl hi }

/-- The planted element gets another tag. -/
theorem mapTag {change : Tag → Tag} (h : IsPlanted since spot parent scope new before between)
    (hi : ∀ tag, (change tag).id = tag.id)
    (ha : Amends since (Content.mapTag new.id change) between after) :
    IsPlanted since spot parent scope ⟨change new.tag, new.content⟩ before after := by
  refine ⟨h.anchored, fun id hm => h.areNew id ?_, h.since_le, h.sound, ?_⟩
  · rw [Content.ids_single] at hm ⊢
    rwa [Element.id, hi] at hm
  · refine h.amends_within ha (fun content id hm => .inl (by rwa [Content.ids_mapTag hi] at hm)) ?_
    intro content hm
    rw [Content.mapTag_eq_replace, Content.plant_replace hm, Content.replace_single]

/-- Something new is put in front of what the planted element contains. -/
theorem plant {piece : Content} (h : IsPlanted since spot parent scope new before between)
    (hn : AreNew before.next piece)
    (ha : Amends since (Content.plant · (.inFront new.id) piece) between after) :
    IsPlanted since spot parent scope ⟨new.tag, piece ++ new.content⟩ before after := by
  have hnew : ∀ id ∈ piece.ids, since ≤ id.index := fun id hm => Nat.le_trans h.since_le (hn id hm)
  refine ⟨h.anchored, fun id hm => ?_, h.since_le, h.sound, ?_⟩
  · rw [Content.ids_single, Content.ids_append, List.mem_cons, List.mem_append] at hm
    rcases hm with hm | hm | hm
    · exact h.areNew id (by rw [Content.ids_single, hm]; exact List.mem_cons_self)
    · exact hn id hm
    · exact h.areNew id (by rw [Content.ids_single]; exact List.mem_cons_of_mem _ hm)
  · refine h.amends_within ha
      (fun content id hm => (Content.mem_of_mem_ids_plant hm).imp_right (hnew id)) ?_
    intro content hm
    change (content.plant spot (.single new none)).replace new.id _ = _
    rw [Content.plant_replace hm, Content.replace_single]
    rfl

/-- Taken out, the planted element leaves what was there before. -/
theorem delete (h : IsPlanted since spot parent scope new before after) :
    Amends since (fun content => content) before (after.delete new.id) := by
  obtain ⟨position, hposition, hps⟩ := exists_position? h.setting?
  obtain ⟨above, habove⟩ : ∃ above, (after.position? new.id).bind Position.parent? = some above := by
    have : position.setting.parent = some parent := by rw [hps]
    obtain ⟨above, ha, -⟩ := Option.map_eq_some_iff.mp this
    rw [hposition]
    exact ⟨above, ha⟩
  have hsound := h.amends.sound.delete new.id
  obtain ⟨owner, found, tail, count, moved, hf, hmoved, hd⟩ := delete_of_parent habove
  -- what is taken out is the planted element as it is by now
  obtain rfl : new = found := by
    have := Content.element_setting? new.id none [] after.joined
    rw [← find?_eq, hf] at this
    change (after.setting? new.id).map _ = _ at this
    rw [h.setting?] at this
    exact Option.some.inj this
  have hmovednew : AreNew since (.single moved tail) := by
    intro id hi
    rw [show moved = (new.rebind [] (after.minted new.id)).1 by rw [hmoved],
      Content.ids_rebind, Content.ids_single] at hi
    exact Nat.le_trans h.since_le (h.areNew id (by rwa [Content.ids_single]))
  rw [hd] at hsound ⊢
  exact ((h.amends.setMinted new.id count).detach_planted h.sound h.id_notMem).addFragment
    hmovednew hsound

end IsPlanted

/-! ## Roots -/

namespace Amends

variable {change : Content → Content} {id : NodeId}

/-- An element belongs to the tree that it belonged to, unless it's put into or taken out of one. -/
theorem owner? (h : Amends before.next change before after) (hb : before.IsSound)
    (hsame : ∀ content : Content, id ∈ (change content).ids ↔ id ∈ content.ids)
    (hi : id ∈ before.ids) : after.owner? id = before.owner? id := by
  have hcontains (content : Content) :
      (change content).ids.contains id = content.ids.contains id := by
    rw [Bool.eq_iff_iff, List.contains_iff_mem, List.contains_iff_mem]
    exact hsame content
  have hnew {content : Content} (hc : AreNew before.next content) :
      content.ids.contains id = false := by
    apply Bool.eq_false_iff.mpr
    intro hm
    exact hb.notMem_of_areNew hc (List.contains_iff_mem.mp hm) hi
  obtain ⟨trees, ht, htn⟩ := h.trees
  obtain ⟨fragments, hf, hfn⟩ := h.fragments
  unfold Forest.owner?
  congr 1
  · have hcomp (trees : List Tree) : trees.findIdx? (fun tree => tree.content.ids.contains id) =
        (trees.map Tree.content).findIdx? fun content => content.ids.contains id := by
      rw [List.findIdx?_map]
      rfl
    have hnone : trees.findIdx? (fun content => content.ids.contains id) = none :=
      List.findIdx?_eq_none_iff.mpr fun content hm => hnew (htn content hm)
    rw [hcomp, ht, List.findIdx?_append, hnone, List.findIdx?_map]
    simp only [Function.comp_def, hcontains, Option.map_none, Option.or_none]
  · have hnone : fragments.find? (fun fragment => fragment.content.ids.contains id) = none :=
      List.find?_eq_none.mpr fun fragment hm => by rw [hnew (hfn fragment hm)]; exact nofun
    rw [hf, List.find?_append, hnone, Option.or_none, List.find?_map, Option.map_map]
    simp only [Function.comp_def, hcontains]

/-- A tree that was there is still there, changed. -/
theorem exists_tree (h : Amends since change before after) {index : Nat} {tree : Tree}
    (ht : before.trees[index]? = some tree) :
    ∃ later, after.trees[index]? = some later ∧ later.content = change tree.content := by
  obtain ⟨trees, hc, -⟩ := h.trees
  obtain ⟨hlt, rfl⟩ := List.getElem?_eq_some_iff.mp ht
  apply Option.map_eq_some_iff.mp
  rw [← List.getElem?_map, hc, List.getElem?_append_left (by simpa using hlt)]
  simp [hlt]

end Amends

namespace IsPlanted

/-- Nothing that was there before is put into or taken out of a content. -/
theorem mem_ids_plant_iff (h : IsPlanted since spot parent scope new before after) {id : NodeId}
    (hi : id ∈ before.ids) (content : Content) :
    id ∈ (content.plant spot (.single new none)).ids ↔ id ∈ content.ids := by
  have hn : id ∉ (Content.single new none).ids := fun hm =>
    h.sound.notMem_of_areNew h.areNew hm hi
  exact ⟨fun hm => (Content.mem_of_mem_ids_plant hm).resolve_right hn, Content.mem_ids_plant⟩

/-- An element belongs to the tree that it belonged to. -/
theorem owner? (h : IsPlanted before.next spot parent scope new before after) {id : NodeId}
    (hi : id ∈ before.ids) : after.owner? id = before.owner? id :=
  h.amends.owner? h.sound (h.mem_ids_plant_iff hi) hi

/-- The trees that were there have the same roots, the trees that were added come behind them. -/
theorem root? (h : IsPlanted since spot parent scope new before after) {owner : Nat}
    (hlt : owner < before.trees.length) :
    (after.trees[owner]?.bind Tree.root?).map Element.id =
      (before.trees[owner]?.bind Tree.root?).map Element.id := by
  have hget := List.getElem?_eq_getElem hlt
  obtain ⟨tree, ht, hcontent⟩ := h.amends.exists_tree hget
  rw [ht, hget, Option.bind_some, Option.bind_some, Tree.root?, hcontent,
    Content.firstElement?_plant]
  rfl

/-- The root of a tree stays its root. -/
theorem rootOf? (h : IsPlanted before.next spot parent scope new before after) {id root : NodeId}
    (hr : before.rootOf? id = some root) : after.rootOf? id = some root := by
  obtain ⟨element, he, -⟩ := Option.map_eq_some_iff.mp hr
  obtain ⟨tree, ht, -⟩ := Option.bind_eq_some_iff.mp he
  obtain ⟨owner, ho, ht⟩ := Option.bind_eq_some_iff.mp ht
  rw [Forest.rootOf?, treeOf?, h.owner? (mem_ids_of_owner? ho), ho, Option.bind_some,
    h.root? (List.getElem?_eq_some_iff.mp ht).1, ← hr, Forest.rootOf?, treeOf?, ho, Option.bind_some]

end IsPlanted
end MarkupPath.Forest
