import MarkupPath.Proofs.Forest.Ancestry
import MarkupPath.Proofs.Forest.Ownership

/-!
# What a change spares

A change to a forest `Spares` some of its contents: they are still there, and they are as they were.
It also takes no element from the tree that it belongs to, and no root from its tree. What such
changes leave alone one after the other is spared by all of them (`Spares.trans`).

Elements have identities of their own, so whatever is looked up by an identity is found in the one
content that has it (`IsSound.findSome?_of_mem`). Hence an element reads the same after a change that
spares its content (`Spares.markup_eq`), and so do the markup of its tree and that of documents.
-/

namespace MarkupPath

/-- What is only found where an identity is, is found in the one content that has it. -/
theorem Content.findSome?_of_mem {β : Type} {f : Content → Option β} {id : NodeId}
    {content : Content} {contents : List Content} (hn : (join contents).ids.Nodup)
    (hm : content ∈ contents) (hi : id ∈ content.ids)
    (hf : ∀ other : Content, id ∉ other.ids → f other = none) :
    contents.findSome? f = f content := by
  induction contents with
  | nil => cases hm
  | cons first rest ih =>
    rw [join, ids_append, List.nodup_append] at hn
    obtain ⟨-, hr, hd⟩ := hn
    rw [List.findSome?_cons]
    rcases List.mem_cons.mp hm with rfl | hm
    · cases f content with
      | some found => rfl
      | none =>
        refine List.findSome?_eq_none_iff.mpr fun other ho => hf other fun hj => ?_
        exact hd _ hi _ (mem_ids_join.mpr ⟨other, ho, hj⟩) rfl
    · rw [hf first fun hj => hd _ hj _ (mem_ids_join.mpr ⟨content, hm, hi⟩) rfl]
      exact ih hr hm

theorem Content.ids_sublist_join {content : Content} {contents : List Content}
    (hm : content ∈ contents) : content.ids.Sublist (join contents).ids := by
  induction contents with
  | nil => cases hm
  | cons first rest ih =>
    rw [join, ids_append]
    rcases List.mem_cons.mp hm with rfl | hm
    · exact List.sublist_append_left _ _
    · exact (ih hm).trans (List.sublist_append_right _ _)

namespace Forest

variable {forest before between after : Forest} {id root : NodeId} {content other : Content}
  {tree : Tree}

/-! ## Looking up in the right content -/

theorem mem_contents_of_tree (ht : tree ∈ forest.trees) : tree.content ∈ forest.contents :=
  List.mem_append_left _ (List.mem_map_of_mem ht)

theorem mem_contents_of_fragment {fragment : Fragment} (hf : fragment ∈ forest.fragments) :
    fragment.content ∈ forest.contents :=
  List.mem_append_right _ (List.mem_map_of_mem hf)

namespace IsSound

theorem findSome?_of_mem {β : Type} {f : Content → Option β} (h : forest.IsSound)
    (hm : content ∈ forest.contents) (hi : id ∈ content.ids)
    (hf : ∀ other : Content, id ∉ other.ids → f other = none) :
    forest.contents.findSome? f = f content :=
  Content.findSome?_of_mem h.nodup hm hi hf

theorem nodup_of_mem (h : forest.IsSound) (hm : content ∈ forest.contents) : content.ids.Nodup :=
  (Content.ids_sublist_join hm).nodup h.nodup

/-- No two contents have an element in common. -/
theorem eq_of_mem_ids (h : forest.IsSound) (hc : content ∈ forest.contents)
    (ho : other ∈ forest.contents) (hi : id ∈ content.ids) (hj : id ∈ other.ids) :
    content = other := by
  let having (candidate : Content) : Option Content :=
    if id ∈ candidate.ids then some candidate else none
  have hf : ∀ candidate : Content, id ∉ candidate.ids → having candidate = none :=
    fun candidate hn => if_neg hn
  have hsame := (h.findSome?_of_mem hc hi hf).symm.trans (h.findSome?_of_mem ho hj hf)
  simp only [having, if_pos hi, if_pos hj] at hsame
  exact Option.some.inj hsame

theorem position?_of_mem (h : forest.IsSound) (hm : content ∈ forest.contents)
    (hi : id ∈ content.ids) : forest.position? id = Position.locate id content :=
  h.findSome?_of_mem hm hi fun _ => Position.locate_eq_none

theorem find?_of_mem (h : forest.IsSound) (hm : content ∈ forest.contents)
    (hi : id ∈ content.ids) : forest.find? id = content.find? id :=
  h.findSome?_of_mem hm hi fun _ => Content.find?_eq_none_iff.mpr

theorem setting?_of_mem (h : forest.IsSound) (hm : content ∈ forest.contents)
    (hi : id ∈ content.ids) : forest.setting? id = content.setting? id none [] := by
  rw [setting?, joined, Content.setting?_join]
  exact h.findSome?_of_mem hm hi fun _ => Content.setting?_eq_none_iff.mpr

/-- The root of the tree that an element stands in is that of the tree that it belongs to. -/
theorem rootOf?_of_mem (h : forest.IsSound) (ht : tree ∈ forest.trees)
    (hi : id ∈ tree.content.ids) : forest.rootOf? id = tree.root?.map Element.id := by
  cases hf : forest.trees.findIdx? fun tree => tree.content.ids.contains id with
  | none =>
    have := List.findIdx?_eq_none_iff.mp hf tree ht
    simp [hi] at this
  | some index =>
    obtain ⟨hlt, hm, -⟩ := List.findIdx?_eq_some_iff_getElem.mp hf
    have hsame : forest.trees[index].content = tree.content :=
      h.eq_of_mem_ids (mem_contents_of_tree (List.getElem_mem hlt)) (mem_contents_of_tree ht)
        (List.contains_iff_mem.mp hm) hi
    rw [rootOf?, treeOf?, owner?, hf, Option.some_or, Option.bind_some,
      List.getElem?_eq_getElem hlt, Option.bind_some, Tree.root?, hsame, Tree.root?]

/-- A root belongs to the tree whose root it is. -/
theorem rootOf?_root (h : forest.IsSound) (hr : forest.rootOf? id = some root) :
    forest.rootOf? root = some root := by
  obtain ⟨tree, ht, hroot⟩ := exists_tree_of_rootOf? hr
  rw [h.rootOf?_of_mem ht (mem_ids_of_root? hroot), hroot]

end IsSound

/-- What is planted stands in one content with its parent. -/
theorem IsPlanted.parent_mem {since : Nat} {spot : Spot} {parent : NodeId} {scope : Scope}
    {new : Element} (h : IsPlanted since spot parent scope new before after)
    (hc : content ∈ before.contents) (hs : spot.anchor ∈ content.ids) : parent ∈ content.ids := by
  obtain ⟨setting, hset, hparent, -⟩ := h.anchored
  rw [h.sound.setting?_of_mem hc hs] at hset
  cases spot with
  | inFront above =>
    obtain rfl : setting.element.id = parent := Option.some.inj hparent
    rwa [(Content.element_of_setting? hset).1]
  | behind reference =>
    rw [Spot.parent] at hparent
    rcases Content.setting?_parent (h.sound.nodup_of_mem hc) hset with ⟨hn, -⟩ | ⟨upper, hu, hp, -⟩
    · rw [hn] at hparent
      cases hparent
    · rw [hp] at hparent
      exact Option.some.inj hparent ▸ Content.mem_ids_of_setting? hu

/-! ## Spared contents -/

/-- A change leaves those contents alone that have a property, and to all others it only adds: each
element stays in its tree, and each tree keeps its root. -/
structure Spares (isSpared : Content → Prop) (before after : Forest) : Prop where
  /-- the trees are still there, with the same roots, and those that are spared are as they were -/
  trees : ∀ (index : Nat) (tree : Tree), before.trees[index]? = some tree →
    ∃ later : Tree, after.trees[index]? = some later ∧
      later.root?.map Element.id = tree.root?.map Element.id ∧
      (isSpared tree.content → later.content = tree.content)
  /-- so are the fragments that are spared -/
  fragments : ∀ fragment ∈ before.fragments, isSpared fragment.content →
    fragment ∈ after.fragments
  /-- each element belongs to the tree that it belonged to -/
  owners : ∀ id ∈ before.ids, after.owner? id = before.owner? id

namespace Spares

variable {isSpared isAlso : Content → Prop}

theorem refl (isSpared : Content → Prop) (forest : Forest) : forest.Spares isSpared forest :=
  ⟨fun _ tree ht => ⟨tree, ht, rfl, fun _ => rfl⟩, fun _ hf _ => hf, fun _ _ => rfl⟩

theorem imp (h : before.Spares isAlso after)
    (hi : ∀ content ∈ before.contents, isSpared content → isAlso content) :
    before.Spares isSpared after := by
  refine ⟨fun index tree ht => ?_, fun fragment hf hs => ?_, h.owners⟩
  · obtain ⟨later, hl, hr, hc⟩ := h.trees index tree ht
    exact ⟨later, hl, hr, fun hs =>
      hc (hi _ (mem_contents_of_tree (List.mem_of_getElem? ht)) hs)⟩
  · exact h.fragments fragment hf (hi _ (mem_contents_of_fragment hf) hs)

theorem ids_subset (h : before.Spares isSpared after) : before.ids ⊆ after.ids := by
  intro id hi
  obtain ⟨owner, ho⟩ := exists_owner? hi
  exact mem_ids_of_owner? ((h.owners id hi).trans ho)

theorem trans (h : before.Spares isSpared between) (hl : between.Spares isSpared after) :
    before.Spares isSpared after := by
  refine ⟨fun index tree ht => ?_, fun fragment hf hs => ?_, fun id hi => ?_⟩
  · obtain ⟨mid, hm, hroot, hcontent⟩ := h.trees index tree ht
    obtain ⟨later, hlater, hlroot, hlcontent⟩ := hl.trees index mid hm
    refine ⟨later, hlater, hlroot.trans hroot, fun hs => ?_⟩
    rw [hlcontent (by rwa [hcontent hs]), hcontent hs]
  · exact hl.fragments fragment (h.fragments fragment hf hs) hs
  · rw [hl.owners id (h.ids_subset hi), h.owners id hi]

/-- What an amendment doesn't change is spared, if it only adds to what it changes. -/
theorem of_amends {change : Content → Content} (h : Amends before.next change before after)
    (hb : before.IsSound)
    (hs : ∀ content ∈ before.contents, isSpared content → change content = content)
    (hi : ∀ id ∈ before.ids, ∀ content : Content, id ∈ (change content).ids ↔ id ∈ content.ids)
    (hr : ∀ content : Content, (change content).firstElement?.map Element.id =
      content.firstElement?.map Element.id) : before.Spares isSpared after := by
  refine ⟨fun index tree ht => ?_, fun fragment hf hspared => ?_, fun id hm =>
    h.owner? hb (hi id hm) hm⟩
  · obtain ⟨later, hl, hc⟩ := h.exists_tree ht
    refine ⟨later, hl, ?_, fun hspared => ?_⟩
    · rw [Tree.root?, hc, hr, Tree.root?]
    · rw [hc, hs _ (mem_contents_of_tree (List.mem_of_getElem? ht)) hspared]
  · obtain ⟨others, hfragments, -⟩ := h.fragments
    rw [hfragments]
    refine List.mem_append_left _ (List.mem_map.mpr ⟨fragment, hf, ?_⟩)
    rw [hs _ (mem_contents_of_fragment hf) hspared]

/-- An element that is planted spares the contents that don't have its spot. -/
theorem of_isPlanted {spot : Spot} {parent : NodeId} {scope : Scope} {new : Element}
    (h : IsPlanted before.next spot parent scope new before after) :
    before.Spares (spot.anchor ∉ ·.ids) after :=
  .of_amends h.amends h.sound (fun _ _ => Content.plant_of_notMem)
    (fun _ => h.mem_ids_plant_iff) fun content => Content.firstElement?_plant content

/-- So it spares those that don't have the parent below which it's planted. -/
theorem of_isPlanted_below {spot : Spot} {parent : NodeId} {scope : Scope} {new : Element}
    (h : IsPlanted before.next spot parent scope new before after) :
    before.Spares (parent ∉ ·.ids) after :=
  (of_isPlanted h).imp fun _ hc hp hs => hp (h.parent_mem hc hs)

/-- What is only added to is spared as a whole. -/
theorem of_kept (h : Amends before.next (fun content => content) before after)
    (hb : before.IsSound) : before.Spares isSpared after :=
  .of_amends h hb (fun _ _ _ => rfl) (fun _ _ _ => Iff.rfl) fun _ => rfl

/-! ## Reading what is spared -/

variable (h : before.Spares isSpared after)
include h

theorem exists_tree (ht : tree ∈ before.trees) (hs : isSpared tree.content) :
    ∃ later ∈ after.trees, later.content = tree.content := by
  obtain ⟨index, hlt, rfl⟩ := List.getElem_of_mem ht
  obtain ⟨later, hl, -, hcontent⟩ := h.trees index _ (List.getElem?_eq_getElem hlt)
  exact ⟨later, List.mem_of_getElem? hl, hcontent hs⟩

theorem mem_contents (hc : content ∈ before.contents) (hs : isSpared content) :
    content ∈ after.contents := by
  rcases List.mem_append.mp hc with hm | hm
  · obtain ⟨tree, ht, rfl⟩ := List.mem_map.mp hm
    obtain ⟨later, hl, hcontent⟩ := h.exists_tree ht hs
    rw [← hcontent]
    exact mem_contents_of_tree hl
  · obtain ⟨fragment, hf, rfl⟩ := List.mem_map.mp hm
    exact mem_contents_of_fragment (h.fragments fragment hf hs)

/-- The tree that an element belongs to, as it was and as it is. -/
theorem exists_treeOf? (ho : before.IsOwned) (hi : id ∈ before.ids) :
    ∃ tree later, before.treeOf? id = some tree ∧ after.treeOf? id = some later ∧
      tree.content ∈ before.contents ∧
      later.root?.map Element.id = tree.root?.map Element.id ∧
      (isSpared tree.content → later.content = tree.content) := by
  obtain ⟨owner, howner⟩ := exists_owner? hi
  have hget := List.getElem?_eq_getElem (ho.owner?_lt howner)
  obtain ⟨later, hl, hr, hc⟩ := h.trees owner _ hget
  refine ⟨_, later, ?_, ?_, mem_contents_of_tree (List.getElem_mem _), hr, hc⟩
  · rw [treeOf?, howner, Option.bind_some, hget]
  · rw [treeOf?, h.owners id hi, howner, Option.bind_some, hl]

/-- It has the same root, or still none. -/
theorem rootOf?_eq (ho : before.IsOwned) (hi : id ∈ before.ids) :
    after.rootOf? id = before.rootOf? id := by
  obtain ⟨tree, later, ht, hl, -, hr, -⟩ := h.exists_treeOf? ho hi
  rw [rootOf?, rootOf?, hl, ht]
  exact hr

variable (hb : before.IsSound) (ha : after.IsSound)
include hb ha

/-- An element in a spared content reads the same. -/
theorem markup_eq (hc : content ∈ before.contents) (hs : isSpared content) (hi : id ∈ content.ids) :
    after.markup id = before.markup id := by
  rw [markup, markup, ha.position?_of_mem (h.mem_contents hc hs) hi, hb.position?_of_mem hc hi]

theorem find?_eq (hc : content ∈ before.contents) (hs : isSpared content) (hi : id ∈ content.ids) :
    after.find? id = before.find? id := by
  rw [ha.find?_of_mem (h.mem_contents hc hs) hi, hb.find?_of_mem hc hi]

end Spares

/-! ## Documents -/

theorem any_root?_iff :
    tree.root?.any (·.id = root) = true ↔ tree.root?.map Element.id = some root := by
  cases tree.root? <;> simp

/-- The markup of a document is that of the tree whose root it has. -/
theorem IsSound.documentMarkup_of_root (h : forest.IsSound) (ht : tree ∈ forest.trees)
    (hr : tree.root?.map Element.id = some root) :
    forest.documentMarkup root = Markup.write tree.content := by
  rw [documentMarkup]
  cases hf : forest.trees.find? fun tree => tree.root?.any (·.id = root) with
  | none => exact absurd (any_root?_iff.mpr hr) (List.find?_eq_none.mp hf tree ht)
  | some found =>
    have hfound := List.find?_some hf
    rw [any_root?_iff] at hfound
    dsimp only
    rw [h.eq_of_mem_ids (mem_contents_of_tree (List.mem_of_find?_eq_some hf))
      (mem_contents_of_tree ht) (mem_ids_of_root? hfound) (mem_ids_of_root? hr)]

/-- Without such a tree it's that of the element and its tail. -/
theorem documentMarkup_of_no_root
    (hn : ∀ tree ∈ forest.trees, tree.root?.map Element.id ≠ some root) :
    forest.documentMarkup root =
      forest.markup root ++ Markup.writeTail ((forest.find? root).bind (·.2)) := by
  have hf : (forest.trees.find? fun tree => tree.root?.any (·.id = root)) = none :=
    List.find?_eq_none.mpr fun tree ht hany => hn tree ht (any_root?_iff.mp hany)
  rw [documentMarkup, hf]

namespace Spares

/-- The document of a tree that is spared reads the same. -/
theorem documentMarkup_of_root {isSpared : Content → Prop} (h : before.Spares isSpared after)
    (hb : before.IsSound) (ha : after.IsSound) (ht : tree ∈ before.trees)
    (hs : isSpared tree.content) (hr : tree.root?.map Element.id = some root) :
    after.documentMarkup root = before.documentMarkup root := by
  obtain ⟨later, hl, hcontent⟩ := h.exists_tree ht hs
  rw [hb.documentMarkup_of_root ht hr,
    ha.documentMarkup_of_root hl (by rwa [Tree.root?, hcontent]), hcontent]

variable {isSpared : Content → Prop} (h : before.Spares isSpared after) (hb : before.IsSound)
  (ha : after.IsSound) (hall : ∀ content ∈ before.contents, isSpared content)
include h hall

/-- If all that was there is spared, the tree that an element belongs to reads the same. -/
theorem treeMarkup_eq (ho : before.IsOwned) (hi : id ∈ before.ids) :
    after.treeMarkup id = before.treeMarkup id := by
  obtain ⟨tree, later, ht, hl, hin, -, hc⟩ := h.exists_treeOf? ho hi
  rw [treeMarkup, treeMarkup, hl, ht, Option.bind_some, Option.bind_some, Tree.root?,
    hc (hall _ hin), Tree.root?]

include ha

/-- No element becomes the root of a tree. -/
theorem exists_tree_of_root (hi : root ∈ before.ids) (ht : tree ∈ after.trees)
    (hr : tree.root?.map Element.id = some root) :
    ∃ former ∈ before.trees, former.content = tree.content := by
  have hin := mem_ids_of_root? hr
  obtain ⟨content, hc, hi⟩ := mem_ids.mp hi
  have hsame := ha.eq_of_mem_ids (h.mem_contents hc (hall _ hc)) (mem_contents_of_tree ht) hi hin
  rcases List.mem_append.mp hc with hm | hm
  · obtain ⟨former, hf, rfl⟩ := List.mem_map.mp hm
    exact ⟨former, hf, hsame⟩
  · -- a fragment is still one, so it's no tree
    obtain ⟨fragment, hf, rfl⟩ := List.mem_map.mp hm
    exact absurd hi (ha.disjoint ht (h.fragments fragment hf (hall _ hc)) hin)

include hb

/-- If all that was there is spared, documents read the same. -/
theorem documentMarkup_eq (hi : root ∈ before.ids) :
    after.documentMarkup root = before.documentMarkup root := by
  by_cases hroot : ∃ tree ∈ before.trees, tree.root?.map Element.id = some root
  · obtain ⟨tree, ht, hr⟩ := hroot
    exact h.documentMarkup_of_root hb ha ht (hall _ (mem_contents_of_tree ht)) hr
  · obtain ⟨content, hc, hi'⟩ := mem_ids.mp hi
    rw [documentMarkup_of_no_root fun tree ht hr => ?_,
      documentMarkup_of_no_root fun tree ht hr => hroot ⟨tree, ht, hr⟩,
      h.markup_eq hb ha hc (hall _ hc) hi', h.find?_eq hb ha hc (hall _ hc) hi']
    obtain ⟨former, hf, hsame⟩ := h.exists_tree_of_root ha hall hi ht hr
    refine hroot ⟨former, hf, ?_⟩
    rwa [Tree.root?, hsame]

/-- If all that was there is spared, an element reads the same, and so do the tree that it belongs to
and a document that has it as its root. -/
theorem reads_eq (ho : before.IsOwned) (hi : id ∈ before.ids) :
    after.markup id = before.markup id ∧ after.treeMarkup id = before.treeMarkup id ∧
      after.documentMarkup id = before.documentMarkup id := by
  obtain ⟨content, hc, hm⟩ := mem_ids.mp hi
  exact ⟨h.markup_eq hb ha hc (hall _ hc) hm, h.treeMarkup_eq hall ho hi,
    h.documentMarkup_eq hb ha hall hi⟩

end Spares

end Forest
end MarkupPath
