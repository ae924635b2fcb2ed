import MarkupPath.Proofs.Forest.Planted
import MarkupPath.Proofs.Forest.Reached

/-!
# The trees that fragments belong to

An element that is taken out of its tree still belongs to that tree, so the tree has to be there. In
all forests that there can be it is (`Reached.isOwned`): trees are never removed, and an element
that is taken out belongs to the same tree as before. A tree that elements belong to keeps its root
when something is planted anywhere (`IsPlanted.rootOf?_eq`).
-/

namespace MarkupPath.Forest

variable {forest before between after : Forest} {id : NodeId}

/-- All fragments belong to trees that are there. -/
def IsOwned (forest : Forest) : Prop :=
  ∀ fragment ∈ forest.fragments, fragment.owner < forest.trees.length

instance (forest : Forest) : Decidable forest.IsOwned :=
  inferInstanceAs (Decidable (∀ fragment ∈ forest.fragments, _))

/-- The trees are still there, and the fragments are some of those that were there before. -/
structure KeepsOwners (before after : Forest) : Prop where
  /-- there are no fewer trees -/
  trees : before.trees.length ≤ after.trees.length
  /-- no fragment belongs to a tree that none belonged to before -/
  owners : ∀ fragment ∈ after.fragments, ∃ former ∈ before.fragments, former.owner = fragment.owner

namespace KeepsOwners

theorem refl (forest : Forest) : forest.KeepsOwners forest :=
  ⟨Nat.le_refl _, fun fragment hm => ⟨fragment, hm, rfl⟩⟩

theorem trans (h : before.KeepsOwners between) (hk : between.KeepsOwners after) :
    before.KeepsOwners after := by
  refine ⟨Nat.le_trans h.trees hk.trees, fun fragment hm => ?_⟩
  obtain ⟨mid, hmid, hm⟩ := hk.owners fragment hm
  obtain ⟨former, hformer, hf⟩ := h.owners mid hmid
  exact ⟨former, hformer, hf.trans hm⟩

theorem isOwned (h : before.KeepsOwners after) (ho : before.IsOwned) : after.IsOwned := by
  intro fragment hm
  obtain ⟨former, hformer, hf⟩ := h.owners fragment hm
  rw [← hf]
  exact Nat.lt_of_lt_of_le (ho former hformer) h.trees

/-! ## Operations -/

theorem mapContent (forest : Forest) (change : Content → Content) :
    forest.KeepsOwners (forest.mapContent change) := by
  refine ⟨by simp [Forest.mapContent], fun fragment hm => ?_⟩
  obtain ⟨former, hformer, rfl⟩ := List.mem_map.mp hm
  exact ⟨former, hformer, rfl⟩

theorem setMinted (forest : Forest) (id : NodeId) (minted : Nat) :
    forest.KeepsOwners (forest.setMinted id minted) := by
  obtain ⟨ht, hf, -⟩ := forest.setMinted_eq id minted
  refine ⟨?_, fun fragment hm => ⟨fragment, hf ▸ hm, rfl⟩⟩
  have hl := congrArg List.length ht
  rw [List.length_map, List.length_map] at hl
  exact Nat.le_of_eq hl.symm

theorem detach (forest : Forest) (id : NodeId) : forest.KeepsOwners (forest.detach id) := by
  have hm := mapContent forest (Content.remove id)
  exact ⟨hm.trees, fun fragment hf => hm.owners fragment (List.mem_filter.mp hf).1⟩

theorem addTree (forest : Forest) (content : Content) (minted : Nat) :
    forest.KeepsOwners (forest.addTree content minted) :=
  ⟨by simp [Forest.addTree], fun fragment hm => ⟨fragment, hm, rfl⟩⟩

theorem load {document former : Document} {loaded : Except LoadFailure Content}
    (h : loaded.map (former.setContent before) = .ok (document, after)) :
    before.KeepsOwners after := by
  obtain ⟨content, -, rfl, -⟩ := exists_content_of_load h
  exact addTree before content 0

theorem create {context node : NodeId} {name : String}
    (h : before.create context name = .ok (node, after)) : before.KeepsOwners after := by
  obtain ⟨tag, minted, -, -, rfl⟩ := create_eq_ok.mp h
  exact addTree _ _ _

theorem move {parent node : NodeId} {place : Element → Option String → Content → Content}
    (h : before.move parent node place = some after) : before.KeepsOwners after := by
  obtain ⟨position, found, tail, -, -, -, rfl⟩ := move_eq_some h
  exact ((detach before node).trans (mapContent _ _)).trans (setMinted _ _ _)

theorem insertAfter {parent reference node : NodeId}
    (h : before.insertAfter parent reference node = some after) : before.KeepsOwners after := by
  obtain ⟨position, -, rfl | hm⟩ := insertAfter_eq_some h
  · exact refl _
  · exact move hm

theorem setAttribute {node : NodeId} {name value : String}
    (h : before.setAttribute node name value = .ok after) : before.KeepsOwners after := by
  obtain ⟨key, count, -, -, rfl | rfl⟩ := setAttribute_eq_ok h
  · exact mapContent _ _
  · exact (mapContent _ _).trans (setMinted _ _ _)

theorem setText (forest : Forest) (node : NodeId) (text : String) :
    forest.KeepsOwners (forest.setText node text).2 := by
  obtain ⟨new, he⟩ := exists_mapTag_of_setText forest node text
  rw [he]
  exact mapContent _ _

end KeepsOwners

/-! ## Owners -/

/-- An element belongs to a tree that is there. -/
theorem IsOwned.owner?_lt {owner : Nat} (h : forest.IsOwned) (ho : forest.owner? id = some owner) :
    owner < forest.trees.length := by
  rcases Option.or_eq_some_iff.mp ho with hi | ⟨-, hf⟩
  · exact (List.findIdx?_eq_some_iff_getElem.mp hi).1
  · obtain ⟨fragment, hfound, rfl⟩ := Option.map_eq_some_iff.mp hf
    exact h fragment (List.mem_of_find?_eq_some hfound)

theorem IsOwned.delete (h : forest.IsOwned) (node : NodeId) : (forest.delete node).IsOwned := by
  simp only [Forest.delete]
  split
  · rename_i position found tail owner _ _ ho
    generalize found.rebind [] (forest.minted node) = moved
    have hk := (KeepsOwners.setMinted forest node moved.2).trans (.detach _ node)
    intro fragment hm
    rcases List.mem_append.mp hm with hm | hm
    · exact hk.isOwned h fragment hm
    · obtain rfl := List.mem_singleton.mp hm
      exact Nat.lt_of_lt_of_le (h.owner?_lt ho) hk.trees
  · exact h

theorem Reached.isOwned (h : Reached forest) : forest.IsOwned := by
  induction h with
  | empty => exact fun _ hm => by cases hm
  | load _ hl ih => exact (KeepsOwners.load hl).isOwned ih
  | parse _ hl ih => exact (KeepsOwners.load hl).isOwned ih
  | create _ hc ih => exact (KeepsOwners.create hc).isOwned ih
  | insertFirst _ hi ih => exact (KeepsOwners.move hi).isOwned ih
  | insertAfter _ hi ih => exact (KeepsOwners.insertAfter hi).isOwned ih
  | delete node _ ih => exact ih.delete node
  | setAttribute _ hs ih => exact (KeepsOwners.setAttribute hs).isOwned ih
  | setText node text _ ih => exact (KeepsOwners.setText _ node text).isOwned ih

theorem mem_ids_of_firstElement? {content : Content} {first : Element}
    (h : content.firstElement? = some first) : first.id ∈ content.ids := by
  induction content with
  | nil => cases h
  | element tag children tail rest _ _ =>
    cases h
    exact List.mem_cons_self
  | comment text tail rest ih => exact ih h
  | instruction target data tail rest ih => exact ih h

theorem mem_ids_of_root? {tree : Tree} {root : NodeId}
    (h : tree.root?.map Element.id = some root) : root ∈ tree.content.ids := by
  obtain ⟨first, hf, rfl⟩ := Option.map_eq_some_iff.mp h
  exact mem_ids_of_firstElement? hf

theorem exists_tree_of_rootOf? {root : NodeId} (h : forest.rootOf? id = some root) :
    ∃ tree ∈ forest.trees, tree.root?.map Element.id = some root := by
  obtain ⟨first, hf, rfl⟩ := Option.map_eq_some_iff.mp h
  obtain ⟨tree, ht, hf⟩ := Option.bind_eq_some_iff.mp hf
  obtain ⟨owner, -, ht⟩ := Option.bind_eq_some_iff.mp ht
  exact ⟨tree, List.mem_of_getElem? ht, by rw [hf, Option.map_some]⟩

/-- The root of a tree stands in the forest. -/
theorem mem_ids_of_rootOf? {root : NodeId} (h : forest.rootOf? id = some root) :
    root ∈ forest.ids := by
  obtain ⟨tree, ht, hr⟩ := exists_tree_of_rootOf? h
  refine mem_ids.mpr ⟨tree.content, List.mem_append_left _ ?_, mem_ids_of_root? hr⟩
  exact List.mem_map_of_mem ht

/-- The tree that an element belongs to has the same root, or still none. -/
theorem IsPlanted.rootOf?_eq {spot : Spot} {parent : NodeId} {scope : Scope} {new : Element}
    (h : IsPlanted before.next spot parent scope new before after) (ho : before.IsOwned)
    (hi : id ∈ before.ids) : after.rootOf? id = before.rootOf? id := by
  obtain ⟨owner, howner⟩ := exists_owner? hi
  rw [Forest.rootOf?, Forest.rootOf?, treeOf?, treeOf?, h.owner? hi, howner, Option.bind_some,
    Option.bind_some]
  exact h.root? (ho.owner?_lt howner)

end MarkupPath.Forest
