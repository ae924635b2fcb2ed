import MarkupPath.Proofs.Forest.Ownership
import MarkupPath.Proofs.Forest.Roots
import MarkupPath.Proofs.Forest.Standing
import MarkupPath.Proofs.Tree.Ways

/-!
# Where the chain of parents ends

From each node of a forest the chain of parents leads up to an element without a parent, and only to
that one. For a node in a tree that is the root of the tree (`rootOf?_of_leadsUp`). A node that was
taken out of its tree, alone or with an ancestor, still belongs to that tree, but its chain doesn't
end at the root of the tree any more (`ne_rootOf?_of_isRemoved`).
-/

namespace MarkupPath

namespace Position

theorem topmost_mem_tops {position : Position} {content : Content} (h : position ∈ allTop content) :
    position.topmost.id ∈ content.tops := by
  induction content with
  | nil => cases h
  | element tag content tail rest _ ih =>
    rcases List.mem_cons.mp h with rfl | h
    · exact List.mem_cons_self
    · rcases List.mem_append.mp h with h | h
      · rw [topmost_of_mem_allBelowIn h]
        exact List.mem_cons_self
      · exact List.mem_cons_of_mem _ (ih h)
  | comment text tail rest ih => exact ih h
  | instruction target data tail rest ih => exact ih h

end Position

namespace Content

variable {content : Content}

theorem tops_subset (content : Content) : content.tops ⊆ content.ids := by
  intro id h
  obtain ⟨element, he, rfl⟩ := List.mem_map.mp h
  rw [← Position.ids_allTop]
  exact List.mem_map_of_mem (top_mem_allTop he)

/-- If there's only one element outside of others, it's the first one. -/
theorem firstElement?_of_mem_tops {id : NodeId} (hl : content.tops.length ≤ 1)
    (h : id ∈ content.tops) : content.firstElement?.map Element.id = some id := by
  simp only [tops] at hl h
  induction content with
  | nil => cases h
  | element tag children tail rest _ _ =>
    rw [elements, List.map_cons, List.length_cons] at hl
    have hrest : rest.elements.map Element.id = [] := List.eq_nil_of_length_eq_zero (by omega)
    rw [elements, List.map_cons, hrest, List.mem_singleton] at h
    exact congrArg some h.symm
  | comment text tail rest ih => exact ih hl h
  | instruction target data tail rest ih => exact ih hl h

end Content

namespace Forest

variable {forest : Forest} {node parent root other : NodeId} {position : Position}

/-- The parent of a node. -/
def parent? (forest : Forest) (node : NodeId) : Option NodeId :=
  ((forest.position? node).bind Position.parent?).map Position.id

/-- Following the parents from a node ends at another one, or at once. -/
inductive LeadsUp (forest : Forest) : NodeId → NodeId → Prop where
  /-- the node has no parent -/
  | ends {node : NodeId} : forest.parent? node = none → LeadsUp forest node node
  /-- the chain goes on from the parent -/
  | goesOn {node parent root : NodeId} :
    forest.parent? node = some parent → LeadsUp forest parent root → LeadsUp forest node root

/-- The node was taken out of its tree, or an element that contains it. -/
def IsRemoved (forest : Forest) (node : NodeId) : Prop :=
  ∃ fragment ∈ forest.fragments, node ∈ fragment.content.ids

instance (forest : Forest) (node : NodeId) : Decidable (forest.IsRemoved node) :=
  inferInstanceAs (Decidable (∃ fragment ∈ forest.fragments, _))

/-- The chain of parents has only one end. -/
theorem LeadsUp.unique (h : forest.LeadsUp node root) (ho : forest.LeadsUp node other) :
    root = other := by
  induction h with
  | ends hn =>
    cases ho with
    | ends _ => rfl
    | goesOn hp _ =>
      rw [hn] at hp
      cases hp
  | goesOn hp _ ih =>
    cases ho with
    | ends hn =>
      rw [hn] at hp
      cases hp
    | goesOn hq hu =>
      rw [hp] at hq
      cases hq
      exact ih hu

theorem parent?_of_mem (h : forest.IsSound) (hp : position ∈ forest.positions) :
    forest.parent? position.id = position.parent?.map Position.id := by
  rw [parent?, (position?_eq_some_iff h).mpr ⟨hp, rfl⟩, Option.bind_some]

/-- With a position, that of the parent is one of the forest's, too. -/
theorem parent_mem_positions {above : Position} (hp : position ∈ forest.positions)
    (ha : position.parent? = some above) : above ∈ forest.positions := by
  rcases forest.positions_isPreorder.mem_of_parent hp ha with hn | hm
  · cases hn
  · exact hm

theorem topmost_mem_positions (hp : position ∈ forest.positions) :
    position.topmost ∈ forest.positions := by
  induction position with
  | top element => exact hp
  | child parent index element following ih => exact ih (parent_mem_positions hp rfl)

theorem leadsUp_topmost (h : forest.IsSound) (hp : position ∈ forest.positions) :
    forest.LeadsUp position.id position.topmost.id := by
  induction position with
  | top element => exact .ends (parent?_of_mem h hp)
  | child parent index element following ih =>
    exact .goesOn (parent?_of_mem h hp) (ih (parent_mem_positions hp rfl))

theorem exists_allTop {content : Content} (h : node ∈ content.ids) :
    ∃ position ∈ Position.allTop content, position.id = node := by
  rw [← Position.ids_allTop] at h
  exact List.mem_map.mp h

/-- The chain from a node ends at an element without a parent, in the same tree or fragment. -/
theorem exists_leadsUp_mem_tops {content : Content} (h : forest.IsSound)
    (hc : content ∈ forest.contents) (hn : node ∈ content.ids) :
    ∃ root ∈ content.tops, forest.LeadsUp node root := by
  obtain ⟨position, hp, rfl⟩ := exists_allTop hn
  exact ⟨position.topmost.id, Position.topmost_mem_tops hp,
    leadsUp_topmost h (List.mem_flatMap.mpr ⟨content, hc, hp⟩)⟩

/-- A node that is still in a tree is in the one that it belongs to. -/
theorem exists_treeOf? (hm : node ∈ forest.ids) (hr : ¬forest.IsRemoved node) :
    ∃ tree ∈ forest.trees, forest.treeOf? node = some tree ∧ node ∈ tree.content.ids := by
  obtain ⟨owner, ho⟩ := exists_owner? hm
  rcases Option.or_eq_some_iff.mp ho with hi | ⟨-, hf⟩
  · obtain ⟨hlt, hn, -⟩ := List.findIdx?_eq_some_iff_getElem.mp hi
    refine ⟨forest.trees[owner], List.getElem_mem hlt, ?_, List.contains_iff_mem.mp hn⟩
    rw [treeOf?, ho, Option.bind_some, List.getElem?_eq_getElem hlt]
  · -- if it's looked for among the fragments, then it's found in one
    obtain ⟨fragment, hfound, -⟩ := Option.map_eq_some_iff.mp hf
    have hn := List.find?_some hfound
    exact absurd ⟨fragment, List.mem_of_find?_eq_some hfound, List.contains_iff_mem.mp hn⟩ hr

/-- In a tree the chain of parents ends at the root. -/
theorem rootOf?_of_leadsUp (h : forest.IsSound) (hroots : forest.IsRooted)
    (hm : node ∈ forest.ids) (hr : ¬forest.IsRemoved node) (hu : forest.LeadsUp node root) :
    forest.rootOf? node = some root := by
  obtain ⟨tree, ht, hof, hn⟩ := exists_treeOf? hm hr
  have hcontent : tree.content ∈ forest.trees.map Tree.content := List.mem_map_of_mem ht
  obtain ⟨top, htop, htu⟩ := exists_leadsUp_mem_tops h (List.mem_append_left _ hcontent) hn
  rw [htu.unique hu] at htop
  rw [rootOf?, hof]
  exact Content.firstElement?_of_mem_tops (hroots _ hcontent) htop

/-- Trees and fragments have no elements in common. -/
theorem IsSound.disjoint (h : forest.IsSound) {tree : Tree} {fragment : Fragment}
    (ht : tree ∈ forest.trees) (hf : fragment ∈ forest.fragments) :
    List.Disjoint tree.content.ids fragment.content.ids := by
  have hn := h.nodup
  rw [← ids_positions, positions, contents, List.flatMap_append, List.map_append] at hn
  have hmem {content : Content} {contents : List Content} (hc : content ∈ contents)
      {id : NodeId} (hi : id ∈ content.ids) :
      id ∈ (contents.flatMap Position.allTop).map Position.id := by
    obtain ⟨position, hp, rfl⟩ := exists_allTop hi
    exact List.mem_map_of_mem (List.mem_flatMap.mpr ⟨content, hc, hp⟩)
  intro id hi hj
  exact List.disjoint_of_nodup_append hn (hmem (List.mem_map_of_mem ht) hi)
    (hmem (List.mem_map_of_mem hf) hj)

/-- Behind a removal the chain of parents doesn't end at the root of the tree that the node belongs
to. -/
theorem ne_rootOf?_of_isRemoved (h : forest.IsSound) (hr : forest.IsRemoved node)
    (hu : forest.LeadsUp node root) : forest.rootOf? node ≠ some root := by
  intro hroot
  obtain ⟨fragment, hf, hn⟩ := hr
  -- the chain ends in the fragment, but the root is in a tree
  have hcontent : fragment.content ∈ forest.contents :=
    List.mem_append_right _ (List.mem_map_of_mem hf)
  obtain ⟨top, htop, htu⟩ := exists_leadsUp_mem_tops h hcontent hn
  obtain ⟨first, hfirst, hid⟩ := Option.map_eq_some_iff.mp hroot
  obtain ⟨tree, htree, hfirst⟩ := Option.bind_eq_some_iff.mp hfirst
  obtain ⟨owner, -, ht⟩ := Option.bind_eq_some_iff.mp htree
  refine h.disjoint (List.mem_of_getElem? ht) hf (mem_ids_of_firstElement? hfirst) ?_
  rw [hid, ← htu.unique hu]
  exact Content.tops_subset _ htop

end Forest
end MarkupPath
