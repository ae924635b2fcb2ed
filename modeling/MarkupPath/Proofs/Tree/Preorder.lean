import Mathlib.Data.List.Flatten
import MarkupPath.Query.Enumeration

/-!
# Document order

`IsPreorder up nodes` says that a list has the nodes below `up` in document order: each node in
front of its descendants, and those in front of its next sibling. The descendants of a node are
such a list, and so are all nodes of a document. Where a list is one, the order of other lists
follows from that of the nodes that they were made from, as long as these are apart, that is, none
is contained in another one: the descendants of nodes (`flatMap_descendants_sublist`) and the
parents of nodes (`filterMap_parent_sublist`).
-/

namespace MarkupPath

/-- Nodes of which none is another one or contained in another one. -/
def AreApart (nodes : List Position) : Prop :=
  nodes.Pairwise fun node other =>
    node ≠ other ∧ other ∉ node.descendants ∧ node ∉ other.descendants

instance (nodes : List Position) : Decidable (AreApart nodes) :=
  inferInstanceAs (Decidable (List.Pairwise _ nodes))

/-- Siblings that follow each other, in document order together with all that they contain. Their
parent is `up`. -/
inductive IsPreorder : Option Position → List Position → Prop where
  /-- there are no siblings -/
  | nil (up : Option Position) : IsPreorder up []
  /-- the first one, what it contains, and the others -/
  | node {up : Option Position} {first : Position} {rest : List Position} :
    first.parent? = up → IsPreorder (some first) first.descendants → IsPreorder up rest →
    IsPreorder up (first :: (first.descendants ++ rest))

namespace Position

theorem allBelowIn_isPreorder (parent : Position) (index : Nat) (content : Content) :
    IsPreorder (some parent) (allBelowIn parent index content) := by
  induction content generalizing parent index with
  | nil => exact .nil _
  | element tag content tail rest ihc ihr => exact .node rfl (ihc _ 0) (ihr parent (index + 1))
  | comment text tail rest ih => exact ih parent index
  | instruction target data tail rest ih => exact ih parent index

theorem descendants_isPreorder (position : Position) :
    IsPreorder (some position) position.descendants :=
  allBelowIn_isPreorder _ _ _

/-- The children are among the descendants, in the same order. -/
theorem allIn_sublist (parent : Position) (index : Nat) (content : Content) :
    (allIn parent index content).Sublist (allBelowIn parent index content) := by
  induction content generalizing index with
  | nil => exact .slnil
  | element tag content tail rest _ ih =>
    exact .cons_cons _ ((ih (index + 1)).trans (List.sublist_append_right _ _))
  | comment text tail rest ih => exact ih index
  | instruction target data tail rest ih => exact ih index

theorem children_sublist (position : Position) :
    position.children.Sublist position.descendants :=
  allIn_sublist _ _ _

/-- The positions of the elements of a document, each in front of its descendants. -/
def allTop : Content → List Position
  | .nil => []
  | .element tag content _ rest =>
    top ⟨tag, content⟩ :: ((top ⟨tag, content⟩).descendants ++ allTop rest)
  | .comment _ _ rest => allTop rest
  | .instruction _ _ _ rest => allTop rest

theorem allTop_isPreorder (content : Content) : IsPreorder none (allTop content) := by
  induction content with
  | nil => exact .nil _
  | element tag content tail rest _ ih => exact .node rfl (descendants_isPreorder _) ih
  | comment text tail rest ih => exact ih
  | instruction target data tail rest ih => exact ih

end Position

namespace IsPreorder

variable {up : Option Position} {nodes others starts : List Position} {position : Position}

theorem append (h : IsPreorder up nodes) (ho : IsPreorder up others) :
    IsPreorder up (nodes ++ others) := by
  induction h with
  | nil => exact ho
  | node hp hd _ _ ih =>
    rw [List.cons_append, List.append_assoc]
    exact .node hp hd (ih ho)

/-- A node comes with its descendants. -/
theorem descendants_sublist (h : IsPreorder up nodes) (hm : position ∈ nodes) :
    position.descendants.Sublist nodes := by
  induction h with
  | nil => cases hm
  | @node up first rest _ _ _ ihd ihr =>
    rcases List.mem_cons.mp hm with rfl | hm
    · exact (List.sublist_append_left _ _).cons _
    · rcases List.mem_append.mp hm with hm | hm
      · exact ((ihd hm).trans (List.sublist_append_left _ _)).cons _
      · exact ((ihr hm).trans (List.sublist_append_right _ _)).cons _

/-- A node comes with its parent and is one of that one's descendants, unless the parent is the one
of all siblings. -/
theorem mem_descendants_of_parent {parent : Position} (h : IsPreorder up nodes)
    (hm : position ∈ nodes) (hp : position.parent? = some parent) :
    up = some parent ∨ parent ∈ nodes ∧ position ∈ parent.descendants := by
  induction h with
  | nil => cases hm
  | @node up first rest hup _ _ ihd ihr =>
    rcases List.mem_cons.mp hm with rfl | hm
    · exact .inl (hup.symm.trans hp)
    · rcases List.mem_append.mp hm with hm | hm
      · rcases ihd hm with hf | ⟨hparent, hd⟩
        · obtain rfl := Option.some.inj hf
          exact .inr ⟨List.mem_cons_self, hm⟩
        · exact .inr ⟨List.mem_cons_of_mem _ (List.mem_append_left _ hparent), hd⟩
      · exact (ihr hm).imp_right fun ⟨hparent, hd⟩ =>
          ⟨List.mem_cons_of_mem _ (List.mem_append_right _ hparent), hd⟩

/-- A node comes with its parent, unless that is the one of all siblings. -/
theorem mem_of_parent {parent : Position} (h : IsPreorder up nodes) (hm : position ∈ nodes)
    (hp : position.parent? = some parent) : up = some parent ∨ parent ∈ nodes :=
  (h.mem_descendants_of_parent hm hp).imp_right And.left

/-- The descendants of nodes that are apart follow each other in document order. By induction on
the list that the nodes are taken from: with a node its descendants are skipped. -/
theorem flatMap_descendants_sublist (h : IsPreorder up nodes) (hs : starts.Sublist nodes)
    (ha : AreApart starts) : (starts.flatMap Position.descendants).Sublist nodes := by
  induction h generalizing starts with
  | nil =>
    rw [List.sublist_nil.mp hs]
    exact .slnil
  | @node up first rest _ _ _ ihd ihr =>
    rcases List.sublist_cons_iff.mp hs with hs | ⟨others, rfl, ho⟩
    · obtain ⟨within, behind, rfl, hw, hb⟩ := List.sublist_append_iff.mp hs
      obtain ⟨haw, hab, -⟩ := List.pairwise_append.mp ha
      rw [List.flatMap_append]
      exact ((ihd hw haw).append (ihr hb hab)).cons _
    · obtain ⟨within, behind, rfl, hw, hb⟩ := List.sublist_append_iff.mp ho
      obtain ⟨hfirst, ha⟩ := List.pairwise_cons.mp ha
      obtain rfl : within = [] := by
        apply List.eq_nil_iff_forall_not_mem.mpr
        intro node hm
        exact (hfirst node (List.mem_append_left _ hm)).2.1 (hw.subset hm)
      rw [List.nil_append] at ha
      exact ((List.Sublist.refl _).append (ihr hb ha)).cons _

/-- A node that is apart from others isn't followed or preceded by nodes that it contains. -/
theorem eq_singleton_of_apart {above : Position} (ha : AreApart others) (hm : above ∈ others)
    (hs : ∀ node ∈ others, above = node ∨ node ∈ above.descendants) : others = [above] := by
  obtain ⟨front, back, rfl⟩ := List.append_of_mem hm
  obtain ⟨-, hb, hf⟩ := List.pairwise_append.mp ha
  have hfront : front = [] := by
    apply List.eq_nil_iff_forall_not_mem.mpr
    intro node hn
    obtain ⟨hne, -, hd⟩ := hf node hn above List.mem_cons_self
    rcases hs node (List.mem_append_left _ hn) with he | hi
    · exact hne he.symm
    · exact hd hi
  have hback : back = [] := by
    apply List.eq_nil_iff_forall_not_mem.mpr
    intro node hn
    obtain ⟨hne, hd, -⟩ := (List.pairwise_cons.mp hb).1 node hn
    rcases hs node (List.mem_append_right _ (List.mem_cons_of_mem _ hn)) with he | hi
    · exact hne he
    · exact hd hi
  rw [hfront, hback, List.nil_append]

/-- The parents of nodes, or some of them, are in document order if they are apart. By induction on
the list that the nodes are taken from: the parents of those below its first node are below it, too,
or that node and no others. -/
theorem filterMap_parent_sublist {upwards : Position → Option Position}
    (hg : ∀ node parent, upwards node = some parent → node.parent? = some parent)
    (h : IsPreorder up nodes) (hs : starts.Sublist nodes)
    (ha : AreApart (starts.filterMap upwards))
    (hup : ∀ parent ∈ starts.filterMap upwards, up ≠ some parent) :
    (starts.filterMap upwards).Sublist nodes := by
  induction h generalizing starts with
  | nil =>
    rw [List.sublist_nil.mp hs]
    exact .slnil
  | @node up first rest hparent _ _ ihd ihr =>
    -- the first node's own parent isn't among those that are asked for
    obtain ⟨within, behind, he, hw, hb⟩ : ∃ within behind : List Position,
        starts.filterMap upwards = within.filterMap upwards ++ behind.filterMap upwards ∧
          within.Sublist first.descendants ∧ behind.Sublist rest := by
      rcases List.sublist_cons_iff.mp hs with hs | ⟨others, rfl, ho⟩
      · obtain ⟨within, behind, rfl, hw, hb⟩ := List.sublist_append_iff.mp hs
        exact ⟨within, behind, List.filterMap_append, hw, hb⟩
      · obtain ⟨within, behind, rfl, hw, hb⟩ := List.sublist_append_iff.mp ho
        refine ⟨within, behind, ?_, hw, hb⟩
        rw [← List.filterMap_append]
        apply List.filterMap_cons_none
        apply Option.eq_none_iff_forall_ne_some.mpr
        intro parent hf
        refine hup parent ?_ (hparent.symm.trans (hg _ _ hf))
        rw [List.filterMap_cons_some hf]
        exact List.mem_cons_self
    rw [he] at ha hup ⊢
    obtain ⟨haw, hab, -⟩ := List.pairwise_append.mp ha
    have hbehind := ihr hb hab fun parent hm => hup parent (List.mem_append_right _ hm)
    have hwithin : (within.filterMap upwards).Sublist (first :: first.descendants) := by
      by_cases hf : first ∈ within.filterMap upwards
      · rw [eq_singleton_of_apart haw hf]
        · exact List.singleton_sublist.mpr List.mem_cons_self
        · intro parent hm
          obtain ⟨node, hn, hp⟩ := List.mem_filterMap.mp hm
          exact (first.descendants_isPreorder.mem_of_parent (hw.subset hn)
            (hg _ _ hp)).imp_left Option.some.inj
      · refine (ihd hw haw ?_).cons _
        rintro parent hm he
        obtain rfl := Option.some.inj he
        exact hf hm
    exact hwithin.append hbehind

end IsPreorder
end MarkupPath
