import MarkupPath.Proofs.Tree.Preorder

/-!
# Ways through a tree

The way to a node is made of the names of the elements from the root of its tree down to itself.
What a node contains comes child by child (`descendants_eq_flatMap`), and the way to each such node
goes on from the way to the node (`way_prefix_of_mem`), so those below a child of another name than
comes next in a way don't have that way.
-/

namespace MarkupPath.Position

variable {position context next : Position} {names : List String}

/-- The position without a parent that one gets to from a position. -/
def topmost : Position → Position
  | top element => top element
  | child parent _ _ _ => parent.topmost

/-- The elements that contain a node, the outermost first, and then the node itself. -/
def ancestry : Position → List Position
  | top element => [top element]
  | child parent index element following =>
    parent.ancestry ++ [child parent index element following]

/-- The names of the elements from the root down to a node. -/
def way (position : Position) : List String := position.ancestry.map name

/-- A node and all that it contains, in document order. -/
def withDescendants (position : Position) : List Position := position :: position.descendants

/-- The nodes of the same tree that have the same way as a node. -/
def namesakes (position : Position) : List Position :=
  position.topmost.withDescendants.filter (·.way = position.way)

theorem way_child (parent : Position) (index : Nat) (element : Element) (following : Content) :
    (child parent index element following).way = parent.way ++ [element.tag.name.written] := by
  rw [way, ancestry, List.map_append]
  rfl

theorem way_of_parent {parent : Position} (h : position.parent? = some parent) :
    position.way = parent.way ++ [position.name] := by
  cases position with
  | top element => cases h
  | child above index element following =>
    cases h
    exact way_child ..

theorem way_topmost (position : Position) : position.topmost.way = [position.topmost.name] := by
  induction position with
  | top element => rfl
  | child parent index element following ih => exact ih

/-- The way to a node starts with the name of the root. -/
theorem exists_way (position : Position) :
    ∃ names, position.way = position.topmost.name :: names := by
  induction position with
  | top element => exact ⟨[], rfl⟩
  | child parent index element following ih =>
    obtain ⟨names, h⟩ := ih
    exact ⟨names ++ [element.tag.name.written], by rw [way_child, h]; rfl⟩

theorem parent?_of_mem_children (h : next ∈ context.children) : next.parent? = some context := by
  have hin (index : Nat) (content : Content) (hm : next ∈ allIn context index content) :
      next.parent? = some context := by
    induction content generalizing index with
    | nil => cases hm
    | element tag children tail rest _ ih =>
      rcases List.mem_cons.mp hm with rfl | hm
      · rfl
      · exact ih _ hm
    | comment text tail rest ih => exact ih _ hm
    | instruction target data tail rest ih => exact ih _ hm
  exact hin _ _ h

/-- What a node contains are its children, each with what that contains. -/
theorem descendants_eq_flatMap (position : Position) :
    position.descendants = position.children.flatMap withDescendants := by
  have hin (index : Nat) (content : Content) :
      allBelowIn position index content =
        (allIn position index content).flatMap withDescendants := by
    induction content generalizing index with
    | nil => rfl
    | element tag children tail rest _ ih =>
      rw [allBelowIn, allIn, List.flatMap_cons, ih]
      rfl
    | comment text tail rest ih => exact ih _
    | instruction target data tail rest ih => exact ih _
  exact hin _ _

/-- What a node contains has further ancestors behind those of the node. -/
theorem exists_ancestry_of_mem_descendants (h : position ∈ context.descendants) :
    ∃ first more, position.ancestry = context.ancestry ++ first :: more := by
  have hin (parent : Position) (index : Nat) (content : Content)
      (hm : position ∈ allBelowIn parent index content) :
      ∃ first more, position.ancestry = parent.ancestry ++ first :: more := by
    induction content generalizing parent index with
    | nil => cases hm
    | element tag children tail rest ihc ihr =>
      rcases List.mem_cons.mp hm with rfl | hm
      · exact ⟨_, [], rfl⟩
      · rcases List.mem_append.mp hm with hm | hm
        · obtain ⟨first, more, ha⟩ := ihc _ _ hm
          rw [ancestry, List.append_assoc] at ha
          exact ⟨_, _, ha⟩
        · exact ihr _ _ hm
    | comment text tail rest ih => exact ih _ _ hm
    | instruction target data tail rest ih => exact ih _ _ hm
  exact hin _ _ _ h

/-- The way to what a node contains goes on from the way to the node. -/
theorem exists_way_of_mem_descendants (h : position ∈ context.descendants) :
    ∃ name more, position.way = context.way ++ name :: more := by
  obtain ⟨first, more, ha⟩ := exists_ancestry_of_mem_descendants h
  exact ⟨first.name, more.map name, by rw [way, ha, List.map_append, List.map_cons]; rfl⟩

theorem way_prefix_of_mem (h : position ∈ context.withDescendants) :
    context.way <+: position.way := by
  rcases List.mem_cons.mp h with rfl | h
  · exact List.prefix_refl _
  · obtain ⟨name, more, hw⟩ := exists_way_of_mem_descendants h
    rw [hw]
    exact List.prefix_append _ _

/-- Of a node and what it contains only the node itself has its way. -/
theorem filter_way_eq (context : Position) :
    context.withDescendants.filter (·.way = context.way) = [context] := by
  rw [withDescendants, List.filter_cons_of_pos (by simp), List.filter_eq_nil_iff.mpr]
  intro position hm
  obtain ⟨name, more, hw⟩ := exists_way_of_mem_descendants hm
  simp [hw]

/-- Below a child whose name doesn't come next in a way no node has that way. -/
theorem eq_name_of_way {name : String} (hn : next ∈ context.children)
    (hp : position ∈ next.withDescendants) (hw : position.way <+: context.way ++ name :: names) :
    next.name = name := by
  have hnext := (way_prefix_of_mem hp).trans hw
  rw [way_of_parent (parent?_of_mem_children hn), List.prefix_append_right_inj] at hnext
  exact (List.cons_prefix_cons.mp hnext).1

/-- The nodes with a way that goes on from a node are found below the children with the name that
comes next. -/
theorem filter_way_cons (context : Position) (name : String) (names : List String) :
    context.withDescendants.filter (·.way = context.way ++ name :: names) =
      (context.children.filter (·.name = name)).flatMap fun child =>
        child.withDescendants.filter (·.way = child.way ++ names) := by
  rw [withDescendants, List.filter_cons_of_neg (by simp), descendants_eq_flatMap,
    List.filter_flatMap]
  have hin : ∀ nodes ⊆ context.children,
      nodes.flatMap (fun child => child.withDescendants.filter
        (·.way = context.way ++ name :: names)) =
      (nodes.filter (·.name = name)).flatMap fun child =>
        child.withDescendants.filter (·.way = child.way ++ names) := by
    intro nodes hs
    induction nodes with
    | nil => rfl
    | cons child rest ih =>
      obtain ⟨hchild, hrest⟩ := List.cons_subset.mp hs
      rw [List.flatMap_cons, ih hrest]
      by_cases hn : child.name = name
      · have hway : child.way ++ names = context.way ++ name :: names := by
          rw [way_of_parent (parent?_of_mem_children hchild), hn, List.append_assoc]
          rfl
        rw [List.filter_cons_of_pos (by simpa using hn), List.flatMap_cons, hway]
      · -- below a child of another name nothing is lost
        rw [List.filter_cons_of_neg (by simpa using hn), List.filter_eq_nil_iff.mpr]
        · rfl
        · intro position hp hw
          have he : position.way = context.way ++ name :: names := by simpa using hw
          exact hn (eq_name_of_way hchild hp ⟨[], by rw [List.append_nil, he]⟩)
  exact hin _ (List.Subset.refl _)

/-- What is contained in a node is below the same element. -/
theorem topmost_of_mem_allBelowIn {parent position : Position} {index : Nat} {content : Content}
    (h : position ∈ allBelowIn parent index content) : position.topmost = parent.topmost := by
  induction content generalizing parent index with
  | nil => cases h
  | element tag content tail rest ihc ihr =>
    rcases List.mem_cons.mp h with rfl | h
    · rfl
    · rcases List.mem_append.mp h with h | h
      · exact (ihc h).trans rfl
      · exact ihr h
  | comment text tail rest ih => exact ih h
  | instruction target data tail rest ih => exact ih h

theorem mem_withDescendants_topmost {content : Content} (h : position ∈ allTop content) :
    position ∈ position.topmost.withDescendants := by
  induction content with
  | nil => cases h
  | element tag children tail rest _ ih =>
    rcases List.mem_cons.mp h with rfl | h
    · exact List.mem_cons_self
    · rcases List.mem_append.mp h with h | h
      · rw [topmost_of_mem_allBelowIn h]
        exact List.mem_cons_of_mem _ h
      · exact ih h
  | comment text tail rest ih => exact ih h
  | instruction target data tail rest ih => exact ih h

end MarkupPath.Position

namespace MarkupPath

/-- In document order, what a node contains comes right behind it. -/
theorem IsPreorder.withDescendants_sublist {up : Option Position} {nodes : List Position}
    {position : Position} (h : IsPreorder up nodes) (hm : position ∈ nodes) :
    position.withDescendants.Sublist nodes := by
  induction h with
  | nil => cases hm
  | @node up first rest _ _ _ ihd ihr =>
    rcases List.mem_cons.mp hm with rfl | hm
    · exact .cons_cons _ (List.sublist_append_left _ _)
    · rcases List.mem_append.mp hm with hm | hm
      · exact ((ihd hm).trans (List.sublist_append_left _ _)).cons _
      · exact ((ihr hm).trans (List.sublist_append_right _ _)).cons _

end MarkupPath
