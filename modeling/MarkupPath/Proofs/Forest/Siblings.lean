import MarkupPath.Proofs.Forest.Ancestry
import MarkupPath.Proofs.Tree.Setting

/-!
# Siblings

What an element contains parts at each of its children into what's in front of that, the child with
its tail, and what's behind. So an element's next sibling is the first element of what's behind it
(`nextSibling?_of_content`), and its parent can be found with these parts
(`exists_content_of_parent`).
-/

namespace MarkupPath

namespace Position

variable {parent position above : Position} {index : Nat} {content : Content}

/-- A child parts what its parent contains. -/
theorem exists_content_of_mem_allIn (h : position ∈ allIn parent index content) :
    ∃ front tail back, content = front ++ (.single position.element tail ++ back) := by
  induction content generalizing index with
  | nil => cases h
  | element tag children tail rest _ ih =>
    rcases List.mem_cons.mp h with rfl | h
    · exact ⟨.nil, tail, rest, rfl⟩
    · obtain ⟨front, last, back, hc⟩ := ih h
      exact ⟨.element tag children tail front, last, back, congrArg _ hc⟩
  | comment text tail rest ih =>
    obtain ⟨front, last, back, hc⟩ := ih h
    exact ⟨.comment text tail front, last, back, congrArg _ hc⟩
  | instruction target data tail rest ih =>
    obtain ⟨front, last, back, hc⟩ := ih h
    exact ⟨.instruction target data tail front, last, back, congrArg _ hc⟩

/-- What parts the content of an element is a child of it. -/
theorem exists_mem_allIn (parent : Position) (index : Nat) (front : Content) (element : Element)
    (tail : Option String) (back : Content) :
    ∃ place, child parent place element back ∈
      allIn parent index (front ++ (.single element tail ++ back)) := by
  induction front generalizing index with
  | nil => exact ⟨index, List.mem_cons_self⟩
  | element tag children tail rest _ ih =>
    obtain ⟨place, hm⟩ := ih (index + 1)
    exact ⟨place, List.mem_cons_of_mem _ hm⟩
  | comment text tail rest ih => exact ih index
  | instruction target data tail rest ih => exact ih index

/-- An element below a parent is among its children or further below. -/
theorem mem_of_mem_allBelowIn (h : position ∈ allBelowIn parent index content)
    (hp : position.parent? = some above) :
    above = parent ∧ position ∈ allIn parent index content ∨ position ∈ above.children := by
  induction content generalizing parent index with
  | nil => cases h
  | element tag children tail rest ihc ihr =>
    rcases List.mem_cons.mp h with rfl | h
    · exact .inl ⟨(Option.some.inj hp).symm, List.mem_cons_self⟩
    · rcases List.mem_append.mp h with h | h
      · rcases ihc h with ⟨rfl, hm⟩ | hm
        · exact .inr hm
        · exact .inr hm
      · exact (ihr h).imp_left (And.imp_right (List.mem_cons_of_mem _))
  | comment text tail rest ih => exact ih h
  | instruction target data tail rest ih => exact ih h

theorem mem_children_of_mem_allTop (h : position ∈ allTop content)
    (hp : position.parent? = some above) : position ∈ above.children := by
  induction content with
  | nil => cases h
  | element tag children tail rest _ ih =>
    rcases List.mem_cons.mp h with rfl | h
    · cases hp
    · rcases List.mem_append.mp h with h | h
      · rcases mem_of_mem_allBelowIn h hp with ⟨rfl, hm⟩ | hm
        · exact hm
        · exact hm
      · exact ih h
  | comment text tail rest ih => exact ih h
  | instruction target data tail rest ih => exact ih h

theorem id_firstIn (parent : Position) (index : Nat) (content : Content) :
    (firstIn parent none index content).map id = content.firstElement?.map Element.id := by
  induction content with
  | nil => rfl
  | element tag children tail rest _ _ => rfl
  | comment text tail rest ih => exact ih
  | instruction target data tail rest ih => exact ih

end Position

namespace Forest

variable {forest : Forest} {node : NodeId} {position above : Position}

/-- The next sibling of an element. -/
def nextSibling? (forest : Forest) (node : NodeId) : Option NodeId :=
  (forest.position? node).bind fun position => position.nextSibling?.map Position.id

/-- An element parts what its parent contains. -/
theorem exists_content_of_parent (h : forest.IsSound)
    (hp : (forest.position? node).bind Position.parent? = some above) :
    ∃ front reference tail back, reference.id = node ∧ forest.position? above.id = some above ∧
      above.element.content = front ++ (.single reference tail ++ back) := by
  obtain ⟨position, hposition, hparent⟩ := Option.bind_eq_some_iff.mp hp
  obtain ⟨hm, hid⟩ := (position?_eq_some_iff h).mp hposition
  obtain ⟨content, hc, ht⟩ := List.mem_flatMap.mp hm
  obtain ⟨front, tail, back, hcontent⟩ :=
    Position.exists_content_of_mem_allIn (Position.mem_children_of_mem_allTop ht hparent)
  exact ⟨front, position.element, tail, back, hid,
    (position?_eq_some_iff h).mpr ⟨parent_mem_positions hm hparent, rfl⟩, hcontent⟩

/-- The next sibling is the first element of what's behind. -/
theorem nextSibling?_of_content {front back : Content} {element : Element} {tail : Option String}
    (h : forest.IsSound) (hp : forest.position? node = some above)
    (hc : above.element.content = front ++ (.single element tail ++ back)) :
    forest.nextSibling? element.id = back.firstElement?.map Element.id := by
  obtain ⟨place, hm⟩ := Position.exists_mem_allIn above 0 front element tail back
  rw [← hc] at hm
  have hin : Position.child above place element back ∈ forest.positions :=
    (forest.positions_isPreorder.descendants_sublist (mem_positions h hp)).subset
      (above.children_sublist.subset hm)
  have hposition : forest.position? element.id = some (.child above place element back) :=
    (position?_eq_some_iff h).mpr ⟨hin, rfl⟩
  rw [nextSibling?, hposition]
  exact Position.id_firstIn ..

end Forest
end MarkupPath
