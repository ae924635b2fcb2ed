import MarkupPath.Proofs.Tree.Substitution

/-!
# Planting

A `Spot` is a place between the nodes of a content that is given by an element: in front of the
children of it, or behind it and its tail. `Content.plant` puts a piece of content there. The
two ways to insert an element are cases of that. The piece is kept as a whole, so that its later
changes, and in the end its removal, are those of the piece alone.
-/

namespace MarkupPath

/-- A place where something can be planted. -/
inductive Spot where
  /-- in front of the first child of any kind and behind the leading text -/
  | inFront (parent : NodeId)
  /-- behind an element and its tail -/
  | behind (reference : NodeId)
deriving DecidableEq, Repr

namespace Spot

/-- The element that a spot is given by. -/
def anchor : Spot → NodeId
  | inFront parent => parent
  | behind reference => reference

/-- What is in the place of the spot's element when a piece is planted. -/
def fill (piece : Content) : Spot → Element → Option String → Content
  | inFront _, found, tail => .single ⟨found.tag, piece ++ found.content⟩ tail
  | behind _, found, tail => .single found tail ++ piece

@[simp] theorem fill_nil (spot : Spot) : spot.fill .nil = Content.single := by
  cases spot <;> rfl

theorem ids_fill (spot : Spot) (piece : Content) (found : Element) (tail : Option String) :
    (spot.fill piece found tail).ids.Perm (found.id :: found.content.ids ++ piece.ids) := by
  cases spot with
  | inFront parent =>
    rw [fill, Content.ids_single, Content.ids_append]
    exact .cons _ List.perm_append_comm
  | behind reference => rw [fill, Content.ids_append, Content.ids_single]

end Spot

namespace Content

variable {id : NodeId} {spot : Spot} {content piece : Content}

/-- Puts a piece of content at a spot. -/
def plant (content : Content) (spot : Spot) (piece : Content) : Content :=
  content.replace spot.anchor (spot.fill piece)

theorem insertFirst_eq_plant (parent : NodeId) (new : Element) (newTail : Option String)
    (content : Content) :
    content.insertFirst parent new newTail = content.plant (.inFront parent) (single new newTail) := by
  simp only [plant]
  induction content with
  | nil => rfl
  | element tag children tail rest ihc ihr => rw [insertFirst, replace, ihc, ihr]; rfl
  | comment text tail rest ih => rw [insertFirst, replace, ih]
  | instruction target data tail rest ih => rw [insertFirst, replace, ih]

theorem insertAfter_eq_plant (reference : NodeId) (new : Element) (newTail : Option String)
    (content : Content) :
    content.insertAfter reference new newTail =
      content.plant (.behind reference) (single new newTail) := by
  simp only [plant]
  induction content with
  | nil => rfl
  | element tag children tail rest ihc ihr => rw [insertAfter, replace, ihc, ihr]; rfl
  | comment text tail rest ih => rw [insertAfter, replace, ih]
  | instruction target data tail rest ih => rw [insertAfter, replace, ih]

theorem plant_of_notMem (h : spot.anchor ∉ content.ids) : content.plant spot piece = content :=
  replace_of_notMem h

@[simp] theorem plant_nil (spot : Spot) (content : Content) : content.plant spot nil = content := by
  rw [plant, Spot.fill_nil, replace_self]

theorem ids_plant (hn : content.ids.Nodup) (h : spot.anchor ∈ content.ids) :
    (content.plant spot piece).ids.Perm (content.ids ++ piece.ids) := by
  obtain ⟨found, tail, hf⟩ := exists_find? h
  refine (ids_replace hn hf).trans (((spot.ids_fill piece found tail).append_left _).trans ?_)
  rw [← List.append_assoc]
  exact (ids_remove hn hf).symm.append_right _

/-- Nothing is lost by planting. -/
theorem mem_ids_plant (h : id ∈ content.ids) : id ∈ (content.plant spot piece).ids := by
  simp only [plant]
  induction content with
  | nil => cases h
  | element tag children tail rest ihc ihr =>
    rw [replace]
    split
    · rw [ids_append, List.mem_append, (spot.ids_fill piece _ tail).mem_iff]
      rw [ids, List.mem_cons, List.mem_append] at h
      simp only [Element.id, List.cons_append, List.mem_cons, List.mem_append]
      grind
    · rw [ids, List.mem_cons, List.mem_append] at h ⊢
      exact h.imp_right (Or.imp ihc ihr)
  | comment text tail rest ih => exact ih h
  | instruction target data tail rest ih => exact ih h

/-- Nothing but the piece is added by planting. -/
theorem mem_of_mem_ids_plant (h : id ∈ (content.plant spot piece).ids) :
    id ∈ content.ids ∨ id ∈ piece.ids := by
  simp only [plant] at h
  induction content with
  | nil => cases h
  | element tag children tail rest ihc ihr =>
    rw [replace] at h
    split at h
    · rw [ids_append, List.mem_append, (spot.ids_fill piece _ tail).mem_iff] at h
      simp only [Element.id, List.cons_append, List.mem_cons, List.mem_append] at h
      simp only [ids, List.mem_cons, List.mem_append]
      grind
    · simp only [ids, List.mem_cons, List.mem_append] at h ⊢
      rcases h with rfl | h | h
      · exact .inl (.inl rfl)
      · exact (ihc h).imp_left fun h => .inr (.inl h)
      · exact (ihr h).imp_left fun h => .inr (.inr h)
  | comment text tail rest ih => exact ih h
  | instruction target data tail rest ih => exact ih h

/-- The first element is the same one. -/
theorem firstElement?_plant (content : Content) :
    (content.plant spot piece).firstElement?.map Element.id =
      content.firstElement?.map Element.id := by
  simp only [plant]
  induction content with
  | nil => rfl
  | element tag children tail rest _ _ =>
    rw [replace]
    split
    · cases spot <;> rfl
    · rfl
  | comment text tail rest ih => exact ih
  | instruction target data tail rest ih => exact ih

/-- What happens within a planted piece doesn't depend on where it was planted. -/
theorem plant_replace {substitute : Element → Option String → Content} (h : id ∉ content.ids) :
    (content.plant spot piece).replace id substitute =
      content.plant spot (piece.replace id substitute) := by
  simp only [plant]
  induction content with
  | nil => rfl
  | element tag children tail rest ihc ihr =>
    simp only [ids, List.mem_cons, List.mem_append, not_or] at h
    have hne : tag.id ≠ id := Ne.symm h.1
    rw [replace, replace]
    split
    · rw [replace_append_of_notMem_right h.2.2]
      congr 1
      cases spot with
      | inFront parent =>
        simp only [Spot.fill, single, replace]
        rw [if_neg hne, replace_append_of_notMem_right h.2.1]
      | behind reference =>
        simp only [Spot.fill, single, element_append, nil_append, replace]
        rw [if_neg hne, replace_of_notMem h.2.1]
    · rw [replace, if_neg hne, ihc h.2.1, ihr h.2.2]
  | comment text tail rest ih => simp only [replace]; rw [ih h]
  | instruction target data tail rest ih => simp only [replace]; rw [ih h]

/-- Removing a piece that has been planted undoes it. -/
theorem remove_plant {new : Element} {newTail : Option String} (h : new.id ∉ content.ids) :
    (content.plant spot (single new newTail)).remove new.id = content := by
  rw [remove_eq_replace, plant_replace h, replace_single, plant_nil]

end Content
end MarkupPath
