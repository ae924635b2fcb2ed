import MarkupPath.Proofs.Tree.Spot
import MarkupPath.Tree.Binding

/-!
# Identities

What the changes of contents do to the identities of the elements in them, and that none of these
changes leaves nothing of a content, other than the removal of all that it is.
-/

namespace MarkupPath.Content

variable {id : NodeId} {content : Content}

theorem ids_mapTag {change : Tag → Tag} (h : ∀ tag, (change tag).id = tag.id) :
    (content.mapTag id change).ids = content.ids := by
  induction content with
  | nil => rfl
  | element tag children tail rest ihc ihr =>
    rw [mapTag]
    split
    · simp [ids, h]
    · simp [ids, ihc, ihr]
  | comment text tail rest ih => exact ih
  | instruction target data tail rest ih => exact ih

theorem ids_remove_sublist (id : NodeId) (content : Content) :
    (content.remove id).ids.Sublist content.ids := by
  induction content with
  | nil => exact .slnil
  | element tag children tail rest ihc ihr =>
    rw [remove]
    split
    · exact .cons _ (List.sublist_append_right _ _)
    · exact .cons_cons _ (ihc.append ihr)
  | comment text tail rest ih => exact ih
  | instruction target data tail rest ih => exact ih

theorem mapTag_ne_nil {change : Tag → Tag} (h : content ≠ nil) : content.mapTag id change ≠ nil := by
  cases content with
  | nil => exact absurd rfl h
  | element tag children tail rest =>
    rw [mapTag]
    split <;> simp
  | comment text tail rest => simp [mapTag]
  | instruction target data tail rest => simp [mapTag]

theorem plant_ne_nil {spot : Spot} {piece : Content} (h : content ≠ nil) :
    content.plant spot piece ≠ nil := by
  simp only [plant]
  cases content with
  | nil => exact absurd rfl h
  | element tag children tail rest =>
    rw [replace]
    split
    · cases spot <;> simp [Spot.fill, single]
    · simp
  | comment text tail rest => simp [replace]
  | instruction target data tail rest => simp [replace]

theorem ids_renameContent (outer inner : Scope) (content : Content) (state : Rebinding) :
    (Rebinding.renameContent outer inner content state).1.ids = content.ids := by
  induction content generalizing inner state with
  | nil => rfl
  | element tag children tail rest ihc ihr => simp only [Rebinding.renameContent, ids, ihc, ihr]
  | comment text tail rest ih => exact ih _ _
  | instruction target data tail rest ih => exact ih _ _

/-- Copied elements get successive identities. -/
theorem ids_renumber (next : Nat) (content : Content) :
    (content.renumber next).ids = (List.range' next content.size).map NodeId.mk := by
  induction content generalizing next with
  | nil => rfl
  | element tag children tail rest ihc ihr =>
    rw [renumber, ids, ihc, ihr, size, List.range'_succ, List.map_cons, ← List.map_append,
      List.range'_append_1]
  | comment text tail rest ih => exact ih _
  | instruction target data tail rest ih => exact ih _

/-- A moved element stays the same one, as do all elements in it. -/
theorem ids_rebind (outer : Scope) (minted : Nat) (moved : Element) (tail : Option String) :
    (single (moved.rebind outer minted).1 tail).ids = (single moved tail).ids := by
  simp [Element.rebind, Element.id, ids_renameContent]

end MarkupPath.Content
