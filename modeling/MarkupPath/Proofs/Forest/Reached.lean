import MarkupPath.Document.Basic
import MarkupPath.Proofs.Forest.Operations

/-!
# Forests that there can be

Forests begin without trees. Documents are loaded into them, and what is there is changed by the
operations of an access. However these follow each other, what they lead to is sound
(`Reached.isSound`), so that soundness may be assumed of every forest that is edited.
-/

namespace MarkupPath.Forest

/-- The forests that documents and edits lead to, in any order of steps. -/
inductive Reached : Forest → Prop where
  /-- there are no trees at first -/
  | empty : Reached {}
  /-- a document is loaded -/
  | load {forest after : Forest} {keepBlanks : Bool} {source : Source} {document : Document} :
    Reached forest → Document.load forest keepBlanks source = .ok (document, after) → Reached after
  /-- the content of a document is replaced -/
  | parse {forest after : Forest} {former document : Document} {source : Source} :
    Reached forest → former.parse forest source = .ok (document, after) → Reached after
  /-- an element is created -/
  | create {forest after : Forest} {context node : NodeId} {name : String} :
    Reached forest → forest.create context name = .ok (node, after) → Reached after
  /-- an element is moved in front of the children of another one -/
  | insertFirst {forest after : Forest} {parent node : NodeId} :
    Reached forest → forest.insertFirst parent node = some after → Reached after
  /-- an element is moved behind another one -/
  | insertAfter {forest after : Forest} {parent reference node : NodeId} :
    Reached forest → forest.insertAfter parent reference node = some after → Reached after
  /-- an element is taken out of its tree -/
  | delete {forest : Forest} (node : NodeId) : Reached forest → Reached (forest.delete node)
  /-- an attribute is given a value -/
  | setAttribute {forest after : Forest} {node : NodeId} {name value : String} :
    Reached forest → forest.setAttribute node name value = .ok after → Reached after
  /-- a text is replaced, or lost if the new one is refused -/
  | setText {forest : Forest} (node : NodeId) (text : String) :
    Reached forest → Reached (forest.setText node text).2

variable {forest after : Forest} {document former : Document}
  {loaded : Except LoadFailure Content}

/-- A document is loaded into a tree of its own, whose root is its root. -/
theorem exists_content_of_load
    (h : loaded.map (former.setContent forest) = .ok (document, after)) :
    ∃ content, loaded = .ok content ∧ after = forest.addTree content ∧
      document.root = (content.renumber forest.next).firstElement?.map Element.id := by
  cases loaded with
  | error failure => cases h
  | ok content =>
    cases h
    exact ⟨content, rfl, rfl, rfl⟩

theorem IsSound.load (h : forest.IsSound)
    (hl : loaded.map (former.setContent forest) = .ok (document, after)) : after.IsSound := by
  obtain ⟨content, -, rfl, -⟩ := exists_content_of_load hl
  exact h.addTree content 0

theorem Reached.isSound (h : Reached forest) : forest.IsSound := by
  induction h with
  | empty => exact .empty
  | load _ hl ih => exact ih.load hl
  | parse _ hl ih => exact ih.load hl
  | create _ hc ih => exact ih.create hc
  | insertFirst _ hi ih => exact ih.insertFirst hi
  | insertAfter _ hi ih => exact ih.insertAfter hi
  | delete node _ ih => exact ih.delete node
  | setAttribute _ hs ih =>
    obtain ⟨key, -, ha⟩ := setAttribute_amends 0 ih hs
    exact ha.sound
  | setText node text _ ih =>
    obtain ⟨new, ha, -⟩ := setText_amends 0 node ih text
    exact ha.sound

end MarkupPath.Forest
