import MarkupPath.Proofs.Editing.Ends
import MarkupPath.Proofs.Editing.Histories
import MarkupPath.Proofs.Forest.Ancestry

/-!
# Which nodes a document contains

Whether a document contains a node is decided by the tree that the node belongs to, not by its
ancestors. Main statement: whatever the history of a forest, a document contains a node exactly if
the chain of parents from the node ends at the document's root, unless the node was taken out of its
tree, alone or with an ancestor (`Forest.Visited.contains_iff`). For these nodes it's either of both
at most: they are still contained in a document that their chain doesn't lead to any more, and not
contained in one whose root is at the end of it.
-/

namespace MarkupPath

open Forest

variable {forest : Forest} {node root : NodeId}

/-- Asking for the parent gives it, through any access, and changes nothing. -/
theorem Editing.parent_ends (forest : Forest) (node : NodeId) :
    (Editing.parent node).Ends forest
      (fun found after => found = forest.parent? node ∧ after = forest) fun _ _ => False := by
  refine .of_readAt (fun hn => ?_) (fun position found hp ho => ?_) fun position error hp ho => ?_
  · rw [parent?, hn]
    exact ⟨rfl, rfl⟩
  · rw [parent?, hp]
    cases ho
    exact ⟨rfl, rfl⟩
  · cases ho

/-- The chain of parents from a node ends at the root of a document. -/
def Document.IsReachedFrom (document : Document) (forest : Forest) (node : NodeId) : Prop :=
  ∃ root, document.root = some root ∧ forest.LeadsUp node root

theorem Document.contains_iff_root {document : Document} :
    document.contains forest node = true ↔
      ∃ root, document.root = some root ∧ forest.rootOf? node = some root := by
  rw [contains, Bool.and_eq_true, Option.isSome_iff_exists, beq_iff_eq]
  constructor
  · rintro ⟨⟨root, hr⟩, he⟩
    exact ⟨root, hr, he.trans hr⟩
  · rintro ⟨root, hr, he⟩
    exact ⟨⟨root, hr⟩, he.trans hr.symm⟩

/-- Whatever happened to a forest, a node that is in a tree is contained in those documents that its
chain of parents leads to. A node that was taken out of its tree isn't contained in any of these.
What is asked for a parent, through any access, gives the next node of the chain. -/
theorem Forest.Visited.contains_iff (h : Visited forest) (hm : node ∈ forest.ids)
    (document : Document) :
    (¬forest.IsRemoved node →
        (document.contains forest node = true ↔ document.IsReachedFrom forest node)) ∧
      (forest.IsRemoved node →
        ¬(document.contains forest node = true ∧ document.IsReachedFrom forest node)) ∧
      ∀ above, (Editing.parent above).Ends forest
        (fun found after => found = forest.parent? above ∧ after = forest) fun _ _ => False := by
  have hs := h.reached.isSound
  rw [Document.contains_iff_root]
  refine ⟨?_, ?_, Editing.parent_ends forest⟩
  · intro hr
    obtain ⟨content, hc, hn⟩ := Forest.mem_ids.mp hm
    obtain ⟨top, -, hu⟩ := exists_leadsUp_mem_tops hs hc hn
    have htop := rootOf?_of_leadsUp hs h.reached.isRooted hm hr hu
    constructor
    · rintro ⟨root, hd, hroot⟩
      rw [htop] at hroot
      obtain rfl := Option.some.inj hroot
      exact ⟨top, hd, hu⟩
    · rintro ⟨root, hd, hroot⟩
      rw [← hu.unique hroot] at hd
      exact ⟨top, hd, htop⟩
  · rintro hr ⟨⟨root, hd, hroot⟩, other, ho, hu⟩
    rw [hd] at ho
    obtain rfl := Option.some.inj ho
    exact ne_rootOf?_of_isRemoved hs hr hu hroot

/-! ## An element with a child that is deleted -/

/-- An element that contains another one, as loaded from `<a><b/></a>`. -/
def loadedForest : Forest :=
  let inner : Content := .element { id := ⟨1⟩, name := { localPart := "b" } } .nil none .nil
  { trees := [⟨.element { id := ⟨0⟩, name := { localPart := "a" } } inner none .nil, 0⟩]
    next := 2 }

theorem load_loadedForest :
    Document.load {} false (.text "<a><b/></a>") = .ok ({ root := some ⟨0⟩ }, loadedForest) := by
  decide +kernel

theorem loadedForest_visited : Visited loadedForest := .load .empty load_loadedForest

/-- The inner element is contained in the document, and its parent is the root. -/
theorem contains_loadedForest :
    Visited loadedForest ∧ ⟨1⟩ ∈ loadedForest.ids ∧ ¬loadedForest.IsRemoved ⟨1⟩ ∧
      ({ root := some ⟨0⟩ } : Document).IsReachedFrom loadedForest ⟨1⟩ := by
  have hm : (⟨1⟩ : NodeId) ∈ loadedForest.ids := by decide +kernel
  have hr : ¬loadedForest.IsRemoved ⟨1⟩ := by decide +kernel
  have hc : ({ root := some ⟨0⟩ } : Document).contains loadedForest ⟨1⟩ = true := by decide +kernel
  exact ⟨loadedForest_visited, hm, hr,
    ((Forest.Visited.contains_iff loadedForest_visited hm _).1 hr).mp hc⟩

/-- When the inner element is deleted it has no parent any more, but it's still contained. -/
theorem contains_deleted :
    Visited (loadedForest.delete ⟨1⟩) ∧
      ({ root := some ⟨0⟩ } : Document).contains (loadedForest.delete ⟨1⟩) ⟨1⟩ = true ∧
      ¬({ root := some ⟨0⟩ } : Document).IsReachedFrom (loadedForest.delete ⟨1⟩) ⟨1⟩ := by
  refine ⟨.edit (.deleteNode ⟨1⟩) {} loadedForest_visited, by decide +kernel, ?_⟩
  rintro ⟨root, hr, hu⟩
  have hend : (loadedForest.delete ⟨1⟩).LeadsUp ⟨1⟩ ⟨1⟩ := .ends (by decide +kernel)
  cases hr
  cases hend.unique hu

end MarkupPath
