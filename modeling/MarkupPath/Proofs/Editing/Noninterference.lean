import MarkupPath.Proofs.Editing.Agreement
import MarkupPath.Proofs.Editing.Membership
import MarkupPath.Proofs.Forest.Sparing

/-!
# Additions don't interfere with other trees

An addition changes nothing but the tree in which its anchor stands: the node that it's given, or,
along an absolute path, the root of the tree that the node belongs to (`Addition.anchor?`). All
other trees are spared, and so are the elements that were taken out of trees, whether it succeeds or
not (`Addition.spares`).

A document is loaded into a tree of its own. So what is added to it doesn't show in what there was
before, nor the other way round, and no node that there was before gets into it
(`Document.IsApart`). Main statement: `Forest.Reached.noninterference`.
-/

namespace MarkupPath

open Forest

variable {forest before between after loaded : Forest} {mode : EmptyPath} {content : NodeContent}
  {id node root : NodeId}

/-! ## Anchors -/

namespace Addition

variable {addition : Addition} {anchor : NodeId}

/-- The node that an addition is given. -/
def node? : Addition → Option NodeId
  | append parent _ | prepend parent _ | fetchOrCreate parent _ => parent
  | insertNext sibling _ => sibling

/-- The node that tells in which tree nodes are added: the one that the addition is given, or the
root of the tree that it belongs to if the path is absolute. -/
def anchor? (forest : Forest) : Addition → Option NodeId
  | append parent expression | prepend parent expression | fetchOrCreate parent expression =>
    if isAbsolute expression then parent.bind forest.rootOf? else parent
  | insertNext sibling _ => sibling

/-- The anchor isn't in a content. -/
def Avoids (addition : Addition) (forest : Forest) (content : Content) : Prop :=
  ∀ anchor, addition.anchor? forest = some anchor → anchor ∉ content.ids

theorem anchor?_eq_or (ha : addition.anchor? forest = some anchor) :
    addition.node? = some anchor ∨ addition.node?.bind forest.rootOf? = some anchor := by
  cases addition with
  | insertNext sibling name => exact .inl ha
  | append parent expression | prepend parent expression | fetchOrCreate parent expression =>
    rw [anchor?] at ha
    split at ha
    · exact .inr ha
    · exact .inl ha

/-- The anchor belongs to the same tree as the node that an addition is given. -/
theorem rootOf?_anchor (h : forest.IsSound) (ha : addition.anchor? forest = some anchor) :
    ∃ node, addition.node? = some node ∧ forest.rootOf? anchor = forest.rootOf? node := by
  rcases anchor?_eq_or ha with hn | hr
  · exact ⟨anchor, hn, rfl⟩
  · obtain ⟨node, hn, hr⟩ := Option.bind_eq_some_iff.mp hr
    exact ⟨node, hn, (h.rootOf?_root hr).trans hr.symm⟩

end Addition

/-! ## What additions spare -/

namespace Editing

/-- A branch spares what its path's anchor isn't in. -/
theorem addBranch_spares (h : forest.IsSound) (side : Side) (parent : Option NodeId)
    (expression : String) :
    (addBranch side parent expression mode content).Ends forest
      (fun _ after => forest.Spares
        ((Addition.append parent expression).Avoids forest) after) fun _ _ => True := by
  cases parent with
  | none => exact .bind (.bind (.of_pure none (.of_read nofun fun _ _ => trivial)))
  | some parent =>
    refine (addBranch_plants h).imp ?_ fun _ _ _ => trivial
    rintro _ after ⟨path, anchor, _, _, _, hc, ha, -, -, hplanted⟩
    exact (Spares.of_isPlanted_below hplanted).imp fun _ _ hs => hs _ (id_anchor hc ha)

end Editing

/-- What the anchor of an addition isn't in is spared, whether the addition succeeds or not. -/
theorem Addition.spares (h : forest.IsSound) (addition : Addition) (mode : EmptyPath)
    (content : NodeContent) (access : Access) : forest.Spares (addition.Avoids forest)
      ((addition.editing mode content).run ⟨forest, access⟩).2.forest := by
  have hgood : (addition.editing mode content).Ends forest
      (fun _ after => forest.Spares (addition.Avoids forest) after) fun _ _ => True := by
    cases addition with
    | append parent expression => exact Editing.addBranch_spares h .back parent expression
    | prepend parent expression => exact Editing.addBranch_spares h .front parent expression
    | fetchOrCreate parent expression =>
      refine .bind ((Editing.findFirst_ends parent).imp ?_ fun _ _ _ => trivial)
      rintro (_ | found) after rfl
      · exact Editing.addBranch_spares h .back parent expression
      · exact .of_pure _ (.refl _ _)
    | insertNext sibling name =>
      refine (Editing.insertNext_ends h (Nat.le_refl _) sibling name).imp ?_ fun _ _ _ => trivial
      rintro _ after ⟨reference, _, _, _, _, hsibling, -, -, -, -, hplanted⟩
      exact (Spares.of_isPlanted hplanted).imp fun _ _ hs => hs reference hsibling
  exact Editing.Ends.forest_run ((hgood.and (addition.ends h (Nat.le_refl _) mode content)).imp
    (fun _ _ he => he.1) fun _ _ he => .of_kept he.2 h) access

/-! ## Additions one after the other -/

/-- Additions are made one after the other, each through an access of its own, and each succeeds or
fails. What is allowed may depend on the forest that it's made in. -/
inductive Forest.Adds (isAllowed : Forest → Addition → Prop) (before : Forest) : Forest → Prop where
  /-- no more are made -/
  | done : Adds isAllowed before before
  /-- another one is made -/
  | next {between : Forest} (addition : Addition) (mode : EmptyPath) (content : NodeContent)
    (access : Access) : Adds isAllowed before between → isAllowed between addition →
    Adds isAllowed before ((addition.editing mode content).run ⟨between, access⟩).2.forest

namespace Forest.Adds

variable {isAllowed : Forest → Addition → Prop}

theorem reached (h : before.Adds isAllowed after) (hr : Reached before) : Reached after := by
  induction h with
  | done => exact hr
  | next addition mode content access _ _ ih =>
    exact (Editing.KeepsReached.addition addition mode content).run ih access

/-- What no allowed addition is anchored in is spared by all of them. -/
theorem spares {isSpared : Content → Prop} (h : before.Adds isAllowed after) (hr : Reached before)
    (hs : ∀ between addition, Reached between → before.Spares isSpared between →
      isAllowed between addition → ∀ content ∈ between.contents, isSpared content →
      addition.Avoids between content) : before.Spares isSpared after := by
  induction h with
  | done => exact .refl _ _
  | next addition mode content access hadds hallowed ih =>
    have hbetween := hadds.reached hr
    exact ih.trans ((addition.spares hbetween.isSound mode content access).imp
      (hs _ addition hbetween ih hallowed))

end Forest.Adds

/-! ## Documents -/

namespace Document

variable {document : Document} {keepBlanks : Bool} {source : Source}

/-- The nodes to which something is added are contained in the document. -/
def IsWithin (document : Document) (forest : Forest) (addition : Addition) : Prop :=
  ∀ node, addition.node? = some node → document.contains forest node = true

/-- The nodes to which something is added aren't contained in the document. -/
def IsBeyond (document : Document) (forest : Forest) (addition : Addition) : Prop :=
  ∀ node, addition.node? = some node → document.contains forest node = false

/-- A document and what there was before it was loaded have nothing in common. -/
structure IsApart (document : Document) (before loaded : Forest) : Prop where
  /-- what is added elsewhere doesn't show in the document -/
  markup : ∀ after, loaded.Adds document.IsBeyond after →
    document.markup after = document.markup loaded
  /-- what is added to the document doesn't show elsewhere: all trees and fragments that there were
  are as they were -/
  contents : ∀ after, loaded.Adds document.IsWithin after →
    ∀ content ∈ before.contents, content ∈ after.contents
  /-- so all elements that there were, their trees and other documents read the same -/
  markups : ∀ after, loaded.Adds document.IsWithin after → ∀ node ∈ before.ids,
    after.markup node = loaded.markup node ∧ after.treeMarkup node = loaded.treeMarkup node ∧
    after.documentMarkup node = loaded.documentMarkup node
  /-- whatever is added, the document contains no element that there was, nor anything in the tree
  of one -/
  contains : ∀ after, loaded.Adds (fun _ _ => True) after → ∀ node ∈ before.ids, ∀ other,
    after.rootOf? other = after.rootOf? node → document.contains after other = false

/-- A document is loaded into a new tree whose root is its root. -/
theorem tree_of_load (h : before.IsSound)
    (hl : Document.load before keepBlanks source = .ok (document, loaded)) :
    Amends before.next (fun content => content) before loaded ∧
      ∃ tree ∈ loaded.trees, document.root = tree.root?.map Element.id ∧
        AreNew before.next tree.content := by
  obtain ⟨content, -, rfl, hroot⟩ := exists_content_of_load hl
  exact ⟨addTree_amends h (Nat.le_refl _) content 0, _, List.mem_concat_self, hroot,
    areNew_renumber (Nat.le_refl _) content⟩

/-- From elements and their trees documents can be loaded. -/
theorem exists_load (h : before.IsOwned) (hm : node ∈ before.ids) (keepBlanks : Bool)
    (hs : source = .element node ∨ source = .tree node) :
    ∃ document loaded, Document.load before keepBlanks source = .ok (document, loaded) := by
  obtain ⟨content, hc⟩ :
      ∃ content, Loader.tree.load before keepBlanks source = .content content := by
    rcases hs with rfl | rfl
    · obtain ⟨found, tail, hf⟩ := Content.exists_find? hm
      rw [← Forest.find?_eq] at hf
      exact ⟨_, by rw [Loader.load, copyOf?, hf]; rfl⟩
    · obtain ⟨owner, ho⟩ := exists_owner? hm
      have hget := List.getElem?_eq_getElem (h.owner?_lt ho)
      exact ⟨_, by rw [Loader.load, treeOf?, ho, Option.bind_some, hget]; rfl⟩
  have hw : loadWith before keepBlanks source [] Loader.all = .ok content := by
    rcases hs with rfl | rfl <;> simp only [loadWith, Loader.all, Loader.load] at hc ⊢ <;> rw [hc]
  exact ⟨_, _, by rw [Document.load, hw]; rfl⟩

/-- If the root of a document is new, then the document contains nothing in the trees that there
were before. -/
theorem contains_of_rootOf? {isSpared : Content → Prop} {other : NodeId}
    (h : before.Spares isSpared after) (ho : before.IsOwned)
    (hnew : ∀ root, document.root = some root → root ∉ before.ids) (hm : node ∈ before.ids)
    (hsame : after.rootOf? other = after.rootOf? node) : document.contains after other = false := by
  apply Bool.eq_false_iff.mpr
  intro hc
  obtain ⟨root, hd, hr⟩ := contains_iff_root.mp hc
  rw [hsame, h.rootOf?_eq ho hm] at hr
  exact hnew root hd (mem_ids_of_rootOf? hr)

/-- What is added elsewhere doesn't show in the document. The invariant is that the tree whose root
it has is spared. -/
theorem markup_of_isBeyond {tree : Tree} (h : Reached loaded) (ht : tree ∈ loaded.trees)
    (hroot : document.root = tree.root?.map Element.id)
    (ha : loaded.Adds document.IsBeyond after) :
    document.markup after = document.markup loaded := by
  cases hd : document.root with
  | none =>
    rw [Document.markup, Document.markup, hd]
    rfl
  | some root =>
    rw [hd] at hroot
    have hspares : loaded.Spares (· = tree.content) after := by
      refine ha.spares h fun between addition hb hs hallowed content _ hc anchor hanchor hi => ?_
      obtain ⟨later, hl, hcontent⟩ := hs.exists_tree ht rfl
      obtain ⟨node, hnode, hsame⟩ := Addition.rootOf?_anchor hb.isSound hanchor
      rw [hc, ← hcontent] at hi
      rw [hb.isSound.rootOf?_of_mem hl hi, Tree.root?, hcontent, ← Tree.root?, ← hroot] at hsame
      have hin := contains_iff_root.mpr ⟨root, hd, hsame.symm⟩
      rw [hallowed node hnode] at hin
      cases hin
    rw [Document.markup, Document.markup, hd, Option.map_some, Option.map_some,
      hspares.documentMarkup_of_root h.isSound (ha.reached h).isSound ht rfl hroot.symm]

/-- What is added to a document spares all that there was before it was loaded. -/
theorem spares_of_isWithin (h : before.IsOwned)
    (hk : ∀ isSpared : Content → Prop, before.Spares isSpared loaded)
    (hnew : ∀ root, document.root = some root → root ∉ before.ids) (hl : Reached loaded)
    (ha : loaded.Adds document.IsWithin after) : before.Spares (· ∈ before.contents) after := by
  refine (hk _).trans (ha.spares hl
    fun between addition hb hs hallowed content _ hc anchor hanchor hi => ?_)
  obtain ⟨node, hnode, hsame⟩ := Addition.rootOf?_anchor hb.isSound hanchor
  have hout := contains_of_rootOf? ((hk _).trans hs) h hnew
    (mem_ids.mpr ⟨content, hc, hi⟩) hsame.symm
  rw [hallowed node hnode] at hout
  cases hout

/-- A document that is loaded has nothing in common with what there was before. -/
theorem isApart_of_load (h : Reached before)
    (hl : Document.load before keepBlanks source = .ok (document, loaded)) :
    document.IsApart before loaded := by
  have hloaded : Reached loaded := .load h hl
  obtain ⟨hamends, tree, ht, hroot, hnew⟩ := tree_of_load h.isSound hl
  have hroots : ∀ root, document.root = some root → root ∉ before.ids := fun root hd =>
    h.isSound.notMem_of_areNew hnew (mem_ids_of_root? (hroot.symm.trans hd))
  have hkept (isSpared : Content → Prop) : before.Spares isSpared loaded :=
    .of_kept hamends h.isSound
  have hwithin {after : Forest} (ha : loaded.Adds document.IsWithin after) :
      before.Spares (· ∈ before.contents) after :=
    spares_of_isWithin h.isOwned hkept hroots hloaded ha
  refine ⟨fun after ha => markup_of_isBeyond hloaded ht hroot ha,
    fun after ha content hc => (hwithin ha).mem_contents hc hc,
    fun after ha node hn => ?_, fun after ha node hn other hsame => ?_⟩
  · obtain ⟨hm, ht, hd⟩ := (hwithin ha).reads_eq h.isSound (ha.reached hloaded).isSound
      (fun _ hc => hc) h.isOwned hn
    obtain ⟨hm', ht', hd'⟩ := (hkept _).reads_eq h.isSound hloaded.isSound
      (fun _ _ => trivial) h.isOwned hn
    exact ⟨hm.trans hm'.symm, ht.trans ht'.symm, hd.trans hd'.symm⟩
  · have hs : loaded.Spares (fun _ => False) after :=
      ha.spares hloaded fun _ _ _ _ _ _ _ hfalse => hfalse.elim
    exact contains_of_rootOf? ((hkept _).trans hs) h.isOwned hroots hn hsame

end Document

/-- In all forests that there can be, an addition spares whatever its anchor isn't in and leaves
each element in its tree and each tree its root, and a document has nothing in common with what it's
loaded from. From elements and their trees documents can be loaded. -/
theorem Forest.Reached.noninterference (h : Reached forest) :
    (∀ (addition : Addition) (mode : EmptyPath) (content : NodeContent) (access : Access),
      let after := ((addition.editing mode content).run ⟨forest, access⟩).2.forest
      forest.Spares (addition.Avoids forest) after ∧
        ∀ id ∈ forest.ids, after.rootOf? id = forest.rootOf? id) ∧
    ∀ (keepBlanks : Bool) (source : Source),
      (∀ document loaded, Document.load forest keepBlanks source = .ok (document, loaded) →
        document.IsApart forest loaded) ∧
      ∀ node ∈ forest.ids, source = .element node ∨ source = .tree node →
        ∃ document loaded, Document.load forest keepBlanks source = .ok (document, loaded) := by
  refine ⟨fun addition mode content access => ?_, fun keepBlanks source =>
    ⟨fun document loaded hl => Document.isApart_of_load h hl, fun node hm hs =>
      Document.exists_load h.isOwned hm keepBlanks hs⟩⟩
  have hs := addition.spares h.isSound mode content access
  exact ⟨hs, fun id hi => hs.rootOf?_eq h.isOwned hi⟩

/-- The loaded forest with a document that was loaded from its tree. -/
def copiedForest : Forest :=
  let inner : Content := .element { id := ⟨3⟩, name := { localPart := "b" } } .nil none .nil
  { trees := loadedForest.trees ++
      [⟨.element { id := ⟨2⟩, name := { localPart := "a" } } inner none .nil, 0⟩]
    next := 4 }

/-- A branch that is added to the tree doesn't show in the document. -/
theorem noninterference_loadedForest :
    Reached loadedForest ∧
      Document.load loadedForest false (.tree ⟨1⟩) = .ok ({ root := some ⟨2⟩ }, copiedForest) ∧
      ∃ after, after.treeMarkup ⟨1⟩ = "<a><b/><c/></a>" ∧
        ({ root := some ⟨2⟩ } : Document).markup after =
          ({ root := some ⟨2⟩ } : Document).markup copiedForest ∧
        ({ root := some ⟨2⟩ } : Document).contains after ⟨1⟩ = false := by
  have hr : Reached loadedForest := loadedForest_visited.reached
  have hl : Document.load loadedForest false (.tree ⟨1⟩) =
      .ok ({ root := some ⟨2⟩ }, copiedForest) := by decide +kernel
  have hapart := ((Forest.Reached.noninterference hr).2 false (.tree ⟨1⟩)).1 _ _ hl
  have hbeyond : ({ root := some ⟨2⟩ } : Document).IsBeyond copiedForest
      (.append (some ⟨1⟩) "/a/c") := by
    rintro node ⟨⟩
    decide +kernel
  refine ⟨hr, hl, _, ?_, hapart.markup _ (.next _ .self {} {} .done hbeyond),
    hapart.contains _ (.next _ .self {} {} .done trivial) ⟨1⟩ (by decide +kernel) ⟨1⟩ rfl⟩
  decide +kernel

end MarkupPath
