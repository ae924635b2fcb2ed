import MarkupPath.Proofs.Editing.Agreement
import MarkupPath.Proofs.Editing.Counting

/-!
# What an addition adds

A branch that is appended or prepended is one chain of new elements, between what the anchor contained
in front of that side and what it contained behind (`Side.Parts`). There are no other new elements,
and without the chain all trees are as they were. Main statement: `Editing.append_prepend_gain`.
-/

namespace MarkupPath

/-- A chain of new elements was added at a side of what the anchor contains, and nothing else. -/
structure Forest.GainsChain (side : Side) (anchor : Position) (tags : List Tag)
    (before after : Forest) : Prop where
  /-- the new elements are those of the chain -/
  ids : ∀ id, id ∈ after.ids ↔ id ∈ before.ids ∨ id ∈ tags.map Tag.id
  /-- each of them is new -/
  areNew : ∀ tag ∈ tags, tag.id ∉ before.ids
  /-- and different from the others -/
  nodup : (tags.map Tag.id).Nodup
  /-- the chain stands between the parts of what the anchor contained -/
  placed : ∃ front back, anchor.element.content = front ++ back ∧ side.Parts front back ∧
    after.setting? anchor.id = some { anchor.setting with
      element := ⟨anchor.element.tag, front ++ (.chain tags ++ back)⟩ }
  /-- its elements are set as if there was nothing else below the anchor -/
  set : ∀ tag ∈ tags, after.setting? tag.id =
    (Content.chain tags).setting? tag.id (some anchor.id) anchor.scope
  /-- the trees that were there have it planted at that side, others hold no elements -/
  trees : ∃ others, after.trees.map Tree.content = before.trees.map (fun tree =>
      tree.content.plant (side.spot anchor) (.chain tags)) ++ others ∧
    ∀ content ∈ others, content.ids = []
  /-- the same holds for what was taken out of trees -/
  fragments : ∃ others, after.fragments = before.fragments.map (fun fragment =>
      { fragment with content := fragment.content.plant (side.spot anchor) (.chain tags) }) ++ others ∧
    ∀ fragment ∈ others, fragment.content.ids = []
  /-- without the top of the chain all that was there is as it was -/
  kept : ∀ top, tags.head? = some top → ∀ content ∈ before.contents,
    (content.plant (side.spot anchor) (.chain tags)).remove top.id = content

/-- A branch was added along the path that an expression stands for below `parent`: a chain of what
was built for the steps behind the anchor, the last of which is `node`. -/
def Forest.GainsBranch (side : Side) (parent : NodeId) (expression : String) (mode : EmptyPath)
    (content : NodeContent) (before : Forest) (node : NodeId) (after : Forest) : Prop :=
  ∃ path anchor tags inner,
    (Path.compile (before.origin? parent) expression mode).outcome = .ok path ∧
    path.anchor = some anchor ∧
    AreBuilt content anchor.scope (path.steps.drop 1) tags inner ∧ after.scope node = inner ∧
    tags.getLast?.map Tag.id = some node ∧ before.GainsChain side anchor tags after

namespace Editing

open Forest

variable {forest : Forest} {side : Side} {content : NodeContent} {expression : String}
  {mode : EmptyPath} {parent : NodeId}

/-- Adding a branch takes one identity for each step behind the anchor. -/
theorem addBranch_takes :
    (addBranch side (some parent) expression mode content).Ends forest
      (fun _ after => ∃ path,
        (Path.compile (forest.origin? parent) expression mode).outcome = .ok path ∧
        after.next = forest.next + (path.steps.drop 1).length)
      fun _ _ => True := by
  refine .bind (compilePath_origin?.imp ?_ fun _ _ h => h)
  rintro path after ⟨rfl, hc⟩
  split
  · exact .of_throw _ trivial
  · rename_i anchor ha
    exact (addSteps_takes side expression content anchor.id (path.steps.drop 1) after).imp
      (fun _ _ h => ⟨path, hc anchor ha, h⟩) fun _ _ _ => trivial

theorem addBranch_gains (h : forest.IsSound) :
    (addBranch side (some parent) expression mode content).Ends forest
      (forest.GainsBranch side parent expression mode content) fun _ _ => True := by
  refine ((addBranch_plants h).and addBranch_takes).imp ?_ fun _ _ _ => trivial
  rintro node after ⟨⟨path, anchor, position, element, inner, hp, ha, hposition, hbranch, hplanted⟩,
    other, ho, hnext⟩
  obtain rfl : path = other := Except.ok.inj (hp.symm.trans ho)
  obtain rfl : anchor = position :=
    Option.some.inj ((hplanted.compile hp ha).1.symm.trans hposition)
  obtain ⟨tags, hchain, hbuilt, hlast⟩ := hbranch.exists_chain
  have hids : (Content.single element none).ids = tags.map Tag.id := by
    rw [hchain, Content.ids_chain]
  have hcount : after.next = forest.next + (Content.single element none).ids.length := by
    rw [hids, List.length_map, hbuilt.length_eq, hnext]
  have hset := setting?_of_position? hposition
  have hnodup := Content.nodup_of_setting? hplanted.amends.sound.nodup hplanted.setting?
  obtain ⟨front, back, hcontent, hparts, hplant⟩ := side.exists_parts
    (List.nodup_cons.mp (Content.ids_single .. ▸ Content.nodup_of_setting? h.nodup hset)).2
  obtain ⟨htrees, hfragments⟩ := hplanted.plantsOnly hcount
  rw [hchain] at htrees hfragments
  refine ⟨path, anchor, tags, inner, hp, ha, hbuilt, hplanted.scope_branch hbranch, hlast, ?_⟩
  refine ⟨fun id => ?_, fun tag hm => ?_, hids ▸ hnodup, ⟨front, back, hcontent, hparts, ?_⟩,
    fun tag hm => ?_, htrees, hfragments, fun top ht content hm => ?_⟩
  · rw [hplanted.mem_ids_iff hcount, hids]
  · refine h.notMem_of_areNew hplanted.areNew ?_
    rw [hids]
    exact List.mem_map_of_mem hm
  · rw [hplanted.setting?_of_mem (mem_ids_of_setting? hset), hset, hchain]
    exact congrArg (fun element => some { anchor.setting with element }) (hplant _)
  · rw [hplanted.setting?_within (by rw [hids]; exact List.mem_map_of_mem hm), hchain]
  · obtain ⟨rest, rfl⟩ := List.head?_eq_some_iff.mp ht
    have htop : element.tag = top := (Content.element.inj hchain).1
    rw [← hchain, ← htop]
    exact Content.remove_plant fun hi => hplanted.id_notMem (mem_ids.mpr ⟨content, hm, hi⟩)

/-- What is appended comes behind the last element that the anchor contains, and what is prepended in
front of everything. -/
theorem append_prepend_gain (h : forest.IsSound) (parent : NodeId) (expression : String)
    (mode : EmptyPath) (content : NodeContent) :
    (append (some parent) expression mode content).Ends forest
        (forest.GainsBranch .back parent expression mode content) (fun _ _ => True) ∧
      (prepend (some parent) expression mode content).Ends forest
        (forest.GainsBranch .front parent expression mode content) fun _ _ => True :=
  ⟨addBranch_gains h, addBranch_gains h⟩

end Editing

theorem append_prepend_gain_selectedWorkspace :
    selectedWorkspace.forest.IsSound ∧
      (∃ node after, (Editing.append (some ⟨0⟩) "c[@k='v'][@k='w']/b" .self
          { attributes := [("t", "1")], text := "x" }).run selectedWorkspace = (.ok node, after) ∧
        selectedWorkspace.forest.GainsBranch .back ⟨0⟩ "c[@k='v'][@k='w']/b" .self
          { attributes := [("t", "1")], text := "x" } node after.forest) ∧
      ∃ node after, (Editing.prepend (some ⟨0⟩) "c[@k='v'][@k='w']/b" .self
          { attributes := [("t", "1")], text := "x" }).run selectedWorkspace = (.ok node, after) ∧
        selectedWorkspace.forest.GainsBranch .front ⟨0⟩ "c[@k='v'][@k='w']/b" .self
          { attributes := [("t", "1")], text := "x" } node after.forest := by
  have h : selectedWorkspace.forest.IsSound := ⟨by decide, by decide, by decide⟩
  obtain ⟨happend, hprepend⟩ := Editing.append_prepend_gain h ⟨0⟩ "c[@k='v'][@k='w']/b" .self
    { attributes := [("t", "1")], text := "x" }
  have hruns : ((Editing.append (some ⟨0⟩) "c[@k='v'][@k='w']/b" .self
        { attributes := [("t", "1")], text := "x" }).run selectedWorkspace).1.isOk = true ∧
      ((Editing.prepend (some ⟨0⟩) "c[@k='v'][@k='w']/b" .self
        { attributes := [("t", "1")], text := "x" }).run selectedWorkspace).1.isOk = true := by
    decide +kernel
  obtain ⟨node, after, hr⟩ := Editing.Ends.exists_of_isOk hruns.1
  obtain ⟨other, last, hl⟩ := Editing.Ends.exists_of_isOk hruns.2
  exact ⟨h, ⟨node, after, hr, happend.good_of_run hr⟩, ⟨other, last, hl, hprepend.good_of_run hl⟩⟩

end MarkupPath
