import MarkupPath.Proofs.Editing.Chains
import MarkupPath.Proofs.Editing.Counting
import MarkupPath.Proofs.Editing.Runs
import MarkupPath.Proofs.Forest.Siblings
import MarkupPath.Proofs.Search.Outcome

/-!
# Adding a node next to another one

What is added next to an element stands behind that and its tail, and in front of whatever followed
(`Forest.GainsNext`). It takes over none of the texts around it, since what's between two nodes
belongs to the first of them. Main statement: `Editing.insertNext_gain`.
-/

namespace MarkupPath

open Forest

/-- An element with the given tag was added next to another one, whose parent is at `above`, and
nothing else. -/
structure Forest.GainsNext (sibling : NodeId) (above : Position) (tag : Tag)
    (before after : Forest) : Prop where
  /-- it's the only one that wasn't there -/
  ids : ∀ id, id ∈ after.ids ↔ id ∈ before.ids ∨ id = tag.id
  /-- it wasn't there -/
  isNew : tag.id ∉ before.ids
  /-- it's empty, has no tail and stands behind the sibling's tail -/
  placed : ∃ front reference tail back, reference.id = sibling ∧
    above.element.content = front ++ (.single reference tail ++ back) ∧
    after.setting? above.id = some { above.setting with
      element := ⟨above.element.tag,
        front ++ (.single reference tail ++ (.single ⟨tag, .nil⟩ none ++ back))⟩ }
  /-- what it's set in is what the sibling is set in -/
  set : after.setting? tag.id = some ⟨some above.id, above.scope, ⟨tag, .nil⟩⟩
  /-- the trees that were there have it behind the sibling, others hold no elements -/
  trees : ∃ others, after.trees.map Tree.content = before.trees.map (fun tree =>
      tree.content.plant (.behind sibling) (.single ⟨tag, .nil⟩ none)) ++ others ∧
    ∀ content ∈ others, content.ids = []
  /-- the same holds for what was taken out of trees -/
  fragments : ∃ others, after.fragments = before.fragments.map (fun ⟨owner, content⟩ =>
      ⟨owner, content.plant (.behind sibling) (.single ⟨tag, .nil⟩ none)⟩) ++ others ∧
    ∀ fragment ∈ others, fragment.content.ids = []
  /-- without it all that was there is as it was -/
  kept : ∀ content ∈ before.contents,
    (content.plant (.behind sibling) (.single ⟨tag, .nil⟩ none)).remove tag.id = content

/-- What is planted behind an element comes in front of what's behind that. -/
theorem Content.plant_behind {front back : Content} {element : Element} {tail : Option String}
    (hn : (front ++ (single element tail ++ back)).ids.Nodup) (piece : Content) :
    (front ++ (single element tail ++ back)).plant (.behind element.id) piece =
      front ++ (single element tail ++ (piece ++ back)) := by
  have hfront : element.id ∉ front.ids := by
    intro hm
    rw [ids_append, ids_append, ids_single, List.nodup_append] at hn
    exact hn.2.2 _ hm _ List.mem_cons_self rfl
  have hsame : (single element tail ++ back).replace element.id
      (Spot.fill piece (.behind element.id)) = single element tail ++ piece ++ back := if_pos rfl
  rw [plant, Spot.anchor, replace_append_of_notMem_left hfront, hsame, append_assoc]

namespace Editing

variable {forest : Forest} {content : NodeContent} {name : String} {sibling : NodeId}

/-- Adding a node takes one identity. -/
theorem insertNext_takes (sibling : Option NodeId) (name : String) (content : NodeContent) :
    (insertNext sibling name content).Takes 1 := by
  intro forest
  cases sibling with
  | none => exact .of_throw _ trivial
  | some sibling =>
    refine .bind (.of_readAt (fun _ => .of_throw _ trivial) (fun position above _ _ => ?_)
      fun _ _ _ _ => trivial)
    cases above with
    | none => exact .of_throw _ trivial
    | some above =>
      refine .bind (.of_createNode (fun node between hc => ?_) fun _ => trivial)
      refine .bind (.of_undoing (.bind (.of_insert (fun after hi => ?_) (.of_throw _ trivial))))
      refine (setContent_takes node content after).imp (fun _ last hl => .of_pure _ ?_)
        fun _ _ _ => trivial
      rw [hl, next_insertAfter hi, next_create hc, Nat.add_zero]

/-- What is planted next to an element is its next sibling, in front of the one that was. -/
theorem gainsNext_of_isPlanted {before after : Forest} {above : Position} {tag : Tag}
    (h : before.IsSound) (hp : (before.position? sibling).bind Position.parent? = some above)
    (hplanted :
      IsPlanted before.next (.behind sibling) above.id above.scope ⟨tag, .nil⟩ before after)
    (hx : after.next = before.next + 1) :
    before.GainsNext sibling above tag after ∧ after.nextSibling? sibling = some tag.id ∧
      after.nextSibling? tag.id = before.nextSibling? sibling := by
  obtain ⟨front, reference, tail, back, rfl, habove, hcontent⟩ := exists_content_of_parent h hp
  have hset := setting?_of_position? habove
  have hnodup : above.element.content.ids.Nodup :=
    (List.nodup_cons.mp (Content.ids_single .. ▸ Content.nodup_of_setting? h.nodup hset)).2
  have hplant := Content.plant_behind (hcontent ▸ hnodup) (.single ⟨tag, .nil⟩ none)
  have hafter : after.setting? above.id = some { above.setting with
      element := ⟨above.element.tag,
        front ++ (.single reference tail ++ (.single ⟨tag, .nil⟩ none ++ back))⟩ } := by
    rw [hplanted.setting?_of_mem (mem_ids_of_setting? hset), hset, ← hplant, ← hcontent]
    rfl
  obtain ⟨there, hthere, hsetting⟩ := exists_position? hafter
  have hwith : there.element.content =
      front ++ (.single reference tail ++ (.single ⟨tag, .nil⟩ none ++ back)) := by
    rw [show there.element = there.setting.element from rfl, hsetting]
  have hbehind : there.element.content =
      (front ++ .single reference tail) ++ (.single ⟨tag, .nil⟩ none ++ back) := by
    rw [hwith, Content.append_assoc]
  obtain ⟨htrees, hfragments⟩ := hplanted.plantsOnly hx
  refine ⟨⟨fun id => ?_, hplanted.id_notMem, ⟨front, reference, tail, back, rfl, hcontent, hafter⟩,
    hplanted.setting?, htrees, hfragments, fun content hm => ?_⟩, ?_, ?_⟩
  · rw [hplanted.mem_ids_iff hx]
    simp [Content.ids, Element.id]
  · exact Content.remove_plant fun hi => hplanted.id_notMem (mem_ids.mpr ⟨content, hm, hi⟩)
  · exact nextSibling?_of_content hplanted.amends.sound hthere hwith
  · rw [nextSibling?_of_content h habove hcontent]
    exact nextSibling?_of_content hplanted.amends.sound hthere hbehind

/-! ## Runs -/

/-- The next sibling is told whatever its name is. -/
theorem run_nextSibling (node : NodeId) (workspace : Workspace) :
    ((nextSibling node none).run workspace).1 = .ok (workspace.forest.nextSibling? node) := by
  rw [nextSibling, run_readAt, nextSibling?]
  cases workspace.forest.position? node with
  | none => rfl
  | some position =>
    have hrefusal : position.siblingRefusal? none = none := by cases position <;> rfl
    have hplain : (position.nextSibling none).plain.outcome = .ok (position.nextSibling? none) := by
      rw [Position.plain_nextSibling, hrefusal]
      rfl
    exact Reading.outcome_bind_of_plain _ (fun found => pure (found.map Position.id))
      (by rintro (_ | _) <;> rfl) hplain

/-- Next to a node without a parent none is added. All that was done is to ask for the parent. -/
theorem run_insertNext_of_orphan {before : Workspace} (name : String) (content : NodeContent)
    (h : (before.forest.position? sibling).bind Position.parent? = none) :
    ∃ calls, (∀ call ∈ calls, call.operation = .parent) ∧
      (insertNext (some sibling) name content).run before =
        (.error .orphanedSibling, before.record calls) := by
  simp only [insertNext]
  rw [Ends.run_bind, parent, run_readAt]
  cases hp : before.forest.position? sibling with
  | none => exact ⟨[], List.forall_mem_nil _, by rw [Workspace.record_nil]; rfl⟩
  | some position =>
    rw [hp, Option.bind_some] at h
    have houtcome : (do return (← position.parent).map Position.id : Reading (Option NodeId)) =
        ⟨[⟨.parent, position.id⟩], .ok (position.parent?.map Position.id)⟩ := rfl
    rw [h] at houtcome
    simp only [houtcome]
    exact ⟨[⟨.parent, position.id⟩], by simp, rfl⟩

/-- The parent of an element is where something is planted next to it. -/
theorem parent_of_isPlanted {before after : Forest} {above : NodeId} {position : Position}
    {new : Element} (h : before.IsSound) (hp : before.position? above = some position)
    (hplanted : IsPlanted before.next (.behind sibling) above position.scope new before after) :
    position.id = above ∧ (before.position? sibling).bind Position.parent? = some position := by
  obtain ⟨setting, hset, hparent, -⟩ := hplanted.anchored
  obtain ⟨there, hthere, rfl⟩ := exists_position? hset
  obtain ⟨found, hfound, hid⟩ := Option.map_eq_some_iff.mp hparent
  have hin := parent_mem_positions (mem_positions h hthere) hfound
  have hposition : before.position? above = some found := (position?_eq_some_iff h).mpr ⟨hin, hid⟩
  obtain rfl := Option.some.inj (hp.symm.trans hposition)
  exact ⟨hid, Option.bind_eq_some_iff.mpr ⟨there, hthere, hfound⟩⟩

/-- A node that's added next to another one is all that is new, it has the content that it was given
and it's the next sibling. Next to a node without a parent, or to none, nothing is added. -/
theorem insertNext_gain {before : Workspace} (h : before.forest.IsSound) (name : String)
    (content : NodeContent) :
    (∀ sibling node after,
      (insertNext (some sibling) name content).run before = (.ok node, after) →
      ∃ above tag, (before.forest.position? sibling).bind Position.parent? = some above ∧
        tag.id = node ∧ tag.IsBuilt above.scope name content.attributes content.text? ∧
        before.forest.GainsNext sibling above tag after.forest ∧
        ((nextSibling sibling none).run after).1 = .ok (some node) ∧
        ((nextSibling node none).run after).1 = ((nextSibling sibling none).run before).1) ∧
    (∀ sibling, (before.forest.position? sibling).bind Position.parent? = none →
      ∃ calls, (∀ call ∈ calls, call.operation = .parent) ∧
        (insertNext (some sibling) name content).run before =
          (.error .orphanedSibling, before.record calls)) ∧
    (insertNext none name content).run before = (.error .absentOrigin, before) := by
  refine ⟨fun sibling node after hr => ?_, fun sibling hp => ?_, rfl⟩
  · obtain ⟨⟨_, above, position, raw, tag, hsibling, habove, rfl, hnew, hreceives, hplanted⟩, hx⟩ :=
      ((insertNext_ends h (Nat.le_refl _) (some sibling) name).and
        (insertNext_takes (some sibling) name content _)).good_of_run hr
    obtain rfl := Option.some.inj hsibling
    obtain ⟨rfl, hparent⟩ := parent_of_isPlanted h habove hplanted
    obtain ⟨hgains, hnext, hbehind⟩ := gainsNext_of_isPlanted h hparent hplanted hx
    refine ⟨position, tag, hparent, rfl, hnew.isBuilt_of_receives (.done raw) hreceives, hgains, ?_,
      ?_⟩
    · rw [run_nextSibling, hnext]
    · rw [run_nextSibling, run_nextSibling, hbehind]
  · exact run_insertNext_of_orphan name content hp

end Editing

/-- An element between texts, with a comment and another element behind its tail. -/
def siblingsWorkspace : Workspace where
  forest := {
    trees := [⟨.element { id := ⟨0⟩, name := { localPart := "r" }, text := "leading" }
      (.element { id := ⟨1⟩, name := { localPart := "a" } } .nil "behind"
        (.comment "between" "and"
          (.element { id := ⟨2⟩, name := { localPart := "p:b" } } .nil none
            (.instruction "last" none none .nil)))) none .nil, 0⟩]
    next := 3 }

theorem insertNext_gain_siblingsWorkspace :
    siblingsWorkspace.forest.IsSound ∧
      (∃ node after, (Editing.insertNext (some ⟨1⟩) "n"
          { attributes := [("k", "v"), ("k", "w")], text := "x" }).run siblingsWorkspace =
            (.ok node, after) ∧
        ∃ above tag, (siblingsWorkspace.forest.position? ⟨1⟩).bind Position.parent? = some above ∧
          tag.id = node ∧ tag.IsBuilt above.scope "n" [("k", "v"), ("k", "w")] (some "x") ∧
          siblingsWorkspace.forest.GainsNext ⟨1⟩ above tag after.forest ∧
          ((Editing.nextSibling node none).run after).1 = .ok (some ⟨2⟩)) ∧
      ∃ calls, (∀ call ∈ calls, call.operation = .parent) ∧
        (Editing.insertNext (some ⟨0⟩) "n" {}).run siblingsWorkspace =
          (.error .orphanedSibling, siblingsWorkspace.record calls) := by
  have h : siblingsWorkspace.forest.IsSound := ⟨by decide, by decide, by decide⟩
  have hok : ((Editing.insertNext (some ⟨1⟩) "n"
      { attributes := [("k", "v"), ("k", "w")], text := "x" }).run siblingsWorkspace).1.isOk =
        true := by
    decide +kernel
  obtain ⟨node, after, hr⟩ := Editing.Ends.exists_of_isOk hok
  obtain ⟨hgain, -, -⟩ := Editing.insertNext_gain h "n"
    { attributes := [("k", "v"), ("k", "w")], text := "x" }
  obtain ⟨above, tag, hparent, hid, hbuilt, hgains, -, hnext⟩ := hgain ⟨1⟩ node after hr
  exact ⟨h, ⟨node, after, hr, above, tag, hparent, hid, hbuilt, hgains, hnext.trans rfl⟩,
    (Editing.insertNext_gain h "n" {}).2.1 ⟨0⟩ rfl⟩

end MarkupPath
