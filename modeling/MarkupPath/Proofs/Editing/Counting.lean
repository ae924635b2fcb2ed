import Mathlib.Data.List.Nodup
import Mathlib.Data.List.Perm.Subperm
import MarkupPath.Proofs.Editing.Rollback

/-!
# How many elements are new

A forest counts the identities that it has given away. Creating an element takes one, and nothing
else that an edit does takes any, so adding a branch takes one for each step (`addSteps_takes`). Since
the branch has that many elements, there are no new ones but these: whatever else an addition leaves
in a forest holds no elements. Main statement: `Forest.IsPlanted.plantsOnly`.
-/

namespace MarkupPath

namespace Forest

variable {forest after : Forest} {node parent : NodeId}

/-! ## Operations -/

theorem next_create {context : NodeId} {name : String}
    (h : forest.create context name = .ok (node, after)) : after.next = forest.next + 1 := by
  obtain ⟨tag, minted, -, -, rfl⟩ := create_eq_ok.mp h
  rfl

theorem next_move {place : Element → Option String → Content → Content}
    (h : forest.move parent node place = some after) : after.next = forest.next := by
  obtain ⟨position, found, tail, -, -, -, rfl⟩ := move_eq_some h
  exact (setMinted_eq ..).2.2

theorem next_insertAfter {reference : NodeId}
    (h : forest.insertAfter parent reference node = some after) : after.next = forest.next := by
  obtain ⟨position, -, rfl | hm⟩ := insertAfter_eq_some h
  · rfl
  · exact next_move hm

theorem next_setAttribute {name value : String}
    (h : forest.setAttribute node name value = .ok after) : after.next = forest.next := by
  obtain ⟨key, count, -, -, rfl | rfl⟩ := setAttribute_eq_ok h
  · rfl
  · exact (setMinted_eq ..).2.2

theorem next_setText (forest : Forest) (node : NodeId) (text : String) :
    (forest.setText node text).2.next = forest.next := by
  obtain ⟨new, h⟩ := exists_mapTag_of_setText forest node text
  rw [h]
  rfl

end Forest

namespace Editing

open Forest

variable {forest : Forest} {side : Side} {content : NodeContent} {node parent : NodeId}

/-! ## Edits -/

/-- An edit that takes a number of identities if it succeeds. -/
def Takes {α : Type} (editing : Editing α) (count : Nat) : Prop :=
  ∀ forest : Forest, editing.Ends forest (fun _ after => after.next = forest.next + count)
    fun _ _ => True

/-- To create a node takes the next one. -/
theorem createNode_ends (context : NodeId) (name : String) (forest : Forest) :
    (createNode context name).Ends forest
      (fun node after => node = ⟨forest.next⟩ ∧ after.next = forest.next + 1)
      fun error _ => ∃ failure, error = .creation failure := by
  refine .of_createNode (fun node after hc => ?_) fun failure => ⟨failure, rfl⟩
  obtain ⟨tag, minted, -, rfl, -⟩ := create_eq_ok.mp hc
  exact ⟨rfl, next_create hc⟩

/-- To insert a node takes none, and it doesn't fail other than by its answer. -/
theorem insertAt_settles (side : Side) (parent node : NodeId) :
    (insertAt side parent node).Ends forest (fun _ after => after.next = forest.next)
      fun _ _ => False := by
  have hfirst : (insertFirstChild parent node).Ends forest
      (fun _ after => after.next = forest.next) fun _ _ => False :=
    .of_insert (fun after h => next_move h) rfl
  cases side with
  | front => exact hfirst
  | back =>
    refine .bind (.of_readAt (fun _ => hfirst) (fun position found _ _ => ?_)
      fun position error _ ho => by cases ho)
    cases found with
    | none => exact hfirst
    | some last => exact .of_insert (fun after h => next_insertAfter h) rfl

theorem insertAt_takes (side : Side) (parent node : NodeId) :
    (insertAt side parent node).Takes 0 := fun _ =>
  (insertAt_settles side parent node).imp (fun _ _ h => h) fun _ _ _ => trivial

theorem setAttributes_takes (node : NodeId) (attributes : List (String × String)) :
    (setAttributes node attributes).Takes 0 := by
  induction attributes with
  | nil => exact fun forest => .of_pure _ rfl
  | cons pair rest ih =>
    intro forest
    refine .bind (.of_setAttribute (fun after h => ?_) fun _ => trivial)
    rw [← next_setAttribute h]
    exact ih after

theorem setContent_takes (node : NodeId) (content : NodeContent) :
    (setContent node content).Takes 0 := by
  intro forest
  refine .bind ((setAttributes_takes node content.attributes forest).imp (fun _ between h => ?_)
    fun _ _ _ => trivial)
  split
  · exact .of_pure _ h
  · exact .of_setText (fun _ => (next_setText ..).trans h) fun _ => trivial

theorem insertFor_takes (side : Side) (parent node : NodeId) (step : Step) :
    (insertFor side parent node step).Takes 0 := by
  intro forest
  refine .bind ((insertAt_takes side parent node forest).imp (fun inserted after hi => ?_)
    fun _ _ _ => trivial)
  split
  · rw [← hi]
    exact setAttributes_takes node _ after
  · exact .of_throw _ trivial

/-- A branch takes one identity for each step. -/
theorem grow_takes (side : Side) (content : NodeContent) (parent : NodeId) (steps : List Step) :
    (grow side content parent steps).Takes steps.length := by
  induction steps generalizing parent with
  | nil =>
    intro forest
    exact .bind ((setContent_takes parent content forest).imp (fun _ _ h => .of_pure _ h)
      fun _ _ _ => trivial)
  | cons step steps ih =>
    intro forest
    refine .bind (.of_createNode (fun node between hc => ?_) fun _ => trivial)
    refine .of_undoing (.imp (.bind ((insertFor_takes side parent node step between).imp
      (fun _ after hi => ?_) fun _ _ _ => trivial)) (fun _ _ h => h) fun _ _ _ => trivial)
    refine (ih node after).imp (fun _ _ h => ?_) fun _ _ _ => trivial
    rw [h, hi, next_create hc, List.length_cons]
    omega

theorem addSteps_takes (side : Side) (expression : String) (content : NodeContent)
    (anchor : NodeId) (steps : List Step) :
    (addSteps side expression content anchor steps).Takes steps.length := by
  intro forest
  simp only [addSteps]
  split
  · exact .of_throw _ trivial
  · split
    · exact .of_throw _ trivial
    · exact .of_tryCatch ((grow_takes side content anchor steps forest).imp (fun _ _ h => h)
        fun _ _ _ => .of_throw _ trivial)

end Editing

/-! ## Nothing else is new -/

namespace Forest

variable {before after : Forest} {since : Nat} {spot : Spot} {parent : NodeId} {scope : Scope}
  {new : Element} {id : NodeId}

/-- All identities of a range are in a list that is as long as the range. -/
theorem mem_of_range {ids : List NodeId} {low : Nat} (hn : ids.Nodup)
    (hb : ∀ id ∈ ids, low ≤ id.index ∧ id.index < low + ids.length) (hl : low ≤ id.index)
    (hu : id.index < low + ids.length) : id ∈ ids := by
  have hinj : Function.Injective NodeId.index := fun one other h => by
    cases one
    cases other
    exact congrArg NodeId.mk h
  have hsub : ids.map NodeId.index ⊆ List.range' low ids.length := by
    intro index hm
    obtain ⟨other, ho, rfl⟩ := List.mem_map.mp hm
    exact List.mem_range'_1.mpr (hb other ho)
  have hperm : (ids.map NodeId.index).Perm (List.range' low ids.length) :=
    (List.subperm_of_subset (hn.map hinj) hsub).perm_of_length_le
      (by simp)
  obtain ⟨other, ho, he⟩ := List.mem_map.mp (hperm.mem_iff.mpr (List.mem_range'_1.mpr ⟨hl, hu⟩))
  exact hinj he ▸ ho

theorem IsPlanted.mem_ids_plant (h : IsPlanted since spot parent scope new before after) :
    id ∈ (before.mapContent (Content.plant · spot (.single new none))).ids ↔
      id ∈ before.ids ∨ id ∈ (Content.single new none).ids := by
  obtain ⟨setting, hs, -⟩ := h.anchored
  rw [ids, joined_plant h.sound,
    (Content.ids_plant h.sound.nodup (mem_ids_of_setting? hs)).mem_iff, List.mem_append]
  rfl

/-- The elements that were planted are the new ones, if as many identities were taken. -/
theorem IsPlanted.mem_ids_iff (h : IsPlanted before.next spot parent scope new before after)
    (hx : after.next = before.next + (Content.single new none).ids.length) :
    id ∈ after.ids ↔ id ∈ before.ids ∨ id ∈ (Content.single new none).ids := by
  have hnew {id : NodeId} (hi : id ∈ (Content.single new none).ids) : id ∈ after.ids := by
    obtain ⟨setting, hs⟩ := Content.exists_setting? (some parent) scope hi
    exact mem_ids_of_setting? ((h.setting?_within hi).trans hs)
  constructor
  · intro hi
    by_cases hl : before.next ≤ id.index
    · refine .inr (mem_of_range (Content.nodup_of_setting? h.amends.sound.nodup h.setting?)
        (fun id hm => ⟨h.areNew id hm, ?_⟩) hl ?_)
      · rw [← hx]
        exact h.amends.sound.bounded id (hnew hm)
      · rw [← hx]
        exact h.amends.sound.bounded id hi
    · -- it's not new, so it's in what was there
      obtain ⟨trees, fragments, hc, hn⟩ := h.amends.contents
      obtain ⟨content, hm, hi⟩ := mem_ids.mp hi
      have hold : content ∉ trees ++ fragments := fun hm => hl ((hn content hm).1 id hi)
      refine h.mem_ids_plant.mp ?_
      rw [mem_ids, contents_mapContent, Forest.contents]
      refine ⟨content, ?_, hi⟩
      rw [hc] at hm
      simp only [List.mem_append, List.map_append, List.map_map] at hm hold ⊢
      grind
  · rintro (hi | hi)
    · obtain ⟨setting, hs⟩ := Content.exists_setting? none [] hi
      have hset := h.setting?_of_mem hi
      rw [show before.setting? id = some setting from hs, Option.map_some] at hset
      exact mem_ids_of_setting? hset
    · exact hnew hi

/-- The element is planted and nothing else is added that holds elements. -/
theorem IsPlanted.plantsOnly (h : IsPlanted before.next spot parent scope new before after)
    (hx : after.next = before.next + (Content.single new none).ids.length) :
    (∃ extra, after.trees.map Tree.content =
        before.trees.map (fun tree => tree.content.plant spot (.single new none)) ++ extra ∧
      ∀ content ∈ extra, content.ids = []) ∧
    ∃ extra, after.fragments =
        before.fragments.map (fun fragment =>
          { fragment with content := fragment.content.plant spot (.single new none) }) ++ extra ∧
      ∀ fragment ∈ extra, fragment.content.ids = [] := by
  obtain ⟨trees, ht, -⟩ := h.amends.trees
  obtain ⟨fragments, hf, -⟩ := h.amends.fragments
  obtain ⟨hc, hn⟩ := h.amends.notMem_of_added ht hf
  -- an element in what is added would be one of those that were there or of those that were planted
  have hempty : ∀ content ∈ trees ++ fragments.map Fragment.content, content.ids = [] := by
    intro content hm
    refine List.eq_nil_iff_forall_not_mem.mpr fun id hi => hn content hm id hi ?_
    have hin : id ∈ after.ids := by
      rw [mem_ids, hc]
      refine ⟨content, ?_, hi⟩
      simp only [List.mem_append] at hm ⊢
      exact hm.imp .inr .inr
    exact h.mem_ids_plant.mpr ((h.mem_ids_iff hx).mp hin)
  exact ⟨⟨trees, ht, fun content hm => hempty content (List.mem_append_left _ hm)⟩,
    ⟨fragments, hf, fun fragment hm =>
      hempty _ (List.mem_append_right _ (List.mem_map_of_mem hm))⟩⟩

end Forest
end MarkupPath
