import MarkupPath.Proofs.Editing.Growth

/-!
# Failed additions

The four ways to add nodes (`Addition`) either succeed or leave all trees as they were. Main
statement: `Addition.restores`. It doesn't matter at which call an addition fails, nor why: because
its path can't be compiled, a node can't be created, the access refuses an insertion, or an
attribute or the text can't be set. What a failed addition leaves behind are nodes that it has
created itself, outside of all trees that were there.
-/

namespace MarkupPath

/-- The ways to add nodes. -/
inductive Addition where
  /-- a branch behind the children of a node -/
  | append (parent : Option NodeId) (expression : String)
  /-- a branch in front of the children of a node -/
  | prepend (parent : Option NodeId) (expression : String)
  /-- a branch behind the children of a node, unless its path selects a node -/
  | fetchOrCreate (parent : Option NodeId) (expression : String)
  /-- a node behind another one -/
  | insertNext (sibling : Option NodeId) (name : String)
deriving DecidableEq, Repr

/-- The edit that adds nodes. -/
def Addition.editing (mode : EmptyPath) (content : NodeContent) : Addition → Editing NodeId
  | append parent expression => .append parent expression mode content
  | prepend parent expression => .prepend parent expression mode content
  | fetchOrCreate parent expression => .fetchOrCreate parent expression mode content
  | insertNext sibling name => .insertNext sibling name content

/-- All nodes of a forest are in a later one as they were: with the same names, attributes, texts
and tails, in the same order. There may be others, outside of the trees and fragments that were
there. -/
structure Forest.IsKeptIn (before after : Forest) : Prop where
  /-- the trees are the same ones -/
  trees : ∃ others, after.trees.map Tree.content = before.trees.map Tree.content ++ others
  /-- the fragments are the same ones -/
  fragments : ∃ others, after.fragments = before.fragments ++ others
  /-- each element is where it was -/
  position : ∀ id ∈ before.ids, after.position? id = before.position? id
  /-- all other elements are new -/
  others : ∀ id ∈ after.ids, id ∈ before.ids ∨ before.next ≤ id.index

namespace Forest

variable {before after : Forest}

theorem Amends.isKeptIn (h : Amends before.next (fun content => content) before after) :
    before.IsKeptIn after := by
  obtain ⟨trees, ht, -⟩ := h.trees
  obtain ⟨fragments, hf, -⟩ := h.fragments
  refine ⟨⟨trees, ht⟩, ⟨fragments, by simpa using hf⟩, fun id hi => ?_, fun id hi => ?_⟩
  · rw [h.position? (by rwa [mapContent_id]), mapContent_id]
  · obtain ⟨added, others, hc, hn⟩ := h.contents
    obtain ⟨content, hm, hi⟩ := mem_ids.mp hi
    rw [hc] at hm
    simp only [List.mem_append] at hm hn
    rcases hm with (hm | hm) | hm | hm
    · exact .inl (mem_ids.mpr ⟨content, List.mem_append_left _ hm, hi⟩)
    · exact .inr ((hn content (.inl hm)).1 id hi)
    · exact .inl (mem_ids.mpr ⟨content, List.mem_append_right _ hm, hi⟩)
    · exact .inr ((hn content (.inr hm)).1 id hi)

end Forest

namespace Editing

open Forest

variable {since : Nat} {forest : Forest} {side : Side} {content : NodeContent}
  {expression : String} {mode : EmptyPath}

theorem originOf_ends {good : Option Origin → Forest → Prop} {bad : Error → Forest → Prop}
    {node : Option NodeId} (h : ∀ origin, good origin forest) :
    (originOf node).Ends forest good bad := by
  cases node with
  | none => exact .of_pure _ (h none)
  | some node => exact .of_origin? fun _ _ => h _

/-- Compiling a path changes nothing. -/
theorem compilePath_ends (node : Option NodeId) :
    (compilePath node expression mode).Ends forest (fun _ after => after = forest)
      fun _ after => after = forest :=
  .bind (originOf_ends fun _ => .of_read (fun _ _ => rfl) fun _ _ => rfl)

/-- Searching changes nothing. -/
theorem findFirst_ends (node : Option NodeId) :
    (findFirst node expression mode).Ends forest (fun _ after => after = forest)
      fun _ after => after = forest :=
  .bind (.bind (originOf_ends fun _ =>
    .of_read (fun _ _ => .of_pure _ rfl) fun _ _ => rfl))

/-- Steps that nodes can be made for become a branch, or all is as it was. -/
theorem addSteps_ends (h : forest.IsSound) (hs : since ≤ forest.next) (anchor : NodeId)
    (steps : List Step) :
    (addSteps side expression content anchor steps).Ends forest
      (fun node after => ∃ position element inner, forest.position? anchor = some position ∧
        IsBranch content position.scope steps element node inner ∧
        IsPlanted since (side.spot position) anchor position.scope element forest after)
      fun _ after => Amends since (fun content => content) forest after := by
  simp only [addSteps]
  cases steps with
  | nil => exact .of_throw _ (.refl h since)
  | cons step steps =>
    rw [if_neg (by simp)]
    split
    · exact .of_throw _ (.refl h since)
    · exact .of_tryCatch ((grow_ends h hs step steps).imp (fun _ _ h => h)
        fun _ _ h => .of_throw _ h)

theorem addBranch_ends (h : forest.IsSound) (hs : since ≤ forest.next) (parent : Option NodeId) :
    (addBranch side parent expression mode content).Ends forest
      (fun _ after => ∃ spot above scope new, IsPlanted since spot above scope new forest after)
      fun _ after => Amends since (fun content => content) forest after := by
  refine .bind ((compilePath_ends parent).imp ?_ fun _ _ he => he ▸ .refl h since)
  rintro path after rfl
  split
  · exact .of_throw _ (.refl h since)
  · refine (addSteps_ends h hs _ _).imp ?_ fun _ _ h => h
    rintro _ after ⟨_, _, _, _, _, hplanted⟩
    exact ⟨_, _, _, _, hplanted⟩

/-- A node becomes the next sibling of another one, or all is as it was. -/
theorem insertNext_ends (h : forest.IsSound) (hs : since ≤ forest.next)
    (sibling : Option NodeId) (name : String) :
    (insertNext sibling name content).Ends forest
      (fun node after => ∃ (reference above : NodeId) (position : Position) (raw tag : Tag),
        sibling = some reference ∧ forest.position? above = some position ∧ tag.id = node ∧
        raw.IsNew position.scope name ∧ raw.Receives position.scope content tag ∧
        IsPlanted since (.behind reference) above position.scope ⟨tag, .nil⟩ forest after)
      fun _ after => Amends since (fun content => content) forest after := by
  cases sibling with
  | none => exact .of_throw _ (.refl h since)
  | some reference =>
    refine .bind (.of_readAt (fun _ => .of_throw _ (.refl h since)) (fun position above _ _ => ?_)
      fun _ _ _ ho => by cases ho)
    cases above with
    | none => exact .of_throw _ (.refl h since)
    | some above =>
      refine .bind (.of_createNode (fun node between hc => ?_) fun _ => .refl h since)
      refine .bind (.of_undoing (.bind (.of_insert (fun after hi => ?_)
        (.of_throw _ (delete_created h hs hc)))))
      obtain ⟨position, tag, hposition, rfl, hnew, hplanted⟩ := planted_of_insertAfter h hs hc hi
      refine (setContent_ends since hplanted.amends.sound hplanted.setting?
        content).imp ?_ ?_
      · rintro _ last ⟨change, hi, hreceives, hchange⟩
        exact .of_pure _ ⟨reference, above, position, tag, change tag, rfl, hposition, hi tag, hnew,
          hreceives, hplanted.mapTag hi hchange⟩
      · rintro _ last ⟨change, hi, hchange⟩
        have := (hplanted.mapTag hi hchange).delete
        rwa [show Element.id ⟨change tag, .nil⟩ = tag.id from hi tag] at this

end Editing

open Editing in
/-- An addition plants an element, or nothing if it finds what it's asked for. One that fails amends
nothing. -/
theorem Addition.ends {since : Nat} {forest : Forest} (h : forest.IsSound)
    (hs : since ≤ forest.next) (mode : EmptyPath) (content : NodeContent) (addition : Addition) :
    (addition.editing mode content).Ends forest
      (fun _ after => after = forest ∨
        ∃ spot above scope new, Forest.IsPlanted since spot above scope new forest after)
      fun _ after => Forest.Amends since (fun content => content) forest after := by
  cases addition with
  | append parent expression =>
    exact (addBranch_ends h hs parent).imp (fun _ _ h => .inr h) fun _ _ h => h
  | prepend parent expression =>
    exact (addBranch_ends h hs parent).imp (fun _ _ h => .inr h) fun _ _ h => h
  | fetchOrCreate parent expression =>
    refine .bind ((findFirst_ends parent).imp ?_ fun _ _ he => he ▸ .refl h since)
    rintro (_ | found) after rfl
    · exact (addBranch_ends h hs parent).imp (fun _ _ h => .inr h) fun _ _ h => h
    · exact .of_pure _ (.inl rfl)
  | insertNext sibling name =>
    refine (insertNext_ends h hs sibling name).imp ?_ fun _ _ h => h
    rintro _ after ⟨_, _, _, _, _, _, _, _, _, _, hplanted⟩
    exact .inr ⟨_, _, _, _, hplanted⟩

/-- An addition that fails leaves all trees as they were. -/
theorem Addition.restores {addition : Addition} {mode : EmptyPath} {content : NodeContent}
    {before after : Workspace} {error : Error} (h : before.forest.IsSound)
    (hr : (addition.editing mode content).run before = (.error error, after)) :
    before.forest.IsKeptIn after.forest :=
  ((addition.ends h (Nat.le_refl _) mode content).bad_of_run hr).isKeptIn

/-- A node with a comment and a text behind it, accessed in a way that refuses the third insertion.
-/
def refusingWorkspace : Workspace where
  forest := {
    trees := [⟨.element { id := ⟨0⟩, name := { localPart := "r" }, text := "leading" }
      (.element { id := ⟨1⟩, name := { localPart := "a" } } .nil "behind" (.comment "last" none .nil))
      none .nil, 0⟩]
    next := 2 }
  access := { restraint := .refusesInsertion 3 }

/-- The branch that is refused at its third node. -/
def refusedAddition : Addition := .append (some ⟨0⟩) "b[@k='v']/c/d"

theorem restores_refusingWorkspace :
    refusingWorkspace.forest.IsSound ∧ ∃ error after,
      (refusedAddition.editing .self {}).run refusingWorkspace = (.error error, after) ∧
        refusingWorkspace.forest.IsKeptIn after.forest := by
  have h : refusingWorkspace.forest.IsSound := ⟨by decide, by decide, by decide⟩
  have hf : ((refusedAddition.editing .self {}).run refusingWorkspace).1.isOk = false := by
    decide +kernel
  cases hr : (refusedAddition.editing .self {}).run refusingWorkspace with
  | mk outcome after =>
    cases outcome with
    | ok node =>
      rw [hr] at hf
      cases hf
    | error error => exact ⟨h, error, after, rfl, Addition.restores h hr⟩

end MarkupPath
