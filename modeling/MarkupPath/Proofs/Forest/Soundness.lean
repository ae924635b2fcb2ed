import MarkupPath.Proofs.Tree.Identities
import MarkupPath.Proofs.Tree.Setting
import MarkupPath.Tree.Creation

/-!
# Sound forests

A forest is sound if its elements have identities of their own, all of which were given away, and no
fragment is empty. The empty forest is sound, and every operation on forests keeps it so. That is
what makes it possible to speak of *the* element with a given identity.

Where it doesn't matter which tree or fragment an element stands in, a forest is looked at as one
content: all contents, one behind the other (`Forest.joined`).
-/

namespace MarkupPath

namespace Content

variable {id : NodeId} {content : Content}

/-! ## Joined contents -/

/-- Contents, one behind the other. -/
def join : List Content → Content
  | [] => nil
  | content :: rest => content ++ join rest

@[simp] theorem join_append (contents more : List Content) :
    join (contents ++ more) = join contents ++ join more := by
  induction contents with
  | nil => rfl
  | cons content rest ih => rw [List.cons_append, join, join, ih, append_assoc]

theorem mem_ids_join {contents : List Content} :
    id ∈ (join contents).ids ↔ ∃ content ∈ contents, id ∈ content.ids := by
  induction contents with
  | nil => simp [join, ids]
  | cons content rest ih => simp [join, ih]

theorem find?_join (contents : List Content) :
    (join contents).find? id = contents.findSome? (find? id) := by
  induction contents with
  | nil => rfl
  | cons content rest ih =>
    rw [join, find?_append, ih, List.findSome?_cons]
    cases content.find? id <;> rfl

theorem setting?_join (contents : List Content) (parent : Option NodeId) (around : Scope) :
    (join contents).setting? id parent around =
      contents.findSome? (setting? id parent around) := by
  induction contents with
  | nil => rfl
  | cons content rest ih =>
    rw [join, setting?_append, ih, List.findSome?_cons]
    cases content.setting? id parent around <;> rfl

/-- If an identity occurs once, it can be replaced in all contents at once. -/
theorem join_map_replace {substitute : Element → Option String → Content}
    {contents : List Content} (hn : (join contents).ids.Nodup) :
    join (contents.map (replace id substitute)) = (join contents).replace id substitute := by
  induction contents with
  | nil => rfl
  | cons content rest ih =>
    rw [join, ids_append, List.nodup_append] at hn
    obtain ⟨-, hr, hd⟩ := hn
    rw [List.map_cons, join, join, ih hr]
    by_cases hi : id ∈ content.ids
    · have hm : id ∉ (join rest).ids := fun hm => hd _ hi _ hm rfl
      rw [replace_append_of_notMem_right hm, replace_of_notMem hm]
    · rw [replace_append_of_notMem_left hi, replace_of_notMem hi]

end Content

namespace Forest

variable {forest : Forest} {id node : NodeId}

/-- All trees and fragments as one content. -/
def joined (forest : Forest) : Content := .join forest.contents

/-- The identities of all elements. -/
def ids (forest : Forest) : List NodeId := forest.joined.ids

/-- How an element is set, wherever it stands. -/
def setting? (forest : Forest) (id : NodeId) : Option Setting :=
  forest.joined.setting? id none []

/-- Elements have identities of their own, and no fragment is empty. -/
structure IsSound (forest : Forest) : Prop where
  /-- no identity is that of two elements -/
  nodup : forest.ids.Nodup
  /-- all identities were given away -/
  bounded : ∀ id ∈ forest.ids, id.index < forest.next
  /-- there's something in each fragment -/
  filled : ∀ fragment ∈ forest.fragments, fragment.content ≠ .nil

/-! ## Looking up -/

theorem mem_ids : id ∈ forest.ids ↔ ∃ content ∈ forest.contents, id ∈ content.ids :=
  Content.mem_ids_join

theorem find?_eq (forest : Forest) (id : NodeId) : forest.find? id = forest.joined.find? id :=
  (Content.find?_join _).symm

theorem setting_position? (forest : Forest) (id : NodeId) :
    (forest.position? id).map Position.setting = forest.setting? id := by
  rw [setting?, joined, Content.setting?_join, position?, List.map_findSome?]
  exact congrArg (List.findSome? · _) (funext (Position.setting_locate id))

theorem scope_eq (forest : Forest) (id : NodeId) :
    forest.scope id = ((forest.setting? id).map Setting.scope).getD [] := by
  rw [← setting_position?, Option.map_map, scope]
  congr 2
  exact funext fun position => position.scope_setting.symm

theorem setting?_of_position? {position : Position} (h : forest.position? id = some position) :
    forest.setting? id = some position.setting := by
  rw [← setting_position?, h, Option.map_some]

theorem exists_position? {setting : Setting} (h : forest.setting? id = some setting) :
    ∃ position, forest.position? id = some position ∧ position.setting = setting := by
  rw [← setting_position?] at h
  exact Option.map_eq_some_iff.mp h

theorem mem_ids_of_setting? {setting : Setting} (h : forest.setting? id = some setting) :
    id ∈ forest.ids :=
  Content.mem_ids_of_setting? h

theorem id_of_setting? {setting : Setting} (h : forest.setting? id = some setting) :
    setting.element.id = id :=
  (Content.element_of_setting? h).1

/-! ## Changes -/

@[simp] theorem contents_mapContent (forest : Forest) (change : Content → Content) :
    (forest.mapContent change).contents = forest.contents.map change := by
  simp [contents, mapContent, Function.comp_def]

@[simp] theorem mapContent_id (forest : Forest) :
    (forest.mapContent fun content => content) = forest := by
  simp [mapContent]

theorem map_content_modify (trees : List Tree) (owner minted : Nat) :
    (trees.modify owner fun tree => { tree with minted }).map Tree.content =
      trees.map Tree.content := by
  induction trees generalizing owner with
  | nil => simp
  | cons tree trees ih =>
    cases owner with
    | zero => simp
    | succ owner => simp [ih]

/-- Only the count of qualifiers changes. -/
theorem setMinted_eq (forest : Forest) (id : NodeId) (minted : Nat) :
    (forest.setMinted id minted).trees.map Tree.content = forest.trees.map Tree.content ∧
      (forest.setMinted id minted).fragments = forest.fragments ∧
      (forest.setMinted id minted).next = forest.next := by
  simp only [setMinted]
  split
  · exact ⟨rfl, rfl, rfl⟩
  · exact ⟨map_content_modify _ _ _, rfl, rfl⟩

@[simp] theorem contents_setMinted (forest : Forest) (id : NodeId) (minted : Nat) :
    (forest.setMinted id minted).contents = forest.contents := by
  obtain ⟨ht, hf, -⟩ := forest.setMinted_eq id minted
  rw [contents, contents, ht, hf]

theorem joined_mapContent {substitute : Element → Option String → Content}
    (hn : forest.ids.Nodup) :
    (forest.mapContent (Content.replace id substitute)).joined =
      forest.joined.replace id substitute := by
  rw [joined, contents_mapContent, Content.join_map_replace hn]
  rfl

theorem join_filter_fragments (fragments : List Fragment) :
    Content.join ((fragments.filter fun fragment => fragment.content != .nil).map
      Fragment.content) = Content.join (fragments.map Fragment.content) := by
  induction fragments with
  | nil => rfl
  | cons fragment rest ih =>
    by_cases hf : fragment.content = .nil
    · rw [List.filter_cons_of_neg (by simp [hf]), ih, List.map_cons, Content.join, hf]
      rfl
    · rw [List.filter_cons_of_pos (by simp [hf]), List.map_cons, List.map_cons, Content.join,
        Content.join, ih]

theorem joined_detach (hn : forest.ids.Nodup) :
    (forest.detach node).joined = forest.joined.remove node := by
  have hm : (forest.mapContent (Content.replace node fun _ _ => .nil)).joined =
      forest.joined.replace node fun _ _ => .nil := joined_mapContent hn
  rw [← funext (Content.remove_eq_replace node)] at hm
  rw [← hm, joined, joined, contents, contents, Content.join_append, Content.join_append, detach,
    join_filter_fragments]

/-! ## Operations -/

theorem IsSound.of_subset {after : Forest} (h : forest.IsSound) (hn : after.ids.Nodup)
    (hs : after.ids ⊆ forest.ids) (hx : forest.next ≤ after.next)
    (hf : ∀ fragment ∈ after.fragments, fragment.content ≠ .nil) : after.IsSound :=
  ⟨hn, fun id hi => Nat.lt_of_lt_of_le (h.bounded id (hs hi)) hx, hf⟩

theorem IsSound.empty : IsSound {} := ⟨.nil, by simp [ids, joined, contents, Content.join,
  Content.ids], by simp⟩

theorem IsSound.setMinted (h : forest.IsSound) (id : NodeId) (minted : Nat) :
    (forest.setMinted id minted).IsSound := by
  obtain ⟨-, hf, hx⟩ := forest.setMinted_eq id minted
  have hi : (forest.setMinted id minted).ids = forest.ids := by
    rw [ids, joined, contents_setMinted]
    rfl
  exact h.of_subset (hi ▸ h.nodup) (by rw [hi]; exact List.Subset.refl _) (Nat.le_of_eq hx.symm)
    (by rw [hf]; exact h.filled)

theorem IsSound.addTree (h : forest.IsSound) (content : Content) (minted : Nat) :
    (forest.addTree content minted).IsSound := by
  have hi : (forest.addTree content minted).ids.Perm
      (forest.ids ++ (List.range' forest.next content.size).map NodeId.mk) := by
    rw [ids, ids, joined, joined, contents, contents, Forest.addTree]
    simp only [List.map_append, Content.join_append, Content.ids_append, List.map_cons,
      List.map_nil, Content.join, Content.append_nil, Content.ids_renumber]
    rw [List.append_assoc, List.append_assoc]
    exact List.perm_append_comm.append_left _
  have hnew : ∀ id ∈ (List.range' forest.next content.size).map NodeId.mk,
      forest.next ≤ id.index ∧ id.index < forest.next + content.size := by
    intro id hm
    obtain ⟨index, hr, rfl⟩ := List.mem_map.mp hm
    exact List.mem_range'_1.mp hr
  refine ⟨hi.nodup_iff.mpr (List.nodup_append.mpr ⟨h.nodup, ?_, ?_⟩), fun id hm => ?_, h.filled⟩
  · exact List.Pairwise.map _ (fun _ _ hne he => hne (NodeId.mk.inj he)) List.nodup_range'
  · rintro id hid other hother rfl
    have := h.bounded id hid
    have := hnew id hother
    omega
  · change id.index < forest.next + content.size
    rcases List.mem_append.mp (hi.mem_iff.mp hm) with hm | hm
    · have := h.bounded id hm
      omega
    · exact (hnew id hm).2

theorem IsSound.mapTag {change : Tag → Tag} (h : forest.IsSound)
    (hc : ∀ tag, (change tag).id = tag.id) :
    (forest.mapContent (Content.mapTag id change)).IsSound := by
  have hi : (forest.mapContent (Content.mapTag id change)).ids = forest.ids := by
    rw [ids, funext (Content.mapTag_eq_replace id change), joined_mapContent h.nodup,
      ← Content.mapTag_eq_replace, Content.ids_mapTag hc]
    rfl
  refine h.of_subset (hi ▸ h.nodup) (by rw [hi]; exact List.Subset.refl _) (Nat.le_refl _) ?_
  intro fragment hm
  obtain ⟨former, hf, rfl⟩ := List.mem_map.mp hm
  exact Content.mapTag_ne_nil (h.filled former hf)

theorem IsSound.detach (h : forest.IsSound) (node : NodeId) : (forest.detach node).IsSound := by
  have hs : (forest.detach node).ids.Sublist forest.ids := by
    rw [ids, joined_detach h.nodup]
    exact Content.ids_remove_sublist _ _
  apply h.of_subset (hs.nodup h.nodup) hs.subset (Nat.le_refl _)
  intro fragment hm
  simpa using (List.mem_filter.mp hm).2

theorem IsSound.plant {spot : Spot} {piece : Content} (h : forest.IsSound)
    (hp : piece.ids.Nodup) (hd : ∀ id ∈ piece.ids, id ∉ forest.ids ∧ id.index < forest.next) :
    (forest.mapContent (Content.plant · spot piece)).IsSound := by
  have hj : (forest.mapContent (Content.plant · spot piece)).joined =
      forest.joined.plant spot piece := joined_mapContent h.nodup
  refine ⟨?_, fun id hm => ?_, fun fragment hm => ?_⟩
  · rw [ids, hj]
    by_cases ha : spot.anchor ∈ forest.joined.ids
    · rw [(Content.ids_plant h.nodup ha).nodup_iff, List.nodup_append]
      refine ⟨h.nodup, hp, ?_⟩
      rintro id hi other ho rfl
      exact (hd id ho).1 hi
    · rw [Content.plant_of_notMem ha]
      exact h.nodup
  · rw [ids, hj] at hm
    rcases Content.mem_of_mem_ids_plant hm with hm | hm
    · exact h.bounded id hm
    · exact (hd id hm).2
  · obtain ⟨former, hf, rfl⟩ := List.mem_map.mp hm
    exact Content.plant_ne_nil (h.filled former hf)

/-- An element that is found leaves no trace when it's taken away. -/
theorem IsSound.notMem_detach {found : Element} {tail : Option String} (h : forest.IsSound)
    (hf : forest.find? node = some (found, tail)) :
    (Content.single found tail).ids.Nodup ∧ ∀ id ∈ (Content.single found tail).ids,
      id ∉ (forest.detach node).ids ∧ id.index < forest.next := by
  rw [find?_eq] at hf
  have hp := Content.ids_remove h.nodup hf
  have hn := hp.nodup_iff.mp h.nodup
  rw [← Content.ids_single found tail, List.nodup_append] at hn
  refine ⟨hn.2.1, fun id hi => ⟨fun hm => ?_, h.bounded id (hp.mem_iff.mpr ?_)⟩⟩
  · rw [ids, joined_detach h.nodup] at hm
    exact hn.2.2 id hm id hi rfl
  · rw [← Content.ids_single found tail]
    exact List.mem_append_right _ hi

/-- What it takes to move an element, and what becomes of the forest. -/
theorem move_eq_some {parent : NodeId} {place : Element → Option String → Content → Content}
    {after : Forest} (hm : forest.move parent node place = some after) :
    ∃ position found tail, forest.position? parent = some position ∧
      forest.find? node = some (found, tail) ∧ node ∉ position.lineage ∧
      after = ((forest.detach node).mapContent
        (place (found.rebind position.scope (forest.minted parent)).1 tail)).setMinted parent
          (found.rebind position.scope (forest.minted parent)).2 := by
  simp only [Forest.move] at hm
  cases hp : forest.position? parent with
  | none => simp [hp] at hm
  | some position =>
    cases hf : forest.find? node with
    | none => simp [hp, hf] at hm
    | some found =>
      obtain ⟨found, tail⟩ := found
      by_cases hl : position.lineage.contains node = true
      · simp only [hp, hf, hl, if_true] at hm
        cases hm
      · simp only [hp, hf, hl] at hm
        exact ⟨position, found, tail, rfl, rfl, fun hn => hl (List.elem_eq_true_of_mem hn),
          (Option.some.inj hm).symm⟩

theorem IsSound.move {parent : NodeId} {spot : Spot}
    {place : Element → Option String → Content → Content} {after : Forest} (h : forest.IsSound)
    (hp : ∀ new tail content, place new tail content = content.plant spot (.single new tail))
    (hm : forest.move parent node place = some after) : after.IsSound := by
  obtain ⟨position, found, tail, -, hf, -, rfl⟩ := move_eq_some hm
  obtain ⟨hn, hd⟩ := h.notMem_detach hf
  rw [← Content.ids_rebind position.scope (forest.minted parent)] at hn hd
  rw [funext (hp _ tail)]
  exact ((h.detach node).plant hn hd).setMinted _ _

theorem IsSound.insertFirst {parent : NodeId} {after : Forest} (h : forest.IsSound)
    (hi : forest.insertFirst parent node = some after) : after.IsSound :=
  h.move (Content.insertFirst_eq_plant parent) hi

/-- What it takes to put an element behind a reference: the reference has a parent. Nothing changes
if the element itself is the reference. -/
theorem insertAfter_eq_some {parent reference : NodeId} {after : Forest}
    (hi : forest.insertAfter parent reference node = some after) :
    ∃ position, (forest.position? reference).bind Position.parent? = some position ∧
      (after = forest ∨
        forest.move parent node (Content.insertAfter reference) = some after) := by
  simp only [Forest.insertAfter] at hi
  split at hi
  · cases hi
  · rename_i position hp
    refine ⟨position, hp, ?_⟩
    split at hi
    · cases hi
    · split at hi
      · cases hi
        exact .inl rfl
      · exact .inr hi

theorem IsSound.insertAfter {parent reference : NodeId} {after : Forest} (h : forest.IsSound)
    (hi : forest.insertAfter parent reference node = some after) : after.IsSound := by
  obtain ⟨position, -, rfl | hm⟩ := insertAfter_eq_some hi
  · exact h
  · exact h.move (Content.insertAfter_eq_plant reference) hm

theorem IsSound.addFragment {owner : Nat} {element : Element} {tail : Option String}
    (h : forest.IsSound) (hn : (Content.single element tail).ids.Nodup)
    (hd : ∀ id ∈ (Content.single element tail).ids, id ∉ forest.ids ∧ id.index < forest.next) :
    IsSound { forest with
      fragments := forest.fragments ++ [⟨owner, .single element tail⟩] } := by
  generalize he : Content.single element tail = content at *
  have hi : ids { forest with fragments := forest.fragments ++ [⟨owner, content⟩] } =
      forest.ids ++ content.ids := by
    simp [ids, joined, contents, Content.join]
  refine ⟨?_, fun id hm => ?_, fun fragment hm => ?_⟩
  · rw [hi, List.nodup_append]
    refine ⟨h.nodup, hn, ?_⟩
    rintro id hid other ho rfl
    exact (hd id ho).1 hid
  · rcases List.mem_append.mp (hi ▸ hm) with hm | hm
    · exact h.bounded id hm
    · exact (hd id hm).2
  · rcases List.mem_append.mp hm with hm | hm
    · exact h.filled fragment hm
    · obtain rfl := List.mem_singleton.mp hm
      rw [← he]
      simp [Content.single]

theorem IsSound.delete (h : forest.IsSound) (node : NodeId) : (forest.delete node).IsSound := by
  simp only [Forest.delete]
  split
  · rename_i position found tail owner _ hf _
    obtain ⟨hn, hd⟩ := h.notMem_detach hf
    rw [← Content.ids_rebind [] (forest.minted node)] at hn hd
    generalize found.rebind [] (forest.minted node) = moved at hn hd ⊢
    have hs := (h.setMinted node moved.2).detach node
    have hj : ((forest.setMinted node moved.2).detach node).ids = (forest.detach node).ids := by
      rw [ids, ids, joined_detach (h.setMinted node moved.2).nodup, joined_detach h.nodup, joined,
        joined, contents_setMinted]
    have hx : ((forest.setMinted node moved.2).detach node).next = forest.next :=
      (forest.setMinted_eq _ _).2.2
    rw [← hj, ← hx] at hd
    exact hs.addFragment hn hd
  · exact h

/-- A new element is the root of a tree of its own. -/
theorem create_eq_ok {context : NodeId} {name : String} {after : Forest} :
    forest.create context name = .ok (node, after) ↔
      ∃ tag minted, newTag (forest.scope context) name = .ok (tag, minted) ∧
        node = ⟨forest.next⟩ ∧ after = forest.addTree (.single ⟨tag, .nil⟩ none) minted := by
  simp only [Forest.create]
  cases newTag (forest.scope context) name with
  | error failure => simp
  | ok made =>
    obtain ⟨tag, minted⟩ := made
    simp only [Except.ok.injEq, Prod.mk.injEq]
    constructor
    · rintro ⟨rfl, rfl⟩
      exact ⟨tag, minted, ⟨rfl, rfl⟩, rfl, rfl⟩
    · rintro ⟨tag', minted', ⟨rfl, rfl⟩, rfl, rfl⟩
      exact ⟨rfl, rfl⟩

theorem IsSound.create {context : NodeId} {name : String} {after : Forest} (h : forest.IsSound)
    (hc : forest.create context name = .ok (node, after)) : after.IsSound := by
  obtain ⟨tag, minted, -, -, rfl⟩ := create_eq_ok.mp hc
  exact h.addTree _ _

end Forest
end MarkupPath
