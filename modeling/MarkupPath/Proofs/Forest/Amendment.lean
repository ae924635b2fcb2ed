import MarkupPath.Proofs.Forest.Soundness

/-!
# Amended forests

An edit changes the contents of a forest in one way, and it leaves something behind: trees whose
root was moved away, and fragments. `Forest.Amends since change before after` says that the trees
and fragments that were there before are still there, in their places and changed by `change`,
and that everything beyond them consists of elements that are newer than `since`. With nothing
changed it says that all that was there is there as it was.

Each operation that an edit is made of amends the forest, and amendments are composed.
-/

namespace MarkupPath

namespace Forest

variable {since : Nat} {change further : Content → Content} {before between after : Forest}
  {id node : NodeId}

/-- All elements in a content are newer than a given count of identities. -/
def AreNew (since : Nat) (content : Content) : Prop := ∀ id ∈ content.ids, since ≤ id.index

/-- What was there is changed in one way, and what is added consists of new elements. -/
structure Amends (since : Nat) (change : Content → Content) (before after : Forest) : Prop where
  /-- the trees are still there, and others may be added -/
  trees : ∃ extra, after.trees.map Tree.content =
      before.trees.map (fun tree => change tree.content) ++ extra ∧
    ∀ content ∈ extra, AreNew since content
  /-- the fragments are still there, and others may be added -/
  fragments : ∃ extra, after.fragments =
      before.fragments.map (fun fragment => { fragment with content := change fragment.content }) ++
        extra ∧
    ∀ fragment ∈ extra, AreNew since fragment.content
  /-- identities aren't given away twice -/
  next : before.next ≤ after.next
  /-- the forest is sound -/
  sound : after.IsSound

namespace Amends

theorem refl (h : before.IsSound) (since : Nat) :
    Amends since (fun content => content) before before :=
  ⟨⟨[], by simp, by simp⟩, ⟨[], by simp, by simp⟩, Nat.le_refl _, h⟩

/-- The kind of change matters for what is there only. -/
theorem congr (h : Amends since change before after)
    (hc : ∀ content ∈ before.contents, change content = further content) :
    Amends since further before after := by
  obtain ⟨trees, ht, htn⟩ := h.trees
  obtain ⟨fragments, hf, hfn⟩ := h.fragments
  refine ⟨⟨trees, ?_, htn⟩, ⟨fragments, ?_, hfn⟩, h.next, h.sound⟩
  · rw [ht]
    congr 1
    refine List.map_congr_left fun tree hm => hc _ ?_
    exact List.mem_append_left _ (List.mem_map_of_mem hm)
  · rw [hf]
    congr 1
    apply List.map_congr_left
    intro fragment hm
    rw [hc _ (List.mem_append_right _ (List.mem_map_of_mem hm))]

/-- One amendment after the other, the second of which adds nothing but new elements. -/
theorem trans (h : Amends since change before between) (hf : Amends since further between after)
    (hn : ∀ content, ∀ id ∈ (further content).ids, id ∈ content.ids ∨ since ≤ id.index) :
    Amends since (fun content => further (change content)) before after := by
  obtain ⟨trees, ht, htn⟩ := h.trees
  obtain ⟨fragments, hf', hfn⟩ := h.fragments
  obtain ⟨trees', ht', htn'⟩ := hf.trees
  obtain ⟨fragments', hf'', hfn'⟩ := hf.fragments
  have hnew : ∀ content, AreNew since content → AreNew since (further content) :=
    fun content hc id hi => (hn content id hi).elim (hc id) (fun h => h)
  let amend (fragment : Fragment) : Fragment := { fragment with content := further fragment.content }
  refine ⟨⟨trees.map further ++ trees', ?_, ?_⟩, ⟨fragments.map amend ++ fragments', ?_, ?_⟩,
    Nat.le_trans h.next hf.next, hf.sound⟩
  · have := congrArg (List.map further) ht
    rw [List.map_map, List.map_append, List.map_map] at this
    rw [ht', ← List.append_assoc]
    exact congrArg (· ++ trees') this
  · intro content hm
    rcases List.mem_append.mp hm with hm | hm
    · obtain ⟨former, hfm, rfl⟩ := List.mem_map.mp hm
      exact hnew _ (htn former hfm)
    · exact htn' content hm
  · rw [hf'', hf', List.map_append, List.map_map, List.append_assoc]
    rfl
  · intro fragment hm
    rcases List.mem_append.mp hm with hm | hm
    · obtain ⟨former, hfm, rfl⟩ := List.mem_map.mp hm
      exact hnew _ (hfn former hfm)
    · exact hfn' fragment hm

/-! ## Looking up -/

/-- What is added has nothing in common with what was there. -/
theorem notMem_of_added {trees : List Content} {fragments : List Fragment}
    (h : Amends since change before after)
    (ht : after.trees.map Tree.content = before.trees.map (fun tree => change tree.content) ++ trees)
    (hf : after.fragments =
      before.fragments.map (fun fragment => { fragment with content := change fragment.content }) ++
        fragments) :
    after.contents = before.trees.map (fun tree => change tree.content) ++ trees ++
        (before.fragments.map (fun fragment => change fragment.content) ++
          fragments.map Fragment.content) ∧
      ∀ content ∈ trees ++ fragments.map Fragment.content, ∀ id ∈ content.ids,
        id ∉ (before.mapContent change).ids := by
  have hc : after.contents = before.trees.map (fun tree => change tree.content) ++ trees ++
      (before.fragments.map (fun fragment => change fragment.content) ++
        fragments.map Fragment.content) := by
    rw [Forest.contents, ht, hf, List.map_append, List.map_map]
    rfl
  refine ⟨hc, fun content hm id hi ho => ?_⟩
  have hn := h.sound.nodup
  rw [ids, joined, hc] at hn
  simp only [Content.join_append, Content.ids_append, List.nodup_append, List.mem_append] at hn
  obtain ⟨former, hfm, hof⟩ := mem_ids.mp ho
  rw [contents_mapContent, Forest.contents, List.map_append, List.map_map, List.map_map,
    List.mem_append] at hfm
  have hin : id ∈ (Content.join trees).ids ∨
      id ∈ (Content.join (fragments.map Fragment.content)).ids :=
    (List.mem_append.mp hm).imp (fun hm => Content.mem_ids_join.mpr ⟨content, hm, hi⟩)
      fun hm => Content.mem_ids_join.mpr ⟨content, hm, hi⟩
  have hof : id ∈ (Content.join (before.trees.map fun tree => change tree.content)).ids ∨
      id ∈ (Content.join (before.fragments.map fun fragment => change fragment.content)).ids :=
    hfm.imp (fun hm => Content.mem_ids_join.mpr ⟨former, hm, hof⟩)
      fun hm => Content.mem_ids_join.mpr ⟨former, hm, hof⟩
  grind

/-- The contents that were there, changed, and others that are new and have nothing in common with
them. -/
theorem contents (h : Amends since change before after) :
    ∃ trees fragments : List Content,
      after.contents = before.trees.map (fun tree => change tree.content) ++ trees ++
        (before.fragments.map (fun fragment => change fragment.content) ++ fragments) ∧
      ∀ content ∈ trees ++ fragments, AreNew since content ∧
        ∀ id ∈ content.ids, id ∉ (before.mapContent change).ids := by
  obtain ⟨trees, ht, htn⟩ := h.trees
  obtain ⟨fragments, hf, hfn⟩ := h.fragments
  obtain ⟨hc, hn⟩ := h.notMem_of_added ht hf
  refine ⟨trees, fragments.map Fragment.content, hc, fun content hm => ⟨?_, hn content hm⟩⟩
  rcases List.mem_append.mp hm with hm | hm
  · exact htn content hm
  · obtain ⟨fragment, hfm, rfl⟩ := List.mem_map.mp hm
    exact hfn fragment hfm

/-- Whatever isn't found in what is added is found where it was. -/
theorem findSome? {β : Type} {f : Content → Option β} (h : Amends since change before after)
    (hf : ∀ content, AreNew since content →
      (∀ id ∈ content.ids, id ∉ (before.mapContent change).ids) → f content = none) :
    after.contents.findSome? f = (before.mapContent change).contents.findSome? f := by
  obtain ⟨trees, fragments, hc, hn⟩ := h.contents
  have hnone : ∀ extra ⊆ trees ++ fragments, extra.findSome? f = none := fun extra hs =>
    List.findSome?_eq_none_iff.mpr fun content hm => hf content (hn content (hs hm)).1
      (hn content (hs hm)).2
  rw [hc, contents_mapContent, Forest.contents]
  simp only [List.findSome?_append, List.map_append, List.map_map,
    hnone trees (List.subset_append_left _ _), hnone fragments (List.subset_append_right _ _),
    Option.or_none]
  rfl

theorem setting? (h : Amends since change before after) (hi : id ∈ (before.mapContent change).ids) :
    after.setting? id = (before.mapContent change).setting? id := by
  simp only [Forest.setting?, joined, Content.setting?_join]
  refine h.findSome? fun content _ hn => Content.setting?_eq_none_iff.mpr fun hm => hn id hm hi

theorem position? (h : Amends since change before after)
    (hi : id ∈ (before.mapContent change).ids) :
    after.position? id = (before.mapContent change).position? id := by
  apply h.findSome?
  intro content _ hn
  exact Position.locate_eq_none fun hm => hn id hm hi

end Amends

end Forest
end MarkupPath
