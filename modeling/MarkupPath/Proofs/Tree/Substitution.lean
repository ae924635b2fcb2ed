import MarkupPath.Tree.Content

/-!
# Substitution in contents

All changes of a content are of one kind: something is put in the place of the element with a given
identity. `Content.replace` does that. Giving an element another tag, removing it and planting
something at a `Spot` are cases of it, so what they have in common is said once: where the
identity doesn't occur nothing changes, and what happens within a planted piece doesn't depend on
where the piece was planted (`plant_replace`).
-/

namespace MarkupPath

namespace Content

variable {id : NodeId} {content : Content}

/-! ## One content behind another one -/

/-- One content behind another one. -/
protected def append : Content → Content → Content
  | nil, more => more
  | element tag children tail rest, more => element tag children tail (rest.append more)
  | comment text tail rest, more => comment text tail (rest.append more)
  | instruction target data tail rest, more => instruction target data tail (rest.append more)

instance : Append Content := ⟨Content.append⟩

@[simp] theorem nil_append (more : Content) : nil ++ more = more := rfl

@[simp] theorem element_append (tag : Tag) (children : Content) (tail : Option String)
    (rest more : Content) :
    element tag children tail rest ++ more = element tag children tail (rest ++ more) := rfl

@[simp] theorem comment_append (text : String) (tail : Option String) (rest more : Content) :
    comment text tail rest ++ more = comment text tail (rest ++ more) := rfl

@[simp] theorem instruction_append (target : String) (data tail : Option String)
    (rest more : Content) :
    instruction target data tail rest ++ more = instruction target data tail (rest ++ more) := rfl

@[simp] theorem append_nil (content : Content) : content ++ nil = content := by
  induction content with
  | nil => rfl
  | element tag children tail rest _ ih => rw [element_append, ih]
  | comment text tail rest ih => rw [comment_append, ih]
  | instruction target data tail rest ih => rw [instruction_append, ih]

theorem append_assoc (content more others : Content) :
    content ++ more ++ others = content ++ (more ++ others) := by
  induction content with
  | nil => rfl
  | element tag children tail rest _ ih => simp only [element_append, ih]
  | comment text tail rest ih => simp only [comment_append, ih]
  | instruction target data tail rest ih => simp only [instruction_append, ih]

@[simp] theorem ids_append (content more : Content) :
    (content ++ more).ids = content.ids ++ more.ids := by
  induction content with
  | nil => rfl
  | element tag children tail rest _ ih => simp [ids, ih]
  | comment text tail rest ih => simpa [ids] using ih
  | instruction target data tail rest ih => simpa [ids] using ih

/-- An element with its tail and nothing else. -/
def single (element : Element) (tail : Option String) : Content :=
  .element element.tag element.content tail nil

@[simp] theorem ids_single (element : Element) (tail : Option String) :
    (single element tail).ids = element.id :: element.content.ids := by
  simp [single, ids, Element.id]

/-! ## Finding -/

/-- Exactly the elements that occur are found. -/
theorem find?_eq_none_iff : content.find? id = none ↔ id ∉ content.ids := by
  induction content with
  | nil => simp [find?, ids]
  | element tag children tail rest ihc ihr =>
    rw [find?, ids]
    split
    · rename_i ht
      simp [ht]
    · rename_i ht
      simp [Ne.symm ht, ihc, ihr]
  | comment text tail rest ih => exact ih
  | instruction target data tail rest ih => exact ih

theorem exists_find? (h : id ∈ content.ids) :
    ∃ found tail, content.find? id = some (found, tail) := by
  cases hf : content.find? id with
  | none => exact absurd h (find?_eq_none_iff.mp hf)
  | some found => exact ⟨found.1, found.2, rfl⟩

theorem find?_append (content more : Content) :
    (content ++ more).find? id = (content.find? id).or (more.find? id) := by
  induction content with
  | nil => rfl
  | element tag children tail rest _ ih =>
    rw [element_append, find?, find?]
    split
    · rfl
    · rw [ih, Option.or_assoc]
  | comment text tail rest ih => exact ih
  | instruction target data tail rest ih => exact ih

/-! ## Replacing -/

/-- Puts something in the place of the element with the given identity and its tail. -/
def replace (id : NodeId) (substitute : Element → Option String → Content) : Content → Content
  | nil => nil
  | element tag children tail rest =>
    if tag.id = id then substitute ⟨tag, children⟩ tail ++ rest
    else element tag (children.replace id substitute) tail (rest.replace id substitute)
  | comment text tail rest => comment text tail (rest.replace id substitute)
  | instruction target data tail rest =>
    instruction target data tail (rest.replace id substitute)

variable {substitute : Element → Option String → Content}

theorem replace_of_notMem (h : id ∉ content.ids) : content.replace id substitute = content := by
  induction content with
  | nil => rfl
  | element tag children tail rest ihc ihr =>
    simp only [ids, List.mem_cons, List.mem_append, not_or] at h
    rw [replace, if_neg (Ne.symm h.1), ihc h.2.1, ihr h.2.2]
  | comment text tail rest ih => rw [replace, ih h]
  | instruction target data tail rest ih => rw [replace, ih h]

theorem replace_append_of_notMem_left {more : Content} (h : id ∉ content.ids) :
    (content ++ more).replace id substitute = content ++ more.replace id substitute := by
  induction content with
  | nil => rfl
  | element tag children tail rest _ ih =>
    simp only [ids, List.mem_cons, List.mem_append, not_or] at h
    rw [element_append, replace, if_neg (Ne.symm h.1), ih h.2.2, replace_of_notMem h.2.1]
    rfl
  | comment text tail rest ih => rw [comment_append, replace, ih h]; rfl
  | instruction target data tail rest ih => rw [instruction_append, replace, ih h]; rfl

theorem replace_append_of_notMem_right {more : Content} (h : id ∉ more.ids) :
    (content ++ more).replace id substitute = content.replace id substitute ++ more := by
  induction content with
  | nil => exact replace_of_notMem h
  | element tag children tail rest _ ih =>
    rw [element_append, replace, replace]
    split
    · rw [append_assoc]
    · rw [ih, element_append]
  | comment text tail rest ih => rw [comment_append, replace, ih]; rfl
  | instruction target data tail rest ih => rw [instruction_append, replace, ih]; rfl

theorem replace_single (found : Element) (tail : Option String) :
    (single found tail).replace found.id substitute = substitute found tail := by
  have hi : found.tag.id = found.id := rfl
  rw [single, replace, if_pos hi]
  exact append_nil _

theorem remove_eq_replace (id : NodeId) (content : Content) :
    content.remove id = content.replace id fun _ _ => nil := by
  induction content with
  | nil => rfl
  | element tag children tail rest ihc ihr => rw [remove, replace, ihc, ihr]; rfl
  | comment text tail rest ih => rw [remove, replace, ih]
  | instruction target data tail rest ih => rw [remove, replace, ih]

theorem mapTag_eq_replace (id : NodeId) (change : Tag → Tag) (content : Content) :
    content.mapTag id change =
      content.replace id fun found tail => single ⟨change found.tag, found.content⟩ tail := by
  induction content with
  | nil => rfl
  | element tag children tail rest ihc ihr => rw [mapTag, replace, ihc, ihr]; rfl
  | comment text tail rest ih => rw [mapTag, replace, ih]
  | instruction target data tail rest ih => rw [mapTag, replace, ih]

/-- One change of a tag after the other. -/
theorem mapTag_mapTag {change further : Tag → Tag} (h : ∀ tag, (change tag).id = tag.id) :
    (content.mapTag id change).mapTag id further =
      content.mapTag id fun tag => further (change tag) := by
  induction content with
  | nil => rfl
  | element tag children tail rest ihc ihr =>
    rw [mapTag, mapTag]
    split
    · rename_i ht
      rw [mapTag, h, if_pos ht]
    · rename_i ht
      rw [mapTag, if_neg ht, ihc, ihr]
  | comment text tail rest ih => rw [mapTag, mapTag, mapTag, ih]
  | instruction target data tail rest ih => rw [mapTag, mapTag, mapTag, ih]

/-- Something else is in the place of an element, and all the others are still there. -/
theorem ids_replace {found : Element} {tail : Option String} (hn : content.ids.Nodup)
    (h : content.find? id = some (found, tail)) :
    (content.replace id substitute).ids.Perm
      ((content.remove id).ids ++ (substitute found tail).ids) := by
  induction content with
  | nil => cases h
  | element tag children tail' rest ihc ihr =>
    rw [ids, List.nodup_cons, List.nodup_append] at hn
    obtain ⟨-, hc, hr, hd⟩ := hn
    rw [find?] at h
    rw [replace, remove]
    split
    · rename_i ht
      rw [if_pos ht] at h
      cases h
      rw [ids_append]
      exact List.perm_append_comm
    · rename_i ht
      rw [if_neg ht] at h
      rcases Option.or_eq_some_iff.mp h with hf | ⟨hf, hf'⟩
      · have hm : id ∈ children.ids := by
          apply Decidable.not_not.mp
          intro hn
          rw [find?_eq_none_iff.mpr hn] at hf
          cases hf
        have hm' : id ∉ rest.ids := fun hi => hd _ hm _ hi rfl
        rw [replace_of_notMem hm', remove_of_notMem hm', ids, ids, List.cons_append,
          List.append_assoc]
        refine .cons _ (((ihc hc hf).append_right _).trans ?_)
        rw [List.append_assoc]
        exact List.perm_append_comm.append_left _
      · have hm : id ∉ children.ids := find?_eq_none_iff.mp hf
        rw [replace_of_notMem hm, remove_of_notMem hm, ids, ids, List.cons_append,
          List.append_assoc]
        exact .cons _ ((ihr hr hf').append_left _)
  | comment text tail' rest ih => exact ih hn h
  | instruction target data tail' rest ih => exact ih hn h

/-- An element that is put in its own place changes nothing. -/
theorem replace_self (id : NodeId) (content : Content) : content.replace id single = content := by
  induction content with
  | nil => rfl
  | element tag children tail rest ihc ihr =>
    rw [replace, ihc, ihr]
    split <;> rfl
  | comment text tail rest ih => rw [replace, ih]
  | instruction target data tail rest ih => rw [replace, ih]

/-- An element and all that it contains are taken away with it. -/
theorem ids_remove {found : Element} {tail : Option String} (hn : content.ids.Nodup)
    (h : content.find? id = some (found, tail)) :
    content.ids.Perm ((content.remove id).ids ++ found.id :: found.content.ids) := by
  have : (content.replace id single).ids.Perm _ := ids_replace hn h
  rwa [replace_self, ids_single] at this

end Content
end MarkupPath
