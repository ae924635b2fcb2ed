import MarkupPath.Proofs.Tree.Spot
import MarkupPath.Tree.Position

/-!
# Where elements are set

What of the place of an element matters for its names is its parent and the declarations around
it. `Content.setting?` looks that up, with the element, without the siblings that a `Position`
keeps. Planting a piece leaves the settings of all other elements as they are, except that it's seen
within those that contain the spot; and the piece itself is set as if it stood alone where the
spot is.
-/

namespace MarkupPath

/-- An element with its parent and the declarations in effect around it. -/
structure Setting where
  /-- the parent, if there's one -/
  parent : Option NodeId
  /-- the declarations around the element -/
  around : Scope
  /-- the element -/
  element : Element
deriving DecidableEq, Repr

/-- The declarations in effect for the element. -/
def Setting.scope (setting : Setting) : Scope := setting.element.tag.declarations ++ setting.around

/-- An element in which a piece is planted, if the spot is within it. -/
def Element.plant (element : Element) (spot : Spot) (piece : Content) : Element :=
  ⟨element.tag,
    if spot = .inFront element.id then piece ++ element.content
    else element.content.plant spot piece⟩

/-- A setting after a piece was planted. -/
def Setting.plant (setting : Setting) (spot : Spot) (piece : Content) : Setting :=
  { setting with element := setting.element.plant spot piece }

@[simp] theorem Setting.scope_plant (setting : Setting) (spot : Spot) (piece : Content) :
    (setting.plant spot piece).scope = setting.scope := rfl

theorem Setting.plant_of_notMem {setting : Setting} {spot : Spot} {piece : Content}
    (hs : spot.anchor ≠ setting.element.id) (h : spot.anchor ∉ setting.element.content.ids) :
    setting.plant spot piece = setting := by
  have hne : spot ≠ .inFront setting.element.id := by
    rintro rfl
    exact hs rfl
  simp only [Setting.plant, Element.plant]
  rw [if_neg hne, Content.plant_of_notMem h]

/-- The parent of what is planted at a spot, given how the spot's element is set. -/
def Spot.parent (setting : Setting) : Spot → Option NodeId
  | inFront _ => some setting.element.id
  | behind _ => setting.parent

/-- The declarations around what is planted at a spot, given how the spot's element is set. -/
def Spot.around (setting : Setting) : Spot → Scope
  | inFront _ => setting.scope
  | behind _ => setting.around

namespace Content

variable {id : NodeId} {parent : Option NodeId} {around : Scope} {content : Content}

/-- How the element with the given identity is set in a content that stands below `parent`. -/
def setting? (id : NodeId) (parent : Option NodeId) (around : Scope) : Content → Option Setting
  | nil => none
  | element tag children _ rest =>
    if tag.id = id then some ⟨parent, around, ⟨tag, children⟩⟩
    else (children.setting? id (some tag.id) (tag.declarations ++ around)).or
      (rest.setting? id parent around)
  | comment _ _ rest => rest.setting? id parent around
  | instruction _ _ _ rest => rest.setting? id parent around

theorem setting?_eq_none_iff : content.setting? id parent around = none ↔ id ∉ content.ids := by
  induction content generalizing parent around with
  | nil => simp [setting?, ids]
  | element tag children tail rest ihc ihr =>
    rw [setting?, ids]
    split
    · rename_i ht
      simp [ht]
    · rename_i ht
      simp [Ne.symm ht, ihc, ihr]
  | comment text tail rest ih => exact ih
  | instruction target data tail rest ih => exact ih

theorem mem_ids_of_setting? {setting : Setting}
    (h : content.setting? id parent around = some setting) : id ∈ content.ids := by
  apply Decidable.not_not.mp
  intro hn
  rw [setting?_eq_none_iff.mpr hn] at h
  cases h

theorem exists_setting? (parent : Option NodeId) (around : Scope) (h : id ∈ content.ids) :
    ∃ setting, content.setting? id parent around = some setting := by
  cases hs : content.setting? id parent around with
  | none => exact absurd h (setting?_eq_none_iff.mp hs)
  | some setting => exact ⟨setting, rfl⟩

/-- The element that is looked up is found there, and what it contains is there, too. -/
theorem element_of_setting? {setting : Setting}
    (h : content.setting? id parent around = some setting) :
    setting.element.id = id ∧ setting.element.content.ids ⊆ content.ids := by
  induction content generalizing parent around with
  | nil => cases h
  | element tag children tail rest ihc ihr =>
    rw [setting?] at h
    split at h
    · rename_i ht
      cases h
      exact ⟨ht, by simp [ids]⟩
    · rcases Option.or_eq_some_iff.mp h with h | ⟨-, h⟩
      · refine ⟨(ihc h).1, fun id hi => ?_⟩
        simp [ids, (ihc h).2 hi]
      · refine ⟨(ihr h).1, fun id hi => ?_⟩
        simp [ids, (ihr h).2 hi]
  | comment text tail rest ih => exact ih h
  | instruction target data tail rest ih => exact ih h

/-- The identities in an element that is looked up are different if all are. -/
theorem nodup_of_setting? {setting : Setting} (hn : content.ids.Nodup)
    (h : content.setting? id parent around = some setting) :
    (single setting.element none).ids.Nodup := by
  induction content generalizing parent around with
  | nil => cases h
  | element tag children tail rest ihc ihr =>
    rw [ids, List.nodup_cons, List.nodup_append, List.mem_append, not_or] at hn
    obtain ⟨⟨htc, -⟩, hc, hr, -⟩ := hn
    rw [setting?] at h
    split at h
    · cases h
      rw [ids_single]
      exact List.nodup_cons.mpr ⟨htc, hc⟩
    · rcases Option.or_eq_some_iff.mp h with h | ⟨-, h⟩
      · exact ihc hc h
      · exact ihr hr h
  | comment text tail rest ih => exact ih hn h
  | instruction target data tail rest ih => exact ih hn h

theorem setting?_single (element : Element) (tail : Option String) :
    (single element tail).setting? element.id parent around = some ⟨parent, around, element⟩ :=
  if_pos rfl

/-- Looking up how an element is set finds the same element as looking it up. -/
theorem element_setting? (id : NodeId) (parent : Option NodeId) (around : Scope)
    (content : Content) :
    (content.setting? id parent around).map Setting.element =
      (content.find? id).map Prod.fst := by
  induction content generalizing parent around with
  | nil => rfl
  | element tag children tail rest ihc ihr =>
    rw [setting?, find?]
    split
    · rfl
    · rw [Option.map_or, Option.map_or, ihc, ihr]
  | comment text tail rest ih => exact ih _ _
  | instruction target data tail rest ih => exact ih _ _

theorem setting?_append (content more : Content) :
    (content ++ more).setting? id parent around =
      (content.setting? id parent around).or (more.setting? id parent around) := by
  induction content with
  | nil => rfl
  | element tag children tail rest _ ih =>
    rw [element_append, setting?, setting?]
    split
    · rfl
    · rw [ih, Option.or_assoc]
  | comment text tail rest ih => exact ih
  | instruction target data tail rest ih => exact ih

/-- The declarations around an element are those in effect for its parent. -/
theorem setting?_parent {setting : Setting} (hn : content.ids.Nodup)
    (h : content.setting? id parent around = some setting) :
    (setting.parent = parent ∧ setting.around = around) ∨
      ∃ upper, content.setting? upper.element.id parent around = some upper ∧
        setting.parent = some upper.element.id ∧ setting.around = upper.scope := by
  induction content generalizing parent around with
  | nil => cases h
  | element tag children tail rest ihc ihr =>
    rw [ids, List.nodup_cons, List.nodup_append, List.mem_append, not_or] at hn
    obtain ⟨⟨htc, htr⟩, hc, hr, hd⟩ := hn
    rw [setting?] at h
    split at h
    · cases h
      exact .inl ⟨rfl, rfl⟩
    · rcases Option.or_eq_some_iff.mp h with h | ⟨-, h⟩
      · rcases ihc hc h with ⟨hp, ha⟩ | ⟨upper, hu, hp, ha⟩
        · exact .inr ⟨⟨parent, around, ⟨tag, children⟩⟩, if_pos rfl, hp, ha⟩
        · have hne : tag.id ≠ upper.element.id := fun he =>
            htc (he ▸ mem_ids_of_setting? hu)
          exact .inr ⟨upper, by rw [setting?, if_neg hne, hu, Option.some_or], hp, ha⟩
      · rcases ihr hr h with hp | ⟨upper, hu, hp, ha⟩
        · exact .inl hp
        · have hm := mem_ids_of_setting? hu
          have hne : tag.id ≠ upper.element.id := fun he => htr (he ▸ hm)
          have hc : upper.element.id ∉ children.ids := fun hi => hd _ hi _ hm rfl
          refine .inr ⟨upper, ?_, hp, ha⟩
          rw [setting?, if_neg hne, setting?_eq_none_iff.mpr hc, Option.none_or, hu]
  | comment text tail rest ih => exact ih hn h
  | instruction target data tail rest ih => exact ih hn h

/-- An element with another tag is set as it was. -/
theorem setting?_mapTag {change : Tag → Tag} (h : ∀ tag, (change tag).id = tag.id) :
    (content.mapTag id change).setting? id parent around =
      (content.setting? id parent around).map fun setting =>
        { setting with element := ⟨change setting.element.tag, setting.element.content⟩ } := by
  induction content generalizing parent around with
  | nil => rfl
  | element tag children tail rest ihc ihr =>
    rw [mapTag, setting?.eq_2]
    split
    · rename_i ht
      rw [setting?, h, if_pos ht, Option.map_some]
    · rename_i ht
      rw [setting?, if_neg ht, ihc, ihr, Option.map_or]
  | comment text tail rest ih => exact ih
  | instruction target data tail rest ih => exact ih

/-! ## Planting -/

variable {spot : Spot} {piece : Content}

/-- A setting in a content without the spot. -/
theorem plant_setting?_of_notMem (id : NodeId) (parent : Option NodeId) (around : Scope)
    (piece : Content) (h : spot.anchor ∉ content.ids) :
    (content.setting? id parent around).map (Setting.plant · spot piece) =
      content.setting? id parent around := by
  cases hs : content.setting? id parent around with
  | none => rfl
  | some setting =>
    obtain ⟨he, hi⟩ := element_of_setting? hs
    have hne : spot.anchor ≠ setting.element.id := by
      rw [he]
      rintro rfl
      exact h (mem_ids_of_setting? hs)
    rw [Option.map_some, Setting.plant_of_notMem hne fun hm => h (hi hm)]

/-- Planting changes how an element is set only in that the piece is seen within it. -/
theorem setting?_plant (hn : content.ids.Nodup) (h : id ∉ piece.ids) :
    (content.plant spot piece).setting? id parent around =
      (content.setting? id parent around).map (Setting.plant · spot piece) := by
  simp only [plant]
  induction content generalizing parent around with
  | nil => rfl
  | element tag children tail rest ihc ihr =>
    have hpiece {parent : Option NodeId} {around : Scope} :
        piece.setting? id parent around = none := setting?_eq_none_iff.mpr h
    rw [ids, List.nodup_cons, List.nodup_append, List.mem_append, not_or] at hn
    obtain ⟨⟨htc, htr⟩, hc, hr, hd⟩ := hn
    rw [replace]
    split
    · -- the spot is here, so there's none further below or behind
      rename_i ht
      have hnc := plant_setting?_of_notMem id (some tag.id) (tag.declarations ++ around) piece
        (ht ▸ htc)
      have hnr := plant_setting?_of_notMem id parent around piece (ht ▸ htr)
      rw [setting?_append]
      cases spot with
      | inFront above =>
        have hi : tag.id = above := ht
        rw [Spot.fill, single, setting?, setting?, setting?, setting?_append, hpiece,
          Option.none_or, Option.or_none]
        split
        · simp [Setting.plant, Element.plant, Element.id, hi]
        · rw [Option.map_or, hnc, hnr]
      | behind reference =>
        rw [Spot.fill, setting?_append, single, setting?, setting?, setting?, hpiece,
          Option.or_none, Option.or_none]
        split
        · have hi : tag.id = reference := ht
          have hp : children.plant (.behind reference) piece = children :=
            plant_of_notMem (hi ▸ htc)
          simp [Setting.plant, Element.plant, hp]
        · rw [Option.map_or, hnc, hnr]
    · rename_i ht
      rw [setting?, setting?]
      split
      · have hne : spot ≠ .inFront tag.id := by
          rintro rfl
          exact ht rfl
        simp [Setting.plant, Element.plant, Element.id, hne, plant]
      · rw [Option.map_or, ihc hc, ihr hr]
  | comment text tail rest ih => exact ih hn
  | instruction target data tail rest ih => exact ih hn

/-- What is in a planted piece is set as in the piece alone, if that stands at the spot. -/
theorem setting?_plant_piece (h : id ∉ content.ids) (hp : id ∈ piece.ids) :
    (content.plant spot piece).setting? id parent around =
      (content.setting? spot.anchor parent around).bind fun setting =>
        piece.setting? id (spot.parent setting) (spot.around setting) := by
  simp only [plant]
  induction content generalizing parent around with
  | nil => rfl
  | element tag children tail rest ihc ihr =>
    simp only [ids, List.mem_cons, List.mem_append, not_or] at h
    have hne : tag.id ≠ id := Ne.symm h.1
    have hc {parent : Option NodeId} {around : Scope} :
        children.setting? id parent around = none := setting?_eq_none_iff.mpr h.2.1
    have hr {parent : Option NodeId} {around : Scope} :
        rest.setting? id parent around = none := setting?_eq_none_iff.mpr h.2.2
    rw [replace]
    split
    · rename_i ht
      rw [setting?_append, hr, Option.or_none, setting?.eq_2 spot.anchor, if_pos ht,
        Option.bind_some]
      cases spot with
      | inFront above =>
        rw [Spot.fill, single, setting?, if_neg hne, setting?_append, hc, Option.or_none,
          setting?, Option.or_none]
        rfl
      | behind reference =>
        rw [Spot.fill, setting?_append, single, setting?, if_neg hne, hc, setting?,
          Option.none_or, Option.none_or]
        rfl
    · rename_i ht
      rw [setting?, if_neg hne, setting?.eq_2 spot.anchor, if_neg ht, ihc h.2.1, ihr h.2.2]
      cases children.setting? spot.anchor (some tag.id) (tag.declarations ++ around) with
      | none => rfl
      | some setting =>
        obtain ⟨found, hf⟩ :=
          exists_setting? (spot.parent setting) (spot.around setting) hp
        rw [Option.bind_some, hf, Option.some_or, Option.some_or, Option.bind_some, hf]
  | comment text tail rest ih => exact ih h
  | instruction target data tail rest ih => exact ih h

end Content

/-! ## Positions -/

namespace Position

/-- The declarations in effect around an element. -/
def around : Position → Scope
  | top _ => []
  | child parent _ _ _ => parent.scope

/-- How the element at a position is set. -/
def setting (position : Position) : Setting :=
  ⟨position.parent?.map id, position.around, position.element⟩

@[simp] theorem scope_setting (position : Position) : position.setting.scope = position.scope := by
  cases position with
  | top element => exact List.append_nil _
  | child parent index element following => rfl

variable {id : NodeId}

theorem setting_locateIn (id : NodeId) (parent : Position) (index : Nat) (content : Content) :
    (locateIn id parent index content).map setting =
      content.setting? id (some parent.id) parent.scope := by
  induction content generalizing parent index with
  | nil => rfl
  | element tag children tail rest ihc ihr =>
    rw [locateIn, Content.setting?]
    split
    · rfl
    · rw [Option.map_or, ihc, ihr]
      rfl
  | comment text tail rest ih => exact ih _ _
  | instruction target data tail rest ih => exact ih _ _

theorem setting_locate (id : NodeId) (content : Content) :
    (locate id content).map setting = content.setting? id none [] := by
  induction content with
  | nil => rfl
  | element tag children tail rest _ ihr =>
    rw [locate, Content.setting?]
    split
    · rfl
    · rw [Option.map_or, setting_locateIn, ihr, List.append_nil]
      rfl
  | comment text tail rest ih => exact ih
  | instruction target data tail rest ih => exact ih

theorem locate_eq_none {content : Content} (h : id ∉ content.ids) : locate id content = none := by
  have hs := setting_locate id content
  rw [Content.setting?_eq_none_iff.mpr h] at hs
  exact Option.map_eq_none_iff.mp hs

end Position
end MarkupPath
