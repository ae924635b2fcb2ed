import MarkupPath.Proofs.Path.Names
import MarkupPath.Proofs.Tree.Identities
import MarkupPath.Proofs.Tree.NewNames

/-!
# Names that can be written in a node test

A name is legible if its parts are names in a node test. Qualifiers that are minted are, and so are
those that are customary (`Scope.IsLegible.bind`). So nothing else comes into being when the names
in a moved element are bound anew (`Element.IsLegible.rebind`), or when a copied one is made
self-contained (`Element.IsLegible.selfContained`).
-/

namespace MarkupPath

open StepReader Markup

/-- A qualifier, if there's one, that is a name in a node test. -/
def IsLegibleQualifier (qualifier : Option String) : Prop :=
  ∀ word, qualifier = some word → IsName word.toList

theorem isLegibleQualifier_none : IsLegibleQualifier none := fun _ h => by cases h

theorem isLegibleQualifier_of_isName {word : String} (h : IsName word.toList) :
    IsLegibleQualifier (some word) := by
  intro other he
  obtain rfl := Option.some.inj he
  exact h

/-- Both parts of a name are legible. -/
structure Name.IsLegible (name : Name) : Prop where
  /-- the local part is a name in a node test -/
  localPart : IsName name.localPart.toList
  /-- so is the qualifier, if there's one -/
  qualifier : IsLegibleQualifier name.qualifier

theorem Name.IsLegible.isName {name : Name} (h : name.IsLegible) : IsName name.written.toList :=
  Name.isName_written h.localPart h.qualifier

/-- All declarations are of legible qualifiers. -/
def Scope.IsLegible (scope : Scope) : Prop :=
  ∀ declaration ∈ scope, IsLegibleQualifier declaration.qualifier

/-- An element's name and all qualifiers in its tag are legible. -/
structure Tag.IsLegible (tag : Tag) : Prop where
  /-- the element's name -/
  name : tag.name.IsLegible
  /-- the qualifiers that are declared -/
  declarations : Scope.IsLegible tag.declarations
  /-- those of the attributes' names -/
  attributes : ∀ attr ∈ tag.attributes, IsLegibleQualifier attr.name.qualifier

/-- All tags in a content are legible. -/
def Content.IsLegible : Content → Prop
  | nil => True
  | element tag children _ rest => tag.IsLegible ∧ children.IsLegible ∧ rest.IsLegible
  | comment _ _ rest => rest.IsLegible
  | instruction _ _ _ rest => rest.IsLegible

/-- An element's tag and those in what it contains are legible. -/
structure Element.IsLegible (element : Element) : Prop where
  /-- the tag is legible -/
  tag : element.tag.IsLegible
  /-- so is what it contains -/
  content : element.content.IsLegible

/-! ## Scopes -/

namespace Scope.IsLegible

variable {scope outer : Scope} {space : String} {forAttribute : Bool} {minted : Nat}

theorem nil : Scope.IsLegible [] := fun _ h => by cases h

theorem singleton {declaration : Declaration} (h : IsLegibleQualifier declaration.qualifier) :
    Scope.IsLegible [declaration] := by
  intro other hm
  obtain rfl := List.mem_singleton.mp hm
  exact h

theorem append (h : scope.IsLegible) (ho : outer.IsLegible) : Scope.IsLegible (scope ++ outer) := by
  intro declaration hm
  exact (List.mem_append.mp hm).elim (h declaration) (ho declaration)

theorem declaring? {declaration : Declaration} (h : scope.IsLegible)
    (hd : scope.declaring? space forAttribute = some declaration) :
    IsLegibleQualifier declaration.qualifier :=
  h declaration (List.mem_of_find?_eq_some hd)

/-- Names are bound to legible qualifiers, whether these are declared already or not. -/
theorem bind {qualifier : Option String} (h : scope.IsLegible)
    (hq : IsLegibleQualifier qualifier) :
    IsLegibleQualifier (scope.bind space qualifier forAttribute minted).declaration.qualifier := by
  unfold Scope.bind
  split
  · exact isLegibleQualifier_of_isName (.of_isPlainName (by decide))
  · split
    · rename_i declaration hd
      exact h.declaring? hd
    · dsimp only
      split
      · intro word hw
        rcases Option.or_eq_some_iff.mp hw with hw | ⟨-, hw⟩
        · exact hq word hw
        · exact .of_isPlainName (isPlainName_customary hw)
      · exact isLegibleQualifier_of_isName (.of_isPlainName (isPlainName_mintedQualifier _))

end Scope.IsLegible

/-! ## Contents -/

namespace Content.IsLegible

variable {id : NodeId} {content more piece : Content}

theorem append (h : content.IsLegible) (hm : more.IsLegible) : (content ++ more).IsLegible := by
  induction content with
  | nil => exact hm
  | element tag children tail rest _ ih => exact ⟨h.1, h.2.1, ih h.2.2⟩
  | comment text tail rest ih => exact ih h
  | instruction target data tail rest ih => exact ih h

theorem single {element : Element} (h : element.IsLegible) (tail : Option String) :
    (Content.single element tail).IsLegible :=
  ⟨h.tag, h.content, trivial⟩

/-- What is put in the place of an element may depend on that. -/
theorem replace {substitute : Element → Option String → Content} (h : content.IsLegible)
    (hs : ∀ element tail, element.IsLegible → (substitute element tail).IsLegible) :
    (content.replace id substitute).IsLegible := by
  induction content with
  | nil => exact h
  | element tag children tail rest ihc ihr =>
    rw [Content.replace]
    split
    · exact (hs _ tail ⟨h.1, h.2.1⟩).append h.2.2
    · exact ⟨h.1, ihc h.2.1, ihr h.2.2⟩
  | comment text tail rest ih => exact ih h
  | instruction target data tail rest ih => exact ih h

theorem remove (h : content.IsLegible) (id : NodeId) : (content.remove id).IsLegible := by
  rw [remove_eq_replace]
  exact h.replace fun _ _ _ => trivial

theorem mapTag {change : Tag → Tag} (h : content.IsLegible)
    (hc : ∀ tag, tag.IsLegible → (change tag).IsLegible) :
    (content.mapTag id change).IsLegible := by
  rw [mapTag_eq_replace]
  exact h.replace fun element tail he => ⟨hc _ he.tag, he.content, trivial⟩

theorem plant (h : content.IsLegible) (spot : Spot) (hp : piece.IsLegible) :
    (content.plant spot piece).IsLegible := by
  refine h.replace fun element tail he => ?_
  cases spot with
  | inFront parent => exact ⟨he.tag, hp.append he.content, trivial⟩
  | behind reference => exact (single he tail).append hp

theorem renumber (h : content.IsLegible) (next : Nat) : (content.renumber next).IsLegible := by
  induction content generalizing next with
  | nil => exact h
  | element tag children tail rest ihc ihr =>
    exact ⟨⟨h.1.name, h.1.declarations, h.1.attributes⟩, ihc h.2.1 _, ihr h.2.2 _⟩
  | comment text tail rest ih => exact ih h next
  | instruction target data tail rest ih => exact ih h next

theorem find? {found : Element} {tail : Option String} (h : content.IsLegible)
    (hf : content.find? id = some (found, tail)) : found.IsLegible := by
  induction content with
  | nil => cases hf
  | element tag children tail' rest ihc ihr =>
    rw [Content.find?] at hf
    split at hf
    · cases hf
      exact ⟨h.1, h.2.1⟩
    · rcases Option.or_eq_some_iff.mp hf with hf | ⟨-, hf⟩
      · exact ihc h.2.1 hf
      · exact ihr h.2.2 hf
  | comment text tail' rest ih => exact ih h hf
  | instruction target data tail' rest ih => exact ih h hf

end Content.IsLegible

/-! ## Moved elements -/

namespace Rebinding

/-- All that has been decided is about legible qualifiers. -/
structure IsLegible (state : Rebinding) : Prop where
  /-- what the moved element declares -/
  declared : Scope.IsLegible state.declared
  /-- what declarations are replaced with -/
  replaced : ∀ pair ∈ state.replaced, IsLegibleQualifier pair.2.qualifier

variable {state : Rebinding} {outer around inner : Scope}

theorem IsLegible.replace (h : state.IsLegible) {former new : Declaration}
    (hn : IsLegibleQualifier new.qualifier) :
    IsLegible { state with replaced := state.replaced ++ [(former, new)] } := by
  refine ⟨h.declared, fun pair hm => ?_⟩
  rcases List.mem_append.mp hm with hm | hm
  · exact h.replaced pair hm
  · obtain rfl := List.mem_singleton.mp hm
    exact hn

theorem IsLegible.rename {name : Name} (h : state.IsLegible) (ho : outer.IsLegible)
    (hn : IsLegibleQualifier name.qualifier) (forAttribute : Bool) :
    IsLegibleQualifier (state.rename outer forAttribute name).1.qualifier ∧
      (state.rename outer forAttribute name).2.IsLegible := by
  unfold Rebinding.rename
  split
  · exact ⟨hn, h⟩
  · dsimp only
    split
    · rename_i former new hf
      exact ⟨h.replaced _ (List.mem_of_find?_eq_some hf), h⟩
    · -- what the name is bound to is noted down, and is declared if it's new
      rename_i space _ _ _
      have hb : IsLegibleQualifier (Scope.bind (state.declared ++ outer) space name.qualifier
          forAttribute state.minted).declaration.qualifier := (h.declared.append ho).bind hn
      refine ⟨hb, ?_, (h.replace hb).replaced⟩
      dsimp only
      split
      · exact h.declared.append (.singleton hb)
      · exact h.declared

theorem localPart_rename (state : Rebinding) (outer : Scope) (forAttribute : Bool) (name : Name) :
    (state.rename outer forAttribute name).1.localPart = name.localPart := by
  unfold Rebinding.rename
  split
  · rfl
  · dsimp only
    split <;> rfl

theorem IsLegible.renameElement {name : Name} (h : state.IsLegible) (ho : outer.IsLegible)
    (hn : name.IsLegible) :
    (state.rename outer false name).1.IsLegible ∧ (state.rename outer false name).2.IsLegible := by
  obtain ⟨hqualifier, hstate⟩ := h.rename ho hn.qualifier false
  refine ⟨⟨?_, hqualifier⟩, hstate⟩
  rw [localPart_rename]
  exact hn.localPart

theorem IsLegible.renameAttributes {attributes : List Attribute} (h : state.IsLegible)
    (ho : outer.IsLegible)
    (ha : ∀ attr ∈ attributes, IsLegibleQualifier attr.name.qualifier) :
    (∀ attr ∈ (state.renameAttributes outer attributes).1,
        IsLegibleQualifier attr.name.qualifier) ∧
      (state.renameAttributes outer attributes).2.IsLegible := by
  induction attributes generalizing state with
  | nil => exact ⟨ha, h⟩
  | cons attr rest ih =>
    obtain ⟨hname, hstate⟩ := h.rename ho (ha attr List.mem_cons_self) true
    obtain ⟨hrest, hfinal⟩ := ih hstate fun other hm => ha other (List.mem_cons_of_mem _ hm)
    refine ⟨fun other hm => ?_, hfinal⟩
    rcases List.mem_cons.mp hm with rfl | hm
    · exact hname
    · exact hrest other hm

theorem IsLegible.dropRepeated {declarations : List Declaration} (h : state.IsLegible)
    (ha : around.IsLegible) (hd : Scope.IsLegible declarations) :
    Scope.IsLegible (state.dropRepeated around declarations).1 ∧
      (state.dropRepeated around declarations).2.IsLegible := by
  induction declarations generalizing state with
  | nil => exact ⟨hd, h⟩
  | cons declaration rest ih =>
    have hfirst := hd declaration List.mem_cons_self
    have hrest : Scope.IsLegible rest := fun other hm => hd other (List.mem_cons_of_mem _ hm)
    unfold Rebinding.dropRepeated
    split
    · -- the declaration is dropped for one around it
      rename_i new hn
      exact ih (h.replace (ha.declaring? hn)) hrest
    · obtain ⟨hkept, hfinal⟩ := ih (h.replace hfirst) hrest
      exact ⟨(Scope.IsLegible.singleton hfirst).append hkept, hfinal⟩

theorem IsLegible.renameContent {content : Content} (h : state.IsLegible) (ho : outer.IsLegible)
    (hi : inner.IsLegible) (hc : content.IsLegible) :
    (Rebinding.renameContent outer inner content state).1.IsLegible ∧
      (Rebinding.renameContent outer inner content state).2.IsLegible := by
  induction content generalizing inner state with
  | nil => exact ⟨hc, h⟩
  | element tag children tail rest ihc ihr =>
    obtain ⟨htag, hchildren, hrest⟩ := hc
    have hdrop := h.dropRepeated ((hi.append h.declared).append ho) htag.declarations
    have hname := hdrop.2.renameElement ho htag.name
    have hattributes := hname.2.renameAttributes ho htag.attributes
    have hbelow := ihc hattributes.2 (hdrop.1.append hi) hchildren
    have hbehind := ihr hbelow.2 hi hrest
    exact ⟨⟨⟨hname.1, hdrop.1, hattributes.1⟩, hbelow.1, hbehind.1⟩, hbehind.2⟩
  | comment text tail rest ih => exact ih h hi hc
  | instruction target data tail rest ih => exact ih h hi hc

end Rebinding

/-- Wherever declarations are legible, so is an element that is put there. -/
theorem Element.IsLegible.rebind {element : Element} {outer : Scope} (h : element.IsLegible)
    (ho : outer.IsLegible) (minted : Nat) : (element.rebind outer minted).1.IsLegible := by
  have hstart : Rebinding.IsLegible { minted } := ⟨.nil, fun _ hm => by cases hm⟩
  have hdrop := hstart.dropRepeated ho h.tag.declarations
  have hstate : Rebinding.IsLegible
      { (Rebinding.dropRepeated { minted } outer element.tag.declarations).2 with
        declared := (Rebinding.dropRepeated { minted } outer element.tag.declarations).1 } :=
    ⟨hdrop.1, hdrop.2.replaced⟩
  have hname := hstate.renameElement ho h.tag.name
  have hattributes := hname.2.renameAttributes ho h.tag.attributes
  have hcontent := hattributes.2.renameContent ho .nil h.content
  exact ⟨⟨hname.1, hcontent.2.declared, hattributes.1⟩, hcontent.1⟩

/-! ## Copied elements -/

theorem Name.isLegible_lacks {name : Name} (h : IsLegibleQualifier name.qualifier)
    (scope : Scope) : Scope.IsLegible (name.lacks scope) := by
  unfold lacks
  split
  · exact .nil
  · split
    · exact .nil
    · exact .singleton h

theorem Tag.IsLegible.lacks {tag : Tag} (h : tag.IsLegible) (scope : Scope) :
    Scope.IsLegible (tag.lacks scope) := by
  refine (Name.isLegible_lacks h.name.qualifier scope).append fun declaration hm => ?_
  obtain ⟨attr, ha, hd⟩ := List.mem_flatMap.mp hm
  exact Name.isLegible_lacks (h.attributes attr ha) scope declaration hd

theorem Content.IsLegible.lacks {content : Content} (h : content.IsLegible) (scope : Scope) :
    Scope.IsLegible (content.lacks scope) := by
  induction content generalizing scope with
  | nil => exact .nil
  | element tag children tail rest ihc ihr =>
    exact ((h.1.lacks _).append (ihc h.2.1 _)).append (ihr h.2.2 _)
  | comment text tail rest ih => exact ih h scope
  | instruction target data tail rest ih => exact ih h scope

/-- A copy only declares what its names are written with. -/
theorem Element.IsLegible.selfContained {element : Element} (h : element.IsLegible) :
    element.selfContained.IsLegible := by
  have hlacking := (h.tag.lacks element.tag.declarations).append
    (h.content.lacks element.tag.declarations)
  refine ⟨⟨h.tag.name, h.tag.declarations.append fun declaration hm => ?_, h.tag.attributes⟩,
    h.content⟩
  exact hlacking declaration (List.mem_eraseDups.mp hm)

/-! ## Attributes -/

theorem Tag.IsLegible.setValue {tag : Tag} {qualifier : Option String} (h : tag.IsLegible)
    (hq : IsLegibleQualifier qualifier) (key : UniversalName) (value : String) :
    (tag.setValue key qualifier value).IsLegible := by
  unfold Tag.setValue
  dsimp only
  split
  · refine ⟨h.name, h.declarations, fun attr hm => ?_⟩
    obtain ⟨former, hf, rfl⟩ := List.mem_map.mp hm
    split
    · exact hq
    · exact h.attributes former hf
  · refine ⟨h.name, h.declarations, fun attr hm => ?_⟩
    rcases List.mem_append.mp hm with hm | hm
    · exact h.attributes attr hm
    · obtain rfl := List.mem_singleton.mp hm
      exact hq

end MarkupPath
