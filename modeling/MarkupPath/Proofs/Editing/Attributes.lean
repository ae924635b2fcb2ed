import MarkupPath.Proofs.Editing.Growth
import MarkupPath.Proofs.Tree.Scopes

/-!
# Attributes that are given to new elements

What a tag has after attributes were set, one after the other (`Tag.Sets`): its name, of the values
that it was given for an attribute the last one (`Scope.assigned?`), and the values of all other
attributes.

To set an attribute may take a new declaration. That hides none of those that are in effect, and
names are still written with the qualifiers that were favoured before; only the default namespace
is lost to a qualifier when an attribute in it is set (`Tag.Sets.favours`).
-/

namespace MarkupPath

/-! ## Values of attributes -/

/-- What the name of an attribute stands for. -/
def Attribute.key (attr : Attribute) : UniversalName := ⟨attr.name.space, attr.name.localPart⟩

/-- What the names of a tag's attributes stand for. -/
def Tag.keys (tag : Tag) : List UniversalName := tag.attributes.map Attribute.key

section Values

variable {key other : UniversalName}

theorem Attribute.hasName_iff {attr : Attribute} : attr.hasName key = true ↔ key = attr.key := by
  obtain ⟨space, localPart⟩ := key
  rw [hasName, Bool.and_eq_true, beq_iff_eq, beq_iff_eq, Attribute.key, UniversalName.mk.injEq]
  exact and_congr eq_comm eq_comm

/-- When attributes of a name are replaced by another one of that name, the same ones are found. -/
theorem Attribute.find?_map {new : Attribute} (h : new.hasName key = true) (other : UniversalName)
    (attrs : List Attribute) :
    (attrs.map fun attr => if attr.hasName key then new else attr).find? (·.hasName other) =
      (attrs.find? (·.hasName other)).map fun attr => if attr.hasName key then new else attr := by
  rw [List.find?_map]
  congr 2
  funext attr
  simp only [Function.comp_apply]
  split
  · rename_i hk
    rw [Bool.eq_iff_iff, hasName_iff, hasName_iff, ← hasName_iff.mp h, ← hasName_iff.mp hk]
  · rfl

@[simp] theorem Tag.name_setValue (tag : Tag) (key : UniversalName) (qualifier : Option String)
    (value : String) : (tag.setValue key qualifier value).name = tag.name := by
  simp only [setValue]
  split <;> rfl

@[simp] theorem Tag.declarations_setValue (tag : Tag) (key : UniversalName)
    (qualifier : Option String) (value : String) :
    (tag.setValue key qualifier value).declarations = tag.declarations := by
  simp only [setValue]
  split <;> rfl

@[simp] theorem Tag.text_setValue (tag : Tag) (key : UniversalName) (qualifier : Option String)
    (value : String) : (tag.setValue key qualifier value).text = tag.text := by
  simp only [setValue]
  split <;> rfl

/-- An attribute that is given a value stays in its place, or comes behind all others. -/
theorem Tag.keys_setValue (tag : Tag) (key : UniversalName) (qualifier : Option String)
    (value : String) : (tag.setValue key qualifier value).keys =
      if key ∈ tag.keys then tag.keys else tag.keys ++ [key] := by
  have hany : tag.attributes.any (·.hasName key) = true ↔ key ∈ tag.keys := by
    rw [List.any_eq_true, keys, List.mem_map]
    exact exists_congr fun attr => and_congr_right fun _ => Attribute.hasName_iff.trans eq_comm
  simp only [setValue, hany]
  split
  · rw [keys, List.map_map]
    refine List.map_congr_left fun attr _ => ?_
    simp only [Function.comp_apply]
    split
    · rename_i hk
      exact Attribute.hasName_iff.mp hk
    · rfl
  · exact List.map_append

/-- An attribute has the value that it was given. -/
theorem Tag.value?_setValue_self (tag : Tag) (key : UniversalName) (qualifier : Option String)
    (value : String) : (tag.setValue key qualifier value).value? key = some value := by
  have hnew : Attribute.hasName ⟨⟨qualifier, key.localPart, key.space⟩, value⟩ key = true :=
    Attribute.hasName_iff.mpr rfl
  unfold setValue value?
  dsimp only
  split
  · rename_i ha
    obtain ⟨attr, hm, hk⟩ := List.any_eq_true.mp ha
    rw [Attribute.find?_map hnew]
    cases hf : tag.attributes.find? (·.hasName key) with
    | none => exact absurd hk (List.find?_eq_none.mp hf attr hm)
    | some found =>
      have hk := List.find?_some hf
      simp [hk]
  · rename_i ha
    have hf : tag.attributes.find? (·.hasName key) = none :=
      List.find?_eq_none.mpr fun attr hm hk => ha (List.any_eq_true.mpr ⟨attr, hm, hk⟩)
    rw [List.find?_append, hf, Option.none_or, List.find?_singleton, hnew]
    rfl

/-- All others have the value that they had. -/
theorem Tag.value?_setValue_of_ne (tag : Tag) (qualifier : Option String) (value : String)
    (h : other ≠ key) : (tag.setValue key qualifier value).value? other = tag.value? other := by
  have hnew : Attribute.hasName ⟨⟨qualifier, key.localPart, key.space⟩, value⟩ key = true :=
    Attribute.hasName_iff.mpr rfl
  unfold setValue value?
  dsimp only
  split
  · rw [Attribute.find?_map hnew]
    cases hf : tag.attributes.find? (·.hasName other) with
    | none => rfl
    | some found =>
      have ho : found.hasName other = true := by simpa using List.find?_some hf
      have hk : found.hasName key ≠ true := fun hk =>
        h ((Attribute.hasName_iff.mp ho).trans (Attribute.hasName_iff.mp hk).symm)
      simp [hk]
  · have ho : Attribute.hasName ⟨⟨qualifier, key.localPart, key.space⟩, value⟩ other = false :=
      Bool.eq_false_iff.mpr fun ho => h (Attribute.hasName_iff.mp ho)
    rw [List.find?_append, List.find?_singleton, ho]
    simp

end Values

/-! ## Given attributes -/

/-- A tag that was given an attribute where `around` is in effect around it. -/
structure Tag.IsGiven (around : Scope) (key : UniversalName) (value : String) (tag given : Tag) :
    Prop where
  /-- it's named as before -/
  name : given.name = tag.name
  /-- the attribute has the value -/
  self : given.value? key = some value
  /-- the others have theirs -/
  others : ∀ other, other ≠ key → given.value? other = tag.value? other
  /-- there may be a further declaration, of a free qualifier for a namespace that had none -/
  declarations : given.declarations = tag.declarations ∨
    ∃ declaration : Declaration, given.declarations = tag.declarations ++ [declaration] ∧
      key.space = some declaration.space ∧ declaration.qualifier ≠ none ∧
      Scope.space? (tag.declarations ++ around) declaration.qualifier = none ∧
      Scope.declaring? (tag.declarations ++ around) declaration.space true = none

namespace Tag

variable {around : Scope} {key : UniversalName} {value : String} {tag given last : Tag}

theorem text_give (scope : Scope) (minted : Nat) (key : UniversalName) (value : String) (tag : Tag) :
    (tag.give scope minted key value).text = tag.text := by
  simp only [give]
  split
  · exact text_setValue ..
  · split <;> exact text_setValue ..

theorem nodup_keys_give (hn : tag.keys.Nodup) (scope : Scope)
    (minted : Nat) (key : UniversalName) (value : String) :
    (tag.give scope minted key value).keys.Nodup := by
  have hset (qualifier : Option String) :
      (tag.setValue key qualifier value).keys.Nodup := by
    rw [keys_setValue]
    split
    · exact hn
    · rename_i hk
      exact List.nodup_append.mpr ⟨hn, by simp, by grind⟩
  simp only [give]
  split
  · exact hset _
  · split <;> exact hset _

theorem give_isGiven (around : Scope) (minted : Nat) (key : UniversalName) (value : String)
    (tag : Tag) :
    tag.IsGiven around key value (tag.give (tag.declarations ++ around) minted key value) := by
  simp only [give]
  cases hs : key.space with
  | none =>
    exact ⟨name_setValue .., value?_setValue_self .., fun _ => value?_setValue_of_ne _ _ _,
      .inl (declarations_setValue ..)⟩
  | some space =>
    dsimp only
    split
    · rename_i hb
      obtain ⟨hd, hq, hf, hn⟩ := Scope.bind_isNew hb
      refine ⟨name_setValue .., value?_setValue_self .., fun _ => value?_setValue_of_ne _ _ _,
        .inr ⟨_, congrArg (· ++ _) (declarations_setValue ..), ?_, hq, hf, ?_⟩⟩
      · rw [hs, hd]
      · rw [hd]
        exact hn
    · exact ⟨name_setValue .., value?_setValue_self .., fun _ => value?_setValue_of_ne _ _ _,
        .inl (declarations_setValue ..)⟩

namespace IsGiven

variable {word : String}

/-- Nothing that was declared is hidden. -/
theorem extension (h : tag.IsGiven around key value given) :
    Scope.Extends (given.declarations ++ around) (tag.declarations ++ around) := by
  rcases h.declarations with he | ⟨declaration, he, -, -, hf, -⟩
  · rw [he]
    exact .refl _
  · rw [he]
    exact .insert hf

theorem qualified (h : tag.IsGiven around key value given)
    (hq : ∀ declaration ∈ tag.declarations, declaration.qualifier ≠ none) :
    ∀ declaration ∈ given.declarations, declaration.qualifier ≠ none := by
  rcases h.declarations with he | ⟨declaration, he, -, hne, -, -⟩
  · rw [he]
    exact hq
  · rw [he]
    intro other hm
    rcases List.mem_append.mp hm with hm | hm
    · exact hq other hm
    · rw [List.mem_singleton.mp hm]
      exact hne

/-- A qualifier that is favoured stays so. -/
theorem favours_some (h : tag.IsGiven around key value given)
    (hq : ∀ declaration ∈ tag.declarations, declaration.qualifier ≠ none)
    (hf : Scope.Favours (tag.declarations ++ around) (some word)) :
    Scope.Favours (given.declarations ++ around) (some word) := by
  rcases h.declarations with he | ⟨declaration, he, -, -, hfree, hd⟩
  · rw [he]
    exact hf
  · rw [he]
    by_cases hw : some word = declaration.qualifier
    · rw [hw]
      exact .of_insert hfree hd hq
    · -- the namespace had no qualifier, so it isn't that of the word
      refine hf.insert hfree (fun hs => ?_) hw
      obtain ⟨known, hk⟩ := Scope.exists_declaring? true hs fun _ => nofun
      rw [hd] at hk
      cases hk

/-- Names without a qualifier stay favoured, unless an attribute of the default namespace is
given. -/
theorem favours_none (h : tag.IsGiven around key value given)
    (hk : key.space = none ∨ Scope.space? (tag.declarations ++ around) none ≠ key.space)
    (hf : Scope.Favours (tag.declarations ++ around) none) :
    Scope.Favours (given.declarations ++ around) none := by
  rcases h.declarations with he | ⟨declaration, he, hs, hq, hfree, -⟩
  · rw [he]
    exact hf
  · rw [he]
    rw [hs] at hk
    exact hf.insert hfree (hk.resolve_left nofun) (Ne.symm hq)

end IsGiven
end Tag

/-- The value that an attribute has after attributes were set, if it was among them: the one that it
was given last. Names are resolved in one scope. -/
def Scope.assigned? (scope : Scope) (key : UniversalName) : List (String × String) → Option String
  | [] => none
  | (name, value) :: rest =>
    (scope.assigned? key rest).or
      (if UniversalName.ofAttribute? scope name = .ok (some key) then some value else none)

namespace Scope

variable {scope : Scope} {key : UniversalName} {attrs : List (String × String)}

theorem assigned?_append (more : List (String × String)) :
    scope.assigned? key (attrs ++ more) =
      (scope.assigned? key more).or (scope.assigned? key attrs) := by
  induction attrs with
  | nil => simp [assigned?]
  | cons pair rest ih => rw [List.cons_append, assigned?, ih, assigned?, Option.or_assoc]

theorem assigned?_eq_none_iff : scope.assigned? key attrs = none ↔
    ∀ pair ∈ attrs, UniversalName.ofAttribute? scope pair.1 ≠ .ok (some key) := by
  induction attrs with
  | nil => simp [assigned?]
  | cons pair rest ih => simp [assigned?, ih, and_comm]

theorem exists_of_assigned? {value : String} (h : scope.assigned? key attrs = some value) :
    ∃ pair ∈ attrs, UniversalName.ofAttribute? scope pair.1 = .ok (some key) ∧ pair.2 = value := by
  induction attrs with
  | nil => cases h
  | cons pair rest ih =>
    rw [assigned?] at h
    rcases Option.or_eq_some_iff.mp h with h | ⟨-, h⟩
    · obtain ⟨other, hm, ho⟩ := ih h
      exact ⟨other, List.mem_cons_of_mem _ hm, ho⟩
    · split at h
      · rename_i hk
        exact ⟨pair, List.mem_cons_self, hk, Option.some.inj h⟩
      · cases h

/-- An attribute that is set once has that value. -/
theorem assigned?_of_pairwise
    (hd : attrs.Pairwise fun one other =>
      UniversalName.ofAttribute? scope one.1 ≠ UniversalName.ofAttribute? scope other.1)
    {pair : String × String} (hm : pair ∈ attrs)
    (hk : UniversalName.ofAttribute? scope pair.1 = .ok (some key)) :
    scope.assigned? key attrs = some pair.2 := by
  induction attrs with
  | nil => cases hm
  | cons first rest ih =>
    obtain ⟨hne, hd⟩ := List.pairwise_cons.mp hd
    rw [assigned?]
    rcases List.mem_cons.mp hm with rfl | hm
    · have hnone : scope.assigned? key rest = none :=
        assigned?_eq_none_iff.mpr fun other ho he => hne other ho (hk.trans he.symm)
      rw [hnone, if_pos hk]
      rfl
    · rw [ih hd hm]
      rfl

/-- Attributes that are different where more is declared are different, if their names are
resolved. -/
theorem Extends.pairwise_ofAttribute? {big : Scope} (hb : big.Extends scope)
    (hr : ∀ pair ∈ attrs, ∃ key, UniversalName.ofAttribute? scope pair.1 = .ok (some key))
    (hd : attrs.Pairwise fun one other =>
      UniversalName.ofAttribute? big one.1 ≠ UniversalName.ofAttribute? big other.1) :
    attrs.Pairwise fun one other =>
      UniversalName.ofAttribute? scope one.1 ≠ UniversalName.ofAttribute? scope other.1 := by
  refine hd.imp_of_mem fun {one other} hm _ hne he => hne ?_
  obtain ⟨key, hk⟩ := hr one hm
  rw [hb.ofAttribute? hk, hb.ofAttribute? (he ▸ hk)]

end Scope

/-- Whether the given name is one of an attribute in the default namespace. Only a name in universal
form can be, as attributes without a qualifier are in no namespace. -/
def Scope.NamesDefault (scope : Scope) (name : String) : Prop :=
  ∃ key space, UniversalName.ofAttribute? scope name = .ok (some key) ∧ key.space = some space ∧
    scope.space? none = some space

theorem Scope.NamesDefault.mono {scope former : Scope} {name : String} (h : former.NamesDefault name)
    (he : scope.Extends former) : scope.NamesDefault name := by
  obtain ⟨key, space, hk, hs, hd⟩ := h
  exact ⟨key, space, he.ofAttribute? hk, hs, he _ _ hd⟩

namespace Tag.Sets

variable {around big : Scope} {attrs : List (String × String)} {tag last : Tag}

theorem name_eq (h : tag.Sets around attrs last) : last.name = tag.name := by
  induction h with
  | done tag => rfl
  | next minted hk _ ih => exact ih.trans (give_isGiven ..).name

theorem extension (h : tag.Sets around attrs last) :
    Scope.Extends (last.declarations ++ around) (tag.declarations ++ around) := by
  induction h with
  | done tag => exact .refl _
  | next minted hk _ ih => exact ih.trans (give_isGiven ..).extension

theorem text_eq (h : tag.Sets around attrs last) : last.text = tag.text := by
  induction h with
  | done tag => rfl
  | next minted hk _ ih => exact ih.trans (text_give ..)

/-- No attribute is there twice. -/
theorem nodup_keys (h : tag.Sets around attrs last)
    (hn : tag.keys.Nodup) : last.keys.Nodup := by
  induction h with
  | done tag => exact hn
  | next minted hk _ ih => exact ih (nodup_keys_give hn ..)

theorem append {more : List (String × String)} {middle : Tag} (h : tag.Sets around attrs middle)
    (hm : middle.Sets around more last) : tag.Sets around (attrs ++ more) last := by
  induction h with
  | done tag => exact hm
  | next minted hk _ ih => exact .next minted hk (ih hm)

/-- The names of all attributes that are set are resolved. -/
theorem exists_key (h : tag.Sets around attrs last) (hb : big.Extends (last.declarations ++ around)) :
    ∀ pair ∈ attrs, ∃ key, UniversalName.ofAttribute? big pair.1 = .ok (some key) := by
  induction h with
  | done tag => exact List.forall_mem_nil _
  | @next name value rest tag last given minted hk hrest ih =>
    have hgiven := give_isGiven around minted given value tag
    have hbig := ((hb.trans hrest.extension).trans hgiven.extension).ofAttribute? hk
    exact List.forall_mem_cons.mpr ⟨⟨given, hbig⟩, ih hb⟩

/-- An attribute has the value that it was given last, or if it wasn't given any the one that it had
before. Names are compared in a scope that has all the declarations that come to be. -/
theorem value?_eq (h : tag.Sets around attrs last)
    (hb : big.Extends (last.declarations ++ around)) (key : UniversalName) :
    last.value? key = (big.assigned? key attrs).or (tag.value? key) := by
  induction h with
  | done tag => rfl
  | @next name value rest tag last given minted hk hrest ih =>
    have hgiven := give_isGiven around minted given value tag
    have hbig := ((hb.trans hrest.extension).trans hgiven.extension).ofAttribute? hk
    rw [ih hb, Scope.assigned?, hbig, Option.or_assoc]
    congr 1
    by_cases he : key = given
    · rw [he, hgiven.self, if_pos rfl]
      rfl
    · rw [hgiven.others key he, if_neg (by simpa using Ne.symm he)]
      rfl

/-- A qualifier stays favoured while attributes are set. If it's none, no attribute of the default
namespace must be among them. -/
theorem favours (h : tag.Sets around attrs last) (hb : big.Extends (last.declarations ++ around))
    {qualifier : Option String}
    (hq : ∀ declaration ∈ tag.declarations, declaration.qualifier ≠ none)
    (hf : Scope.Favours (tag.declarations ++ around) qualifier)
    (hn : qualifier = none → ∀ pair ∈ attrs, ¬ big.NamesDefault pair.1) :
    Scope.Favours (last.declarations ++ around) qualifier := by
  induction h with
  | done tag => exact hf
  | @next name value rest tag last given minted hk hrest ih =>
    have hgiven := give_isGiven around minted given value tag
    have hbig := (hb.trans hrest.extension).trans hgiven.extension
    refine ih hb (hgiven.qualified hq) ?_ fun he pair hm =>
      hn he pair (List.mem_cons_of_mem _ hm)
    cases qualifier with
    | some word => exact hgiven.favours_some hq hf
    | none =>
      refine hgiven.favours_none ?_ hf
      cases hs : given.space with
      | none => exact .inl rfl
      | some space =>
        refine .inr fun hspace => hn rfl _ List.mem_cons_self ?_
        exact ⟨given, space, hbig.ofAttribute? hk, hs, hbig _ _ hspace⟩

end Tag.Sets

end MarkupPath
