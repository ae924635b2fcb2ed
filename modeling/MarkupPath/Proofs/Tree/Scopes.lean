import Mathlib.Data.List.Find
import Mathlib.Data.List.Perm.Subperm
import MarkupPath.Tree.Creation

/-!
# Scopes

What a scope says about qualifiers, and what stays so when a declaration is added. A scope `Extends`
another one if it says the same wherever that one says something; names that are resolved in the
latter are resolved to the same in the former. A scope `Favours` a qualifier if names in the
qualifier's namespace are written with it. That is so for all qualifiers if no namespace has
several of them (`IsUnambiguous`), and it stays so while namespaces are bound for attributes, except
that the default namespace may get a qualifier that is favoured from there on.
-/

namespace MarkupPath

theorem repr_inj {m n : Nat} (h : m.repr = n.repr) : m = n := by
  have := congrArg (fun text : String => Nat.ofDigitChars 10 text.toList 0) h
  simpa [Nat.toList_repr] using this

theorem mintedQualifier_inj {m n : Nat} (h : mintedQualifier m = mintedQualifier n) : m = n :=
  repr_inj (String.append_right_inj _ |>.mp h)

namespace Scope

variable {scope outer : Scope} {qualifier : Option String} {space : String}
  {declaration : Declaration} {forAttribute : Bool}

theorem space?_append (scope outer : Scope) (qualifier : Option String) :
    (scope ++ outer).space? qualifier = (scope.space? qualifier).or (outer.space? qualifier) := by
  rw [space?, List.find?_append, Option.map_or]
  rfl

theorem space?_singleton (declaration : Declaration) (qualifier : Option String) :
    space? [declaration] qualifier =
      if declaration.qualifier = qualifier then some declaration.space else none := by
  by_cases h : declaration.qualifier = qualifier <;> simp [space?, h]

/-- What is declared has a namespace. -/
theorem space?_ne_none (h : declaration ∈ scope) : scope.space? declaration.qualifier ≠ none := by
  rw [space?, ne_eq, Option.map_eq_none_iff, List.find?_eq_none]
  intro hn
  simpa using hn declaration h

theorem declaring?_eq_some (h : scope.declaring? space forAttribute = some declaration) :
    declaration.space = space ∧ scope.space? declaration.qualifier = some space := by
  have := List.find?_some h
  simp only [Bool.and_eq_true, beq_iff_eq] at this
  exact ⟨this.1.1, this.2⟩

/-- The namespace of a qualifier is declared, for attributes only if there's a qualifier. -/
theorem exists_declaring? (forAttribute : Bool) (h : scope.space? qualifier = some space)
    (hq : forAttribute = true → qualifier ≠ none) :
    ∃ declaration, scope.declaring? space forAttribute = some declaration := by
  obtain ⟨declaration, hf, hs⟩ := Option.map_eq_some_iff.mp h
  have hm := List.mem_of_find?_eq_some hf
  obtain rfl : declaration.qualifier = qualifier := by simpa using List.find?_some hf
  cases hd : scope.declaring? space forAttribute with
  | some found => exact ⟨found, rfl⟩
  | none =>
    have := List.find?_eq_none.mp hd declaration hm
    cases forAttribute with
    | false => simp [hs, h] at this
    | true =>
      obtain ⟨word, hw⟩ := Option.ne_none_iff_exists'.mp (hq rfl)
      rw [hw] at h
      simp [hs, hw, h] at this

/-! ## Bindings -/

/-- There's a qualifier to be minted among the first ones, since only so many are declared. -/
theorem exists_free (scope : Scope) (minted : Nat) :
    ∃ n ∈ List.range (scope.length + 1),
      scope.space? (some (mintedQualifier (minted + n))) = none := by
  -- else there would be more qualifiers than declarations
  apply Classical.byContradiction
  intro hn
  let qualifiers := (List.range (scope.length + 1)).map fun n => some (mintedQualifier (minted + n))
  have hd : qualifiers.Nodup := by
    refine List.Pairwise.map _ (fun m n hne he => hne ?_) List.nodup_range
    have := mintedQualifier_inj (Option.some.inj he)
    omega
  have hs : qualifiers ⊆ scope.map Declaration.qualifier := by
    intro qualifier hm
    obtain ⟨n, hr, rfl⟩ := List.mem_map.mp hm
    have hne : scope.space? (some (mintedQualifier (minted + n))) ≠ none := fun h => hn ⟨n, hr, h⟩
    obtain ⟨space, hsp⟩ := Option.ne_none_iff_exists'.mp hne
    obtain ⟨declaration, hf, -⟩ := Option.map_eq_some_iff.mp hsp
    exact List.mem_map.mpr ⟨declaration, List.mem_of_find?_eq_some hf,
      by simpa using List.find?_some hf⟩
  have := (List.subperm_of_subset hd hs).length_le
  simp only [qualifiers, List.length_map, List.length_range] at this
  exact Nat.not_succ_le_self _ this

/-- A minted qualifier isn't declared. -/
theorem mint_free (scope : Scope) (space : String) (minted : Nat) :
    scope.space? (scope.mint space minted).declaration.qualifier = none := by
  obtain ⟨n, hr, hn⟩ := scope.exists_free minted
  unfold mint
  dsimp only
  cases hf : (List.range (scope.length + 1)).find? fun n =>
      (scope.space? (some (mintedQualifier (minted + n)))).isNone with
  | some found => simpa using List.find?_some hf
  | none =>
    have := List.find?_eq_none.mp hf n hr
    simp [hn] at this

/-- A declaration that is added for attributes has a qualifier that isn't declared, for a namespace
without a qualifier. -/
theorem bind_isNew {minted : Nat} (h : (scope.bind space none true minted).isNew = true) :
    (scope.bind space none true minted).declaration.space = space ∧
      (scope.bind space none true minted).declaration.qualifier ≠ none ∧
      scope.space? (scope.bind space none true minted).declaration.qualifier = none ∧
      scope.declaring? space true = none := by
  unfold bind at h ⊢
  split at h
  · cases h
  · rename_i hx
    rw [if_neg hx]
    split at h
    · cases h
    · rename_i hd
      rw [hd]
      dsimp only at h ⊢
      split
      · rename_i hq
        simp only [Bool.and_eq_true, Option.isSome_iff_ne_none, Option.isNone_iff_eq_none] at hq
        exact ⟨rfl, hq.1, hq.2, rfl⟩
      · exact ⟨rfl, by simp [mint], scope.mint_free space minted, rfl⟩

/-! ## Extended scopes -/

/-- A scope says the same as another one, and maybe more. -/
def Extends (scope former : Scope) : Prop :=
  ∀ qualifier space, former.space? qualifier = some space → scope.space? qualifier = some space

namespace Extends

theorem refl (scope : Scope) : scope.Extends scope := fun _ _ h => h

theorem trans {former middle : Scope} (h : scope.Extends middle) (hm : middle.Extends former) :
    scope.Extends former := fun qualifier space hs => h qualifier space (hm qualifier space hs)

/-- A declaration that is put between others hides none if its qualifier is free. -/
theorem insert (h : (scope ++ outer).space? declaration.qualifier = none) :
    (scope ++ [declaration] ++ outer).Extends (scope ++ outer) := by
  intro qualifier space hs
  rw [space?_append, space?_append, space?_singleton]
  rw [space?_append] at hs
  split
  · rename_i hq
    rw [← space?_append, ← hq, h] at hs
    cases hs
  · rw [Option.or_none]
    exact hs

/-- Attribute names that aren't missing a declaration stand for the same in an extended scope, or are
refused there, too. -/
theorem ofAttribute?_eq {former : Scope} {name : String} (h : scope.Extends former)
    (hk : UniversalName.ofAttribute? former name ≠ .ok none) :
    UniversalName.ofAttribute? scope name = UniversalName.ofAttribute? former name := by
  simp only [UniversalName.ofAttribute?] at hk ⊢
  cases hs : splitQualifier name.toList with
  | none => rfl
  | some parts =>
    obtain ⟨qualifier, localPart⟩ := parts
    cases qualifier with
    | nil => rfl
    | cons c cs =>
      simp only [hs] at hk ⊢
      by_cases hx : String.ofList (c :: cs) = "xml"
      · simp only [hx]
        rfl
      · simp only [if_neg hx] at hk ⊢
        cases hf : former.space? (some (String.ofList (c :: cs))) with
        | none =>
          rw [hf] at hk
          exact absurd rfl hk
        | some space => rw [h _ _ hf]

/-- Attribute names that are resolved stand for the same in an extended scope. -/
theorem ofAttribute? {former : Scope} {name : String} {key : UniversalName}
    (h : scope.Extends former) (hk : UniversalName.ofAttribute? former name = .ok (some key)) :
    UniversalName.ofAttribute? scope name = .ok (some key) :=
  (h.ofAttribute?_eq (by rw [hk]; nofun)).trans hk

end Extends

/-! ## Favoured qualifiers -/

/-- No namespace has several qualifiers. -/
def IsUnambiguous (scope : Scope) : Prop :=
  ∀ one other space, scope.space? one = some space → scope.space? other = some space → one = other

theorem isUnambiguous_nil : IsUnambiguous [] := by
  intro one other space hs
  cases hs

theorem isUnambiguous_singleton (declaration : Declaration) : IsUnambiguous [declaration] := by
  have heq {qualifier : Option String} {space : String}
      (hs : space? [declaration] qualifier = some space) : declaration.qualifier = qualifier := by
    rw [space?_singleton] at hs
    split at hs
    · rename_i hq
      exact hq
    · cases hs
  intro one other space hone hother
  exact (heq hone).symm.trans (heq hother)

/-- Names of elements in the namespace of a qualifier are written with it. -/
def Favours (scope : Scope) (qualifier : Option String) : Prop :=
  ∀ space declaration, scope.space? qualifier = some space →
    scope.declaring? space false = some declaration → declaration.qualifier = qualifier

theorem IsUnambiguous.favours (h : scope.IsUnambiguous) (qualifier : Option String) :
    scope.Favours qualifier := by
  intro space declaration hs hd
  exact h _ _ space (declaring?_eq_some hd).2 hs

theorem space?_insert (hq : qualifier ≠ declaration.qualifier) :
    (scope ++ [declaration] ++ outer).space? qualifier = (scope ++ outer).space? qualifier := by
  rw [space?_append, space?_append, space?_append, space?_singleton, if_neg (Ne.symm hq),
    Option.or_none]

namespace Favours

/-- A qualifier stays favoured when another one is declared for another namespace. -/
theorem insert (h : (scope ++ outer).Favours qualifier)
    (hf : (scope ++ outer).space? declaration.qualifier = none)
    (hne : (scope ++ outer).space? qualifier ≠ some declaration.space)
    (hq : qualifier ≠ declaration.qualifier) :
    (scope ++ [declaration] ++ outer).Favours qualifier := by
  intro space found hs hd
  rw [space?_insert hq] at hs
  have hspace : declaration.space ≠ space := fun he => hne (by rw [hs, he])
  apply h space found hs
  have hsame : ∀ other ∈ scope ++ outer,
      (scope ++ [declaration] ++ outer).space? other.qualifier =
        (scope ++ outer).space? other.qualifier := fun other hm =>
    space?_insert fun he => space?_ne_none hm (he ▸ hf)
  rw [← hd]
  simp only [declaring?]
  rw [List.find?_append, List.find?_append, List.find?_append, List.find?_singleton]
  simp only [beq_iff_eq, hspace, Bool.and_eq_true, false_and, if_false, Option.or_none]
  congr 1
  · exact List.find?_congr fun other hm => by rw [hsame other (List.mem_append_left _ hm)]
  · exact List.find?_congr fun other hm => by rw [hsame other (List.mem_append_right _ hm)]

/-- A qualifier that is declared for attributes is favoured. -/
theorem of_insert (hf : (scope ++ outer).space? declaration.qualifier = none)
    (hd : (scope ++ outer).declaring? declaration.space true = none)
    (hq : ∀ other ∈ scope, other.qualifier ≠ none) :
    (scope ++ [declaration] ++ outer).Favours declaration.qualifier := by
  have hsame : ∀ other ∈ scope ++ outer,
      (scope ++ [declaration] ++ outer).space? other.qualifier =
        (scope ++ outer).space? other.qualifier := fun other hm =>
    space?_insert fun he => space?_ne_none hm (he ▸ hf)
  have hnew : (scope ++ [declaration] ++ outer).space? declaration.qualifier =
      some declaration.space := by
    rw [space?_append, Option.or_eq_none_iff] at hf
    rw [space?_append, space?_append, space?_singleton, if_pos rfl, hf.1, hf.2]
    rfl
  intro space found hs hfound
  obtain rfl : declaration.space = space := Option.some.inj (hnew.symm.trans hs)
  -- none of those in front declares the namespace, since each of them has a qualifier
  have hskip : scope.find? (fun other => other.space == declaration.space &&
      !(false && other.qualifier.isNone) &&
      (scope ++ [declaration] ++ outer).space? other.qualifier == some declaration.space) = none := by
    refine List.find?_eq_none.mpr fun other hm hp => ?_
    simp only [Bool.and_eq_true, beq_iff_eq] at hp
    rw [hsame other (List.mem_append_left _ hm)] at hp
    obtain ⟨known, hk⟩ := exists_declaring? true hp.2 fun _ => hq other hm
    rw [hd] at hk
    cases hk
  simp only [declaring?] at hfound
  rw [List.append_assoc scope, List.find?_append, ← List.append_assoc scope, hskip,
    Option.none_or, List.find?_append, List.find?_singleton, hnew] at hfound
  simp at hfound
  rw [hfound]

end Favours

end Scope
end MarkupPath
