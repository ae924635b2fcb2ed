import MarkupPath.Proofs.Tree.Scopes

/-!
# Names that are written plainly

A plain name is a local part with or without a qualifier, both of which are words without a colon.
An element that is made for a plain name has exactly that name (`newTag_of_isPlain`). Put below the
element that it was made for, it's without the declaration that it was made with, and its name is
written with the qualifier that is declared there (`rebind_of_space?`).
-/

namespace MarkupPath

open Markup

/-! ## Words -/

theorem isNameCharacter_of_mem {word : List Char} {c : Char} (h : isPlainName word = true)
    (hm : c ∈ word) : isNameCharacter c = true := by
  cases word with
  | nil => cases h
  | cons first rest =>
    simp only [isPlainName, Bool.and_eq_true, List.all_eq_true] at h
    rcases List.mem_cons.mp hm with rfl | hm
    · rw [isNameCharacter, h.1, Bool.true_or]
    · exact h.2 c hm

theorem colon_notMem {word : List Char} (h : isPlainName word = true) : ':' ∉ word := fun hm =>
  absurd (isNameCharacter_of_mem h hm) (by decide)

theorem brace_notMem {word : List Char} (h : isPlainName word = true) : '{' ∉ word := fun hm =>
  absurd (isNameCharacter_of_mem h hm) (by decide)

theorem splitQualifier_of_notMem {word : List Char} (h : ':' ∉ word) :
    splitQualifier word = none := by
  rw [splitQualifier, if_neg (by simpa using h)]

/-- A name is split at its last colon. -/
theorem splitQualifier_append {word : List Char} (qualifier : List Char) (h : ':' ∉ word) :
    splitQualifier (qualifier ++ ':' :: word) = some (qualifier, word) := by
  have ht : (qualifier ++ ':' :: word).reverse.takeWhile (· != ':') = word.reverse := by
    rw [List.reverse_append, List.reverse_cons, List.append_assoc, List.takeWhile_append_of_pos]
    · simp
    · intro c hc
      have : c ≠ ':' := fun he => h (he ▸ List.mem_reverse.mp hc)
      simpa using this
  have hl : (qualifier ++ ':' :: word).length - word.length - 1 = qualifier.length := by
    simp only [List.length_append, List.length_cons]
    omega
  rw [splitQualifier, if_pos (by simp), ht, List.reverse_reverse]
  dsimp only
  rw [hl, List.take_left]

/-! ## Names -/

/-- A name is written with words that hold no colon. -/
structure Name.IsPlain (name : Name) : Prop where
  /-- the local part is a word -/
  localPart : isPlainName name.localPart.toList = true
  /-- so is the qualifier, if there's one -/
  qualifier : ∀ qualifier, name.qualifier = some qualifier → isPlainName qualifier.toList = true

/-- No namespace that starts with a brace can be declared. -/
theorem isValid_brace (rest : List Char) : UriReference.isValid ('{' :: rest) = false := by
  have hs : UriReference.skip UriReference.isOfPath ('{' :: rest) = '{' :: rest := by
    rw [UriReference.skip, if_neg (by decide)]
    simp
  have ha : UriReference.isAbsolute ('{' :: rest) = false := by
    simp [UriReference.isAbsolute, UriReference.skipScheme]
  simp [UriReference.isValid, ha, UriReference.skipHierarchy, hs, UriReference.isEnd]

/-- What it takes for a name to pass the check. -/
theorem checkName_eq_ok {qualifier : Option String} {space localPart : String}
    (h : checkName qualifier space localPart = .ok ()) :
    ∃ spaceName, UniversalName.read space = .ok spaceName ∧
      (∃ name, UniversalName.element (some (spaceName.space.getD spaceName.localPart))
        localPart = .ok name) ∧ UriReference.isValid space.toList = true := by
  simp only [checkName] at h
  cases hr : UniversalName.read space with
  | error refusal =>
    rw [hr] at h
    cases h
  | ok spaceName =>
    rw [hr] at h
    cases hp : isPlainName localPart.toList with
    | false =>
      have he : UniversalName.element none localPart = .error (.tagName localPart) := by
        simp [UniversalName.element, hp]
      rw [he] at h
      cases hc : isCompatible localPart <;> simp [hc, bind, Except.bind, throw, throwThe,
        MonadExceptOf.throw] at h
    | true =>
      have he : UniversalName.element none localPart = .ok ⟨none, localPart⟩ := by
        simp [UniversalName.element, hp]
      rw [he] at h
      simp only [bind, Except.bind, pure, Except.pure, throw, throwThe, MonadExceptOf.throw] at h
      refine ⟨spaceName, rfl, ?_⟩
      split at h
      · cases h
      cases hn : UniversalName.element (some (spaceName.space.getD spaceName.localPart))
          localPart with
      | error refusal =>
        rw [hn] at h
        cases h
      | ok name =>
        refine ⟨⟨name, rfl⟩, ?_⟩
        rw [hn] at h
        dsimp only at h
        split at h
        · cases h
        · rename_i hv
          simpa using hv

/-- An element tells a name that was checked. -/
theorem refusal?_of_checkName {qualifier : Option String} {space localPart : String}
    (h : checkName qualifier space localPart = .ok ()) :
    Name.refusal? ⟨qualifier, localPart, some space⟩ = none := by
  obtain ⟨spaceName, hr, ⟨name, hname⟩, hv⟩ := checkName_eq_ok h
  -- the namespace isn't taken apart, since nothing that starts with a brace can be declared
  have hs : spaceName = ⟨none, space⟩ := by
    simp only [UniversalName.read] at hr
    split at hr
    · cases hr
    · split at hr
      · cases hr
      · rename_i rest hl
        rw [hl, isValid_brace] at hv
        cases hv
      · exact (Except.ok.inj hr).symm
  subst hs
  rw [Name.refusal?]
  change UniversalName.element (some space) localPart = .ok name at hname
  rw [hname]

theorem read_of_not_isCompatible {name : String} (h : isCompatible name = false) :
    UniversalName.read name = .error .incompatible := by
  simp [UniversalName.read, h]

/-- A word isn't taken apart. -/
theorem read_of_isPlainName {name : String} (hc : isCompatible name = true)
    (h : isPlainName name.toList = true) : UniversalName.read name = .ok ⟨none, name⟩ := by
  simp only [UniversalName.read]
  rw [hc]
  split
  · rename_i hb
    cases hb
  · split
    · rename_i hl
      rw [hl] at h
      cases h
    · rename_i rest hl
      exact absurd (hl ▸ List.mem_cons_self) (brace_notMem h)
    · rfl

/-- A plain name is split into its qualifier and its local part. -/
theorem splitQualifier_written {name : Name} (hn : name.IsPlain) :
    ∃ front back, (splitQualifier name.written.toList).getD ([], name.written.toList) =
        (front, back) ∧
      (if front.isEmpty then none else some (String.ofList front)) = name.qualifier ∧
      String.ofList back = name.localPart := by
  have hl := colon_notMem hn.localPart
  cases hq : name.qualifier with
  | none =>
    refine ⟨[], name.localPart.toList, ?_, rfl, String.ofList_toList⟩
    rw [Name.written, hq, splitQualifier_of_notMem hl]
    rfl
  | some word =>
    have hw := hn.qualifier word hq
    have hempty : word.toList.isEmpty = false := by
      cases hc : word.toList with
      | nil =>
        rw [hc] at hw
        cases hw
      | cons c cs => rfl
    refine ⟨word.toList, name.localPart.toList, ?_, ?_, String.ofList_toList⟩
    · rw [Name.written, hq]
      simp only [String.toList_append, List.append_assoc]
      exact congrArg (Option.getD · _) (splitQualifier_append _ hl)
    · rw [hempty, if_neg Bool.false_ne_true, String.ofList_toList]

/-- The tag of an element that is made for a plain name. Either its namespace is declared, or it has
none. -/
theorem newTag_of_isPlain {scope : Scope} {name : Name} {made : Tag} {minted : Nat}
    (hn : name.IsPlain) (h : newTag scope name.written = .ok (made, minted)) :
    (∃ space, scope.space? name.qualifier = some space ∧
        Name.refusal? ⟨name.qualifier, name.localPart, some space⟩ = none ∧
        made = { id := ⟨0⟩, name := ⟨name.qualifier, name.localPart, some space⟩,
                 declarations := [⟨name.qualifier, space⟩] }) ∨
      (name.qualifier = none ∧
        Name.refusal? ⟨none, name.localPart, none⟩ = none ∧
        made = { id := ⟨0⟩, name := ⟨none, name.localPart, none⟩ }) := by
  obtain ⟨front, back, hparts, hq, hl⟩ := splitQualifier_written hn
  simp only [newTag, hparts, hq, hl] at h
  split at h
  · cases h
  · rename_i space hs
    cases hc : checkName name.qualifier space name.localPart with
    | error refusal =>
      rw [hc] at h
      cases h
    | ok _ =>
      rw [hc] at h
      cases h
      exact .inl ⟨space, hs, refusal?_of_checkName hc, rfl⟩
  · rename_i hnone hs
    -- without a qualifier the name might be in universal form, but a word isn't
    have he : UniversalName.element none name.localPart = .ok ⟨none, name.localPart⟩ := by
      simp [UniversalName.element, hn.localPart]
    cases hc : isCompatible name.localPart with
    | false =>
      rw [read_of_not_isCompatible hc] at h
      cases h
    | true =>
      rw [read_of_isPlainName hc hn.localPart] at h
      dsimp only at h
      rw [he] at h
      cases h
      exact .inr ⟨hnone, by rw [Name.refusal?, he], rfl⟩

/-- A new element without a namespace is put anywhere as it is. -/
theorem rebind_of_noSpace (scope : Scope) (count : Nat) (id : NodeId) (localPart : String) :
    (Element.rebind scope count ⟨{ id, name := ⟨none, localPart, none⟩ }, .nil⟩).1 =
      ⟨{ id, name := ⟨none, localPart, none⟩ }, .nil⟩ := rfl

/-- The declaration of a new element is dropped where its namespace is declared, and its name is
written with the qualifier that is declared there. -/
theorem rebind_of_space? {scope : Scope} {qualifier : Option String} {space : String}
    (hs : scope.space? qualifier = some space) (count : Nat) (id : NodeId) (localPart : String) :
    ∃ declaration, scope.declaring? space false = some declaration ∧
      (Element.rebind scope count
        ⟨{ id, name := ⟨qualifier, localPart, some space⟩,
           declarations := [⟨qualifier, space⟩] }, .nil⟩).1 =
        ⟨{ id, name := ⟨declaration.qualifier, localPart, some space⟩ }, .nil⟩ := by
  obtain ⟨declaration, hd⟩ := Scope.exists_declaring? false hs nofun
  refine ⟨declaration, hd, ?_⟩
  simp [Element.rebind, Rebinding.dropRepeated, hd, Rebinding.rename, Rebinding.renameAttributes,
    Rebinding.renameContent]

end MarkupPath
