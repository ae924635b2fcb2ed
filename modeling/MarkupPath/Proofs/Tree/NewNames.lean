import MarkupPath.Proofs.Tree.Naming

/-!
# The names of new elements

Whatever name an element is made for, the name that it gets is plain and can be told
(`newTag_isMade`). It's the one that was asked for if that is plain. Others are taken, too: those
that start with a colon, which is dropped, and universal ones, whose namespace is bound to a
qualifier if it isn't the default one.

What the name stands for, `UniversalName.ofElement?` says; that doesn't change when the element is
put somewhere else.
-/

namespace MarkupPath

open Markup

/-! ## The parts of a written name -/

/-- A name that is split was written with a colon between its parts. -/
theorem eq_of_splitQualifier {name qualifier localPart : List Char}
    (h : splitQualifier name = some (qualifier, localPart)) :
    name = qualifier ++ ':' :: localPart := by
  have hm : ':' ∈ name.reverse := by
    by_contra hn
    rw [splitQualifier_of_notMem fun hm => hn (List.mem_reverse.mpr hm)] at h
    cases h
  -- the last colon is the first one from behind
  obtain ⟨back, front, hsplit, hback⟩ := List.eq_append_cons_of_mem hm
  have hname : name = front.reverse ++ ':' :: back.reverse := by
    rw [← name.reverse_reverse, hsplit]
    simp
  rw [hname, splitQualifier_append _ fun hm => hback (List.mem_reverse.mp hm)] at h
  cases h
  exact hname

/-- The qualifier of a written name, which may be absent, and its local part. -/
def splitName (name : String) : Option String × String :=
  match splitQualifier name.toList with
  | none => (none, name)
  | some ([], localPart) => (none, String.ofList localPart)
  | some (qualifier, localPart) => (some (String.ofList qualifier), String.ofList localPart)

theorem exists_nameParts (name : String) :
    ∃ front back, (splitQualifier name.toList).getD ([], name.toList) = (front, back) ∧
      (if front.isEmpty then none else some (String.ofList front)) = (splitName name).1 ∧
      String.ofList back = (splitName name).2 := by
  refine ⟨_, _, rfl, ?_⟩
  simp only [splitName]
  cases splitQualifier name.toList with
  | none => exact ⟨rfl, String.ofList_toList⟩
  | some parts =>
    obtain ⟨_ | ⟨c, front⟩, back⟩ := parts
    · exact ⟨rfl, rfl⟩
    · exact ⟨rfl, rfl⟩

theorem splitName_written {name : Name} (h : name.IsPlain) :
    splitName name.written = (name.qualifier, name.localPart) := by
  obtain ⟨front, back, hparts, hq, hl⟩ := splitQualifier_written h
  obtain ⟨other, rest, hparts', hq', hl'⟩ := exists_nameParts name.written
  obtain ⟨rfl, rfl⟩ := Prod.mk.inj (hparts.symm.trans hparts')
  exact Prod.ext (hq'.symm.trans hq) (hl'.symm.trans hl)

/-- Only a colon at the start is lost when a name is split. -/
theorem written_splitName (name : String) (space : Option String) :
    Name.written ⟨(splitName name).1, (splitName name).2, space⟩ = name ∨
      name.toList.head? = some ':' := by
  simp only [splitName]
  cases hs : splitQualifier name.toList with
  | none => exact .inl rfl
  | some parts =>
    have hname := eq_of_splitQualifier hs
    obtain ⟨_ | ⟨c, front⟩, back⟩ := parts
    · exact .inr (by rw [hname]; rfl)
    · refine .inl (String.toList_injective ?_)
      simp [Name.written, hname]

/-- What the name of an element stands for if it's made where `scope` is in effect. Without a
qualifier it's in the default namespace, or if there's none it may be universal. -/
def UniversalName.ofElement? (scope : Scope) (name : String) : Option UniversalName :=
  match scope.space? (splitName name).1 with
  | some space => some ⟨some space, (splitName name).2⟩
  | none => if (splitName name).1.isSome then none else (read (splitName name).2).toOption

/-! ## Plain parts -/

/-- If a namespace holds a brace, what is behind that can't be part of a word. -/
theorem isPlainName_of_join {space localPart : String}
    (h : isPlainName (UniversalName.join space localPart).localPart.toList = true) :
    isPlainName localPart.toList = true := by
  rw [UniversalName.join, UniversalName.ofBraced, String.toList_ofList, List.dropWhile_append] at h
  split at h
  · simpa using h
  · rename_i hs
    cases hd : space.toList.dropWhile (· != '}') with
    | nil => simp [hd] at hs
    | cons c rest =>
      rw [hd] at h
      have hbrace : '}' ∈ rest ++ '}' :: localPart.toList := by simp
      exact absurd (isNameCharacter_of_mem h hbrace) (by decide)

theorem UniversalName.isPlainName_of_element {space : Option String} {localPart : String}
    {known : UniversalName} (h : UniversalName.element space localPart = .ok known) :
    isPlainName localPart.toList = true := by
  cases space with
  | none =>
    simp only [UniversalName.element] at h
    split at h
    · rename_i hplain
      exact hplain
    · cases h
  | some space =>
    simp only [UniversalName.element] at h
    split at h
    · rename_i hplain
      exact isPlainName_of_join hplain
    · cases h

/-- A name that passes the check is plain. -/
theorem isPlain_of_checkName {qualifier : Option String} {space localPart : String}
    (h : checkName qualifier space localPart = .ok ()) :
    Name.IsPlain ⟨qualifier, localPart, some space⟩ := by
  obtain ⟨spaceName, hr, ⟨known, hn⟩, hv⟩ := checkName_eq_ok h
  refine ⟨UniversalName.isPlainName_of_element hn, ?_⟩
  rintro word rfl
  -- the qualifier is checked last
  by_contra hq
  simp only [checkName, hr, hv, hq, bind, Except.bind] at h
  split at h
  · cases h
  · split at h
    · cases h
    · split at h
      · cases h
      · cases h

theorem isPlainName_customary {space word : String} (h : customaryQualifier? space = some word) :
    isPlainName word.toList = true := by
  obtain ⟨⟨address, qualifier⟩, hf, rfl⟩ := Option.map_eq_some_iff.mp h
  have hplain : ∀ pair ∈ customaryQualifiers, isPlainName pair.2.toList = true := by decide
  exact hplain _ (List.mem_of_find?_eq_some hf)

theorem isNameCharacter_of_isDigit {c : Char} (h : c.isDigit = true) :
    isNameCharacter c = true := by
  have hdigit : 0x30 ≤ c.toNat ∧ c.toNat ≤ 0x39 := by
    simp only [Char.isDigit, Bool.and_eq_true, decide_eq_true_eq, ge_iff_le,
      UInt32.le_iff_toNat_le] at h
    exact h
  rw [isNameCharacter, Bool.or_eq_true]
  exact .inr (List.any_eq_true.mpr ⟨(0x30, 0x39), by decide, by simpa using hdigit⟩)

theorem isPlainName_mintedQualifier (n : Nat) : isPlainName (mintedQualifier n).toList = true := by
  have hlist : (mintedQualifier n).toList = 'n' :: ('s' :: Nat.toDigits 10 n) := by
    rw [mintedQualifier, String.toList_append]
    exact congrArg _ Nat.toList_repr
  rw [hlist, isPlainName, Bool.and_eq_true, List.all_eq_true]
  refine ⟨by decide, fun c hc => ?_⟩
  rcases List.mem_cons.mp hc with rfl | hc
  · decide
  · exact isNameCharacter_of_isDigit (Nat.isDigit_of_mem_toDigits (by decide) (by decide) hc)

/-- Where nothing is declared a namespace is bound to a qualifier that is a word. -/
theorem exists_bind_nil (space : String) :
    ∃ word, (Scope.bind [] space none false 0).declaration = ⟨some word, space⟩ ∧
      isPlainName word.toList = true := by
  unfold Scope.bind
  split
  · rename_i hx
    exact ⟨"xml", by rw [hx], by decide⟩
  · rw [show Scope.declaring? [] space false = none from rfl]
    dsimp only
    split
    · rename_i hq
      obtain ⟨word, hw⟩ := Option.isSome_iff_exists.mp (Bool.and_eq_true _ _ ▸ hq).1
      have hcustomary : customaryQualifier? space = some word := by simpa using hw
      exact ⟨word, by rw [hw], isPlainName_customary hcustomary⟩
    · exact ⟨_, rfl, isPlainName_mintedQualifier _⟩

/-! ## New tags -/

/-- The universal name that a word in universal form stands for is that of an element if the local
part is a word. -/
theorem UniversalName.element_of_ofBraced {rest : List Char} {space : String}
    (hs : (ofBraced rest).space = some space)
    (hl : isPlainName (ofBraced rest).localPart.toList = true) :
    ∃ known, element (some space) (ofBraced rest).localPart = .ok known := by
  have hspace : space.toList = rest.takeWhile (· != '}') := by
    simp only [ofBraced] at hs
    split at hs
    · cases hs
    · rw [← Option.some.inj hs, String.toList_ofList]
  -- the namespace was taken up to the first closing brace, so it holds none
  have hjoin : (join space (ofBraced rest).localPart).localPart = (ofBraced rest).localPart := by
    generalize (ofBraced rest).localPart = localPart
    rw [join, ofBraced, List.dropWhile_append_of_pos fun c hc => ?_]
    · simp
    · exact List.all_eq_true.mp List.all_takeWhile c (hspace ▸ hc)
  refine ⟨join space (ofBraced rest).localPart, ?_⟩
  rw [element, hjoin, if_pos hl]

/-- What is known of the tag of an element that was made for a name where `scope` is in effect. -/
structure Tag.IsMade (scope : Scope) (name : String) (made : Tag) : Prop where
  /-- its name is plain -/
  plain : made.name.IsPlain
  /-- and can be told -/
  told : made.name.refusal? = none
  /-- it's what was asked for -/
  named : UniversalName.ofElement? scope name = some ⟨made.name.space, made.name.localPart⟩
  /-- it's written as it was asked for, unless that is no plain name -/
  written : made.name.written = name ∨ name.toList.head? = some ':' ∨ name.toList.head? = some '{'
  /-- the only declaration there may be is of its qualifier -/
  declarations : ∀ declaration ∈ made.declarations, declaration.qualifier = made.name.qualifier
  /-- there are no attributes -/
  attributes : made.attributes = []
  /-- there's no text -/
  text : made.text = none

/-- What is read as a universal name is in universal form, or is taken as it is. -/
theorem UniversalName.read_eq_ok {name : String} {key : UniversalName} (h : read name = .ok key) :
    key = ⟨none, name⟩ ∨ ∃ rest, name.toList = '{' :: rest ∧ key = ofBraced rest := by
  simp only [read] at h
  split at h
  · cases h
  · split at h
    · cases h
    · rename_i rest hl
      split at h
      · cases h
      · split at h
        · cases h
        · exact .inr ⟨rest, hl, (Except.ok.inj h).symm⟩
    · exact .inl (Except.ok.inj h).symm

/-- A name without a qualifier that is read is taken as it is, or it starts with one of two
characters. -/
theorem head?_of_read {name localPart : String} {key : UniversalName}
    (hn : localPart = name ∨ name.toList.head? = some ':')
    (h : UniversalName.read localPart = .ok key) :
    key = ⟨none, name⟩ ∨ name.toList.head? = some ':' ∨ name.toList.head? = some '{' := by
  rcases hn with rfl | hc
  · refine (UniversalName.read_eq_ok h).imp_right ?_
    rintro ⟨rest, hl, -⟩
    exact .inr (by rw [hl]; rfl)
  · exact .inr (.inl hc)

theorem newTag_isMade {scope : Scope} {name : String} {made : Tag} {minted : Nat}
    (h : newTag scope name = .ok (made, minted)) : made.IsMade scope name := by
  obtain ⟨front, back, hparts, hq, hl⟩ := exists_nameParts name
  simp only [newTag, hparts, hq, hl] at h
  have hwritten := written_splitName name
  split at h
  · cases h
  · -- the namespace is declared
    rename_i hs
    split at h
    · cases h
    · rename_i hc
      cases h
      exact ⟨isPlain_of_checkName hc, refusal?_of_checkName hc,
        by rw [UniversalName.ofElement?, hs], (hwritten _).imp_right .inl, by simp, rfl, rfl⟩
  · rename_i hnone hs
    rw [hnone] at hs hwritten
    split at h
    · cases h
    rename_i key hread
    have hnamed : UniversalName.ofElement? scope name = some key := by
      rw [UniversalName.ofElement?, hnone, hs, hread]
      rfl
    have hhead := head?_of_read (hwritten none) hread
    split at h
    · cases h
    rename_i known hknown
    have hplain := UniversalName.isPlainName_of_element hknown
    split at h
    · rename_i hspace
      cases h
      refine ⟨⟨hplain, by rintro _ ⟨⟩⟩, ?_, by rw [hnamed, ← hspace], ?_, by simp, rfl, rfl⟩
      · rw [Name.refusal?, hknown]
      · exact hhead.imp_left fun hk => by rw [hk]; rfl
    · rename_i space hspace
      split at h
      · cases h
      · cases h
        obtain ⟨word, hbound, hword⟩ := exists_bind_nil space
        rw [hbound]
        refine ⟨⟨hplain, ?_⟩, ?_, by rw [hnamed, ← hspace], ?_, ?_, rfl, rfl⟩
        · rintro qualifier ⟨⟩
          exact hword
        · -- the namespace was read up to the closing brace, so it's read like that again
          rcases UniversalName.read_eq_ok hread with rfl | ⟨rest, -, rfl⟩
          · cases hspace
          · obtain ⟨told, ht⟩ := UniversalName.element_of_ofBraced hspace hplain
            rw [Name.refusal?, ht]
        · refine .inr (hhead.resolve_left ?_)
          rintro rfl
          cases hspace
        · split <;> simp

/-! ## Other places -/

theorem Rebinding.rename_parts (state : Rebinding) (outer : Scope) (forAttribute : Bool)
    (name : Name) : (state.rename outer forAttribute name).1.localPart = name.localPart ∧
      (state.rename outer forAttribute name).1.space = name.space := by
  unfold Rebinding.rename
  split
  · exact ⟨rfl, rfl⟩
  · dsimp only
    split <;> exact ⟨rfl, rfl⟩

/-- An element that contains nothing and has no attributes is put somewhere else with nothing but
another qualifier and other declarations. -/
theorem rebind_bare {tag bound : Tag} {outer : Scope} {count : Nat} (ha : tag.attributes = [])
    (h : (Element.rebind outer count ⟨tag, .nil⟩).1 = ⟨bound, .nil⟩) :
    bound.name.localPart = tag.name.localPart ∧ bound.name.space = tag.name.space ∧
      bound.attributes = [] ∧ bound.text = tag.text := by
  obtain rfl : _ = bound := congrArg Element.tag h
  refine ⟨(Rebinding.rename_parts ..).1, (Rebinding.rename_parts ..).2, ?_, rfl⟩
  simp [Element.rebind, ha, Rebinding.renameAttributes]

end MarkupPath
