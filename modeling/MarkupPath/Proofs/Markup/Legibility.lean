import MarkupPath.Proofs.Markup.SingleRoot
import MarkupPath.Proofs.Tree.Legibility

/-!
# The names in markup

All names in what is read as a document are legible (`isLegible_readBytes`). A qualifier is what
stands in front of the first colon of a name. What is declared, on the other hand, is what stands
behind that, and may hold more colons. A qualifier that isn't declared belongs to the local part.
-/

namespace MarkupPath.Markup

open StepReader

/-! ## Names -/

/-- Both parts of a name are legible as they're read. -/
structure WrittenName.IsLegible (name : WrittenName) : Prop where
  /-- the local part is, so that it may become a qualifier where it's declared -/
  localPart : IsName name.localPart.toList
  /-- the qualifier is, if there's one -/
  qualifier : IsLegibleQualifier name.qualifier

theorem WrittenName.IsLegible.of_none {word : List Char} (h : IsName word) :
    WrittenName.IsLegible ⟨none, String.ofList word⟩ := by
  refine ⟨?_, isLegibleQualifier_none⟩
  rwa [String.toList_ofList]

theorem WrittenName.IsLegible.of_some {front back : List Char} (hf : IsName front)
    (hb : IsName back) :
    WrittenName.IsLegible ⟨some (String.ofList front), String.ofList back⟩ := by
  refine ⟨?_, isLegibleQualifier_of_isName ?_⟩
  · rwa [String.toList_ofList]
  · rwa [String.toList_ofList]

theorem isName_of_readPlainName {cs name rest : List Char}
    (h : readPlainName cs = some (name, rest)) : IsName name := by
  simp only [readPlainName] at h
  split at h
  · rename_i hp
    cases h
    exact .of_isPlainName hp
  · cases h

theorem isNameLetter_of_isOfName {c : Char} (h : isOfName c = true) :
    Progress.isNameLetter c = true := by
  rw [isOfName, Bool.or_eq_true, beq_iff_eq] at h
  rcases h with h | rfl
  · exact isNameLetter_of_isNameCharacter h
  · decide

theorem isNameLetter_of_mem_takeWhile {cs : List Char} :
    ∀ c ∈ cs.takeWhile isOfName, Progress.isNameLetter c = true := by
  intro c hc
  exact isNameLetter_of_isOfName (List.mem_takeWhile_imp hc)

/-- A name may start with a colon, but not with a dot. -/
theorem isName_of_readAnyName {cs name rest : List Char}
    (h : readAnyName cs = some (name, rest)) : IsName name := by
  cases cs with
  | nil => cases h
  | cons first cs =>
    rw [readAnyName] at h
    split at h
    · rename_i hs
      cases h
      have hfirst : isOfName first = true := by
        rw [isOfName, isNameCharacter]
        simp only [Bool.or_eq_true] at hs ⊢
        exact hs.imp_left .inl
      refine ⟨List.cons_ne_nil _ _, List.forall_mem_cons.mpr ?_, ?_⟩
      · exact ⟨isNameLetter_of_isOfName hfirst, isNameLetter_of_mem_takeWhile⟩
      · intro hdot
        obtain rfl := Option.some.inj hdot
        exact absurd hs (by decide)
    · cases h

theorem readName_isLegible {cs rest : List Char} {name : WrittenName}
    (h : readName cs = some (name, rest)) : name.IsLegible := by
  simp only [readName] at h
  split at h
  · obtain ⟨⟨any, rest'⟩, ha, he⟩ := Option.map_eq_some_iff.mp h
    cases he
    exact .of_none (isName_of_readAnyName ha)
  · rename_i first behind hfirst
    have hfront := isName_of_readPlainName hfirst
    split at h
    · cases h
      exact .of_none (hfront.append
        (List.forall_mem_cons.mpr ⟨by decide, isNameLetter_of_mem_takeWhile⟩))
    · rename_i second third hsecond
      cases h
      -- further colons stay in the local part
      refine .of_some hfront ((isName_of_readPlainName hsecond).append
        (List.forall_mem_cons.mpr ⟨by decide, ?_⟩))
      cases ha : readAnyName third with
      | none => exact List.forall_mem_nil _
      | some any => exact (isName_of_readAnyName ha).letters
    · rename_i hsecond
      cases h
      exact .of_some hfront (isName_of_readPlainName hsecond)
  · rename_i hfirst
    cases h
    exact .of_none (isName_of_readPlainName hfirst)

/-! ## Tokens -/

/-- The names in a start tag are legible. -/
def Token.IsLegible : Token → Prop
  | startTag name attributes _ => name.IsLegible ∧ ∀ attr ∈ attributes, attr.1.IsLegible
  | _ => True

theorem readAttributes_isLegible {cs rest : List Char} {closed : Bool}
    {attributes : List (WrittenName × String)}
    (h : readAttributes cs = some (attributes, closed, rest)) :
    ∀ attr ∈ attributes, attr.1.IsLegible := by
  induction hn : cs.length using Nat.strongRecOn generalizing cs attributes with
  | ind n ih =>
    subst hn
    rw [readAttributes] at h
    split at h
    · cases h
      exact List.forall_mem_nil _
    · cases h
      exact List.forall_mem_nil _
    · split at h
      · cases h
      · split at h
        · cases h
        · rename_i attr behind ha
          obtain ⟨⟨others, closed', rest'⟩, hr, he⟩ := Option.map_eq_some_iff.mp h
          cases he
          have hlength := Nat.lt_of_lt_of_le (length_readAttribute ha)
            (length_dropWhile_le isSpace cs)
          refine List.forall_mem_cons.mpr ⟨?_, ih _ hlength hr rfl⟩
          unfold readAttribute at ha
          split at ha
          · cases ha
          · rename_i hname
            split at ha
            · cases ha
            · obtain ⟨value, -, he⟩ := Option.map_eq_some_iff.mp ha
              cases he
              exact readName_isLegible hname

theorem readMarkup_isLegible {cs rest : List Char} {token : Token}
    (h : readMarkup cs = some (token, rest)) : token.IsLegible := by
  unfold readMarkup at h
  split at h
  · unfold readComment at h
    split at h
    · cases h
      trivial
    · cases h
  · obtain ⟨⟨body, rest'⟩, -, he⟩ := Option.map_eq_some_iff.mp h
    cases he
    trivial
  · simp only [readInstruction] at h
    split at h
    · cases h
    · split at h
      · cases h
      · split at h
        · cases h
        · obtain ⟨data, -, he⟩ := Option.map_eq_some_iff.mp h
          cases he
          trivial
  · split at h
    · cases h
    · split at h
      · cases h
        trivial
      · cases h
  · split at h
    · cases h
    · rename_i hname
      obtain ⟨⟨attributes, closed, rest'⟩, ha, he⟩ := Option.map_eq_some_iff.mp h
      cases he
      exact ⟨readName_isLegible hname, readAttributes_isLegible ha⟩
  · cases h

theorem ofStretch_isLegible (text : List Char) (follower : Follower) :
    ∀ token ∈ Token.ofStretch text follower, token.IsLegible := by
  intro token hm
  rw [Token.ofStretch] at hm
  split at hm
  · cases hm
  · split at hm
    · obtain rfl := List.mem_singleton.mp hm
      trivial
    · obtain rfl := List.mem_singleton.mp hm
      trivial

theorem ofText_isLegible (follower : Follower) (collected text : List Char) :
    ∀ token ∈ Token.ofText follower collected text, token.IsLegible := by
  have happend {front back : List Token} (hf : ∀ token ∈ front, token.IsLegible)
      (hb : ∀ token ∈ back, token.IsLegible) : ∀ token ∈ front ++ back, token.IsLegible :=
    fun token hm => (List.mem_append.mp hm).elim (hf token) (hb token)
  induction collected, text using Token.ofText.induct with
  | case1 collected =>
    rw [Token.ofText]
    exact ofStretch_isLegible _ _
  | case2 collected rest hplain ih =>
    rw [Token.ofText, if_pos hplain]
    exact happend (ofStretch_isLegible _ _) ih
  | case3 collected rest hplain =>
    rw [Token.ofText, if_neg hplain]
    exact happend (ofStretch_isLegible _ _) (ofStretch_isLegible _ _)
  | case4 collected c rest hline hplain ih =>
    rw [Token.ofText, if_pos hplain]
    · exact ih
    · exact hline
  | case5 collected c rest hline hplain =>
    rw [Token.ofText, if_neg hplain]
    · exact happend (ofStretch_isLegible _ _) (ofStretch_isLegible _ _)
    · exact hline

theorem readTokens_isLegible {cs rest : List Char} {tokens : List Token}
    (h : readTokens cs = some (tokens, rest)) : ∀ token ∈ tokens, token.IsLegible := by
  unfold readTokens at h
  split at h
  · obtain ⟨⟨token, rest'⟩, hm, he⟩ := Option.map_eq_some_iff.mp h
    cases he
    exact List.forall_mem_singleton.mpr (readMarkup_isLegible hm)
  · split at h
    · cases h
    · obtain ⟨c, -, he⟩ := Option.map_eq_some_iff.mp h
      cases he
      exact List.forall_mem_singleton.mpr trivial
  · simp only at h
    split at h
    · cases h
    · cases h
      exact ofText_isLegible _ _ _

/-- All names in the tokens of a document are legible. -/
theorem ofMarkup_isLegible {cs : List Char} {tokens : List Token}
    (h : Token.ofMarkup cs = some tokens) : ∀ token ∈ tokens, token.IsLegible := by
  rw [Token.ofMarkup] at h
  split at h
  · rename_i hc
    clear hc
    induction hn : cs.length using Nat.strongRecOn generalizing cs tokens with
    | ind n ih =>
      subst hn
      cases cs with
      | nil =>
        rw [Token.readAll] at h
        cases h
        exact List.forall_mem_nil _
      | cons c cs =>
        rw [Token.readAll] at h
        split at h
        · cases h
        · rename_i front rest hr
          obtain ⟨back, hb, rfl⟩ := Option.map_eq_some_iff.mp h
          have hback := ih _ (length_readTokens hr (List.cons_ne_nil _ _)) hb rfl
          intro token hm
          exact (List.mem_append.mp hm).elim (readTokens_isLegible hr token) (hback token)
  · cases h

/-! ## Start tags -/

theorem isLegible_declarationsOf {attributes : List (WrittenName × String)}
    (h : ∀ attr ∈ attributes, attr.1.IsLegible) : Scope.IsLegible (declarationsOf attributes) := by
  intro declaration hm
  obtain ⟨⟨name, value⟩, ha, hd⟩ := List.mem_filterMap.mp hm
  obtain ⟨qualifier, hq, hd⟩ := Option.bind_eq_some_iff.mp hd
  have hqualifier : IsLegibleQualifier qualifier := by
    rw [declared?] at hq
    split at hq
    · -- what is declared stands behind the qualifier of the attribute
      rename_i hx
      cases hq
      exact isLegibleQualifier_of_isName (h _ ha).localPart
    · split at hq
      · cases hq
        exact isLegibleQualifier_none
      · cases hq
  unfold declarationOf at hd
  split at hd
  · split at hd
    · cases hd
    · cases hd
      exact isLegibleQualifier_none
  · cases hd
  · dsimp only at hd
    split at hd
    · cases hd
    · cases hd
      exact hqualifier

/-- A name is resolved to one with the qualifier that is written. If that isn't declared, it becomes
a part of the local part. -/
theorem isLegible_resolve {name : WrittenName} (h : name.IsLegible) (scope : Scope)
    (forAttribute : Bool) : (resolve scope forAttribute name).IsLegible := by
  unfold resolve
  split
  · exact ⟨h.localPart, isLegibleQualifier_none⟩
  · exact ⟨h.localPart, isLegibleQualifier_of_isName (.of_isPlainName (by decide))⟩
  · rename_i qualifier _ hq
    have hqualifier : IsLegibleQualifier (some qualifier) := hq ▸ h.qualifier
    split
    · exact ⟨h.localPart, hqualifier⟩
    · have hwritten : Name.IsLegible ⟨some qualifier, name.localPart, none⟩ :=
        ⟨h.localPart, hqualifier⟩
      exact ⟨hwritten.isName, isLegibleQualifier_none⟩

theorem isLegible_ofStartTag {scope : Scope} {spacing : Spacing} {written : WrittenName}
    {attributes : List (WrittenName × String)} {element : OpenElement} {notices : List Notice}
    (hw : written.IsLegible) (ha : ∀ attr ∈ attributes, attr.1.IsLegible)
    (h : OpenElement.ofStartTag scope spacing written attributes = some (element, notices)) :
    element.tag.IsLegible ∧ element.children = [] := by
  unfold OpenElement.ofStartTag at h
  dsimp only at h
  split at h
  · cases h
  · cases h
    refine ⟨⟨isLegible_resolve hw _ _, isLegible_declarationsOf ha, fun attr hm => ?_⟩, rfl⟩
    obtain ⟨⟨name, value⟩, hn, rfl⟩ := List.mem_map.mp hm
    exact (isLegible_resolve (ha _ (List.mem_filter.mp hn).1) _ _).qualifier

/-! ## Nesting -/

/-- All tags in a child are legible. -/
def Child.IsLegible : Child → Prop
  | element tag children => tag.IsLegible ∧ children.IsLegible
  | _ => True

theorem isLegible_contentOf {children : List (Child × Option String)}
    (h : ∀ child ∈ children, child.1.IsLegible) : (contentOf children).IsLegible := by
  induction children using List.reverseRecOn with
  | nil => trivial
  | append_singleton children first ih =>
    obtain ⟨child, tail⟩ := first
    have hfirst : child.IsLegible := h _ (List.mem_append_right _ List.mem_cons_self)
    have hrest := ih fun other hm => h other (List.mem_append_left _ hm)
    rw [contentOf_concat]
    cases child with
    | element tag content => exact ⟨hfirst.1, hfirst.2, hrest⟩
    | comment text => exact hrest
    | instruction target data => exact hrest

/-- All tags in an open element are legible. -/
structure OpenElement.IsLegible (element : OpenElement) : Prop where
  /-- its own is -/
  tag : element.tag.IsLegible
  /-- those in what it contains so far -/
  children : ∀ child ∈ element.children, child.1.IsLegible

theorem OpenElement.IsLegible.addText {element : OpenElement} (h : element.IsLegible)
    (text : String) : (element.addText text).IsLegible := by
  have htag := h.tag
  rw [OpenElement.addText]
  split
  · exact ⟨⟨htag.name, htag.declarations, htag.attributes⟩, h.children⟩
  · rename_i child tail others hc
    have hchildren := h.children
    rw [hc] at hchildren
    exact ⟨htag, List.forall_mem_cons.mpr (List.forall_mem_cons.mp hchildren)⟩

theorem OpenElement.IsLegible.keepText {element : OpenElement} (h : element.IsLegible)
    (text : String) : (element.keepText text).IsLegible := by
  have htext := h.addText text
  exact ⟨htext.tag, htext.children⟩

namespace Outline

variable {outline next : Outline} {keepBlanks : Bool}

/-- All tags in what has been read are legible. -/
structure IsLegible (outline : Outline) : Prop where
  /-- those in open elements -/
  path : ∀ element ∈ outline.path, element.IsLegible
  /-- those in what is complete -/
  children : ∀ child ∈ outline.children, child.1.IsLegible

theorem IsLegible.notice (h : outline.IsLegible) (notices : List Notice) :
    (outline.notice notices).IsLegible :=
  ⟨h.path, h.children⟩

theorem IsLegible.addChild {child : Child} (h : outline.IsLegible) (hc : child.IsLegible) :
    (outline.addChild child).IsLegible := by
  rw [Outline.addChild]
  split
  · exact ⟨h.path, List.forall_mem_cons.mpr ⟨hc, h.children⟩⟩
  · rename_i element outer hp
    obtain ⟨helement, houter⟩ := List.forall_mem_cons.mp (hp ▸ h.path)
    have hadded : (element.addChild child).IsLegible :=
      ⟨helement.tag, List.forall_mem_cons.mpr ⟨hc, helement.children⟩⟩
    exact ⟨List.forall_mem_cons.mpr ⟨hadded, houter⟩, h.children⟩

theorem IsLegible.close {written : WrittenName} (h : outline.IsLegible)
    (hc : outline.close written = some next) : next.IsLegible := by
  rw [Outline.close] at hc
  split at hc
  · cases hc
  · rename_i element outer hp
    split at hc
    · cases hc
      obtain ⟨helement, houter⟩ := List.forall_mem_cons.mp (hp ▸ h.path)
      have hrest : IsLegible { outline with path := outer } := ⟨houter, h.children⟩
      exact hrest.addChild ⟨helement.tag, isLegible_contentOf helement.children⟩
    · cases hc

/-- The innermost open element is changed. -/
theorem IsLegible.change {element changed : OpenElement} {outer : List OpenElement}
    (h : outline.IsLegible) (hp : outline.path = element :: outer)
    (hc : element.IsLegible → changed.IsLegible) :
    IsLegible { outline with path := changed :: outer } := by
  obtain ⟨helement, houter⟩ := List.forall_mem_cons.mp (hp ▸ h.path)
  exact ⟨List.forall_mem_cons.mpr ⟨hc helement, houter⟩, h.children⟩

theorem IsLegible.addText {text : String} {add : OpenElement → OpenElement}
    (h : outline.IsLegible) (ha : ∀ element, element.IsLegible → (add element).IsLegible)
    (ht : outline.addText text add = some next) : next.IsLegible := by
  rw [Outline.addText] at ht
  split at ht
  · split at ht
    · cases ht
      exact h
    · cases ht
  · rename_i element outer hp
    cases ht
    exact h.change hp (ha element)

theorem IsLegible.take {token : Token} (h : outline.IsLegible) (htoken : token.IsLegible)
    (ht : outline.take keepBlanks token = some next) : next.IsLegible := by
  cases token with
  | startTag name attributes closed =>
    obtain ⟨scope, spacing, element, notices, hstart, -, hnext⟩ := take_startTag ht
    obtain ⟨htag, hchildren⟩ := isLegible_ofStartTag htoken.1 htoken.2 hstart
    obtain ⟨hpath, hcomplete⟩ := enter_eq (outline.notice notices) element
    have hentered : ((outline.notice notices).enter element).IsLegible := by
      refine ⟨?_, hcomplete ▸ h.children⟩
      rw [hpath]
      exact List.forall_mem_cons.mpr ⟨⟨htag, hchildren ▸ List.forall_mem_nil _⟩, h.path⟩
    split at hnext
    · exact hentered.close hnext
    · cases hnext
      exact hentered
  | endTag name => exact h.close ht
  | blank text beforeEnd =>
    refine h.addText (fun element he => ?_) ht
    split
    · exact he.addText text
    · split
      · exact he
      · exact he.keepText text
  | text text => exact h.addText (fun element he => he.keepText text) ht
  | literal text =>
    simp only [Outline.take] at ht
    split at ht
    · cases ht
    · rename_i element outer hp
      cases ht
      exact h.change hp fun he => he.addText text
  | comment text =>
    cases ht
    exact h.addChild trivial
  | instruction target data =>
    cases ht
    exact (h.notice _).addChild trivial

end Outline

/-- All names in what is read as a document are legible. -/
theorem isLegible_readBytes {keepBlanks : Bool} {bytes : List UInt8} {content : Content}
    (h : readBytes keepBlanks bytes = some content) : content.IsLegible := by
  obtain ⟨body, tokens, outline, htokens, houtline, rfl⟩ := exists_tokens_of_readBytes h
  have hstart : ({} : Outline).IsLegible := ⟨List.forall_mem_nil _, List.forall_mem_nil _⟩
  have hread : outline.IsLegible :=
    Outline.foldlM_keeps (fun token hm before after hb ht =>
      hb.take (ofMarkup_isLegible htokens token hm) ht) hstart houtline
  exact isLegible_contentOf hread.children

end MarkupPath.Markup
