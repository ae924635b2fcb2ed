import Mathlib.Data.List.Induction
import MarkupPath.Markup.Outline
import MarkupPath.Proofs.Search.Descent

/-!
# Documents have a single root

Whatever is read as a document has a single element that isn't contained in another one
(`length_elements_readBytes`). While its tokens are nested there's no element outside the root that
is open, and none beside one that is closed (`Outline.HasOneRoot`).
-/

namespace MarkupPath.Markup

/-- The number of elements among children. -/
def countElements (children : List (Child × Option String)) : Nat :=
  children.countP fun (child, _) => child matches .element ..

theorem contentOf_concat (children : List (Child × Option String)) (child : Child)
    (tail : Option String) :
    contentOf (children ++ [(child, tail)]) = child.cons tail (contentOf children) := by
  rw [contentOf, List.foldl_append]
  rfl

/-- Children are collected backwards, so the first one is at the end of the list. -/
theorem length_elements_contentOf (children : List (Child × Option String)) :
    (contentOf children).elements.length = countElements children := by
  induction children using List.reverseRecOn with
  | nil => rfl
  | append_singleton children first ih =>
    obtain ⟨child, tail⟩ := first
    rw [contentOf_concat, countElements, List.countP_append, ← countElements, ← ih]
    cases child with
    | element tag content => simp [Child.cons, Content.elements]
    | comment text => simp [Child.cons, Content.elements]
    | instruction target data => simp [Child.cons, Content.elements]

namespace Outline

variable {outline next : Outline} {keepBlanks : Bool}

/-- An outline with one root at most, that is open or complete. -/
structure HasOneRoot (outline : Outline) : Prop where
  /-- beside a root that is complete there's no other one -/
  single : countElements outline.children ≤ 1
  /-- beside a root that is open there's none that is complete -/
  opened : outline.path ≠ [] → countElements outline.children = 0

/-- All that matters for the number of roots is how many elements are complete and whether one is
open. -/
theorem HasOneRoot.congr (h : outline.HasOneRoot) (hc : next.children = outline.children)
    (hp : next.path = [] ↔ outline.path = []) : next.HasOneRoot :=
  ⟨hc ▸ h.single, fun hn => hc ▸ h.opened (mt hp.mpr hn)⟩

theorem HasOneRoot.notice (h : outline.HasOneRoot) (notices : List Notice) :
    (outline.notice notices).HasOneRoot :=
  h.congr rfl Iff.rfl

theorem HasOneRoot.addText {text : String} {add : OpenElement → OpenElement}
    (h : outline.HasOneRoot) (ha : outline.addText text add = some next) : next.HasOneRoot := by
  rw [Outline.addText] at ha
  split at ha
  · split at ha
    · cases ha
      exact h
    · cases ha
  · rename_i element outer hp
    cases ha
    exact h.congr rfl (by simp [hp])

/-- A child that isn't an element isn't a root. -/
theorem HasOneRoot.addChild {child : Child} (h : outline.HasOneRoot)
    (hc : (child matches .element ..) = false) : (outline.addChild child).HasOneRoot := by
  rw [Outline.addChild]
  split
  · have hcount : countElements ((child, none) :: outline.children) =
        countElements outline.children := by
      rw [countElements, countElements, List.countP_cons_of_neg (by simp [hc])]
    refine ⟨?_, fun hn => ?_⟩
    · exact hcount ▸ h.single
    · exact hcount.trans (h.opened hn)
  · rename_i element outer hp
    exact h.congr rfl (by simp [hp])

theorem HasOneRoot.close {written : WrittenName} (h : outline.HasOneRoot)
    (hc : outline.close written = some next) : next.HasOneRoot := by
  rw [Outline.close] at hc
  split at hc
  · cases hc
  · rename_i element outer hp
    split at hc
    · cases hc
      have hnone := h.opened (by simp [hp])
      cases outer with
      | nil =>
        -- the root is closed
        refine ⟨?_, fun hn => absurd rfl hn⟩
        change countElements ((Child.element _ _, none) :: outline.children) ≤ 1
        rw [countElements, List.countP_cons_of_pos rfl]
        exact Nat.succ_le_succ (Nat.le_of_eq hnone)
      | cons outer rest => exact ⟨h.single, fun _ => hnone⟩
    · cases hc

theorem enter_eq (outline : Outline) (element : OpenElement) :
    (outline.enter element).path = element :: outline.path ∧
      (outline.enter element).children = outline.children := by
  rw [Outline.enter]
  dsimp only
  split <;> exact ⟨rfl, rfl⟩

theorem countElements_eq_zero (h : outline.hasRoot = false) :
    countElements outline.children = 0 := by
  rw [countElements, List.countP_eq_zero]
  rw [hasRoot, List.any_eq_false] at h
  exact h

/-- What it takes to take a start tag: no root is complete where none is open. -/
theorem take_startTag {name : WrittenName} {attributes : List (WrittenName × String)}
    {closed : Bool} (ht : outline.take keepBlanks (.startTag name attributes closed) = some next) :
    ∃ scope spacing element notices,
      OpenElement.ofStartTag scope spacing name attributes = some (element, notices) ∧
      (outline.path = [] → outline.hasRoot = false) ∧
      (if closed then ((outline.notice notices).enter element).close name
        else some ((outline.notice notices).enter element)) = some next := by
  simp only [Outline.take, Option.bind_eq_bind] at ht
  split at ht
  · cases ht
  rename_i hroot
  split at ht
  · cases ht
  obtain ⟨⟨element, notices⟩, hs, hn⟩ := Option.bind_eq_some_iff.mp ht
  refine ⟨_, _, element, notices, hs, fun hp => ?_, hn⟩
  simpa [hp] using hroot

theorem HasOneRoot.take {token : Token} (h : outline.HasOneRoot)
    (ht : outline.take keepBlanks token = some next) : next.HasOneRoot := by
  cases token with
  | startTag name attributes closed =>
    obtain ⟨_, _, element, notices, -, hroot, hnext⟩ := take_startTag ht
    have hnone : countElements outline.children = 0 := by
      -- a root can only be complete where none is open, and then no start tag is taken
      by_cases hp : outline.path = []
      · exact countElements_eq_zero (hroot hp)
      · exact h.opened hp
    obtain ⟨-, hchildren⟩ := enter_eq (outline.notice notices) element
    have hentered : ((outline.notice notices).enter element).HasOneRoot := by
      refine ⟨?_, fun _ => ?_⟩
      · rw [hchildren]
        exact hnone ▸ Nat.zero_le 1
      · rw [hchildren]
        exact hnone
    split at hnext
    · exact hentered.close hnext
    · cases hnext
      exact hentered
  | endTag name => exact h.close ht
  | blank text beforeEnd => exact h.addText ht
  | text text => exact h.addText ht
  | literal text =>
    simp only [Outline.take] at ht
    split at ht
    · cases ht
    · rename_i element outer hp
      cases ht
      exact h.congr rfl (by simp [hp])
  | comment text =>
    cases ht
    exact h.addChild rfl
  | instruction target data =>
    cases ht
    exact (h.notice _).addChild rfl

/-- What every token keeps holds when all have been taken. -/
theorem foldlM_keeps {P : Outline → Prop} {tokens : List Token}
    (hp : ∀ token ∈ tokens, ∀ before after : Outline, P before →
      before.take keepBlanks token = some after → P after)
    (h : P outline) (ht : tokens.foldlM (Outline.take keepBlanks) outline = some next) :
    P next := by
  induction tokens generalizing outline with
  | nil =>
    cases ht
    exact h
  | cons token tokens ih =>
    rw [List.foldlM_cons] at ht
    obtain ⟨between, hb, ht⟩ := Option.bind_eq_some_iff.mp ht
    exact ih (fun other hm => hp other (List.mem_cons_of_mem _ hm))
      (hp token List.mem_cons_self outline between h hb) ht

end Outline

/-- A document is read from the tokens of what follows its heading. -/
theorem exists_tokens_of_readBytes {keepBlanks : Bool} {bytes : List UInt8} {content : Content}
    (h : readBytes keepBlanks bytes = some content) :
    ∃ body tokens outline, Token.ofMarkup body = some tokens ∧
      tokens.foldlM (Outline.take keepBlanks) {} = some outline ∧
      content = contentOf outline.children := by
  obtain ⟨characters, -, h⟩ := Option.bind_eq_some_iff.mp h
  obtain ⟨⟨heading, body⟩, -, h⟩ := Option.bind_eq_some_iff.mp h
  obtain ⟨tokens, htokens, h⟩ := Option.bind_eq_some_iff.mp h
  obtain ⟨outline, houtline, h⟩ := Option.bind_eq_some_iff.mp h
  rw [Outline.finish] at h
  split at h
  · exact ⟨body, tokens, outline, htokens, houtline, (Option.some.inj h).symm⟩
  · cases h

/-- What is read as a document has a single root. -/
theorem length_elements_readBytes {keepBlanks : Bool} {bytes : List UInt8} {content : Content}
    (h : readBytes keepBlanks bytes = some content) : content.elements.length ≤ 1 := by
  obtain ⟨-, tokens, outline, -, houtline, rfl⟩ := exists_tokens_of_readBytes h
  have hstart : ({} : Outline).HasOneRoot := ⟨Nat.zero_le 1, fun _ => rfl⟩
  have hsingle : outline.HasOneRoot :=
    Outline.foldlM_keeps (fun token _ before after hb ht => hb.take ht) hstart houtline
  rw [length_elements_contentOf]
  exact hsingle.single

end MarkupPath.Markup
