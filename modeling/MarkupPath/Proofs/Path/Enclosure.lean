import Mathlib.Data.List.Infix
import MarkupPath.Proofs.Path.Parts

/-!
# Outside quotes and brackets

What is open behind a text, without a scan (`isOpen_nestingBehind_iff`). No quote is open if the
text is made up of other characters and of quoted stretches. Then the brackets among those other
characters count: one of them is open if, from some place on, more are opened than closed. So a
closing bracket without an opening one in front of it doesn't matter for what comes behind.
-/

namespace MarkupPath.Split

/-- A text in which all quotes are closed, and its characters outside of them. -/
inductive Unquoted : List Char → List Char → Prop where
  /-- there's nothing -/
  | nil : Unquoted [] []
  /-- a character that isn't a quote -/
  | plain {c : Char} {text outside : List Char} : c ≠ '\'' → c ≠ '"' → Unquoted text outside →
    Unquoted (c :: text) (c :: outside)
  /-- a stretch between two quotes of one kind -/
  | quoted {quote : Char} {inner text outside : List Char} : quote = '\'' ∨ quote = '"' →
    quote ∉ inner → Unquoted text outside → Unquoted (quote :: inner ++ quote :: text) outside

/-- Behind a text neither a quote nor a bracket is open. -/
def IsClosed (text : List Char) : Prop :=
  ∃ outside, Unquoted text outside ∧
    ∀ behind, behind <:+ outside → behind.count '[' ≤ behind.count ']'

/-- The number of open brackets behind a character outside of quotes. -/
def levelAfter (level : Nat) (c : Char) : Nat :=
  if c = '[' then level + 1 else if c = ']' then level - 1 else level

variable {text outside inner : List Char} {quote c : Char} {level : Nat}

/-! ## Quotes -/

theorem after_plain (hs : c ≠ '\'') (hd : c ≠ '"') :
    (⟨none, level⟩ : Nesting).after c = ⟨none, levelAfter level c⟩ := by
  have hq : ¬(c = '\'' ∨ c = '"') := not_or.mpr ⟨hs, hd⟩
  simp only [Nesting.after, if_neg hq, levelAfter]
  split
  · rfl
  · split <;> rfl

theorem after_quote (hq : quote = '\'' ∨ quote = '"') :
    (⟨none, level⟩ : Nesting).after quote = ⟨some quote, level⟩ :=
  if_pos hq

/-- A quote stays open until it occurs again. -/
theorem foldl_after_of_notMem (hi : quote ∉ inner) :
    inner.foldl Nesting.after ⟨some quote, level⟩ = ⟨some quote, level⟩ := by
  induction inner with
  | nil => rfl
  | cons c inner ih =>
    rw [List.mem_cons, not_or] at hi
    have hc : (⟨some quote, level⟩ : Nesting).after c = ⟨some quote, level⟩ :=
      if_neg (Ne.symm hi.1)
    rw [List.foldl_cons, hc, ih hi.2]

/-- A quoted stretch leaves everything as it is. -/
theorem foldl_after_quoted (hq : quote = '\'' ∨ quote = '"') (hi : quote ∉ inner)
    (rest : List Char) :
    (quote :: inner ++ quote :: rest).foldl Nesting.after ⟨none, level⟩ =
      rest.foldl Nesting.after ⟨none, level⟩ := by
  have hclose : (⟨some quote, level⟩ : Nesting).after quote = ⟨none, level⟩ := if_pos rfl
  rw [List.cons_append, List.foldl_cons, after_quote hq, List.foldl_append,
    foldl_after_of_notMem hi, List.foldl_cons, hclose]

/-- Where all quotes are closed, the characters outside of them tell how many brackets are open. -/
theorem Unquoted.foldl_after (h : Unquoted text outside) (level : Nat) :
    text.foldl Nesting.after ⟨none, level⟩ = ⟨none, outside.foldl levelAfter level⟩ := by
  induction h generalizing level with
  | nil => rfl
  | plain hs hd _ ih => rw [List.foldl_cons, after_plain hs hd, ih, List.foldl_cons]
  | quoted hq hi _ ih => rw [foldl_after_quoted hq hi, ih]

/-- If no quote is open behind a text, all that are opened in it are closed. By induction on the
length of the text, as a quoted stretch is passed at once. -/
theorem exists_unquoted (h : (text.foldl Nesting.after ⟨none, level⟩).quote = none) :
    ∃ outside, Unquoted text outside := by
  induction hn : text.length using Nat.strongRecOn generalizing text level with
  | ind n ih =>
    subst hn
    cases text with
    | nil => exact ⟨[], .nil⟩
    | cons c text =>
      by_cases hq : c = '\'' ∨ c = '"'
      · by_cases hc : c ∈ text
        · obtain ⟨inner, rest, rfl, hi⟩ := List.eq_append_cons_of_mem hc
          rw [← List.cons_append, foldl_after_quoted hq hi] at h
          obtain ⟨outside, hr⟩ := ih rest.length (by simp; omega) h rfl
          exact ⟨outside, .quoted hq hi hr⟩
        · -- the quote would be open still
          rw [List.foldl_cons, after_quote hq, foldl_after_of_notMem hc] at h
          cases h
      · obtain ⟨hs, hd⟩ := not_or.mp hq
        rw [List.foldl_cons, after_plain hs hd] at h
        obtain ⟨outside, hr⟩ := ih text.length (by simp) h rfl
        exact ⟨c :: outside, .plain hs hd hr⟩

/-! ## Brackets -/

/-- What holds of all that a longer text ends with. -/
theorem forall_suffix_concat {P : List Char → Prop} (hn : P []) (front : List Char) (c : Char) :
    (∀ behind, behind <:+ front ++ [c] → P behind) ↔
      ∀ behind, behind <:+ front → P (behind ++ [c]) := by
  constructor
  · intro h behind hb
    exact h _ (List.suffix_concat_iff.mpr (.inr ⟨behind, rfl, hb⟩))
  · intro h behind hb
    rcases List.suffix_concat_iff.mp hb with rfl | ⟨shorter, rfl, hs⟩
    · exact hn
    · exact h shorter hs

/-- How many brackets are open is told by how many more are opened than closed from some place on.
By induction on the text from its end, where all these stretches end. -/
theorem foldl_levelAfter_le {bound : Nat} : outside.foldl levelAfter 0 ≤ bound ↔
    ∀ behind, behind <:+ outside → behind.count '[' ≤ behind.count ']' + bound := by
  induction outside using List.reverseRecOn generalizing bound with
  | nil => simp
  | append_singleton front c ih =>
    rw [List.foldl_append, List.foldl_cons, List.foldl_nil, forall_suffix_concat (by simp),
      levelAfter]
    simp only [List.count_append]
    by_cases ho : c = '['
    · subst ho
      rw [if_pos rfl, List.count_singleton_self, List.count_singleton, if_neg (by decide)]
      cases bound with
      | zero =>
        -- the last bracket alone is opened and not closed
        refine iff_of_false (Nat.not_succ_le_zero _) ?_
        intro h
        exact absurd (h [] List.nil_suffix) (by decide)
      | succ bound => simp only [Nat.add_zero, ← Nat.add_assoc, Nat.add_le_add_iff_right, ih]
    · have hopened : List.count '[' [c] = 0 := by simp [ho]
      simp only [if_neg ho, hopened, Nat.add_zero]
      by_cases hc : c = ']'
      · subst hc
        rw [if_pos rfl, List.count_singleton_self, Nat.sub_le_iff_le_add, ih]
        simp only [Nat.add_assoc, Nat.add_comm 1]
      · have hclosed : List.count ']' [c] = 0 := by simp [hc]
        simp only [if_neg hc, hclosed, Nat.add_zero, ih]

/-- A scan ends outside quotes and brackets exactly if none is open behind the text. -/
theorem isOpen_nestingBehind_iff : (nestingBehind text).isOpen = true ↔ IsClosed text := by
  constructor
  · intro h
    have hquote : (text.foldl Nesting.after ⟨none, 0⟩).quote = none := by
      change (nestingBehind text).quote = none
      rw [Nesting.eq_of_isOpen h]
    obtain ⟨outside, hu⟩ := exists_unquoted hquote
    refine ⟨outside, hu, ?_⟩
    have hscan := Nesting.eq_of_isOpen h
    rw [nestingBehind, show ({} : Nesting) = ⟨none, 0⟩ from rfl, hu.foldl_after] at hscan
    exact foldl_levelAfter_le.mp (Nat.le_of_eq (congrArg Nesting.brackets hscan))
  · rintro ⟨outside, hu, hb⟩
    have hlevel := Nat.le_zero.mp (foldl_levelAfter_le.mpr hb)
    rw [nestingBehind, show ({} : Nesting) = ⟨none, 0⟩ from rfl, hu.foldl_after, hlevel]
    rfl

end MarkupPath.Split
