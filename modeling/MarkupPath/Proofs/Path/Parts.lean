import MarkupPath.Path.Split

/-!
# Splitting what was put together

How the parts of a path expression depend on where its scan starts and on what comes before it. The
scan carries a position, the start of the current part, the open marks and what was collected;
`exists_parts` says what each of them does to the parts. A slash behind a text that is scanned to
its end outside all marks separates the parts of that text from those of what follows
(`splitPath_append_slash`).
-/

namespace MarkupPath

/-- The part at another place of the whole. -/
def Part.shift (part : Part) (distance : Nat) : Part :=
  { part with offset := part.offset + distance }

namespace Split

/-- What enclosing marks are open behind a text. -/
def nestingBehind (text : List Char) : Nesting := text.foldl Nesting.after {}

/-- Whether more than slashes has been collected. -/
def isFilled (collected : List Char) : Bool := collected.any (· != '/')

theorem Nesting.eq_of_isOpen {nesting : Nesting} (h : nesting.isOpen = true) : nesting = {} := by
  obtain ⟨quote, brackets⟩ := nesting
  simp only [isOpen, Bool.and_eq_true, Option.isNone_iff_eq_none, beq_iff_eq] at h
  obtain ⟨rfl, rfl⟩ := h
  rfl

theorem Nesting.after_slash {nesting : Nesting} (h : nesting.isOpen = true) :
    nesting.after '/' = nesting := by
  rw [Nesting.eq_of_isOpen h]
  decide

theorem parts_cons (position offset : Nat) (nesting : Nesting) (collected : List Char) (c : Char)
    (rest : List Char) :
    parts position offset nesting collected (c :: rest) =
      if separates nesting collected c then
        ⟨offset, collected⟩ :: parts (position + 1) (position + 1) nesting [] rest
      else parts (position + 1) offset (nesting.after c) (collected ++ [c]) rest := rfl

theorem separates_eq (nesting : Nesting) (collected : List Char) (c : Char) :
    separates nesting collected c = (c == '/' && nesting.isOpen && isFilled collected) := rfl

/-- What has been collected comes first in the first part, and whether it holds more than slashes
is all that matters of it. The other parts move with the position where the scan starts, and none
of them starts there. -/
theorem exists_parts (position : Nat) (nesting : Nesting) (collected text : List Char) :
    ∃ (first : List Char) (others : List Part), first <+: text ∧
      (∀ part ∈ others, position < part.offset) ∧
      ∀ (distance offset : Nat) (collected' : List Char), isFilled collected' = isFilled collected →
        parts (position + distance) offset nesting collected' text =
          ⟨offset, collected' ++ first⟩ :: others.map (Part.shift · distance) := by
  induction text generalizing position nesting collected with
  | nil => exact ⟨[], [], List.prefix_refl _, by simp, fun _ _ _ _ => by simp [parts]⟩
  | cons c text ih =>
    by_cases hs : separates nesting collected c = true
    · -- what has been collected is the first part, and another one begins
      obtain ⟨first, others, -, ho, hp⟩ := ih (position + 1) nesting []
      refine ⟨[], ⟨position + 1, first⟩ :: others, List.nil_prefix, ?_,
        fun distance offset collected' hc => ?_⟩
      · intro part hm
        rcases List.mem_cons.mp hm with rfl | hm
        · exact Nat.lt_succ_self position
        · exact Nat.lt_of_succ_lt (ho part hm)
      · rw [parts, separates_eq, hc, ← separates_eq, if_pos hs, Nat.add_right_comm,
          hp distance _ [] rfl]
        simp [Part.shift]
    · obtain ⟨first, others, hf, ho, hp⟩ :=
        ih (position + 1) (nesting.after c) (collected ++ [c])
      refine ⟨c :: first, others, List.cons_prefix_cons.mpr ⟨rfl, hf⟩,
        fun part hm => Nat.lt_of_succ_lt (ho part hm), fun distance offset collected' hc => ?_⟩
      rw [parts, separates_eq, hc, ← separates_eq, if_neg hs, Nat.add_right_comm,
        hp distance offset (collected' ++ [c]) ?_, List.append_assoc]
      · rfl
      · rw [isFilled, isFilled, List.any_append, List.any_append]
        exact congrArg (· || _) hc

/-- A slash behind a text that is scanned to its end outside all marks, and that doesn't end with a
slash itself, separates the parts of the text from those of what follows. By induction on the text;
the part that is being collected is filled by the text's last character, if not before. -/
theorem parts_append_slash {position offset : Nat} {nesting : Nesting}
    {collected text rest : List Char} (hn : (text.foldl Nesting.after nesting).isOpen = true)
    (hl : text.getLast? ≠ some '/') (hc : text = [] → isFilled collected = true) :
    parts position offset nesting collected (text ++ '/' :: rest) =
      parts position offset nesting collected text ++
        parts (position + text.length + 1) (position + text.length + 1) {} [] rest := by
  induction text generalizing position offset nesting collected with
  | nil =>
    have ho : nesting.isOpen = true := hn
    have hs : separates nesting collected '/' = true := by
      rw [separates_eq, ho, hc rfl]
      rfl
    rw [List.nil_append, parts_cons, if_pos hs, Nesting.eq_of_isOpen ho]
    rfl
  | cons c text ih =>
    have hlast : text.getLast? ≠ some '/' := by
      cases text with
      | nil => simp
      | cons d text => rwa [List.getLast?_cons_cons] at hl
    -- if this is the text's last character, it fills the part
    have hfill : ∀ front, text = [] → isFilled (front ++ [c]) = true := by
      rintro front rfl
      have : c ≠ '/' := by simpa using hl
      simp [isFilled, this]
    rw [List.foldl_cons] at hn
    rw [List.cons_append, parts_cons, parts_cons, List.length_cons, ← Nat.add_assoc,
      Nat.add_right_comm position]
    by_cases hs : separates nesting collected c = true
    · have hsep := hs
      simp only [separates_eq, Bool.and_eq_true, beq_iff_eq] at hsep
      obtain ⟨⟨rfl, ho⟩, -⟩ := hsep
      rw [Nesting.after_slash ho] at hn
      rw [if_pos hs, if_pos hs, List.cons_append,
        ih hn hlast fun ht => absurd (hfill [] ht) (by decide)]
    · rw [if_neg hs, if_neg hs]
      exact ih hn hlast (hfill collected)

end Split

theorem splitPath_append_slash {text rest : List Char}
    (hn : (Split.nestingBehind text).isOpen = true) (ht : text ≠ [])
    (hl : text.getLast? ≠ some '/') :
    splitPath (text ++ '/' :: rest) =
      splitPath text ++ Split.parts (text.length + 1) (text.length + 1) {} [] rest := by
  have h : Split.parts 0 0 {} [] (text ++ '/' :: rest) = Split.parts 0 0 {} [] text ++
      Split.parts (0 + text.length + 1) (0 + text.length + 1) {} [] rest :=
    Split.parts_append_slash hn hl fun h => absurd h ht
  rwa [Nat.zero_add] at h

end MarkupPath
