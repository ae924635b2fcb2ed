import Mathlib.Data.List.TakeWhile
import MarkupPath.Proofs.Path.Parts

/-!
# Texts that aren't split

A text without a slash outside all marks stays in one part (`parts_of_keeps`), and so do slashes at
the start of a part (`parts_of_slashes`). Whatever there is in a predicate, it isn't split before
its first closing bracket (`keeps_of_brackets`), not even if the quotes in it are out of step.
-/

namespace MarkupPath.Split

/-- No slash of a text stands outside all marks. -/
def keeps (nesting : Nesting) : List Char → Bool
  | [] => true
  | c :: rest => !(c == '/' && nesting.isOpen) && keeps (nesting.after c) rest

variable {position offset : Nat} {nesting : Nesting} {collected text front rest : List Char}

theorem keeps_append : keeps nesting (front ++ text) = true ↔
    keeps nesting front = true ∧ keeps (front.foldl Nesting.after nesting) text = true := by
  induction front generalizing nesting with
  | nil => simp [keeps]
  | cons c front ih =>
    rw [List.cons_append, keeps, keeps, Bool.and_eq_true, Bool.and_eq_true, ih, and_assoc]
    rfl

theorem keeps_of_notMem (h : '/' ∉ text) : keeps nesting text = true := by
  induction text generalizing nesting with
  | nil => rfl
  | cons c text ih =>
    rw [List.mem_cons, not_or] at h
    rw [keeps, Bool.and_eq_true]
    exact ⟨by simp [Ne.symm h.1], ih h.2⟩

/-- Only a closing bracket closes one. -/
theorem brackets_after {c : Char} (hb : 0 < nesting.brackets) (hc : c ≠ ']') :
    0 < (nesting.after c).brackets := by
  rw [Nesting.after]
  split
  · split <;> exact hb
  · split
    · exact hb
    · split
      · exact Nat.succ_pos _
      · simpa [hc] using hb

/-- Nothing is split between an opening bracket and the first closing one. -/
theorem keeps_of_brackets (hb : 0 < nesting.brackets) (hc : ']' ∉ text) :
    keeps nesting (text ++ [']']) = true := by
  have hopen {nesting : Nesting} (hb : 0 < nesting.brackets) : nesting.isOpen = false := by
    simp [Nesting.isOpen, Nat.ne_of_gt hb]
  induction text generalizing nesting with
  | nil => simp [keeps]
  | cons c text ih =>
    rw [List.mem_cons, not_or] at hc
    rw [List.cons_append, keeps, Bool.and_eq_true]
    exact ⟨by simp [hopen hb], ih (brackets_after hb (Ne.symm hc.1)) hc.2⟩

/-- What isn't split is collected as a whole. -/
theorem parts_of_keeps (h : keeps nesting text = true) :
    parts position offset nesting collected (text ++ rest) =
      parts (position + text.length) offset (text.foldl Nesting.after nesting)
        (collected ++ text) rest := by
  induction text generalizing position nesting collected with
  | nil => simp
  | cons c text ih =>
    rw [keeps, Bool.and_eq_true] at h
    have hs : separates nesting collected c = false := by
      rw [separates_eq, Bool.and_eq_false_iff]
      exact .inl ((Bool.not_eq_true' _).mp h.1)
    rw [List.cons_append, parts_cons, hs, ih h.2]
    simp [Nat.add_assoc, Nat.add_comm 1]

/-- Slashes at the start of a part belong to it. -/
theorem parts_of_slashes (h : ∀ c ∈ text, c = '/') (hc : isFilled collected = false) :
    parts position offset {} collected (text ++ rest) =
      parts (position + text.length) offset {} (collected ++ text) rest := by
  induction text generalizing position collected with
  | nil => simp
  | cons c text ih =>
    obtain rfl := h c List.mem_cons_self
    have hs : separates {} collected '/' = false := by simp [separates_eq, hc]
    rw [List.cons_append, parts_cons, hs, Nesting.after_slash rfl]
    simp only [Bool.false_eq_true, if_false]
    rw [ih (fun d hd => h d (List.mem_cons_of_mem _ hd)) ?_]
    · simp [Nat.add_assoc, Nat.add_comm 1]
    · rw [isFilled] at hc ⊢
      rw [List.any_append, hc]
      rfl

/-- The first part of an expression is what it starts with, with all of the slashes at the start. -/
theorem exists_splitPath (text : List Char) :
    ∃ (first : List Char) (others : List Part), splitPath text = ⟨0, first⟩ :: others ∧
      first <+: text ∧ text.takeWhile (· == '/') <+: first ∧ ∀ part ∈ others, 0 < part.offset := by
  obtain ⟨first, others, hf, ho, he⟩ := exists_parts (text.takeWhile (· == '/')).length {}
    (text.takeWhile (· == '/')) (text.dropWhile (· == '/'))
  have hslashes : ∀ c ∈ text.takeWhile (· == '/'), c = '/' := fun c hc => by
    simpa using List.mem_takeWhile_imp hc
  have hsplit : splitPath text =
      ⟨0, text.takeWhile (· == '/') ++ first⟩ :: others := by
    have h : parts 0 0 {} [] (text.takeWhile (· == '/') ++ text.dropWhile (· == '/')) = _ :=
      parts_of_slashes hslashes rfl
    rw [List.takeWhile_append_dropWhile] at h
    have hparts := he 0 0 _ rfl
    simp only [Nat.add_zero] at hparts
    rw [splitPath, h, Nat.zero_add, List.nil_append, hparts]
    simp [Part.shift]
  refine ⟨_, others, hsplit, ?_, List.prefix_append _ _,
    fun part hm => Nat.zero_lt_of_lt (ho part hm)⟩
  have h := (List.prefix_append_right_inj (text.takeWhile (· == '/'))).mpr hf
  rwa [List.takeWhile_append_dropWhile] at h

end MarkupPath.Split
