import MarkupPath.Proofs.Path.Regularity

/-!
# Well-formed steps

`Step.IsWellFormed` says character by character what no compiled step can hold: marks in its name
or in the name of an attribute, blanks around the latter, a closing bracket in a value, a name
behind dots or a star. It also ties the step to its expression, because only a slash at the very
start of a path anchors a step at the root. Whatever is compiled is well-formed
(`Step.isWellFormed_of_compile`).

The reader's invariant is `IsRegular`, which speaks of classes of characters. What remains here is
to spell these out, and to say where a text that can't be stripped any further begins and ends.
-/

namespace MarkupPath

open StepReader

/-! ## Classes of characters -/

/-- The marks that delimit predicates and what they hold. -/
def predicateMarks : List Char := ['[', ']', '@', '=', '\'', '"']

/-- The marks that delimit names in node tests. -/
def nameMarks : List Char := predicateMarks ++ ['/', '*']

theorem isDelimiter_eq_false_iff {c : Char} :
    Progress.isDelimiter c = false ↔ c ∉ predicateMarks := by
  simp [Progress.isDelimiter, predicateMarks, and_assoc]

theorem isNameLetter_iff {c : Char} : Progress.isNameLetter c = true ↔ c ∉ nameMarks := by
  simp [Progress.isNameLetter, Progress.isDelimiter, nameMarks, predicateMarks, and_assoc]

/-! ## Blanks around a text -/

/-- Neither the first nor the last character of a text is blank. -/
structure IsStripped (text : List Char) : Prop where
  /-- no blank in front -/
  first : ∀ c ∈ text.head?, isBlank c = false
  /-- no blank behind -/
  last : ∀ c ∈ text.getLast?, isBlank c = false

theorem isStripped_strip (text : List Char) : IsStripped (strip text) := by
  constructor
  · -- Blanks in front were dropped before those behind, so the text begins where it did then.
    intro c hc
    obtain ⟨behind, hp⟩ := List.rdropWhile_prefix isBlank (text.dropWhile isBlank)
    have hh : (text.dropWhile isBlank).head? = some c := by
      rw [← hp, List.head?_append, ← strip_eq_rdropWhile, Option.mem_def.mp hc]
      rfl
    simpa [hh] using List.head?_dropWhile_not isBlank text
  · intro c hc
    rw [strip, List.getLast?_reverse, Option.mem_def] at hc
    simpa [hc] using List.head?_dropWhile_not isBlank (text.dropWhile isBlank).reverse

/-! ## Steps -/

/-- A constraint that has the form of a compiled one. -/
structure Constraint.IsWellFormed (constraint : Constraint) : Prop where
  /-- it's on an attribute -/
  named : constraint.name ≠ ""
  /-- no blanks surround the attribute's name -/
  stripped : IsStripped constraint.name.toList
  /-- the attribute's name holds no marks -/
  unmarked : ∀ c ∈ constraint.name.toList, c ∉ predicateMarks
  /-- the value doesn't end the predicate -/
  enclosed : ']' ∉ constraint.value.toList

/-- A step that has the form of one that was compiled from an expression at a position. -/
structure Step.IsWellFormed (text : List Char) (offset : Int) (step : Step) : Prop where
  /-- dots and stars stand alone -/
  bare : step.axis = .self ∨ step.axis = .parent ∨ step.axis = .anyChild → step.name = ""
  /-- a step is anchored at the root by a single slash at the start of a path -/
  root : step.axis = .root → offset = 0 ∧ text.head? = some '/' ∧ text.take 2 ≠ ['/', '/']
  /-- the name holds no marks -/
  unmarked : ∀ c ∈ step.name.toList, c ∉ nameMarks
  /-- the name doesn't begin with a dot -/
  undotted : step.name.toList.head? ≠ some '.'
  /-- the constraints are well-formed too -/
  constraints : ∀ constraint ∈ step.constraints, constraint.IsWellFormed

theorem Constraint.IsRegular.isWellFormed {constraint : Constraint} (h : constraint.IsRegular) :
    constraint.IsWellFormed where
  named hn := h.named (by rw [hn, String.toList_empty])
  stripped := h.stripped ▸ isStripped_strip _
  unmarked c hc := isDelimiter_eq_false_iff.mp (h.letters c hc)
  enclosed := h.value

namespace Step

variable {text : List Char} {offset : Int} {step : Step}

/-- What an expression has to look like, and where it has to stand, if its step is anchored at the
root. -/
theorem start_of_axis_eq_root (ho : 0 ≤ offset) (h : compile text offset = .ok step)
    (ha : step.axis = .root) :
    offset = 0 ∧ text.head? = some '/' ∧ text.take 2 ≠ ['/', '/'] := by
  have hz : offset = 0 := by
    by_contra hne
    exact axis_ne_root_of_compile (by omega) h ha
  subst hz
  refine ⟨rfl, ?_, fun ht => axis_ne_root_of_start (fun _ => ht) h ha⟩
  by_contra hh
  exact axis_ne_root_of_start (fun hs => absurd hs hh) h ha

/-- Whatever is compiled is well-formed. -/
theorem isWellFormed_of_compile (ho : 0 ≤ offset) (h : compile text offset = .ok step) :
    step.IsWellFormed text offset := by
  have hregular := isRegular_of_compile h
  refine ⟨?_, start_of_axis_eq_root ho h, ?_, hregular.start, ?_⟩
  · intro ha
    exact String.toList_eq_nil_iff.mp (hregular.bare ha)
  · intro c hc
    exact isNameLetter_iff.mp (hregular.letters c hc)
  · intro constraint hm
    exact (hregular.constraints constraint hm).isWellFormed

/-- The first predicate ends within its quoted value and doesn't count as closed, so the name goes
on behind it. -/
theorem isWellFormed_of_compile_enclosed :
    0 ≤ (0 : Int) ∧
      compile "/p:[@n=\"v]a[@ k =' a'][ ]".toList 0
        = .ok ⟨"p:a", .root, [⟨"n", "v"⟩, ⟨"k", " a"⟩]⟩ ∧
      (⟨"p:a", .root, [⟨"n", "v"⟩, ⟨"k", " a"⟩]⟩ : Step).IsWellFormed
        "/p:[@n=\"v]a[@ k =' a'][ ]".toList 0 := by
  have hc : compile "/p:[@n=\"v]a[@ k =' a'][ ]".toList 0
      = .ok ⟨"p:a", .root, [⟨"n", "v"⟩, ⟨"k", " a"⟩]⟩ := by decide +kernel
  exact ⟨by decide, hc, isWellFormed_of_compile (by decide) hc⟩

end Step
end MarkupPath
