import MarkupPath.Proofs.Forest.Reached
import MarkupPath.Proofs.Path.Unterminated
import MarkupPath.Proofs.Search.Origins
import MarkupPath.Proofs.Search.RootNames

/-!
# Slashes in a row

Two slashes ask for descendants, and there's nothing that three of them could stand for. Where they
aren't enclosed the path is malformed, wherever in it they are (`Path.malformed_of_slashes`). At the
start of a part the reader of steps refuses the third one. Elsewhere the first one ends a part, and
with the other two the next part starts, behind whose first slash the reader refuses another one.
-/

namespace MarkupPath

open StepReader Split

/-! ## Parts that start with slashes -/

section Parts

variable {offset : Int} {front back text : List Char} {part : Part} {count : Nat}

theorem IsViable.of_append (h : IsViable offset (front ++ back)) : IsViable offset front := by
  obtain ⟨more, h⟩ := h
  rw [List.append_assoc] at h
  exact ⟨back ++ more, h⟩

theorem IsStepExpression.isViable_take (h : IsStepExpression offset text) (count : Nat) :
    IsViable offset (text.take count) :=
  ⟨text.drop count, by rwa [List.take_append_drop]⟩

/-- Behind the start of a path, no step starts with two slashes. -/
theorem not_isViable_two_slashes (ho : 0 < offset) : ¬IsViable offset ['/', '/'] := by
  have hr : Progress.run {} offset ['/'] = .ok { axis := .descendants } := by
    simp [Progress.run, Progress.take, Progress.inName, Progress.isDelimiter, Progress.slash,
      ho.ne']
  exact not_isViable_of_error hr rfl

/-- No step starts with three slashes. -/
theorem not_isViable_three_slashes : ¬IsViable offset ['/', '/', '/'] := by
  by_cases ho : offset = 0
  · subst ho
    have hr : Progress.run {} 0 ['/', '/'] = .ok { axis := .descendants } := rfl
    exact not_isViable_of_error hr rfl
  · have hr : Progress.run {} offset ['/'] = .ok { axis := .descendants } := by
      simp [Progress.run, Progress.take, Progress.inName, Progress.isDelimiter, Progress.slash, ho]
    exact fun h => not_isViable_of_error hr rfl h.of_append

end Parts

/-! ## Malformed paths -/

/-- A step is refused no later than where it's known that nothing helps. -/
theorem Step.position_lt_of_not_isViable {offset : Int} {text : List Char} {count : Nat}
    {malformed : MalformedStep} (h : compile text offset = .error malformed)
    (hv : ¬IsViable offset (text.take count)) : malformed.position < offset + count := by
  rcases compile_eq_error.mp h with
    ⟨front, c, back, between, rfl, hr, -, -, hp⟩ | ⟨final, hr, -, -⟩
  · have hlt : front.length < count := by
      by_contra hle
      rw [List.take_append_of_le_length (Nat.le_of_not_lt hle)] at hv
      have hfront : IsViable offset (front.take count ++ front.drop count) := by
        rw [List.take_append_drop]
        exact isViable_iff.mpr ⟨between, hr⟩
      exact hv hfront.of_append
    omega
  · have htext : IsViable offset (text.take count ++ text.drop count) := by
      rw [List.take_append_drop]
      exact isViable_iff.mpr ⟨final, hr⟩
    exact absurd htext.of_append hv

/-- A step is refused within its expression, or at the end of that. -/
theorem Step.position_le_of_compile {offset : Int} {text : List Char} {malformed : MalformedStep}
    (h : compile text offset = .error malformed) : malformed.position ≤ offset + text.length := by
  rcases compile_eq_error.mp h with ⟨front, c, back, -, rfl, -, -, -, hp⟩ | ⟨final, -, -, rfl⟩
  · rw [hp, List.length_append]
    omega
  · exact le_rfl

/-- Parts one of which isn't a step are malformed because of that one, or of one before it. -/
theorem exists_compileParts_eq_error (before : List Part) {part : Part} (after : List Part)
    (h : ¬IsStepExpression part.offset part.text) :
    ∃ malformed, compileParts (before ++ part :: after) = .error malformed ∧
      ∃ refused, (refused ∈ before ∨ refused = part) ∧
        Step.compile refused.text refused.offset = .error malformed := by
  induction before with
  | nil =>
    cases hp : Step.compile part.text part.offset with
    | ok step => exact absurd ⟨step, hp⟩ h
    | error malformed =>
      refine ⟨malformed, ?_, part, .inr rfl, hp⟩
      exact compileParts_eq_error.mpr ⟨[], part, after, rfl, List.forall_mem_nil _, hp⟩
  | cons first before ih =>
    cases hf : Step.compile first.text first.offset with
    | error malformed =>
      refine ⟨malformed, ?_, first, .inl List.mem_cons_self, hf⟩
      exact compileParts_eq_error.mpr ⟨[], first, _, rfl, List.forall_mem_nil _, hf⟩
    | ok step =>
      obtain ⟨malformed, hc, refused, hm, hr⟩ := ih
      refine ⟨malformed, ?_, refused, hm.imp_left (List.mem_cons_of_mem _), hr⟩
      rw [List.cons_append, compileParts, hf, hc]
      rfl

/-- A path is malformed if one of its parts starts with what no step can start with. -/
theorem compileSteps_of_not_isViable {expression : String} {before after : List Part} {part : Part}
    {count : Nat} (hs : splitPath expression.toList = before ++ part :: after)
    (hv : ¬IsViable part.offset (part.text.take count)) :
    ∃ malformed, compileSteps expression = .error malformed ∧
      malformed.position < part.offset + count := by
  obtain ⟨malformed, hc, refused, hm, hr⟩ :=
    exists_compileParts_eq_error before after fun h => hv (h.isViable_take count)
  rw [← hs] at hc
  refine ⟨malformed, hc, ?_⟩
  rcases hm with hm | rfl
  · have hlt := stop_lt_offset hs hm List.mem_cons_self
    have hstop := Step.position_le_of_compile hr
    rw [Part.stop] at hlt
    omega
  · exact Step.position_lt_of_not_isViable hr hv

/-- Where three slashes aren't enclosed, two of them start a part, or all three are at the start of
one. -/
theorem exists_slashes {front : List Char} (ho : (nestingBehind front).isOpen = true)
    (back : List Char) :
    ∃ before part after count, splitPath (front ++ '/' :: '/' :: '/' :: back) =
        before ++ part :: after ∧
      ¬IsViable part.offset (part.text.take count) ∧ part.offset + count ≤ front.length + 3 := by
  have hopen : nestingBehind front = {} := Nesting.eq_of_isOpen ho
  obtain ⟨before, last, hc⟩ := exists_collects front
  have hscan := hc.goesOn ('/' :: '/' :: '/' :: back)
  have hstop := hc.stop_eq
  rw [Part.stop] at hstop
  cases hf : isFilled last.text with
  | true =>
    -- the first slash ends the part that was being collected
    have hslashes : ∀ c ∈ ['/', '/'], c = '/' := by simp
    obtain ⟨first, others, hnext⟩ := exists_first (front.length + 1 + 2) (front.length + 1) {}
      ['/', '/'] back
    have hrest : parts (front.length + 1) (front.length + 1) {} [] ('/' :: '/' :: back) =
        ⟨front.length + 1, '/' :: '/' :: first⟩ :: others :=
      (parts_of_slashes hslashes rfl).trans hnext
    have hs : separates {} last.text '/' = true := by rw [separates_eq, hf]; rfl
    rw [parts_cons, hopen, if_pos hs, hrest] at hscan
    exact ⟨before ++ [last], ⟨front.length + 1, '/' :: '/' :: first⟩, others, 2,
      hscan.trans (List.append_cons _ _ _),
      not_isViable_two_slashes (Int.natCast_pos.mpr (Nat.succ_pos _)), Nat.le_refl _⟩
  | false =>
    -- all that has been collected are slashes, and these three are added to it
    have hslashes : ∀ c ∈ ['/', '/', '/'], c = '/' := by simp
    have hcollected : ∀ c ∈ last.text, c = '/' := by simpa [isFilled] using hf
    obtain ⟨first, others, hnext⟩ := exists_first (front.length + 3) last.offset {}
      (last.text ++ ['/', '/', '/']) back
    have hrest : parts front.length last.offset {} last.text ('/' :: '/' :: '/' :: back) =
        ⟨last.offset, last.text ++ ['/', '/', '/'] ++ first⟩ :: others :=
      (parts_of_slashes hslashes hf).trans hnext
    have hall : ∀ c ∈ last.text ++ ['/', '/', '/'], c = '/' := by
      simpa [or_imp, forall_and] using hcollected
    have htake : (last.text ++ ['/', '/', '/'] ++ first).take 3 = ['/', '/', '/'] := by
      rw [List.eq_replicate_of_mem hall, List.take_append_of_le_length (by simp),
        List.take_replicate, Nat.min_eq_left (by simp)]
      rfl
    rw [hopen, hrest] at hscan
    refine ⟨before, _, others, 3, hscan, ?_, by dsimp only; omega⟩
    rw [htake]
    exact not_isViable_three_slashes

/-- A path in which three slashes follow each other outside quotes and brackets is malformed, at the
third one of them if not before. -/
theorem Path.malformed_of_slashes {origin : Origin} {expression : String} {front back : List Char}
    (mode : EmptyPath) (ht : expression.toList = front ++ '/' :: '/' :: '/' :: back)
    (ho : (nestingBehind front).isOpen = true) (hn : origin.position.refusal? = none) :
    ∃ malformed, (compile (some origin) expression mode).outcome = .error (.malformed malformed) ∧
      malformed.position ≤ front.length + 2 := by
  obtain ⟨before, part, after, count, hs, hv, hle⟩ := exists_slashes ho back
  rw [← ht] at hs
  obtain ⟨malformed, hc, hlt⟩ := compileSteps_of_not_isViable hs hv
  have hne : expression.toList ≠ [] := by simp [ht]
  exact ⟨malformed, outcome_compile_of_malformed hn hne hc, by omega⟩

/-- The slashes between quotes don't count, and those behind the bracket do. -/
theorem malformed_of_slashes_enclosed :
    "a[@b='///']///c".toList = "a[@b='///']".toList ++ '/' :: '/' :: '/' :: "c".toList ∧
      (nestingBehind "a[@b='///']".toList).isOpen = true ∧
        loneOrigin.position.refusal? = none ∧
          ∃ malformed, (Path.compile (some loneOrigin) "a[@b='///']///c" .self).outcome =
            .error (.malformed malformed) ∧ malformed.position ≤ 13 :=
  have ht : "a[@b='///']///c".toList =
      "a[@b='///']".toList ++ '/' :: '/' :: '/' :: "c".toList := rfl
  have ho : (nestingBehind "a[@b='///']".toList).isOpen = true := by decide
  have hn : loneOrigin.position.refusal? = none := by decide
  ⟨ht, ho, hn, Path.malformed_of_slashes .self ht ho hn⟩

/-- A document whose root has a qualifier that isn't declared. -/
def untoldForest : Forest :=
  let last : Tag :=
    { id := ⟨1⟩, name := { localPart := "w" }
      attributes := [⟨⟨some "xml", "space", some xmlSpace⟩, "no"⟩] }
  { trees := [⟨.element { id := ⟨0⟩, name := { localPart := "p:b" } }
      (.element last .nil none .nil) none .nil, 0⟩]
    next := 2 }

theorem load_untoldForest :
    Document.load {} false (.text "<p:b><w xml:space=\"no\"/></p:b>") =
      .ok ({ root := some ⟨0⟩ }, untoldForest) := by
  decide +kernel

/-- Not all paths with three slashes are malformed: an origin that doesn't tell its name is refused
before the expression is looked at. -/
theorem not_malformed_untoldForest :
    Forest.Reached untoldForest ∧
      ¬ ∀ (origin : Origin) (expression : String) (mode : EmptyPath) (front back : List Char),
        untoldForest.origin? ⟨0⟩ = some origin →
        expression.toList = front ++ '/' :: '/' :: '/' :: back →
        (nestingBehind front).isOpen = true →
        ∃ malformed, (Path.compile (some origin) expression mode).outcome =
          .error (.malformed malformed) := by
  refine ⟨.load .empty load_untoldForest, fun h => ?_⟩
  let top := untoldForest.positions.get ⟨0, by decide +kernel⟩
  let origin : Origin := ⟨top, some top⟩
  obtain ⟨malformed, hm⟩ := h origin "a///b" .self ['a'] ['b'] rfl rfl (by decide)
  have hr : origin.position.refusal? = some (.tagName "p:b") := by decide +kernel
  rw [Path.outcome_compile_of_refusal hr] at hm
  cases hm

end MarkupPath
