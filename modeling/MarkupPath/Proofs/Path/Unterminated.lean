import MarkupPath.Proofs.Path.Continuation
import MarkupPath.Proofs.Path.Problems
import MarkupPath.Proofs.Path.Scanning

/-!
# Predicates at the end of a part

Two scanners read an expression: one that splits it into parts, and one that reads a part as a step.
They agree on little. A closing bracket ends a predicate for the reader, even between quotes; the
splitter counts brackets, and not those between quotes. But where the splitter has no bracket open
the reader isn't in a predicate (`Covers`), however long they were out of step before.

Main statement: `splitPath_covers`. A part that another one follows doesn't end in a predicate, so
only the last part of an expression can be refused for that, at the end of the expression.
-/

namespace MarkupPath

open StepReader Split

/-- The open brackets cover what the reader of a step is in: where there are none, neither a quote
nor a predicate is open. -/
structure Covers (nesting : Nesting) (progress : Progress) : Prop where
  /-- a quote is open only where a bracket is -/
  quote : nesting.brackets = 0 → nesting.quote = none
  /-- so is a predicate -/
  mode : nesting.brackets = 0 → progress.mode = .name
  /-- the reader doesn't take a bracket for a quote -/
  quoted : ∀ quote, progress.mode = .quoted quote → quote ≠ ']'

namespace StepReader.Progress

variable {progress next : Progress} {position : Int} {c : Char}

/-- A value is opened by a quote. -/
theorem take_quoted (h : progress.take position c = .ok next)
    (hq : ∀ quote, progress.mode = .quoted quote → quote ≠ ']') :
    ∀ quote, next.mode = .quoted quote → quote ≠ ']' := by
  simp only [take] at h
  cases hm : progress.mode <;> rw [hm] at h <;> simp only at h
  case name =>
    simp only [inName, dot, star, slash, letter] at h
    grind
  case filter => unfold inFilter at h; grind
  case attributeName => unfold inAttributeName close at h; grind
  case assignment => unfold inAssignment close at h; grind
  case quoted => cases h; unfold inQuoted close; grind
  case predicate => unfold inPredicate at h; grind

/-- A closing bracket ends a predicate, whatever it's found in. -/
theorem take_close (h : progress.take position ']' = .ok next)
    (hq : ∀ quote, progress.mode = .quoted quote → quote ≠ ']') : next.mode = .name := by
  simp only [take] at h
  cases hm : progress.mode <;> rw [hm] at h <;> simp only at h
  case name => simp [inName, isDelimiter] at h
  case filter => unfold inFilter at h; grind
  case attributeName => unfold inAttributeName close at h; grind
  case assignment => unfold inAssignment close at h; grind
  case quoted quote =>
    have hne : ']' ≠ quote := (hq quote hm).symm
    simp only [inQuoted, if_neg hne, if_true, Except.ok.injEq] at h
    rw [← h, close]
  case predicate => unfold inPredicate at h; grind

/-- In a node test there's no quote, and a bracket only to open a predicate. -/
theorem take_outside (hm : progress.mode = .name) (h : progress.take position c = .ok next) :
    c = '[' ∨ isDelimiter c = false ∧ next.mode = .name := by
  by_cases hc : c = '['
  · exact .inl hc
  · refine .inr ⟨?_, ?_⟩
    · by_contra hd
      simp only [take, hm, inName, if_neg hc, if_pos (Bool.eq_true_of_not_eq_false hd)] at h
      cases h
    · exact ((take_name hm hc).mp h).2.keeps.1.trans hm

end StepReader.Progress

/-- What isn't a delimiter neither opens nor closes anything. -/
theorem Split.Nesting.after_of_not_isDelimiter {nesting : Nesting} {c : Char}
    (hq : nesting.quote = none) (hd : Progress.isDelimiter c = false) :
    nesting.after c = nesting := by
  simp only [Progress.isDelimiter, Bool.or_eq_false_iff, beq_eq_false_iff_ne] at hd
  obtain ⟨⟨⟨⟨⟨ho, hc⟩, -⟩, -⟩, hs⟩, hdouble⟩ := hd
  simp [Nesting.after, hq, ho, hc, hs, hdouble]

namespace Covers

variable {nesting : Nesting} {progress next final : Progress} {position : Int} {c : Char}
variable {text : List Char}

theorem start : Covers {} {} := ⟨fun _ => rfl, fun _ => rfl, nofun⟩

/-- Without an open bracket both scanners are in the node test, until one is opened. With one, only
a closing bracket outside quotes can be the last, and it ends whatever the reader is in. -/
theorem take (h : Covers nesting progress) (ht : progress.take position c = .ok next) :
    Covers (nesting.after c) next := by
  have hquoted := Progress.take_quoted ht h.quoted
  by_cases hb : nesting.brackets = 0
  · have hq := h.quote hb
    rcases Progress.take_outside (h.mode hb) ht with rfl | ⟨hd, hn⟩
    · have hopen : (nesting.after '[').brackets ≠ 0 := by simp [Nesting.after, hq]
      exact ⟨fun hz => absurd hz hopen, fun hz => absurd hz hopen, hquoted⟩
    · rw [Nesting.after_of_not_isDelimiter hq hd]
      exact ⟨h.quote, fun _ => hn, hquoted⟩
  · by_cases hz : (nesting.after c).brackets = 0
    · have hc : c = ']' := by
        by_contra hc
        exact absurd hz (brackets_after (Nat.pos_of_ne_zero hb) hc).ne'
      subst hc
      refine ⟨fun _ => ?_, fun _ => Progress.take_close ht h.quoted, hquoted⟩
      cases hq : nesting.quote with
      | none => simp [Nesting.after, hq]
      | some quote =>
        -- between quotes the bracket wouldn't count
        have hkept : (nesting.after ']').brackets = nesting.brackets := by
          simp only [Nesting.after, hq]
          split <;> rfl
        exact absurd (hkept.symm.trans hz) hb
    · exact ⟨fun h => absurd h hz, fun h => absurd h hz, hquoted⟩

theorem run (h : Covers nesting progress) (hr : progress.run position text = .ok final) :
    Covers (text.foldl Nesting.after nesting) final := by
  induction text generalizing nesting progress position with
  | nil =>
    cases hr
    exact h
  | cons c text ih =>
    obtain ⟨next, ht, hr⟩ := Progress.run_cons_eq_ok.mp hr
    exact ih (h.take ht) hr

end Covers

/-- The reader of a step doesn't end in a predicate where a part ends. -/
theorem mode_of_splitPath {text : List Char} {before after : List Part} {part : Part}
    {progress : Progress} (hs : splitPath text = before ++ part :: after) (ha : after ≠ [])
    (hr : Progress.run {} part.offset part.text = .ok progress) : progress.mode = .name := by
  obtain ⟨done, last, hc⟩ := exists_collects text
  obtain ⟨-, hopen⟩ := hc.complete part (hc.mem_done hs ha)
  have hb : (nestingBehind part.text).brackets = 0 := by rw [Nesting.eq_of_isOpen hopen]
  exact (Covers.start.run hr).mode hb

/-- A part that another one follows never ends in a predicate. So if an expression is refused for
that, its last part is, and the position is that of its end. -/
theorem splitPath_covers (expression : String) :
    (∀ before part after, splitPath expression.toList = before ++ part :: after → after ≠ [] →
      ∀ progress, Progress.run {} part.offset part.text = .ok progress →
        progress.mode = .name) ∧
    ∀ origin mode malformed,
      (Path.compile origin expression mode).outcome = .error (.malformed malformed) →
        malformed.problem.message = "Unterminated predicate." →
          ∃ before part, splitPath expression.toList = before ++ [part] ∧
            Step.compile part.text part.offset = .error malformed ∧
              malformed.position = expression.length := by
  refine ⟨fun before part after hs ha progress hr => mode_of_splitPath hs ha hr, ?_⟩
  intro origin mode malformed h hmessage
  have hproblem : malformed.problem = .unterminated := StepProblem.message_injective hmessage
  obtain ⟨before, part, after, hs, -, hp⟩ :=
    compileParts_eq_error.mp (Path.compileSteps_of_malformed h)
  obtain ⟨⟨final, hr, hm⟩, hposition⟩ := Step.eq_of_unterminated hp hproblem
  obtain rfl : after = [] := by
    by_contra ha
    exact hm (mode_of_splitPath hs ha hr)
  obtain ⟨ho, ht⟩ := splitPath_placed hs
  refine ⟨before, part, hs, hp, ?_⟩
  rw [hposition, ho, ← String.length_toList, ht]
  simp [behind]

/-- Where the reader has two predicates that it doesn't understand, there's a single one with a
quoted text for the splitter. Behind them another one isn't closed. -/
def outOfStepExpression : String := "a[x'][y']/c[@d='"

theorem splitPath_covers_outOfStepExpression :
    (Path.compile (some loneOrigin) outOfStepExpression .self).outcome =
        .error (.malformed ⟨"c[@d='", 16, .unterminated⟩) ∧
      ∃ before part, splitPath outOfStepExpression.toList = before ++ [part] ∧
        Step.compile part.text part.offset = .error ⟨"c[@d='", 16, .unterminated⟩ := by
  have h : (Path.compile (some loneOrigin) outOfStepExpression .self).outcome =
      .error (.malformed ⟨"c[@d='", 16, .unterminated⟩) := rfl
  obtain ⟨before, part, hs, hp, -⟩ := (splitPath_covers _).2 _ _ _ h rfl
  exact ⟨h, before, part, hs, hp⟩

end MarkupPath
