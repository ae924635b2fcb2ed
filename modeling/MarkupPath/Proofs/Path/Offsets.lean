import MarkupPath.Path.StepReader

/-!
# Where a step expression stands

The position of a step expression in the whole path matters for a slash only, and only at the very
start. Anywhere else an expression is compiled to the same step as at every other place
(`compile_at`), and so it is at the start if it doesn't begin with a slash. The two slashes that ask
for descendants at the start are a single one elsewhere (`compile_slash_at`).
-/

namespace MarkupPath

namespace StepReader.Progress

variable {progress next : Progress} {p q : Int} {c : Char}

theorem slash_at (ha : progress.axis ≠ .root) (hp : p ≠ 0) (hq : q ≠ 0) :
    progress.slash p = progress.slash q := by
  simp only [slash]
  cases hx : progress.axis <;> simp_all

/-- Behind the start of a path, what a character means doesn't depend on its position. -/
theorem take_at (ha : progress.axis ≠ .root) (hp : p ≠ 0) (hq : q ≠ 0) :
    progress.take p c = progress.take q c := by
  simp only [take, inName]
  rw [slash_at ha hp hq]

/-- Behind the start of a path, no step is anchored at the root. -/
theorem axis_take (ha : progress.axis ≠ .root) (hp : p ≠ 0) (h : progress.take p c = .ok next) :
    next.axis ≠ .root := by
  simp only [take] at h
  cases hm : progress.mode <;> rw [hm] at h <;> simp only at h
  case name =>
    simp only [inName, dot, star, slash, letter] at h
    grind
  case filter => unfold inFilter at h; grind
  case attributeName => unfold inAttributeName close at h; grind
  case assignment => unfold inAssignment close at h; grind
  case quoted => cases h; unfold inQuoted close; grind
  case predicate => unfold inPredicate at h; grind

/-- Behind the start of a path, a text is read to the same end at every position. -/
theorem run_at {text : List Char} (ha : progress.axis ≠ .root) (hp : 0 < p) (hq : 0 < q)
    (h : progress.run p text = .ok next) : progress.run q text = .ok next := by
  induction text generalizing progress p q with
  | nil => exact h
  | cons c text ih =>
    rw [run] at h ⊢
    rw [← take_at ha (Int.ne_of_gt hp) (Int.ne_of_gt hq)]
    cases ht : progress.take p c with
    | error problem =>
      rw [ht] at h
      cases h
    | ok behind =>
      rw [ht] at h
      exact ih (axis_take ha (Int.ne_of_gt hp) ht) (Int.add_pos hp Int.one_pos)
        (Int.add_pos hq Int.one_pos) h

/-- A character other than a slash means the same at the start as anywhere else. -/
theorem take_start (hc : c ≠ '/') :
    take {} 0 c = take {} q c ∧ ∀ next, take {} 0 c = .ok next → next.axis ≠ .root := by
  have hn (position : Int) : take {} position c = if c = '[' then .ok { mode := .filter }
      else if isDelimiter c then .error (.unexpected c)
      else if c = '.' then dot {} else if c = '*' then star {} else letter {} c := by
    rw [take, inName, if_neg hc]
  refine ⟨(hn 0).trans (hn q).symm, fun next h => ?_⟩
  rw [(hn 0).trans (hn 1).symm] at h
  exact axis_take (by decide) (by decide) h

end StepReader.Progress

namespace Step

open StepReader

theorem compile_eq_ok {text : List Char} {offset : Int} {step : Step} :
    compile text offset = .ok step ↔
      ∃ progress, Progress.run {} offset text = .ok progress ∧ progress.finish = some step := by
  simp only [compile]
  cases Progress.run {} offset text with
  | error failure => simp
  | ok progress =>
    cases hf : progress.finish with
    | none => simp [hf]
    | some step => simp [hf]

/-- Behind the start of a path it doesn't matter where an expression stands. -/
theorem compile_at {text : List Char} {offset place : Int} {step : Step} (ho : 0 < offset)
    (hp : 0 < place) (h : compile text offset = .ok step) : compile text place = .ok step := by
  obtain ⟨progress, hr, hf⟩ := compile_eq_ok.mp h
  exact compile_eq_ok.mpr ⟨progress, Progress.run_at (by decide) ho hp hr, hf⟩

/-- An expression at the start that doesn't begin with a slash could stand anywhere else. -/
theorem compile_at_of_start {text : List Char} {place : Int} {step : Step}
    (hs : text.head? ≠ some '/') (hp : 0 < place) (h : compile text 0 = .ok step) :
    compile text place = .ok step := by
  obtain ⟨progress, hr, hf⟩ := compile_eq_ok.mp h
  refine compile_eq_ok.mpr ⟨progress, ?_, hf⟩
  cases text with
  | nil => exact hr
  | cons c text =>
    have hc : c ≠ '/' := by simpa using hs
    obtain ⟨ht, ha⟩ := Progress.take_start (q := place) hc
    rw [Progress.run] at hr ⊢
    rw [← ht]
    cases hb : Progress.take {} 0 c with
    | error problem =>
      rw [hb] at hr
      cases hr
    | ok behind =>
      rw [hb] at hr
      exact Progress.run_at (ha behind hb) (by decide) (Int.add_pos hp Int.one_pos) hr

/-- Two slashes at the start ask for descendants, like a single one anywhere else. -/
theorem compile_slash_at {text : List Char} {place : Int} {step : Step} (hp : 0 < place)
    (h : compile ('/' :: '/' :: text) 0 = .ok step) :
    compile ('/' :: text) place = .ok step := by
  obtain ⟨progress, hr, hf⟩ := compile_eq_ok.mp h
  refine compile_eq_ok.mpr ⟨progress, ?_, hf⟩
  have htake : Progress.take {} place '/' = .ok { axis := .descendants } := by
    change Progress.slash {} place = _
    simp [Progress.slash, Int.ne_of_gt hp]
  have hslash : Progress.run {} place ('/' :: text) =
      Progress.run { axis := .descendants } (place + 1) text := by
    rw [Progress.run, htake]
  rw [hslash]
  exact Progress.run_at (by decide) (by decide) (Int.add_pos hp Int.one_pos)
    (p := 2) (q := place + 1) hr

end Step
end MarkupPath
