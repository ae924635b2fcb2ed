import MarkupPath.Proofs.Path.Recognition

/-!
# What follows a predicate

Behind a predicate that is closed outside quotes an expression can only go on with another one. But
a closing bracket that is read between quotes ends a predicate without a trace: the node test goes
on behind it, and a slash there asks for descendants. The two ways to close a predicate are told
apart by `closes` and `breaksOff`.

Main statement: `Step.behind_of_compile`. Whatever else than a predicate follows a predicate, all
those in front of it were broken off; an expression in which none is broken off is a node test with
predicates behind it, wherever it stands.
-/

namespace MarkupPath

namespace StepReader

open Progress

variable {progress next final : Progress} {position place offset : Int}
variable {front text : List Char} {c : Char} {test : Step}

namespace Progress

/-- Whether a predicate is closed by a bracket outside quotes. -/
def closes (progress : Progress) (position : Int) : List Char → Bool
  | [] => false
  | c :: rest =>
    !progress.isQuoted && c == ']' ||
      match progress.take position c with
      | .ok next => next.closes (position + 1) rest
      | .error _ => false

/-! ## The trace of a closed predicate -/

theorem ne_close_of_isNameLetter (h : isNameLetter c = true) : c ≠ ']' := by
  rintro rfl
  exact absurd h (by decide)

/-- A node test is read on in the same mode, and no predicate is closed in it. -/
theorem NameStep.keeps (h : NameStep progress position c next) :
    next.mode = progress.mode ∧ next.filtered = progress.filtered ∧ c ≠ ']' := by
  cases h with
  | letter hl => exact ⟨rfl, rfl, ne_close_of_isNameLetter hl⟩
  | self | parent | any | wildcard | root | within | descendants => exact ⟨rfl, rfl, by decide⟩

theorem isQuoted_of_mode (h : ∀ quote, progress.mode ≠ .quoted quote) :
    progress.isQuoted = false := by
  rw [isQuoted]
  split
  · rename_i quote hm
    exact absurd hm (h quote)
  · rfl

/-- Outside quotes a bracket that closes a predicate leaves its trace, and nothing else does. But
whether it's quoted or not, a predicate is left by such a bracket only. -/
theorem take_trace (h : progress.take position c = .ok next) :
    next.filtered = (progress.filtered || (!progress.isQuoted && c == ']')) ∧
      (progress.mode ≠ .name → next.mode = .name → c = ']') := by
  cases hm : progress.mode with
  | name =>
    refine ⟨?_, fun hn => absurd rfl hn⟩
    rw [isQuoted_of_mode (by simp [hm])]
    by_cases hc : c = '['
    · subst hc
      simp only [take, hm, inName, if_true, Except.ok.injEq] at h
      subst h
      simp
    · obtain ⟨-, hs⟩ := (take_name hm hc).mp h
      obtain ⟨-, hf, hne⟩ := hs.keeps
      simp [hf, hne]
  | filter =>
    rw [isQuoted_of_mode (by simp [hm])]
    simp only [take, hm, inFilter] at h
    grind
  | attributeName =>
    rw [isQuoted_of_mode (by simp [hm])]
    simp only [take, hm, inAttributeName, close] at h
    grind
  | assignment =>
    rw [isQuoted_of_mode (by simp [hm])]
    simp only [take, hm, inAssignment, close] at h
    grind
  | quoted quote =>
    -- the bracket that ends a predicate here isn't noted down
    have hq : progress.isQuoted = true := by rw [isQuoted, hm]
    simp only [take, hm, inQuoted, close, Except.ok.injEq] at h
    grind
  | predicate =>
    rw [isQuoted_of_mode (by simp [hm])]
    simp only [take, hm, inPredicate] at h
    grind

theorem filtered_run (h : progress.run position text = .ok final) :
    final.filtered = (progress.filtered || progress.closes position text) := by
  induction text generalizing progress position with
  | nil =>
    cases h
    simp [closes]
  | cons c text ih =>
    obtain ⟨next, ht, hr⟩ := run_cons_eq_ok.mp h
    rw [ih hr, (take_trace ht).1, closes, ht, Bool.or_assoc]

/-! ## Predicates that are closed at all -/

/-- A predicate that is left has been closed or broken off. -/
theorem closes_or_breaksOff (h : progress.run position text = .ok final)
    (hn : final.mode = .name) (ho : progress.mode ≠ .name ∨ '[' ∈ text) :
    progress.closes position text = true ∨ progress.breaksOff position text = true := by
  induction text generalizing progress position with
  | nil =>
    cases h
    rcases ho with ho | ho
    · exact absurd hn ho
    · cases ho
  | cons c text ih =>
    obtain ⟨next, ht, hr⟩ := run_cons_eq_ok.mp h
    simp only [closes, breaksOff, ht, Bool.or_eq_true]
    by_cases hleft : progress.mode ≠ .name ∧ next.mode = .name
    · -- here a predicate is left, so a closing bracket is read
      have hc := (take_trace ht).2 hleft.1 hleft.2
      cases hq : progress.isQuoted with
      | false => exact .inl (.inl (by simp [hc]))
      | true => exact .inr (.inl (by simp [hc]))
    have hopen : next.mode ≠ .name ∨ '[' ∈ text := by
      by_cases hm : progress.mode = .name
      · rcases List.mem_cons.mp (ho.resolve_left (absurd hm)) with rfl | hmem
        · simp only [take, hm, inName, if_true, Except.ok.injEq] at ht
          subst ht
          exact .inl (by simp)
        · exact .inr hmem
      · exact .inl fun hnext => hleft ⟨hm, hnext⟩
    exact (ih hr hopen).imp .inr .inr

/-! ## Expressions in front of the start -/

/-- A node test has begun, and isn't anchored at the root. -/
structure HasBegun (progress : Progress) : Prop where
  /-- the node test is read on -/
  mode : progress.mode = .name
  /-- it isn't anchored at the root -/
  axis : progress.axis ≠ .root
  /-- a letter or a marker has been read -/
  begun : progress.name ≠ [] ∨ progress.axis ≠ .children

/-- A node test that has begun holds no further slash, wherever it stands. -/
theorem HasBegun.take_eq (h : progress.HasBegun) :
    progress.take position c = progress.take place c := by
  have hslash (position : Int) : progress.slash position = .error (.unexpected '/') := by
    have hb := h.begun
    have ha := h.axis
    simp only [slash]
    split
    · rfl
    · rename_i hn
      simp only [Bool.or_eq_true, not_or, Bool.not_eq_true, Bool.not_eq_false',
        List.isEmpty_iff] at hn
      rw [hn.1.1] at hb
      split
      · rename_i hc
        exact absurd hc (hb.resolve_left (absurd rfl))
      · rename_i hc
        exact absurd hc ha
      · rfl
  simp only [take, inName]
  rw [hslash position, hslash place]

theorem HasBegun.take (h : progress.HasBegun) (hc : c ≠ '[')
    (ht : progress.take position c = .ok next) : next.HasBegun := by
  obtain ⟨-, hs⟩ := (take_name h.mode hc).mp ht
  refine ⟨hs.keeps.1.trans h.mode, ?_, ?_⟩
  · cases hs with
    | letter | wildcard => exact h.axis
    | self | parent | any | within | descendants => simp
    | root ha hn => exact absurd ha (h.begun.resolve_left (absurd hn))
  · cases hs with
    | letter => exact .inl (by simp)
    | self | parent | any | root | within | descendants => exact .inr (by simp)
    | wildcard ha => exact .inr (by rcases ha with ha | ha <;> simp [ha])

theorem HasBegun.run_eq (h : progress.HasBegun) (hc : '[' ∉ text)
    (hr : progress.run position text = .ok final) : progress.run place text = .ok final := by
  induction text generalizing progress position place with
  | nil => exact hr
  | cons c text ih =>
    rw [List.mem_cons, not_or] at hc
    obtain ⟨next, ht, hr⟩ := run_cons_eq_ok.mp hr
    exact run_cons_eq_ok.mpr
      ⟨next, h.take_eq.trans ht, ih (h.take (Ne.symm hc.1) ht) hc.2 hr⟩

theorem hasBegun_of_take (hp : position ≠ 0) (hc : c ≠ '[')
    (h : Progress.take {} position c = .ok next) : next.HasBegun := by
  obtain ⟨-, hs⟩ := (take_name rfl hc).mp h
  refine ⟨hs.keeps.1, axis_take (by decide) hp h, ?_⟩
  cases hs with
  | letter => exact .inl (by simp)
  | self | parent | any | root | within | descendants => exact .inr (by simp)
  | wildcard ha => rcases ha with ha | ha <;> cases ha

end Progress

/-- A place behind the start of a path or at it, where an expression is read as at the given one. -/
def placeOf (offset : Int) : Int := if offset < 0 then 1 else offset

theorem zero_le_placeOf (offset : Int) : 0 ≤ placeOf offset := by
  rw [placeOf]
  split <;> omega

/-- In front of the start of a path a node test is read as behind it. -/
theorem run_placeOf (hc : '[' ∉ text) (h : Progress.run {} offset text = .ok final) :
    Progress.run {} (placeOf offset) text = .ok final := by
  rw [placeOf]
  split
  · -- only the first character can be read differently, and only at the start
    rename_i ho
    cases text with
    | nil => exact h
    | cons c text =>
      rw [List.mem_cons, not_or] at hc
      obtain ⟨next, ht, hr⟩ := run_cons_eq_ok.mp h
      have hbegun := hasBegun_of_take (Int.ne_of_lt ho) (Ne.symm hc.1) ht
      rw [take_at (by decide) (Int.ne_of_lt ho) Int.one_ne_zero] at ht
      exact run_cons_eq_ok.mpr ⟨next, ht, hbegun.run_eq hc.2 hr⟩
  · exact h

/-- Up to the first bracket a node test is read, wherever the expression stands. -/
theorem NodeTest.of_run (hc : '[' ∉ text) (h : Progress.run {} offset text = .ok final) :
    ∃ test, NodeTest (placeOf offset) text test ∧ final = tested text test := by
  have hstart : (tested [] {}).run (placeOf offset + ([] : List Char).length) text = .ok final := by
    simpa [tested] using run_placeOf hc h
  obtain ⟨test, htest, hfinal⟩ := NodeTest.run (zero_le_placeOf offset) .nothing hc hstart
  exact ⟨test, htest, hfinal⟩

/-- A slash in a node test stands at its start, or is the second one at the start of the path. -/
theorem NodeTest.slash (h : NodeTest place front test)
    (ht : (tested front test).take (offset + front.length) '/' = .ok next) :
    front = [] ∨ front = ['/'] ∧ offset = 0 := by
  obtain ⟨⟨-, hw⟩, hs⟩ := (take_name rfl (by decide)).mp ht
  have hempty : (tested front test).name = [] := by
    cases hs with
    | letter hl => exact absurd hl (by decide)
    | root _ hn | within _ hn | descendants _ hn => exact hn
  cases h with
  | nothing => exact .inl rfl
  | named hn | markedName _ hn => exact absurd (by simpa [tested] using hempty) hn.nonempty
  | markedAny => simp [tested] at hw
  | any => cases hw
  | self | parent =>
    cases hs with
    | letter hl => exact absurd hl (by decide)
    | root ha | within ha | descendants ha => cases ha
  | marker hm =>
    cases hs with
    | letter hl => exact absurd hl (by decide)
    | root ha | within ha => cases hm <;> cases ha
    | descendants ha _ hp =>
      cases hm with
      | root =>
        have hone : offset + 1 = 1 := hp
        exact .inr ⟨rfl, by omega⟩
      | descendants | within => cases ha

/-- A node test and the predicates behind it are told apart by the first bracket. -/
theorem exists_append_bracket (text : List Char) :
    ∃ front back, text = front ++ back ∧ '[' ∉ front ∧ ∀ c ∈ back.head?, c = '[' := by
  refine ⟨text.takeWhile (· != '['), text.dropWhile (· != '['),
    List.takeWhile_append_dropWhile.symm, fun h => ?_, fun c hc => ?_⟩
  · simpa using List.mem_takeWhile_imp h
  · have hhead := List.head?_dropWhile_not (· != '[') text
    rw [Option.mem_def.mp hc] at hhead
    simpa using hhead

/-- Behind a part of an expression the reader isn't in a predicate. -/
def IsOutside (offset : Int) (front : List Char) : Prop :=
  ∃ progress, Progress.run {} offset front = .ok progress ∧ progress.mode = .name

/-- There are predicates in a part of an expression, and all of them are broken off. -/
structure IsBroken (offset : Int) (front : List Char) : Prop where
  /-- one is broken off -/
  breaksOff : Progress.breaksOff {} offset front = true
  /-- none is closed -/
  closes : Progress.closes {} offset front = false

/-- A predicate that is followed by anything but another one is broken off, and so are those in
front of it. -/
theorem IsOutside.isBroken (ho : IsOutside offset front) (hb : '[' ∈ front) (hc : c ≠ '[')
    (hr : Progress.run {} offset (front ++ c :: text) = .ok final) : IsBroken offset front := by
  obtain ⟨progress, hfront, hm⟩ := ho
  obtain ⟨between, hbetween, hrest⟩ := run_append_eq_ok.mp hr
  cases hfront.symm.trans hbetween
  obtain ⟨next, ht, -⟩ := run_cons_eq_ok.mp hrest
  obtain ⟨htest, -⟩ := (take_name hm hc).mp ht
  have hcloses : Progress.closes {} offset front = false := by
    have hf := filtered_run hfront
    rw [htest.filtered] at hf
    simpa using hf.symm
  refine ⟨?_, hcloses⟩
  rcases closes_or_breaksOff hfront hm (.inr hb) with h | h
  · cases hcloses.symm.trans h
  · exact h

end StepReader

open StepReader

/-- Where a compiled expression has anything but a predicate behind a predicate, none has been
closed in front of it, all have been broken off. So its slashes belong to the marker at its start,
are inside brackets or are behind predicates that have been broken off; and if none is, then the
expression is a node test with predicates behind it. -/
theorem Step.behind_of_compile {text : List Char} {offset : Int} {step : Step}
    (h : Step.compile text offset = .ok step) :
    (∀ front c back, text = front ++ c :: back → IsOutside offset front → '[' ∈ front →
      c = '[' ∨ IsBroken offset front) ∧
    (∀ front back, text = front ++ '/' :: back → IsOutside offset front →
      front = [] ∨ front = ['/'] ∧ offset = 0 ∨ '[' ∈ front ∧ IsBroken offset front) ∧
    (Progress.breaksOff {} offset text = false → step.IsWritten (placeOf offset) text) := by
  obtain ⟨final, hr, hf⟩ := compile_eq_ok.mp h
  refine ⟨?_, ?_, ?_⟩
  · rintro front c back rfl ho hb
    by_cases hc : c = '['
    · exact .inl hc
    · exact .inr (ho.isBroken hb hc hr)
  · rintro front back rfl ho
    by_cases hb : '[' ∈ front
    · exact .inr (.inr ⟨hb, ho.isBroken hb (by decide) hr⟩)
    -- without a bracket in front of it, the slash belongs to the node test
    obtain ⟨between, hfront, hrest⟩ := Progress.run_append_eq_ok.mp hr
    obtain ⟨next, ht, -⟩ := Progress.run_cons_eq_ok.mp hrest
    obtain ⟨test, htest, rfl⟩ := NodeTest.of_run hb hfront
    exact (htest.slash ht).imp_right .inl
  · intro hb
    obtain ⟨hm, rfl⟩ : final.mode = .name ∧ final.step = step := by
      rw [Progress.finish] at hf
      split at hf
      · exact ⟨by assumption, Option.some.inj hf⟩
      · cases hf
    -- what follows the node test is read as predicates, for none is broken off
    obtain ⟨front, back, rfl, hfront, hbracket⟩ := exists_append_bracket text
    obtain ⟨between, hrun, hback⟩ := Progress.run_append_eq_ok.mp hr
    obtain ⟨test, htest, rfl⟩ := NodeTest.of_run hfront hrun
    have hreads := Progress.Reads.mk hback hm (Progress.breaksOff_behind hb hrun)
    obtain ⟨effects, heffects, hstep⟩ := hreads.predicates (tested_idle front test) (.inr hbracket)
    exact ⟨front, back, test, effects, rfl, htest, heffects, by rw [hstep, htest.step_tested]⟩

/-- A text between quotes that a bracket ends, and a name behind a slash. -/
def brokenExpression : List Char := "[@a='x]/b".toList

/-- A slash behind a predicate that is broken off asks for descendants. -/
theorem not_bracket_behind_brokenExpression :
    Step.compile brokenExpression = .ok ⟨"b", .descendants, [⟨"a", "x"⟩]⟩ ∧
      ¬∀ front c back, brokenExpression = front ++ c :: back → IsOutside 0 front → '[' ∈ front →
        c = '[' := by
  refine ⟨rfl, fun h => ?_⟩
  have hc := h "[@a='x]".toList '/' "b".toList rfl ⟨_, rfl, rfl⟩ (by decide)
  cases hc

theorem behind_mixedExpression :
    Step.compile mixedExpression 2 = .ok ⟨"ab", .descendants, [⟨"c", " def"⟩]⟩ ∧
      Progress.breaksOff {} 2 mixedExpression = false ∧
      Step.IsWritten ⟨"ab", .descendants, [⟨"c", " def"⟩]⟩ 2 mixedExpression := by
  have hcompile :
      Step.compile mixedExpression 2 = .ok ⟨"ab", .descendants, [⟨"c", " def"⟩]⟩ := rfl
  have hunbroken : Progress.breaksOff {} 2 mixedExpression = false := by decide
  exact ⟨hcompile, hunbroken, (Step.behind_of_compile hcompile).2.2 hunbroken⟩

end MarkupPath
