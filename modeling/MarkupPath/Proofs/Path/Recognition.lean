import MarkupPath.Proofs.Path.Acceptance

/-!
# The step reader and the grammar

The reader compiles an expression if and only if the expression belongs to the grammar, and then to
the step that it stands for (`Step.compile_eq_ok_iff_isWritten`).
`MarkupPath.Proofs.Path.Acceptance` has one direction; here each form of the grammar is read in
turn, by itself and wherever it stands (`Passes`), and what is put together in the grammar is read
one after the other.

Two kinds of text are left out. A closing bracket between quotes ends a predicate that the grammar
wouldn't end there, and the reader refuses a dot in a name behind a slash, which is a letter in any
other name.
-/

namespace MarkupPath

namespace StepReader

open Progress

variable {offset position : Int} {name front text back : List Char} {c : Char} {test : Step}
variable {axis : Axis} {progress next between final : Progress}

namespace Progress

theorem breaksOff_of_append (h : progress.breaksOff position (front ++ text) = false) :
    progress.breaksOff position front = false := by
  induction front generalizing progress position with
  | nil => rfl
  | cons c front ih =>
    rw [List.cons_append, breaksOff, Bool.or_eq_false_iff] at h
    rw [breaksOff, Bool.or_eq_false_iff]
    refine ⟨h.1, ?_⟩
    cases ht : progress.take position c with
    | error problem => rfl
    | ok next => exact ih (by simpa [ht] using h.2)

/-- If no predicate is broken off in a text, none is broken off behind a part of it. -/
theorem breaksOff_behind (h : progress.breaksOff position (front ++ text) = false)
    (hr : progress.run position front = .ok between) :
    between.breaksOff (position + front.length) text = false := by
  induction front generalizing progress position with
  | nil =>
    cases hr
    simpa using h
  | cons c front ih =>
    obtain ⟨next, ht, hr⟩ := run_cons_eq_ok.mp hr
    rw [List.cons_append, breaksOff, ht, Bool.or_eq_false_iff] at h
    rw [List.length_cons, Int.natCast_add, Int.add_comm front.length, ← Int.add_assoc]
    exact ih h.2 hr

/-- If no predicate is broken off, the text between quotes holds no closing bracket. -/
theorem notMem_of_breaksOff {quote : Char} (hm : progress.mode = .quoted quote)
    (hq : quote ∉ text) (h : progress.breaksOff position text = false) : ']' ∉ text := by
  induction text generalizing progress position with
  | nil => exact List.not_mem_nil
  | cons c text ih =>
    rw [List.mem_cons, not_or] at hq
    have hc : c ≠ ']' := by
      rintro rfl
      simp [breaksOff, isQuoted, hm] at h
    have ht : progress.take position c = .ok { progress with value := progress.value ++ [c] } := by
      simp [take, hm, inQuoted, Ne.symm hq.1, hc]
    rw [breaksOff, ht, Bool.or_eq_false_iff] at h
    rw [List.mem_cons, not_or]
    refine ⟨Ne.symm hc, ih ?_ hq.2 h.2⟩
    exact hm

/-- A text is read from one state to another one wherever it stands, unless a predicate is broken
off in it. -/
def Passes (progress : Progress) (text : List Char) (final : Progress) : Prop :=
  ∀ position, progress.breaksOff position text = false → progress.run position text = .ok final

theorem Passes.nil : progress.Passes [] progress := fun _ _ => rfl

theorem Passes.append (hf : progress.Passes front between) (hb : between.Passes back final) :
    progress.Passes (front ++ back) final := by
  intro position h
  have hfront := hf position (breaksOff_of_append h)
  exact run_append_eq_ok.mpr ⟨between, hfront, hb _ (breaksOff_behind h hfront)⟩

theorem Passes.single (h : ∀ position, progress.take position c = .ok next) :
    progress.Passes [c] next :=
  fun position _ => run_cons_eq_ok.mpr ⟨next, h position, rfl⟩

theorem Passes.cons (h : ∀ position, progress.take position c = .ok next)
    (hb : next.Passes back final) : progress.Passes (c :: back) final :=
  (single h).append hb

end Progress

/-- A value is read as its content. -/
theorem Value.passes {value content : List Char} (h : Value value content)
    (hm : progress.mode = .assignment) :
    progress.Passes value { progress with value := progress.value ++ content } := by
  induction h generalizing progress with
  | nothing =>
    rw [List.append_nil]
    exact .nil
  | @blank c value content hc _ ih =>
    have hne : c ≠ ']' ∧ c ≠ '\'' ∧ c ≠ '"' := by
      refine ⟨?_, ?_, ?_⟩ <;> rintro rfl <;> exact absurd hc (by decide)
    refine .cons (fun position => ?_) (ih hm)
    simp [take, hm, inAssignment, hne, isDelimiter_of_isBlank hc, hc]
  | @letter c value content hc hd _ ih =>
    have hne : c ≠ ']' ∧ c ≠ '\'' ∧ c ≠ '"' := by
      refine ⟨?_, ?_, ?_⟩ <;> rintro rfl <;> cases hd
    have ht (position : Int) :
        progress.take position c = .ok { progress with value := progress.value ++ [c] } := by
      simp [take, hm, inAssignment, hne, hd, hc]
    have hrest : Progress.Passes { progress with value := progress.value ++ [c] } value
        { progress with value := progress.value ++ [c] ++ content } := ih hm
    rw [List.append_assoc] at hrest
    exact .cons ht hrest
  | @quoted quote inner value content hquote hq _ ih =>
    have hne : quote ≠ ']' := by rcases hquote with rfl | rfl <;> decide
    have hinner : Progress.Passes { progress with mode := .quoted quote } inner
        { progress with mode := .quoted quote, value := progress.value ++ inner } :=
      fun _ h => run_quoted rfl hq (notMem_of_breaksOff rfl hq h)
    have hrest : Progress.Passes { progress with value := progress.value ++ inner } value
        { progress with value := progress.value ++ inner ++ content } := ih hm
    rw [List.append_assoc] at hrest
    refine .cons (fun position => ?_) (hinner.append (.cons (fun position => ?_) hrest))
    · simp [take, hm, inAssignment, hne, hquote]
    · simp [take, inQuoted, hm]

/-- A predicate is read as what it adds to the step. -/
theorem Predicate.passes {effect : Effect} (h : Predicate text effect) (hi : progress.Idle) :
    progress.Passes text (progress.restricted effect) := by
  have hopen (position : Int) :
      progress.take position '[' = .ok { progress with mode := .filter } := by
    simp [take, hi.mode, inName]
  have hblanks {blanks : List Char} (hb : ∀ c ∈ blanks, isBlank c = true) :
      progress.Passes ('[' :: blanks) { progress with mode := .filter } :=
    .cons hopen fun _ _ => run_blanks rfl hb
  have hat (position : Int) : Progress.take { progress with mode := .filter } position '@' =
      .ok { progress with mode := .attributeName } := rfl
  have hname {name : List Char} (hn : IsAttributeName name) :
      Progress.Passes { progress with mode := .attributeName } name
        { progress with mode := .attributeName, attributeName := name } := by
    intro position _
    rw [run_attributeName rfl hn.letters, hi.attributeName, List.nil_append]
  have hstrip {name : List Char} (hn : IsAttributeName name) : (strip name).isEmpty = false := by
    simpa using (isAttributeName_iff_strip.mp hn).1
  cases h with
  | empty hb =>
    refine (hblanks hb).append (.single fun position => ?_)
    simp [take, inFilter, restricted, step, Step.restrict, hi.mode]
  | @present blanks name hb hn =>
    rw [List.append_assoc]
    refine (hblanks hb).append (.cons hat ((hname hn).append (.single fun position => ?_)))
    simp [take, inAttributeName, hstrip hn, restricted, step, Step.restrict, close, hi.mode,
      hi.attributeName, hi.value]
  | @value blanks name value content hb hn hv =>
    rw [List.append_assoc, List.append_assoc]
    have hvalue : Progress.Passes
        { progress with mode := .assignment, attributeName := name } value
        { progress with
          mode := .assignment, attributeName := name, value := progress.value ++ content } :=
      hv.passes rfl
    refine (hblanks hb).append (.cons hat ((hname hn).append (.cons (fun position => ?_)
      (hvalue.append (.single fun position => ?_)))))
    · simp [take, inAttributeName, hstrip hn]
    · simp [take, inAssignment, restricted, step, Step.restrict, close, hi.mode,
        hi.attributeName, hi.value]
  | @other blanks inner c hb hc hd ho hcl =>
    rw [List.append_assoc]
    have hne : c ≠ ']' ∧ c ≠ '@' := by constructor <;> rintro rfl <;> cases hd
    have hinner : Progress.Passes { progress with mode := .predicate, axis := .unsupported } inner
        { progress with mode := .predicate, axis := .unsupported } :=
      fun _ _ => run_predicate rfl ho hcl
    refine (hblanks hb).append
      (.cons (fun position => ?_) (hinner.append (.single fun position => ?_)))
    · simp [take, inFilter, hne, hd, hc]
    · simp [take, inPredicate, restricted, step, Step.restrict, hi.mode]

/-- Predicates are read one after the other. -/
theorem Predicates.passes {effects : List Effect} (h : Predicates text effects)
    (hi : progress.Idle) :
    ∃ final, progress.Passes text final ∧ final.Idle ∧
      final.step = effects.foldl Step.restrict progress.step := by
  induction h generalizing progress with
  | nil => exact ⟨progress, .nil, hi, rfl⟩
  | @cons front back effect effects hp _ ih =>
    obtain ⟨final, hpass, hidle, hstep⟩ := ih (hi.restricted effect)
    refine ⟨final, (hp.passes hi).append hpass, hidle, ?_⟩
    rw [hstep, step_restricted]
    rfl

theorem Marker.run (h : Marker offset front axis) :
    Progress.run {} offset front = .ok { axis } := by
  cases h with
  | root => rfl
  | descendants => rfl
  | within ho =>
    refine run_cons_eq_ok.mpr
      ⟨_, (take_name rfl (by decide)).mpr ⟨⟨rfl, rfl⟩, .within rfl rfl ?_⟩, rfl⟩
    omega

/-- A node test is read as its step, unless there's a dot behind a slash. -/
theorem NodeTest.runs (h : NodeTest offset front test) (hd : '.' ∉ front.dropWhile (· != '/')) :
    Progress.run {} offset front = .ok (tested front test) := by
  cases h with
  | nothing | self | parent | any => rfl
  | named hn =>
    -- the first letter isn't a dot, and then dots are letters
    cases front with
    | nil => exact absurd rfl hn.nonempty
    | cons c rest =>
      have hc := hn.letters c List.mem_cons_self
      have hopen : c ≠ '[' := by
        rintro rfl
        cases hc
      have hfirst : Progress.take {} offset c = .ok { name := [c] } :=
        (take_name rfl hopen).mpr ⟨⟨rfl, rfl⟩, .letter hc (by decide) (by decide)
          fun h => absurd (congrArg some h) hn.start⟩
      have hrest : Progress.run { name := [c] } (offset + 1) rest = .ok { name := [c] ++ rest } :=
        run_letters rfl ⟨rfl, rfl⟩ Axis.noConfusion Axis.noConfusion
          (fun d hd => hn.letters d (List.mem_cons_of_mem c hd))
          fun _ => ⟨rfl, List.cons_ne_nil c []⟩
      rw [run_cons_eq_ok]
      refine ⟨_, hfirst, hrest.trans ?_⟩
      simp [tested, hn.getLast?_ne]
  | marker hm =>
    rw [hm.run]
    cases hm <;> rfl
  | @markedAny marker axis hm =>
    refine run_append_eq_ok.mpr ⟨_, hm.run, run_cons_eq_ok.mpr ⟨_, (take_name rfl (by decide)).mpr
      ⟨⟨rfl, rfl⟩, .wildcard hm.axis_eq rfl⟩, ?_⟩⟩
    simp [tested, Progress.run]
  | @markedName marker name axis hm hn =>
    have hlast : (marker ++ name).getLast? ≠ some '*' := by
      rw [List.getLast?_append_of_ne_nil _ hn.nonempty]
      exact hn.getLast?_ne
    have hdot : '.' ∉ name := by
      rw [List.dropWhile_eq_self_iff.mpr] at hd
      · exact fun h => hd (List.mem_append_right marker h)
      · cases hm <;> simp
    have hname : Progress.run { axis } (offset + marker.length) name =
        .ok { axis, name := [] ++ name } :=
      run_letters rfl ⟨rfl, rfl⟩ hm.axis_ne.1 hm.axis_ne.2 hn.letters fun h => absurd h hdot
    refine run_append_eq_ok.mpr ⟨_, hm.run, hname.trans ?_⟩
    simp only [tested, beq_eq_false_iff_ne.mpr hlast]
    simp

theorem NodeTest.step_tested (h : NodeTest offset front test) :
    (tested front test).step = test := by
  cases h <;> simp [tested, step]

theorem tested_idle (front : List Char) (test : Step) : (tested front test).Idle := ⟨rfl, rfl, rfl⟩

/-- What the node test of an expression holds from its first slash on. -/
def markedPart (text : List Char) : List Char := (text.takeWhile (· != '[')).dropWhile (· != '/')

end StepReader

open StepReader

/-- An expression is compiled if and only if it's a node test with predicates behind it, and then to
the step that it stands for. -/
theorem Step.compile_eq_ok_iff_isWritten {text : List Char} {offset : Int} {step : Step}
    (ho : 0 ≤ offset) (hb : Progress.breaksOff {} offset text = false)
    (hd : '.' ∉ markedPart text) :
    Step.compile text offset = .ok step ↔ step.IsWritten offset text := by
  rw [compile_eq_ok]
  constructor
  · rintro ⟨final, hr, hf⟩
    obtain ⟨hm, rfl⟩ : final.mode = .name ∧ final.step = step := by
      rw [Progress.finish] at hf
      split at hf
      · exact ⟨by assumption, Option.some.inj hf⟩
      · cases hf
    -- the node test ends where the first predicate begins
    have hsplit := List.takeWhile_append_dropWhile (p := (· != '[')) (l := text)
    have hopen : '[' ∉ text.takeWhile (· != '[') := fun h => by
      simpa using List.mem_takeWhile_imp h
    have hbracket : ∀ c ∈ (text.dropWhile (· != '[')).head?, c = '[' := by
      intro c hc
      have := List.head?_dropWhile_not (· != '[') text
      rw [Option.mem_def.mp hc] at this
      simpa using this
    rw [← hsplit] at hr hb
    obtain ⟨between, hfront, hback⟩ := Progress.run_append_eq_ok.mp hr
    have hstart : (tested [] {}).run (offset + ([] : List Char).length)
        (text.takeWhile (· != '[')) = .ok between := by simpa [tested] using hfront
    obtain ⟨test, htest, rfl⟩ := NodeTest.run ho .nothing hopen hstart
    have hreads := Progress.Reads.mk hback hm (Progress.breaksOff_behind hb hfront)
    obtain ⟨effects, heffects, hstep⟩ := hreads.predicates (tested_idle _ _) (.inr hbracket)
    exact ⟨_, _, test, effects, hsplit.symm, htest, heffects, by rw [hstep, htest.step_tested]⟩
  · rintro ⟨front, back, test, effects, rfl, htest, heffects, rfl⟩
    have hfront : '.' ∉ front.dropWhile (· != '/') := by
      intro h
      refine hd ?_
      have hopen : ∀ c ∈ front, (c != '[') = true := fun c hc => by
        rw [bne_iff_ne]
        rintro rfl
        exact htest.notMem hc
      rw [markedPart, List.takeWhile_append_of_pos hopen, List.dropWhile_append]
      split
      · rename_i he
        rw [List.isEmpty_iff.mp he] at h
        cases h
      · exact List.mem_append_left _ h
    have hrun := htest.runs hfront
    obtain ⟨final, hpass, hidle, hstep⟩ := heffects.passes (tested_idle front test)
    refine ⟨final, Progress.run_append_eq_ok.mpr
      ⟨_, hrun, hpass _ (Progress.breaksOff_behind hb hrun)⟩, ?_⟩
    rw [Progress.finish, if_pos hidle.mode]
    rw [htest.step_tested] at hstep
    exact congrArg some hstep

/-- A name behind a slash with two predicates: one on a value that is quoted in part, and an empty
one. -/
def mixedExpression : List Char := "/ab[@c=' d'e f][ ]".toList

theorem isWritten_mixedExpression :
    Progress.breaksOff {} 2 mixedExpression = false ∧
      '.' ∉ markedPart mixedExpression ∧
      Step.IsWritten ⟨"ab", .descendants, [⟨"c", " def"⟩]⟩ 2 mixedExpression :=
  ⟨by decide, by decide,
    (Step.compile_eq_ok_iff_isWritten (by decide) (by decide) (by decide)).mp rfl⟩

end MarkupPath
