import Mathlib.Tactic.ByContra
import MarkupPath.Proofs.Path.Grammar

/-!
# What the step reader accepts

Where the reader of step expressions gets to the end of a text, the text belongs to the grammar.
It's shown mode by mode: what is read from each mode on, up to the end of the predicate
(`Reads.quoted`, `Reads.assignment`, `Reads.attributeName`, `Reads.predicate`, `Reads.filter`), then
for the predicates together (`Reads.predicates`), and for the node test in front of them, which is
read on from one node test to another (`NodeTest.take`).

A closing bracket between quotes ends a predicate too, without a closing quote. Such a text doesn't
belong to the grammar, so it's assumed here that none is read (`breaksOff`).
-/

namespace MarkupPath

namespace StepReader

namespace Progress

variable {progress final : Progress} {position : Int} {text : List Char} {c : Char}

/-- Whether a value between quotes is read. -/
def isQuoted (progress : Progress) : Bool :=
  match progress.mode with
  | .quoted _ => true
  | _ => false

/-- Whether a predicate is broken off: a closing bracket is read between quotes. -/
def breaksOff (progress : Progress) (position : Int) : List Char → Bool
  | [] => false
  | c :: rest =>
    progress.isQuoted && c == ']' ||
      match progress.take position c with
      | .ok next => next.breaksOff (position + 1) rest
      | .error _ => false

/-- A text is read to its end, which isn't in a predicate, and none is broken off. -/
structure Reads (progress : Progress) (position : Int) (text : List Char) (final : Progress) :
    Prop where
  run : progress.run position text = .ok final
  mode : final.mode = .name
  unbroken : progress.breaksOff position text = false

/-- What has been read of the step. -/
def step (progress : Progress) : Step :=
  ⟨String.ofList progress.name, progress.axis, progress.constraints⟩

theorem Reads.of_nil (h : progress.Reads position [] final) : progress.mode = .name := by
  obtain ⟨hr, hm, -⟩ := h
  cases hr
  exact hm

theorem Reads.of_cons (h : progress.Reads position (c :: text) final) :
    ∃ next, progress.take position c = .ok next ∧ next.Reads (position + 1) text final ∧
      (progress.isQuoted = true → c ≠ ']') := by
  obtain ⟨next, ht, hr⟩ := run_cons_eq_ok.mp h.run
  have hu := h.unbroken
  rw [breaksOff, ht, Bool.or_eq_false_iff, Bool.and_eq_false_imp] at hu
  exact ⟨next, ht, ⟨hr, h.mode, hu.2⟩, fun hq => by simpa using hu.1 hq⟩

/-- A predicate on an attribute is closed, and another text can follow. -/
def closed (progress : Progress) : Progress := { progress.close with filtered := true }

/-- Between quotes all is read up to the next one. -/
theorem Reads.quoted {quote : Char} (h : progress.Reads position text final)
    (hm : progress.mode = .quoted quote) :
    ∃ inner rest behind, text = inner ++ quote :: rest ∧ quote ∉ inner ∧
      Reads { progress with mode := .assignment, value := progress.value ++ inner } behind rest
        final := by
  induction text generalizing progress position with
  | nil => cases hm.symm.trans h.of_nil
  | cons c text ih =>
    obtain ⟨next, ht, hr, hb⟩ := h.of_cons
    simp only [take, hm, Except.ok.injEq] at ht
    have hne : c ≠ ']' := hb (by rw [isQuoted, hm])
    by_cases hc : c = quote
    · subst hc
      refine ⟨[], text, position + 1, rfl, List.not_mem_nil, ?_⟩
      rw [inQuoted, if_pos rfl] at ht
      rw [List.append_nil, ht]
      exact hr
    · rw [inQuoted, if_neg hc, if_neg hne] at ht
      subst ht
      obtain ⟨inner, rest, behind, rfl, hq, hr⟩ := ih hr hm
      refine ⟨c :: inner, rest, behind, rfl, by simp [Ne.symm hc, hq], ?_⟩
      simpa using hr

/-- Outside quotes a value is read up to the end of the predicate. -/
theorem Reads.assignment (h : progress.Reads position text final)
    (hm : progress.mode = .assignment) :
    ∃ value content rest behind, text = value ++ ']' :: rest ∧ Value value content ∧
      Reads (closed { progress with value := progress.value ++ content }) behind rest final := by
  induction hl : text.length using Nat.strongRecOn generalizing progress position text with
  | ind length ih =>
    cases text with
    | nil => cases hm.symm.trans h.of_nil
    | cons c text =>
      obtain ⟨next, ht, hr, -⟩ := h.of_cons
      simp only [take, hm, inAssignment] at ht
      split at ht
      · rename_i hc
        cases ht
        refine ⟨[], [], text, position + 1, by rw [hc]; rfl, .nothing, ?_⟩
        simpa [closed] using hr
      split at ht
      · -- a text between quotes, and then the value goes on
        rename_i hquote
        cases ht
        obtain ⟨inner, behind, place, rfl, hq, hr⟩ := hr.quoted rfl
        obtain ⟨value, content, rest, place, rfl, hv, hr⟩ :=
          ih _ (by rw [← hl]; simp only [List.length_cons, List.length_append]; omega) hr rfl rfl
        refine ⟨c :: inner ++ c :: value, inner ++ content, rest, place, by simp,
          .quoted hquote hq hv, ?_⟩
        simpa [closed, close] using hr
      split at ht
      · cases ht
      rename_i hdelim
      split at ht
      · rename_i hb
        cases ht
        obtain ⟨value, content, rest, place, rfl, hv, hr⟩ := ih _ (by rw [← hl]; simp) hr hm rfl
        exact ⟨c :: value, content, rest, place, rfl, .blank hb hv, hr⟩
      · rename_i hb
        cases ht
        obtain ⟨value, content, rest, place, rfl, hv, hr⟩ := ih _ (by rw [← hl]; simp) hr rfl rfl
        refine ⟨c :: value, c :: content, rest, place, rfl,
          .letter (by simpa using hb) (by simpa using hdelim) hv, ?_⟩
        simpa [closed, close] using hr

/-- The name of an attribute is read up to the end of the predicate or to the value. -/
theorem Reads.attributeName (h : progress.Reads position text final)
    (hm : progress.mode = .attributeName) :
    ∃ name rest behind, (∀ c ∈ name, isDelimiter c = false) ∧
      strip (progress.attributeName ++ name) ≠ [] ∧
      (text = name ++ ']' :: rest ∧
        Reads (closed { progress with attributeName := progress.attributeName ++ name })
          behind rest final ∨
      text = name ++ '=' :: rest ∧
        Reads { progress with
            mode := .assignment, attributeName := progress.attributeName ++ name }
          behind rest final) := by
  induction text generalizing progress position with
  | nil => cases hm.symm.trans h.of_nil
  | cons c text ih =>
    obtain ⟨next, ht, hr, -⟩ := h.of_cons
    simp only [take, hm, inAttributeName] at ht
    split at ht
    · rename_i hc
      split at ht
      · cases ht
      rename_i hs
      cases ht
      refine ⟨[], text, position + 1, by simp, by simpa using hs, .inl ⟨by rw [hc]; rfl, ?_⟩⟩
      simpa [closed] using hr
    split at ht
    · rename_i hc
      split at ht
      · cases ht
      rename_i hs
      cases ht
      refine ⟨[], text, position + 1, by simp, by simpa using hs, .inr ⟨by rw [hc]; rfl, ?_⟩⟩
      simpa using hr
    split at ht
    · cases ht
    rename_i hdelim
    cases ht
    obtain ⟨name, rest, behind, hn, hs, hend⟩ := ih hr rfl
    refine ⟨c :: name, rest, behind, ?_, by simpa using hs, ?_⟩
    · simpa using ⟨by simpa using hdelim, hn⟩
    · clear hr h ih
      rcases hend with ⟨rfl, hr⟩ | ⟨rfl, hr⟩
      · exact .inl ⟨rfl, by simpa [closed, close] using hr⟩
      · exact .inr ⟨rfl, by simpa using hr⟩

/-- A predicate that isn't understood is read up to its end. -/
theorem Reads.predicate (h : progress.Reads position text final) (hm : progress.mode = .predicate) :
    ∃ inner rest behind, text = inner ++ ']' :: rest ∧ '[' ∉ inner ∧ ']' ∉ inner ∧
      Reads { progress with mode := .name, filtered := true } behind rest final := by
  induction text generalizing progress position with
  | nil => cases hm.symm.trans h.of_nil
  | cons c text ih =>
    obtain ⟨next, ht, hr, -⟩ := h.of_cons
    simp only [take, hm, inPredicate] at ht
    split at ht
    · cases ht
    rename_i ho
    split at ht
    · rename_i hc
      cases ht
      exact ⟨[], text, position + 1, by rw [hc]; rfl, by simp, by simp, hr⟩
    · rename_i hc
      cases ht
      obtain ⟨inner, rest, behind, rfl, hi, hi', hr⟩ := ih hr hm
      exact ⟨c :: inner, rest, behind, rfl, by simp [Ne.symm ho, hi], by simp [Ne.symm hc, hi'], hr⟩

/-- No predicate is open. -/
structure Idle (progress : Progress) : Prop where
  /-- the next character doesn't belong to a predicate -/
  mode : progress.mode = .name
  /-- no name of an attribute has been read -/
  attributeName : progress.attributeName = []
  /-- no value has been read -/
  value : progress.value = []

/-- The step, and what has been read of it behind a predicate. -/
def restricted (progress : Progress) (effect : Effect) : Progress :=
  { progress with
    axis := (progress.step.restrict effect).axis
    constraints := (progress.step.restrict effect).constraints
    filtered := true }

theorem Idle.restricted (h : progress.Idle) (effect : Effect) : (progress.restricted effect).Idle :=
  ⟨h.mode, h.attributeName, h.value⟩

theorem step_restricted (effect : Effect) :
    (progress.restricted effect).step = progress.step.restrict effect := by
  cases effect <;> rfl

/-- The blanks at the start of a predicate are disregarded. -/
theorem Reads.blanks (h : progress.Reads position text final) (hm : progress.mode = .filter) :
    ∃ blanks rest behind, text = blanks ++ rest ∧ (∀ c ∈ blanks, isBlank c = true) ∧
      (∀ c ∈ rest.head?, isBlank c = false) ∧ progress.Reads behind rest final := by
  induction text generalizing position with
  | nil => exact ⟨[], [], position, rfl, by simp, by simp, h⟩
  | cons c text ih =>
    by_cases hb : isBlank c = true
    · obtain ⟨next, ht, hr, -⟩ := h.of_cons
      have hn : next = progress := by
        have hc : c ≠ ']' ∧ c ≠ '@' := by
          constructor <;> rintro rfl <;> exact absurd hb (by decide)
        simpa [take, hm, inFilter, hc, isDelimiter_of_isBlank hb, hb, eq_comm] using ht
      rw [hn] at hr
      obtain ⟨blanks, rest, behind, rfl, hbs, ho, hr⟩ := ih hr
      exact ⟨c :: blanks, rest, behind, rfl, by simpa using ⟨hb, hbs⟩, ho, hr⟩
    · exact ⟨[], c :: text, position, rfl, by simp, by simpa using hb, h⟩

/-- Behind an opening bracket a predicate is read up to its end. -/
theorem Reads.filter (h : Reads { progress with mode := .filter } position text final)
    (hi : progress.Idle) :
    ∃ inner effect rest behind, text = inner ++ rest ∧ Predicate ('[' :: inner) effect ∧
      (progress.restricted effect).Reads behind rest final := by
  obtain ⟨blanks, text, place, rfl, hb, hh, hrest⟩ := h.blanks rfl
  clear h
  cases text with
  | nil => cases hrest.of_nil
  | cons c text =>
    obtain ⟨next, ht, hr, -⟩ := hrest.of_cons
    clear hrest
    simp only [take, inFilter] at ht
    split at ht
    · rename_i hc
      cases ht
      refine ⟨blanks ++ [']'], .nothing, text, place + 1, by simp [hc], .empty hb, ?_⟩
      simpa [restricted, step, Step.restrict, hi.mode] using hr
    split at ht
    · rename_i hc
      cases ht
      obtain ⟨name, rest, behind, hn, hs, hend⟩ := hr.attributeName rfl
      clear hr
      simp only [hi.attributeName, List.nil_append] at hs hend
      have hname := isAttributeName_iff_strip.mpr ⟨hs, hn⟩
      rcases hend with ⟨rfl, hr⟩ | ⟨rfl, hr⟩
      · refine ⟨blanks ++ '@' :: name ++ [']'], _, rest, behind, by simp [hc],
          by simpa using Predicate.present hb hname, ?_⟩
        simpa [restricted, step, Step.restrict, closed, close, hi.mode, hi.attributeName,
            hi.value] using hr
      · obtain ⟨value, content, rest, behind, rfl, hv, hr⟩ := hr.assignment rfl
        refine ⟨blanks ++ '@' :: name ++ '=' :: value ++ [']'], _, rest, behind, by simp [hc],
          by simpa using Predicate.value hb hname hv, ?_⟩
        simpa [restricted, step, Step.restrict, closed, close, hi.mode, hi.attributeName,
            hi.value] using hr
    split at ht
    · cases ht
    rename_i hdelim
    rw [if_neg (by simpa using hh)] at ht
    cases ht
    obtain ⟨inner, rest, behind, rfl, ho, hc, hr⟩ := hr.predicate rfl
    refine ⟨blanks ++ c :: inner ++ [']'], .unsupported, rest, behind, by simp,
      by simpa using Predicate.other hb (by simpa using hh) (by simpa using hdelim) ho hc, ?_⟩
    simpa [restricted, step, Step.restrict, hi.mode] using hr

/-- Behind the node test there are predicates only. -/
theorem Reads.predicates (h : progress.Reads position text final) (hi : progress.Idle)
    (hf : progress.filtered = true ∨ ∀ c ∈ text.head?, c = '[') :
    ∃ effects, Predicates text effects ∧
      final.step = effects.foldl Step.restrict progress.step := by
  induction hl : text.length using Nat.strongRecOn generalizing progress position text with
  | ind length ih =>
    cases text with
    | nil =>
      cases h.run
      exact ⟨[], .nil, rfl⟩
    | cons c text =>
      obtain ⟨next, ht, hr, -⟩ := h.of_cons
      have hc : c = '[' := by
        rcases hf with hf | hf
        · by_contra hc
          obtain ⟨htest, -⟩ := (take_name hi.mode hc).mp ht
          cases hf.symm.trans htest.filtered
        · exact hf c rfl
      subst hc
      simp only [take, hi.mode, inName, if_true, Except.ok.injEq] at ht
      subst ht
      obtain ⟨inner, effect, rest, behind, rfl, hp, hr⟩ := hr.filter hi
      obtain ⟨effects, hps, he⟩ := ih rest.length
        (by rw [← hl, List.length_cons, List.length_append]; omega)
        hr (hi.restricted effect) (.inl rfl) rfl
      refine ⟨effect :: effects, .cons hp hps, ?_⟩
      rw [he, step_restricted]
      rfl

end Progress

open Progress

variable {offset : Int} {front text : List Char} {c : Char} {test : Step} {next final : Progress}

/-- What the reader holds behind a node test. -/
def tested (front : List Char) (test : Step) : Progress where
  axis := test.axis
  name := test.name.toList
  wildcard := front.getLast? == some '*'

/-- A node test is read on to another one. -/
theorem NodeTest.take (ho : 0 ≤ offset) (h : NodeTest offset front test) (hc : c ≠ '[')
    (ht : (tested front test).take (offset + front.length) c = .ok next) :
    ∃ test', NodeTest offset (front ++ [c]) test' ∧ next = tested (front ++ [c]) test' := by
  obtain ⟨⟨-, hw⟩, hs⟩ := (take_name rfl hc).mp ht
  have hlast : front.getLast? ≠ some '*' := by simpa [tested] using hw
  cases h with
  | nothing =>
    cases hs with
    | letter hl _ _ hd =>
      refine ⟨_, .named (isName_singleton hl fun h => (hd h).2 rfl), ?_⟩
      simp [tested, ne_star_of_isNameLetter hl]
    | self => exact ⟨_, .self, rfl⟩
    | any => exact ⟨_, .any, rfl⟩
    | root _ _ hp =>
      obtain rfl : offset = 0 := by simpa using hp
      exact ⟨_, .marker .root, rfl⟩
    | within _ _ hp =>
      have : 1 ≤ offset := by
        simp only [List.length_nil] at hp
        omega
      exact ⟨_, .marker (.within this), rfl⟩
    | parent ha => cases ha
    | descendants ha => cases ha
    | wildcard ha => rcases ha with ha | ha <;> cases ha
  | named hn =>
    cases hs with
    | letter hl =>
      exact ⟨_, .named (hn.snoc hl), by simp [tested, hlast, ne_star_of_isNameLetter hl]⟩
    | self _ he | any _ he | root _ he | within _ he =>
      exact absurd (by simpa [tested] using he) hn.nonempty
    | parent ha | descendants ha => cases ha
    | wildcard ha => rcases ha with ha | ha <;> cases ha
  | self =>
    cases hs with
    | parent => exact ⟨_, .parent, rfl⟩
    | letter _ ha => exact absurd rfl ha
    | self ha | any ha | root ha | within ha | descendants ha => cases ha
    | wildcard ha => rcases ha with ha | ha <;> cases ha
  | parent =>
    cases hs with
    | letter _ _ ha => exact absurd rfl ha
    | self ha | parent ha | any ha | root ha | within ha | descendants ha => cases ha
    | wildcard ha => rcases ha with ha | ha <;> cases ha
  | any => cases hw
  | marker hm =>
    cases hs with
    | letter hl _ _ hd =>
      refine ⟨_, .markedName hm (isName_singleton hl fun h => (hd h).2 rfl), ?_⟩
      simp [tested, hlast, ne_star_of_isNameLetter hl]
    | wildcard => exact ⟨_, .markedAny hm, by simp [tested]⟩
    | descendants ha hn hp =>
      cases hm with
      | root => exact ⟨_, .marker .descendants, rfl⟩
      | descendants | within => cases ha
    | self ha | parent ha | any ha | root ha | within ha => cases hm <;> cases ha
  | markedAny hm => simp [tested] at hw
  | markedName hm hn =>
    cases hs with
    | letter hl =>
      have h := NodeTest.markedName hm (hn.snoc hl)
      rw [← List.append_assoc] at h
      refine ⟨_, h, ?_⟩
      simp only [tested, beq_eq_false_iff_ne.mpr hlast, List.getLast?_concat]
      simp [ne_star_of_isNameLetter hl]
    | wildcard _ he | descendants _ he => exact absurd (by simpa [tested] using he) hn.nonempty
    | self ha | parent ha | any ha | root ha | within ha => cases hm <;> cases ha

/-- What is read up to the first predicate is a node test. -/
theorem NodeTest.run (ho : 0 ≤ offset) (h : NodeTest offset front test)
    (hc : '[' ∉ text) (hr : (tested front test).run (offset + front.length) text = .ok final) :
    ∃ test', NodeTest offset (front ++ text) test' ∧ final = tested (front ++ text) test' := by
  induction text generalizing front test with
  | nil =>
    cases hr
    exact ⟨test, by simpa using h, by rw [List.append_nil]⟩
  | cons c text ih =>
    obtain ⟨next, ht, hr⟩ := run_cons_eq_ok.mp hr
    rw [List.mem_cons, not_or] at hc
    obtain ⟨test', h, rfl⟩ := h.take ho (Ne.symm hc.1) ht
    rw [Int.add_assoc] at hr
    obtain ⟨test', h, rfl⟩ := ih h hc.2 (by simpa using hr)
    exact ⟨test', by simpa using h, by simp⟩

end StepReader
end MarkupPath
