import Mathlib.Data.List.DropRight
import Mathlib.Data.List.TakeWhile
import MarkupPath.Proofs.Path.Offsets

/-!
# Reading a step expression piece by piece

A step expression is read character by character. Read in pieces, it's read to the same end
(`run_append`), and what the reader makes of a piece is stated for each mode: the letters of a name,
the blanks in front of a predicate, the name of an attribute, a value between quotes, and a
predicate that isn't understood.
-/

namespace MarkupPath

/-! ## Blanks -/

section Strip

variable {text : List Char}

theorem strip_eq_rdropWhile (text : List Char) :
    strip text = (text.dropWhile isBlank).rdropWhile isBlank := rfl

theorem strip_eq_nil_iff : strip text = [] ↔ ∀ c ∈ text, isBlank c = true := by
  rw [strip_eq_rdropWhile, List.rdropWhile_eq_nil_iff, ← List.dropWhile_eq_nil_iff,
    List.dropWhile_idempotent, List.dropWhile_eq_nil_iff]

/-- What was stripped can't be stripped any further. -/
theorem strip_strip : strip (strip text) = strip text := by
  have hstart : (strip text).dropWhile isBlank = strip text := by
    cases hs : strip text with
    | nil => rfl
    | cons c rest =>
      obtain ⟨behind, hp⟩ := List.rdropWhile_prefix isBlank (text.dropWhile isBlank)
      rw [← strip_eq_rdropWhile, hs] at hp
      have hb := List.head?_dropWhile_not isBlank text
      rw [← hp] at hb
      exact List.dropWhile_cons_of_neg (by simpa using hb)
  rw [strip_eq_rdropWhile (strip text), hstart, strip_eq_rdropWhile, List.rdropWhile_idempotent]

theorem mem_of_mem_strip {c : Char} (h : c ∈ strip text) : c ∈ text :=
  (List.dropWhile_suffix isBlank).subset ((List.rdropWhile_prefix isBlank _).subset h)

end Strip

namespace StepReader.Progress

theorem isDelimiter_of_isBlank {c : Char} (h : isBlank c = true) : isDelimiter c = false := by
  apply Bool.eq_false_iff.mpr
  intro hd
  simp only [isDelimiter, Bool.or_eq_true, beq_iff_eq] at hd
  rcases hd with ((((rfl | rfl) | rfl) | rfl) | rfl) | rfl <;> exact absurd h (by decide)

/-- The letters that a name in a node test consists of. -/
def isNameLetter (c : Char) : Bool := !isDelimiter c && c != '/' && c != '*'

variable {progress next between final : Progress} {position : Int}
variable {front text : List Char} {c : Char}

/-! ## The node test -/

/-- What a character of a node test, that doesn't open a predicate, makes of what has been read. -/
inductive NameStep (progress : Progress) (position : Int) : Char → Progress → Prop where
  /-- a letter belongs to the name, and so does a dot within a name -/
  | letter {c : Char} : isNameLetter c = true → progress.axis ≠ .self → progress.axis ≠ .parent →
    (c = '.' → progress.axis = .children ∧ progress.name ≠ []) →
    NameStep progress position c { progress with name := progress.name ++ [c] }
  /-- a dot at the start asks for the context node -/
  | self : progress.axis = .children → progress.name = [] →
    NameStep progress position '.' { progress with axis := .self }
  /-- another dot asks for its parent -/
  | parent : progress.axis = .self →
    NameStep progress position '.' { progress with axis := .parent }
  /-- a star at the start asks for any child -/
  | any : progress.axis = .children → progress.name = [] →
    NameStep progress position '*' { progress with axis := .anyChild, wildcard := true }
  /-- a star behind slashes stands for any name -/
  | wildcard : progress.axis = .root ∨ progress.axis = .descendants → progress.name = [] →
    NameStep progress position '*' { progress with wildcard := true }
  /-- a slash at the start of the path asks for its root -/
  | root : progress.axis = .children → progress.name = [] → position = 0 →
    NameStep progress position '/' { progress with axis := .root }
  /-- a slash anywhere else asks for descendants -/
  | within : progress.axis = .children → progress.name = [] → position ≠ 0 →
    NameStep progress position '/' { progress with axis := .descendants }
  /-- so does a second slash at the start of the path -/
  | descendants : progress.axis = .root → progress.name = [] → position = 1 →
    NameStep progress position '/' { progress with axis := .descendants }

/-- A node test is read on as long as no predicate and no wildcard has been read. -/
structure IsTesting (progress : Progress) : Prop where
  /-- no predicate has been closed -/
  filtered : progress.filtered = false
  /-- no wildcard has been read -/
  wildcard : progress.wildcard = false

theorem isTesting_of_not (h : ¬(progress.filtered || progress.wildcard) = true) :
    progress.IsTesting := by
  simp only [Bool.or_eq_true, not_or, Bool.not_eq_true] at h
  exact ⟨h.1, h.2⟩

theorem dot_eq_ok (h : progress.dot = .ok next) :
    progress.IsTesting ∧ NameStep progress position '.' next := by
  simp only [dot] at h
  split at h
  · cases h
  rename_i ht
  refine ⟨isTesting_of_not ht, ?_⟩
  split at h
  · rename_i ha
    split at h
    · rename_i hn
      cases h
      exact .self ha (by simpa using hn)
    · rename_i hn
      cases h
      exact .letter (by decide) (by simp [ha]) (by simp [ha]) fun _ => ⟨ha, by simpa using hn⟩
  · rename_i ha
    cases h
    exact .parent ha
  · cases h

theorem star_eq_ok (h : progress.star = .ok next) :
    progress.IsTesting ∧ NameStep progress position '*' next := by
  simp only [star] at h
  split at h
  · cases h
  rename_i ht
  simp only [Bool.or_eq_true, not_or, Bool.not_eq_true, Bool.not_eq_false', List.isEmpty_iff] at ht
  obtain ⟨⟨hn, hf⟩, hw⟩ := ht
  refine ⟨⟨hf, hw⟩, ?_⟩
  split at h
  · rename_i ha
    cases h
    exact .any ha hn
  · rename_i ha
    cases h
    exact .wildcard (.inl ha) hn
  · rename_i ha
    cases h
    exact .wildcard (.inr ha) hn
  · cases h

theorem slash_eq_ok (h : progress.slash position = .ok next) :
    progress.IsTesting ∧ NameStep progress position '/' next := by
  simp only [slash] at h
  split at h
  · cases h
  rename_i ht
  simp only [Bool.or_eq_true, not_or, Bool.not_eq_true, Bool.not_eq_false', List.isEmpty_iff] at ht
  obtain ⟨⟨hn, hf⟩, hw⟩ := ht
  refine ⟨⟨hf, hw⟩, ?_⟩
  split at h
  · rename_i ha
    cases h
    by_cases hp : position = 0
    · rw [if_pos hp]
      exact .root ha hn hp
    · rw [if_neg hp]
      exact .within ha hn hp
  · rename_i ha
    split at h
    · rename_i hp
      cases h
      exact .descendants ha hn hp
    · cases h
  · cases h

theorem letter_eq_ok (hl : isNameLetter c = true) (hd : c ≠ '.')
    (h : progress.letter c = .ok next) :
    progress.IsTesting ∧ NameStep progress position c next := by
  simp only [letter] at h
  split at h
  · cases h
  rename_i ht
  simp only [Bool.or_eq_true, beq_iff_eq, not_or, Bool.not_eq_true] at ht
  obtain ⟨⟨⟨hf, hw⟩, hs⟩, hp⟩ := ht
  cases h
  exact ⟨⟨hf, hw⟩, .letter hl hs hp fun h => absurd h hd⟩

/-- All that a character of a node test can do. -/
theorem take_name (hm : progress.mode = .name) (hc : c ≠ '[') :
    progress.take position c = .ok next ↔
      progress.IsTesting ∧ NameStep progress position c next := by
  simp only [take, hm, inName, if_neg hc]
  constructor
  · intro h
    split at h
    · cases h
    rename_i hdelim
    split at h
    · rename_i hdot
      subst hdot
      exact dot_eq_ok h
    rename_i hdot
    split at h
    · rename_i hstar
      subst hstar
      exact star_eq_ok h
    rename_i hstar
    split at h
    · rename_i hslash
      subst hslash
      exact slash_eq_ok h
    rename_i hslash
    exact letter_eq_ok (by simp [isNameLetter, hdelim, hslash, hstar]) hdot h
  · rintro ⟨⟨hf, hw⟩, h⟩
    cases h with
    | letter hl hs hp hd =>
      simp only [isNameLetter, Bool.and_eq_true, Bool.not_eq_true', bne_iff_ne, ne_eq] at hl
      obtain ⟨⟨hdelim, hslash⟩, hstar⟩ := hl
      by_cases hdot : c = '.'
      · obtain ⟨ha, hn⟩ := hd hdot
        subst hdot
        simp [isDelimiter, dot, hf, hw, ha, hn]
      · simp [hdelim, hdot, hstar, hslash, letter, hf, hw, hs, hp]
    | self ha hn => simp [isDelimiter, dot, hf, hw, ha, hn]
    | parent ha => simp [isDelimiter, dot, hf, hw, ha]
    | any ha hn => simp [isDelimiter, star, hf, hw, ha, hn]
    | wildcard ha hn => rcases ha with ha | ha <;> simp [isDelimiter, star, hf, hw, ha, hn]
    | root ha hn hp => simp [isDelimiter, slash, hf, hw, ha, hn, hp]
    | within ha hn hp => simp [isDelimiter, slash, hf, hw, ha, hn, hp]
    | descendants ha hn hp => simp [isDelimiter, slash, hf, hw, ha, hn, hp]

/-! ## Pieces -/

theorem run_cons_eq_ok :
    progress.run position (c :: text) = .ok final ↔
      ∃ next, progress.take position c = .ok next ∧ next.run (position + 1) text = .ok final := by
  rw [run]
  cases progress.take position c <;> simp

theorem run_append : progress.run position (front ++ text) =
    progress.run position front >>= fun between => between.run (position + front.length) text := by
  induction front generalizing progress position with
  | nil =>
    change progress.run position text = progress.run (position + 0) text
    rw [Int.add_zero]
  | cons c front ih =>
    rw [List.cons_append, run, run]
    cases progress.take position c with
    | error problem => rfl
    | ok next =>
      dsimp only
      rw [ih, List.length_cons, Int.natCast_add, Int.add_right_comm, Int.add_assoc position]
      rfl

theorem run_append_eq_ok :
    progress.run position (front ++ text) = .ok final ↔
      ∃ between, progress.run position front = .ok between ∧
        between.run (position + front.length) text = .ok final := by
  rw [run_append]
  cases progress.run position front <;> simp [bind, Except.bind]

/-- Characters that are collected one by one are collected all. -/
theorem run_each (collect : List Char → Progress) (text : List Char)
    (h : ∀ read, ∀ c ∈ text, ∀ position,
      (collect read).take position c = .ok (collect (read ++ [c])))
    (read : List Char) (position : Int) :
    (collect read).run position text = .ok (collect (read ++ text)) := by
  induction text generalizing read position with
  | nil => rw [List.append_nil]; rfl
  | cons c text ih =>
    refine run_cons_eq_ok.mpr ⟨_, h read c List.mem_cons_self position, ?_⟩
    rw [ih (fun read c hm => h read c (List.mem_cons_of_mem _ hm)), List.append_assoc]
    rfl

theorem run_letters (hm : progress.mode = .name) (ht : progress.IsTesting)
    (hs : progress.axis ≠ .self) (hp : progress.axis ≠ .parent)
    (hl : ∀ c ∈ text, isNameLetter c = true)
    (hd : '.' ∈ text → progress.axis = .children ∧ progress.name ≠ []) :
    progress.run position text = .ok { progress with name := progress.name ++ text } := by
  have h := run_each (fun read => { progress with name := progress.name ++ read }) text
    (fun read c hc position => ?_) [] position
  · simpa using h
  · rw [← List.append_assoc]
    have hopen : c ≠ '[' := by
      rintro rfl
      exact absurd (hl _ hc) (by decide)
    refine (take_name ?_ hopen).mpr ⟨⟨ht.filtered, ht.wildcard⟩, .letter (hl c hc) hs hp ?_⟩
    · exact hm
    · rintro rfl
      obtain ⟨haxis, hname⟩ := hd hc
      exact ⟨haxis, by simp [hname]⟩

theorem run_blanks (hm : progress.mode = .filter) (hb : ∀ c ∈ text, isBlank c = true) :
    progress.run position text = .ok progress := by
  refine run_each (fun _ => progress) text (fun _ c hc position => ?_) [] position
  have hblank := hb c hc
  have hdelim := isDelimiter_of_isBlank hblank
  have hne : c ≠ ']' ∧ c ≠ '@' := by
    constructor <;> rintro rfl <;> cases hdelim
  simp [take, hm, inFilter, hne, hdelim, hblank]

theorem run_attributeName (hm : progress.mode = .attributeName)
    (hd : ∀ c ∈ text, isDelimiter c = false) :
    progress.run position text =
      .ok { progress with attributeName := progress.attributeName ++ text } := by
  have h := run_each
    (fun read => { progress with attributeName := progress.attributeName ++ read }) text
    (fun read c hc position => ?_) [] position
  · simpa using h
  · have hdelim := hd c hc
    have hne : c ≠ ']' ∧ c ≠ '=' := by
      constructor <;> rintro rfl <;> cases hdelim
    simp [take, hm, inAttributeName, hne, hdelim]

theorem run_quoted {quote : Char} (hm : progress.mode = .quoted quote)
    (hq : quote ∉ text) (hb : ']' ∉ text) :
    progress.run position text = .ok { progress with value := progress.value ++ text } := by
  have h := run_each (fun read => { progress with value := progress.value ++ read }) text
    (fun read c hc position => ?_) [] position
  · simpa using h
  · have hne : c ≠ quote ∧ c ≠ ']' := by
      constructor <;> rintro rfl
      · exact hq hc
      · exact hb hc
    simp [take, hm, inQuoted, hne]

theorem run_predicate (hm : progress.mode = .predicate) (ho : '[' ∉ text) (hc : ']' ∉ text) :
    progress.run position text = .ok progress := by
  refine run_each (fun _ => progress) text (fun _ c hm' position => ?_) [] position
  have hne : c ≠ '[' ∧ c ≠ ']' := by
    constructor <;> rintro rfl
    · exact ho hm'
    · exact hc hm'
  simp [take, hm, inPredicate, hne]

end StepReader.Progress
end MarkupPath
