import MarkupPath.Proofs.Path.Reading

/-!
# The grammar of step expressions

What step expressions there are, and what they stand for, without a reader: a node test with any
number of predicates behind it (`Step.IsWritten`). A node test depends on where it stands, as a
slash at the very start of a path asks for the root and any other one for descendants. A predicate
adds nothing to the step, or a constraint, or makes it one that isn't understood.

That the reader accepts these expressions and no others is shown in
`MarkupPath.Proofs.Path.Recognition`.
-/

namespace MarkupPath

namespace StepReader

open Progress

/-- A name in a node test. -/
structure IsName (name : List Char) : Prop where
  /-- there's at least one letter -/
  nonempty : name ≠ []
  /-- delimiters, slashes and stars don't belong to names -/
  letters : ∀ c ∈ name, isNameLetter c = true
  /-- a dot at the start would be a marker -/
  start : name.head? ≠ some '.'

/-- The slashes in front of a node test that stands at the given position, and the axis that they
ask for. -/
inductive Marker : Int → List Char → Axis → Prop where
  /-- one at the very start -/
  | root : Marker 0 ['/'] .root
  /-- two at the very start -/
  | descendants : Marker 0 ['/', '/'] .descendants
  /-- one anywhere else -/
  | within {offset : Int} : 1 ≤ offset → Marker offset ['/'] .descendants

/-- The node tests that can stand at a position, and the steps that they stand for. -/
inductive NodeTest (offset : Int) : List Char → Step → Prop where
  /-- nothing asks for any child -/
  | nothing : NodeTest offset [] {}
  /-- a name asks for the children of that name -/
  | named {name : List Char} : IsName name → NodeTest offset name { name := String.ofList name }
  /-- a dot asks for the context node -/
  | self : NodeTest offset ['.'] { axis := .self }
  /-- two dots ask for its parent -/
  | parent : NodeTest offset ['.', '.'] { axis := .parent }
  /-- a star asks for any child -/
  | any : NodeTest offset ['*'] { axis := .anyChild }
  /-- a marker with nothing behind it -/
  | marker {marker : List Char} {axis : Axis} : Marker offset marker axis →
    NodeTest offset marker { axis }
  /-- a marker with a star behind it, which is as good as nothing -/
  | markedAny {marker : List Char} {axis : Axis} : Marker offset marker axis →
    NodeTest offset (marker ++ ['*']) { axis }
  /-- a marker with a name behind it -/
  | markedName {marker name : List Char} {axis : Axis} : Marker offset marker axis → IsName name →
    NodeTest offset (marker ++ name) { name := String.ofList name, axis }

/-- The values in a predicate, as they are written, and their contents. -/
inductive Value : List Char → List Char → Prop where
  /-- the empty value -/
  | nothing : Value [] []
  /-- blanks outside quotes don't belong to the content -/
  | blank {c : Char} {text content : List Char} : isBlank c = true → Value text content →
    Value (c :: text) content
  /-- other letters outside quotes do -/
  | letter {c : Char} {text content : List Char} : isBlank c = false → isDelimiter c = false →
    Value text content → Value (c :: text) (c :: content)
  /-- so does all between quotes -/
  | quoted {quote : Char} {inner text content : List Char} : quote = '\'' ∨ quote = '"' →
    quote ∉ inner → Value text content → Value (quote :: inner ++ quote :: text) (inner ++ content)

/-- The name of an attribute in a predicate. -/
structure IsAttributeName (name : List Char) : Prop where
  /-- there aren't only blanks -/
  filled : ∃ c ∈ name, isBlank c = false
  /-- delimiters don't belong to names -/
  letters : ∀ c ∈ name, isDelimiter c = false

theorem isAttributeName_iff_strip {name : List Char} :
    IsAttributeName name ↔ strip name ≠ [] ∧ ∀ c ∈ name, isDelimiter c = false := by
  have hs : strip name ≠ [] ↔ ∃ c ∈ name, isBlank c = false := by
    rw [ne_eq, strip_eq_nil_iff]
    simp
  exact ⟨fun h => ⟨hs.mpr h.filled, h.letters⟩, fun h => ⟨hs.mp h.1, h.2⟩⟩

/-- What a predicate adds to a step. -/
inductive Effect where
  /-- nothing -/
  | nothing
  /-- a constraint on an attribute -/
  | constraint (constraint : Constraint)
  /-- something that isn't understood -/
  | unsupported
deriving DecidableEq, Repr

/-- The predicates, and what they add to a step. -/
inductive Predicate : List Char → Effect → Prop where
  /-- an empty one -/
  | empty {blanks : List Char} : (∀ c ∈ blanks, isBlank c = true) →
    Predicate ('[' :: blanks ++ [']']) .nothing
  /-- one on the presence of an attribute -/
  | present {blanks name : List Char} : (∀ c ∈ blanks, isBlank c = true) → IsAttributeName name →
    Predicate ('[' :: blanks ++ '@' :: name ++ [']'])
      (.constraint { name := String.ofList (strip name) })
  /-- one on the value of an attribute -/
  | value {blanks name value content : List Char} : (∀ c ∈ blanks, isBlank c = true) →
    IsAttributeName name → Value value content →
    Predicate ('[' :: blanks ++ '@' :: name ++ '=' :: value ++ [']'])
      (.constraint ⟨String.ofList (strip name), String.ofList content⟩)
  /-- any other one, without brackets in it -/
  | other {blanks text : List Char} {c : Char} : (∀ c ∈ blanks, isBlank c = true) →
    isBlank c = false → isDelimiter c = false → '[' ∉ text → ']' ∉ text →
    Predicate ('[' :: blanks ++ c :: text ++ [']']) .unsupported

/-- Any number of predicates. -/
inductive Predicates : List Char → List Effect → Prop where
  /-- none -/
  | nil : Predicates [] []
  /-- one in front of others -/
  | cons {front back : List Char} {effect : Effect} {effects : List Effect} :
    Predicate front effect → Predicates back effects →
      Predicates (front ++ back) (effect :: effects)

variable {offset : Int} {name front : List Char} {c : Char} {test : Step} {axis : Axis}

theorem isName_singleton (hc : isNameLetter c = true) (hd : c ≠ '.') : IsName [c] :=
  ⟨List.cons_ne_nil c [], by simpa using hc, by simpa using hd⟩

theorem IsName.snoc (h : IsName name) (hc : isNameLetter c = true) : IsName (name ++ [c]) := by
  refine ⟨by simp, fun d hd => ?_, ?_⟩
  · rcases List.mem_append.mp hd with hd | hd
    · exact h.letters d hd
    · rwa [List.mem_singleton.mp hd]
  · have hs := h.start
    cases name with
    | nil => exact absurd rfl h.nonempty
    | cons d name => exact hs

theorem ne_star_of_isNameLetter (h : isNameLetter c = true) : c ≠ '*' := by
  rintro rfl
  exact absurd h (by decide)

theorem Marker.axis_eq (h : Marker offset front axis) : axis = .root ∨ axis = .descendants := by
  cases h <;> simp

theorem Marker.axis_ne (h : Marker offset front axis) : axis ≠ .self ∧ axis ≠ .parent := by
  cases h <;> decide

theorem IsName.getLast?_ne (h : IsName name) : name.getLast? ≠ some '*' := fun hl =>
  ne_star_of_isNameLetter (h.letters '*' (List.mem_of_getLast? hl)) rfl

theorem NodeTest.notMem (h : NodeTest offset front test) : '[' ∉ front := by
  have hname {name : List Char} (hn : IsName name) : '[' ∉ name := fun h =>
    absurd (hn.letters _ h) (by decide)
  have hmarker {marker : List Char} {axis : Axis} (hm : Marker offset marker axis) :
      '[' ∉ marker := by
    cases hm <;> decide
  cases h with
  | nothing | self | parent | any => decide
  | named hn => exact hname hn
  | marker hm => exact hmarker hm
  | markedAny hm => simp [hmarker hm]
  | markedName hm hn => simp [hmarker hm, hname hn]

end StepReader

open StepReader

/-- A step with what a predicate adds to it. -/
def Step.restrict (step : Step) : Effect → Step
  | .nothing => step
  | .constraint constraint => { step with constraints := step.constraints ++ [constraint] }
  | .unsupported => { step with axis := .unsupported }

/-- An expression at a position stands for a step: it's a node test with predicates behind it. -/
def Step.IsWritten (step : Step) (offset : Int) (text : List Char) : Prop :=
  ∃ front back test effects, text = front ++ back ∧ NodeTest offset front test ∧
    Predicates back effects ∧ step = effects.foldl restrict test

end MarkupPath
