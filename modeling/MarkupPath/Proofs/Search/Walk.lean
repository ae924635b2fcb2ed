import MarkupPath.Proofs.Search.Outcome
import MarkupPath.Query.Candidates
import MarkupPath.Query.Enumeration

/-!
# The walk through a subtree

The descendants of a node are visited without a record of the way: what comes next is found from
the node that was visited last. `Position.laterWithin base position` is what is still to come then.
The walk finds its head (`outcome_nextInSubtree`), and it's a final part of the descendants whenever
the walk has got there from its base (`laterWithin_of_suffix`), so nothing is left out and nothing
is visited twice.
-/

namespace MarkupPath.Position

/-! ## What is still to come -/

/-- The siblings behind a position. -/
def laterSiblings : Position → List Position
  | top _ => []
  | child parent index _ following => allIn parent (index + 1) following

/-- What comes behind a position and its descendants, within the subtree below `base`. -/
def beyondWithin (base : Position) : Position → List Position
  | top _ => []
  | child up index element following =>
    if (child up index element following).address = base.address then []
    else allBelowIn up (index + 1) following ++ beyondWithin base up

/-- What comes later than a position in document order, within the subtree below `base`. -/
def laterWithin (base position : Position) : List Position :=
  position.descendants ++ beyondWithin base position

theorem beyondWithin_self (base : Position) : beyondWithin base base = [] := by
  cases base with
  | top element => rfl
  | child up index element following => simp [beyondWithin]

theorem laterWithin_self (base : Position) : laterWithin base base = base.descendants := by
  rw [laterWithin, beyondWithin_self, List.append_nil]

/-- A child of a node below `base`, or of `base`, isn't `base`. -/
theorem address_child_ne {base up : Position} (h : base.address <:+ up.address) (index : Nat)
    (element : Element) (following : Content) :
    (child up index element following).address ≠ base.address := by
  intro he
  have := h.length_le
  rw [← he, address, List.length_cons] at this
  omega

theorem beyondWithin_child {base up : Position} (h : base.address <:+ up.address) (index : Nat)
    (element : Element) (following : Content) :
    beyondWithin base (child up index element following) =
      allBelowIn up (index + 1) following ++ beyondWithin base up := by
  rw [beyondWithin, if_neg (address_child_ne h index element following)]

/-! ## Siblings -/

theorem allIn_suffix {parent position : Position} {index : Nat} {content : Content}
    {rest : List Position} (h : position :: rest <:+ allIn parent index content) :
    rest = position.laterSiblings := by
  induction content generalizing index with
  | nil => simp [allIn] at h
  | element tag children tail content _ ih =>
    rw [allIn, List.suffix_cons_iff] at h
    rcases h with h | h
    · obtain ⟨rfl, rfl⟩ := List.cons.inj h
      rfl
    · exact ih h
  | comment text tail content ih => exact ih h
  | instruction target data tail content ih => exact ih h

theorem firstIn_none (parent : Position) (index : Nat) (content : Content) :
    firstIn parent none index content = (allIn parent index content).head? := by
  induction content with
  | nil => rfl
  | element tag children tail rest _ _ => rfl
  | comment text tail rest ih => exact ih
  | instruction target data tail rest ih => exact ih

/-- The first element of a part of a parent's content is the first one in document order there. -/
theorem head?_allBelowIn (parent : Position) (index : Nat) (content : Content) :
    (allBelowIn parent index content).head? = firstIn parent none index content := by
  induction content with
  | nil => rfl
  | element tag children tail rest _ _ => rfl
  | comment text tail rest ih => exact ih
  | instruction target data tail rest ih => exact ih

/-! ## Descendants -/

/-- A final part of two lists is one of the second, or starts in the first. -/
theorem suffix_append_cases {position : Position} {rest front back : List Position}
    (h : position :: rest <:+ front ++ back) :
    position :: rest <:+ back ∨ ∃ more, position :: more <:+ front ∧ rest = more ++ back := by
  obtain ⟨before, hb⟩ := h
  rcases List.append_eq_append_iff.mp hb with ⟨gap, rfl, hg⟩ | ⟨gap, rfl, hg⟩
  · cases gap with
    | nil => exact .inl ⟨[], by simpa using hg⟩
    | cons first more =>
      obtain ⟨rfl, rfl⟩ := List.cons.inj hg
      exact .inr ⟨more, ⟨before, rfl⟩, rfl⟩
  · exact .inl ⟨gap, hg.symm⟩

/-- Induction on the content: a position in it is the head of an element, or below that, or behind
it. What is to come at each place is put together from what the moves to the parent leave. -/
theorem allBelowIn_suffix {base parent position : Position} {index : Nat} {content : Content}
    {rest : List Position} (hb : base.address <:+ parent.address)
    (h : position :: rest <:+ allBelowIn parent index content) :
    base.address <:+ position.address ∧
      rest ++ beyondWithin base parent = laterWithin base position := by
  induction content generalizing parent index rest with
  | nil => simp [allBelowIn] at h
  | element tag content tail following ihc ihf =>
    rw [allBelowIn, List.suffix_cons_iff] at h
    rcases h with h | h
    · obtain ⟨rfl, rfl⟩ := List.cons.inj h
      refine ⟨hb.trans (List.suffix_cons _ _), ?_⟩
      rw [laterWithin, beyondWithin_child hb, List.append_assoc]
      rfl
    · rcases suffix_append_cases h with h | ⟨more, hs, rfl⟩
      · exact ihf hb h
      · obtain ⟨ha, he⟩ := ihc (hb.trans (List.suffix_cons _ _)) hs
        refine ⟨ha, ?_⟩
        rw [← he, beyondWithin_child hb, List.append_assoc]
  | comment text tail following ih => exact ih hb h
  | instruction target data tail following ih => exact ih hb h

/-- A descendant stands below. -/
theorem address_suffix_of_mem {base position : Position} (h : position ∈ base.descendants) :
    base.address <:+ position.address := by
  obtain ⟨before, rest, hs⟩ := List.append_of_mem h
  exact (allBelowIn_suffix (List.suffix_refl _) ⟨before, hs.symm⟩).1

/-- What follows a descendant in document order is what is still to come there. -/
theorem laterWithin_of_suffix {base position : Position} {rest : List Position}
    (h : position :: rest <:+ base.descendants) : rest = laterWithin base position := by
  obtain ⟨-, he⟩ := allBelowIn_suffix (List.suffix_refl _) h
  rwa [beyondWithin_self, List.append_nil] at he

/-! ## The moves of the walk -/

@[simp] theorem outcome_plain_firstChild (position : Position) :
    position.firstChild.plain.outcome = .ok position.children.head? := by
  rw [plain_firstChild, Reading.outcome_callUnless]
  exact congrArg Except.ok (firstIn_none position 0 position.element.content)

@[simp] theorem outcome_plain_nextSibling (position : Position) :
    position.nextSibling.plain.outcome = .ok position.laterSiblings.head? := by
  rw [plain_nextSibling, Reading.outcome_callUnless]
  cases position with
  | top element => rfl
  | child parent index element following =>
    exact congrArg Except.ok (firstIn_none parent (index + 1) following)

/-- Climbing from within a subtree gets back to where that starts, if not to a sibling before. -/
theorem outcome_climb {base position : Position} (h : base.address <:+ position.address) :
    (climb base position).plain.outcome = .ok (beyondWithin base position).head? := by
  induction position with
  | top element =>
    have he : (top element).address = base.address := (List.suffix_nil.mp h).symm
    rw [climb, if_pos he]
    rfl
  | child up index element following ih =>
    rw [climb, beyondWithin]
    split
    · rfl
    · rename_i hne
      have hup : base.address <:+ up.address :=
        (List.suffix_cons_iff.mp h).resolve_left fun he => hne he.symm
      rw [Reading.plain_bind, Reading.outcome_bind_of_plain _ (fun found => match found with
          | some next => pure (some next)
          | none => do
            let _ ← (child up index element following).parent
            (climb base up).plain)
        (by rintro (_ | _) <;> simp) (outcome_plain_nextSibling _),
        List.head?_append, head?_allBelowIn, firstIn_none, laterSiblings]
      cases (allIn up (index + 1) following).head? with
      | some next => rfl
      | none => rw [Reading.outcome_bind_of_ok _ rfl, ih hup]; rfl

theorem outcome_nextInSubtree {base position : Position} (h : base.address <:+ position.address) :
    (nextInSubtree base position).plain.outcome = .ok (laterWithin base position).head? := by
  rw [nextInSubtree, Reading.plain_bind, Reading.outcome_bind_of_plain _ (fun found =>
      match found with
      | some next => pure (some next)
      | none => (climb base position).plain)
    (by rintro (_ | _) <;> simp) (outcome_plain_firstChild _),
    laterWithin, List.head?_append, descendants, head?_allBelowIn, firstIn_none, children]
  cases (allIn position 0 position.element.content).head? with
  | some next => rfl
  | none => exact outcome_climb h

end MarkupPath.Position
