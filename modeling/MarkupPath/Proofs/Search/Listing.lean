import MarkupPath.Proofs.Search.Bindings
import MarkupPath.Proofs.Search.Iteration

/-!
# An iterator as a place in a list

What an iterator shows is a place in a list: an index, and whether the node there is pending. A
`Listing` is that and nothing else. Main statement (`Iterator.answers_selected`): in whatever order
an iterator over a path is asked for its next match or to advance, it answers like the listing of
all nodes that the path selects, and rests where that does, as long as no lookup is refused.

A cursor stands between the two. Its moves shorten what it has upcoming by one
(`Cursor.RestsAt.advance`), so it has upcoming what a listing has from its index on.
-/

namespace MarkupPath

/-! ## Listings -/

/-- A place in a list of nodes. -/
structure Listing where
  /-- the nodes -/
  nodes : List Position
  /-- the index of the place, at most the number of nodes -/
  index : Nat := 0
  /-- whether the node there is still to be given -/
  pending : Bool

namespace Listing

/-- The place of the first node, which is pending if there's one. -/
def start (nodes : List Position) : Listing := { nodes, pending := !nodes.isEmpty }

/-- The node at the place. -/
def current? (listing : Listing) : Option Position := listing.nodes[listing.index]?

/-- Whether the place is behind all nodes. -/
def isExhausted (listing : Listing) : Bool := listing.nodes.length ≤ listing.index

/-- The following place, unless it's the last one. -/
def advance (listing : Listing) : Listing where
  nodes := listing.nodes
  index := if listing.index < listing.nodes.length then listing.index + 1 else listing.index
  pending := false

/-- The node that is pending, or else the one at the following place. -/
def next (listing : Listing) : Option Position × Listing :=
  let left := if listing.pending then { listing with pending := false } else listing.advance
  (left.current?, left)

/-- The answer to a call, and the place that it leads to. -/
def pull : Move → Listing → Option Position × Listing
  | .advance, listing => (none, listing.advance)
  | .next, listing => listing.next

/-- The answers to calls, and the place that they lead to. -/
def respond (listing : Listing) : List Move → List (Option Position) × Listing
  | [] => ([], listing)
  | move :: moves =>
    let (found, left) := pull move listing
    let (others, last) := respond left moves
    (found :: others, last)

/-- The nodes that haven't been given yet. -/
def unpulled (listing : Listing) : List Position :=
  listing.nodes.drop (if listing.pending then listing.index else listing.index + 1)

theorem drop_advance (listing : Listing) :
    listing.advance.nodes.drop listing.advance.index =
      (listing.nodes.drop listing.index).tail := by
  rw [List.tail_drop]
  simp only [advance]
  split
  · rfl
  · rw [List.drop_eq_nil_of_le (by omega), List.drop_eq_nil_of_le (by omega)]

theorem next_eq (listing : Listing) :
    listing.next.1 = listing.unpulled.head? ∧ listing.next.2.unpulled = listing.unpulled.tail := by
  obtain ⟨nodes, index, pending⟩ := listing
  cases pending with
  | true => exact ⟨(List.head?_drop ..).symm, (List.tail_drop ..).symm⟩
  | false =>
    have hd := drop_advance ⟨nodes, index, false⟩
    rw [List.tail_drop] at hd
    refine ⟨?_, ?_⟩
    · exact (List.head?_drop ..).symm.trans (congrArg List.head? hd)
    · exact (List.tail_drop ..).symm.trans (congrArg List.tail hd)

theorem index_advance {listing : Listing} (h : listing.index ≤ listing.nodes.length) :
    listing.advance.index = min (listing.index + 1) listing.nodes.length := by
  simp only [advance]
  split <;> omega

/-- Advancing goes to a following place, but no further than behind the last node. -/
theorem respond_advances {listing : Listing} (h : listing.index ≤ listing.nodes.length) (k : Nat) :
    (listing.respond (List.replicate (k + 1) .advance)).2 =
      { nodes := listing.nodes, index := min (listing.index + (k + 1)) listing.nodes.length,
        pending := false } := by
  induction k generalizing listing with
  | zero =>
    change listing.advance = _
    rw [Nat.zero_add, ← index_advance h]
    rfl
  | succ k ih =>
    have hle : listing.advance.index ≤ listing.advance.nodes.length := by
      rw [index_advance h]
      exact Nat.min_le_right _ _
    change (listing.advance.respond (List.replicate (k + 1) .advance)).2 = _
    rw [ih hle, index_advance h]
    congr 1
    change min (min _ listing.nodes.length + _) listing.nodes.length = _
    omega

/-- The place after advancing from the start. -/
theorem current?_advances (nodes : List Position) (k : Nat) :
    ((start nodes).respond (List.replicate k .advance)).2.current? = nodes[k]? := by
  cases k with
  | zero => rfl
  | succ k =>
    rw [respond_advances (Nat.zero_le _)]
    change nodes[min (0 + (k + 1)) nodes.length]? = nodes[k + 1]?
    by_cases h : k + 1 ≤ nodes.length
    · rw [Nat.zero_add, Nat.min_eq_left h]
    · rw [List.getElem?_eq_none (by omega), List.getElem?_eq_none (by omega)]

/-- Advancing leaves out the nodes that it leaves behind, and the one at which it stops. -/
theorem unpulled_advances (nodes : List Position) (k : Nat) :
    ((start nodes).respond (List.replicate k .advance)).2.unpulled =
      if k = 0 then nodes else nodes.drop (k + 1) := by
  cases k with
  | zero => cases nodes <;> rfl
  | succ k =>
    rw [respond_advances (Nat.zero_le _), if_neg (Nat.succ_ne_zero k)]
    change nodes.drop (min (0 + (k + 1)) nodes.length + 1) = nodes.drop (k + 1 + 1)
    by_cases h : k + 1 ≤ nodes.length
    · rw [Nat.zero_add, Nat.min_eq_left h]
    · rw [List.drop_eq_nil_of_le (by omega), List.drop_eq_nil_of_le (by omega)]

end Listing

/-- Answers one call after the other. -/
def Iterator.respond : List Move → Overwriting Iterator (List (Option Position))
  | [] => return []
  | move :: moves => do
    let found ← move.run
    return found :: (← respond moves)

/-- An iterator rests at a place. -/
structure Iterator.Follows (iterator : Iterator) (listing : Listing) : Prop where
  /-- the match is the node there -/
  current : iterator.current? = listing.current?
  /-- it's exhausted if the place is behind all nodes -/
  isExhausted : iterator.isExhausted = listing.isExhausted
  /-- the match is pending if the node is -/
  pending : iterator.pending = listing.pending

/-- An iterator answers calls like a listing, and rests at the place where they lead. -/
def Iterator.Answers (iterator : Iterator) (listing : Listing) (moves : List Move) : Prop :=
  ((respond moves).run iterator).1.outcome = .ok (listing.respond moves).1 ∧
    ((respond moves).run iterator).2.Follows (listing.respond moves).2

/-! ## Cursors at a place -/

namespace Cursor

variable {cursor left : Cursor} {listing : Listing}

/-- Whether the match where the cursor rests hasn't been pulled yet. -/
def isPending : Cursor → Bool
  | exhausted => false
  | resting _ _ pending => pending

/-- A cursor has upcoming what a listing has from its index on, up to the first refusal. -/
structure RestsAt (cursor : Cursor) (listing : Listing) : Prop where
  /-- the search is resumed from where its steps are bound to selected nodes -/
  isSound : cursor.IsSound
  /-- the nodes are those from the place on -/
  upcoming : Agrees cursor.upcoming (listing.nodes.drop listing.index)
  /-- the match is pending if the node is -/
  pending : cursor.isPending = listing.pending

theorem RestsAt.follows (first : Step) (h : cursor.RestsAt listing) :
    (cursor.iterator first).Follows listing := by
  have hu := h.upcoming
  cases cursor with
  | exhausted =>
    generalize hd : listing.nodes.drop listing.index = nodes at hu
    cases hu
    have hl := List.drop_eq_nil_iff.mp hd
    exact ⟨(List.getElem?_eq_none hl).symm, (decide_eq_true hl).symm, h.pending⟩
  | resting anchor trail pending =>
    generalize hd : listing.nodes.drop listing.index = nodes at hu
    cases hu
    have hc : listing.current? = some (Search.endOf anchor trail) := by
      rw [Listing.current?, ← List.head?_drop, hd]
      rfl
    refine ⟨(Iterator.current?_iterator _ _).trans hc.symm, ?_, h.pending⟩
    obtain ⟨hl, -⟩ := List.getElem?_eq_some_iff.mp hc
    exact (decide_eq_false (by omega)).symm

theorem tail_agrees (cursor : Cursor) {nodes : List Position} (h : Agrees cursor.upcoming nodes) :
    Agrees cursor.upcoming.tail nodes.tail := by
  cases cursor with
  | exhausted => cases h; exact .nil
  | resting anchor trail pending => cases h with | node _ h => exact h

theorem isPending_of_advance (h : cursor.advance.outcome = .ok left) : left.isPending = false := by
  cases left with
  | exhausted => rfl
  | resting anchor trail pending =>
    cases pending with
    | false => rfl
    | true => exact absurd h (advance_ne_pending cursor anchor trail)

theorem RestsAt.advance (h : cursor.RestsAt listing) (ho : cursor.advance.outcome = .ok left) :
    left.RestsAt listing.advance := by
  have hs := advance_shows h.isSound
  have ht := tail_agrees cursor h.upcoming
  rw [← Listing.drop_advance] at ht
  rw [ho] at hs
  generalize cursor.upcoming.tail = seen at hs ht
  cases hs with
  | cursor _ hs => exact ⟨hs, ht, isPending_of_advance ho⟩

theorem RestsAt.current? (h : cursor.RestsAt listing) : cursor.current? = listing.current? := by
  rw [← Iterator.current?_iterator {} cursor]
  exact (h.follows {}).current

/-- A cursor that moves on for a call. -/
theorem RestsAt.of_advance {answer : Cursor → Option Position} {found : Option Position}
    (h : cursor.RestsAt listing)
    (ho : (do let left ← cursor.advance; return (answer left, left) : Reading _).outcome =
      .ok (found, left)) :
    found = answer left ∧ left.RestsAt listing.advance := by
  obtain ⟨next, hn, ho⟩ := Reading.outcome_bind_eq_ok.mp ho
  cases ho
  exact ⟨rfl, h.advance hn⟩

/-- A call leads a cursor to the place where it leads the listing. -/
theorem RestsAt.pull {move : Move} {found : Option Position} (h : cursor.RestsAt listing)
    (ho : (move.pull cursor).outcome = .ok (found, left)) :
    found = (Listing.pull move listing).1 ∧ left.RestsAt (Listing.pull move listing).2 := by
  cases move with
  | advance => exact h.of_advance ho
  | next =>
    have hp := h.pending
    -- without a pending match, a pull moves on
    have hmoved (hn : listing.pending = false)
        (ho : (do let left ← cursor.advance; return (left.current?, left) : Reading _).outcome =
          .ok (found, left)) :
        found = listing.next.1 ∧ left.RestsAt listing.next.2 := by
      obtain ⟨rfl, hl⟩ := h.of_advance ho
      have he : listing.next = (listing.advance.current?, listing.advance) := by
        simp only [Listing.next, hn, Bool.false_eq_true, if_false]
      rw [he]
      exact ⟨hl.current?, hl⟩
    cases cursor with
    | exhausted => exact hmoved hp.symm ho
    | resting anchor trail pending =>
      cases pending with
      | false => exact hmoved hp.symm ho
      | true =>
        cases ho
        have he : listing.next = (listing.current?, { listing with pending := false }) := by
          simp only [Listing.next, ← hp, isPending, if_true]
          rfl
        rw [show Listing.pull .next listing = _ from he]
        exact ⟨h.current?, h.isSound, h.upcoming, rfl⟩

/-- No lookup is refused in the course of a search for all upcoming matches. -/
def IsReadable (cursor : Cursor) : Prop := ∀ sighting ∈ cursor.upcoming, sighting.isOk = true

theorem IsReadable.exists_advance (hs : cursor.IsSound) (h : cursor.IsReadable) :
    ∃ left, cursor.advance.outcome = .ok left ∧ left.IsSound ∧ left.IsReadable := by
  have ha := advance_shows hs
  have ht : ∀ sighting ∈ cursor.upcoming.tail, sighting.isOk = true := fun sighting hm =>
    h sighting (List.mem_of_mem_tail hm)
  generalize cursor.advance.outcome = outcome at ha
  generalize cursor.upcoming.tail = seen at ha ht
  cases ha with
  | cursor left hl => exact ⟨left, rfl, hl, ht⟩
  | refused refusal more => cases ht _ List.mem_cons_self

/-- Calls don't fail if no lookup is refused. -/
theorem IsReadable.exists_pull (move : Move) (hs : cursor.IsSound) (h : cursor.IsReadable) :
    ∃ found left, (move.pull cursor).outcome = .ok (found, left) ∧ left.IsSound ∧
      left.IsReadable := by
  obtain ⟨left, ho, hl⟩ := h.exists_advance hs
  have hmoved (answer : Cursor → Option Position) :
      (do let left ← cursor.advance; return (answer left, left) : Reading _).outcome =
        .ok (answer left, left) := by
    rw [Reading.outcome_bind_of_ok _ ho]
    rfl
  cases move with
  | advance => exact ⟨_, left, hmoved fun _ => none, hl⟩
  | next =>
    cases cursor with
    | exhausted => exact ⟨_, left, hmoved Cursor.current?, hl⟩
    | resting anchor trail pending =>
      cases pending with
      | false => exact ⟨_, left, hmoved Cursor.current?, hl⟩
      | true => exact ⟨_, _, rfl, hs, h⟩

/-- A cursor that is started has its match pending, if there's one. -/
theorem isPending_start {path : Path} (h : (start path).outcome = .ok cursor) :
    cursor.isPending = !cursor.isExhausted := by
  simp only [start] at h
  split at h
  · cases h
  · cases h
    rfl
  · rw [Reading.outcome_bind] at h
    revert h
    cases (Search.bindBelow [] _ _).outcome with
    | error error => intro h; cases h
    | ok found => cases found <;> intro h <;> cases h <;> rfl

/-- A cursor is started at the first of the nodes that the path selects. -/
theorem restsAt_start {path : Path} (h : path.steps ≠ []) (ho : (start path).outcome = .ok cursor) :
    cursor.RestsAt (.start path.selected) ∧ cursor.upcoming = path.sightings := by
  have hs := path.start_shows h
  have ha := path.sightings_agrees
  have hp := isPending_start ho
  rw [ho] at hs
  generalize path.sightings = seen at hs ha
  cases hs with
  | cursor _ hs =>
    refine ⟨⟨hs, ha, hp.trans ?_⟩, rfl⟩
    cases cursor with
    | exhausted =>
      generalize path.selected = nodes at ha
      cases ha
      rfl
    | resting anchor trail pending =>
      generalize path.selected = nodes at ha
      cases ha
      rfl

end Cursor

/-! ## Iterators at a place -/

namespace Iterator

variable {cursor : Cursor} {listing : Listing} {first : Step}

/-- An iterator is asked once more, after a call that a cursor answers. -/
theorem run_respond_of_pull {move : Move} {found : Option Position} {left : Cursor}
    (moves : List Move) (hs : cursor.IsSound) (hp : (move.pull cursor).outcome = .ok (found, left)) :
    ((respond (move :: moves)).run (cursor.iterator first)).1.outcome =
        ((respond moves).run (left.iterator first)).1.outcome.map (found :: ·) ∧
      ((respond (move :: moves)).run (cursor.iterator first)).2 =
        ((respond moves).run (left.iterator first)).2 := by
  obtain ⟨ha, hl⟩ := move.run_eq first hs
  have ho : (move.run.run (cursor.iterator first)).1.outcome = .ok found := by
    rw [ha, Reading.outcome_map, hp]
    rfl
  rw [← hl found left hp]
  refine ⟨?_, ?_⟩
  · rw [respond, Overwriting.fst_bind, Reading.outcome_bind_of_ok _ ho, Overwriting.run_bind_pure]
    rfl
  · rw [respond, Overwriting.snd_bind_of_ok _ ho, Overwriting.run_bind_pure]

/-- Nothing is answered after a call that a cursor doesn't answer. -/
theorem run_respond_of_error {move : Move} {error : Error} (moves : List Move)
    (hs : cursor.IsSound) (he : (move.pull cursor).outcome = .error error) :
    ((respond (move :: moves)).run (cursor.iterator first)).1.outcome = .error error := by
  have ho : (move.run.run (cursor.iterator first)).1.outcome = .error error := by
    rw [(move.run_eq first hs).1, Reading.outcome_map_eq_error]
    exact he
  rw [respond, Overwriting.fst_bind, Reading.outcome_bind_of_error _ ho]

/-- Calls that succeed lead an iterator to the place where they lead the listing. By induction on
the calls, with the cursor that rests where the iterator does. -/
theorem respond_rests {moves : List Move} {found : List (Option Position)}
    (h : cursor.RestsAt listing)
    (ho : ((respond moves).run (cursor.iterator first)).1.outcome = .ok found) :
    found = (listing.respond moves).1 ∧ ∃ left : Cursor,
      ((respond moves).run (cursor.iterator first)).2 = left.iterator first ∧
        left.RestsAt (listing.respond moves).2 := by
  induction moves generalizing cursor listing found with
  | nil =>
    cases ho
    exact ⟨rfl, cursor, rfl, h⟩
  | cons move moves ih =>
    cases hp : (move.pull cursor).outcome with
    | error error =>
      rw [run_respond_of_error moves h.isSound hp] at ho
      cases ho
    | ok result =>
      obtain ⟨answer, left⟩ := result
      obtain ⟨rfl, hr⟩ := h.pull hp
      obtain ⟨hout, hleft⟩ := run_respond_of_pull moves h.isSound hp
      rw [hout, ← Reading.outcome_map, Reading.outcome_map_eq_ok] at ho
      obtain ⟨others, hm, rfl⟩ := ho
      obtain ⟨rfl, last, hlast, hrest⟩ := ih hr hm
      exact ⟨rfl, last, hleft.trans hlast, hrest⟩

/-- Without refusals all calls succeed. -/
theorem exists_respond (moves : List Move) (h : cursor.RestsAt listing) (hr : cursor.IsReadable) :
    ∃ left : Cursor,
      ((respond moves).run (cursor.iterator first)).1.outcome = .ok (listing.respond moves).1 ∧
        ((respond moves).run (cursor.iterator first)).2 = left.iterator first ∧
        left.RestsAt (listing.respond moves).2 ∧ left.IsReadable := by
  induction moves generalizing cursor listing with
  | nil => exact ⟨cursor, rfl, rfl, h, hr⟩
  | cons move moves ih =>
    obtain ⟨answer, next, hp, -, hn⟩ := hr.exists_pull move h.isSound
    obtain ⟨rfl, hrest⟩ := h.pull hp
    obtain ⟨hout, hleft⟩ := run_respond_of_pull moves h.isSound hp
    obtain ⟨left, ho, hs, hlast⟩ := ih hrest hn
    rw [ho] at hout
    exact ⟨left, hout, hleft.trans hs, hlast⟩

/-- Answers to the calls behind the first one, too, come from an iterator that rests like a
cursor. -/
theorem exists_pull_of_respond (move : Move) (hs : cursor.IsSound)
    (h : ∀ moves, ∃ found, ((respond moves).run (cursor.iterator first)).1.outcome = .ok found) :
    ∃ answer left, (move.pull cursor).outcome = .ok (answer, left) ∧
      ∀ moves, ∃ found, ((respond moves).run (left.iterator first)).1.outcome = .ok found := by
  cases hp : (move.pull cursor).outcome with
  | error error =>
    obtain ⟨found, ho⟩ := h [move]
    rw [run_respond_of_error [] hs hp] at ho
    cases ho
  | ok result =>
    obtain ⟨answer, left⟩ := result
    refine ⟨answer, left, rfl, ?_⟩
    intro moves
    obtain ⟨found, ho⟩ := h (move :: moves)
    rw [(run_respond_of_pull moves hs hp).1, ← Reading.outcome_map,
      Reading.outcome_map_eq_ok] at ho
    obtain ⟨others, hm, -⟩ := ho
    exact ⟨others, hm⟩

/-- A search that no call interrupts comes upon no refusal. By induction on what is upcoming. -/
theorem isReadable_of_respond (hs : cursor.IsSound)
    (h : ∀ moves, ∃ found, ((respond moves).run (cursor.iterator first)).1.outcome = .ok found) :
    cursor.IsReadable := by
  generalize hu : cursor.upcoming = seen
  induction seen generalizing cursor with
  | nil =>
    intro sighting hm
    rw [hu] at hm
    cases hm
  | cons here rest ih =>
    obtain ⟨answer, left, hp, hleft⟩ := exists_pull_of_respond .advance hs h
    obtain ⟨next, hn, hp⟩ := Reading.outcome_bind_eq_ok.mp hp
    cases hp
    have ha := Cursor.advance_shows hs
    rw [hn, hu, List.tail_cons] at ha
    cases cursor with
    | exhausted => cases hu
    | resting anchor trail pending =>
      obtain ⟨rfl, -⟩ := List.cons.inj hu
      generalize rest = seen at ha hu ih
      cases ha with
      | cursor _ hl =>
        have hi := ih hl hleft rfl
        intro sighting hm
        rw [hu] at hm
        rcases List.mem_cons.mp hm with rfl | hm
        · rfl
        · exact hi sighting hm

theorem outcome_next {found : Option Position} {left : Cursor} (hs : cursor.IsSound)
    (hp : cursor.pull.outcome = .ok (found, left)) :
    (next.run (cursor.iterator first)).1.outcome = .ok found := by
  rw [(next_eq first hs).1, Reading.outcome_map, hp]
  rfl

/-- Nothing is collected if the next match can't be had. -/
theorem run_collect_of_error {error : Error} (limit : Nat) (hs : cursor.IsSound)
    (he : cursor.pull.outcome = .error error) :
    ((collect (limit + 1)).run (cursor.iterator first)).1.outcome = .error error := by
  have hn : (next.run (cursor.iterator first)).1.outcome = .error error := by
    rw [(next_eq first hs).1, Reading.outcome_map_eq_error]
    exact he
  rw [collect, Overwriting.fst_bind, Reading.outcome_bind_of_error _ hn]

/-- Nothing is collected if there's no match. -/
theorem run_collect_of_none {left : Cursor} (limit : Nat) (hs : cursor.IsSound)
    (hp : cursor.pull.outcome = .ok (none, left)) :
    ((collect (limit + 1)).run (cursor.iterator first)).1.outcome = .ok [] ∧
      ((collect (limit + 1)).run (cursor.iterator first)).2 = left.iterator first := by
  have ho := @outcome_next cursor first _ _ hs hp
  have hl := (next_eq first hs).2 _ _ hp
  refine ⟨?_, ?_⟩
  · rw [collect, Overwriting.fst_bind, Reading.outcome_bind_of_ok _ ho]
    rfl
  · rw [collect, Overwriting.snd_bind_of_ok _ ho, hl]
    rfl

/-- The next match is collected, and what comes from there. -/
theorem run_collect_of_some {node : Position} {left : Cursor} (limit : Nat)
    (hs : cursor.IsSound)
    (hp : cursor.pull.outcome = .ok (some node, left)) :
    ((collect (limit + 1)).run (cursor.iterator first)).1.outcome =
        ((collect limit).run (left.iterator first)).1.outcome.map (node :: ·) ∧
      ((collect (limit + 1)).run (cursor.iterator first)).2 =
        ((collect limit).run (left.iterator first)).2 := by
  have ho := @outcome_next cursor first _ _ hs hp
  have hl := (next_eq first hs).2 _ _ hp
  refine ⟨?_, ?_⟩
  · rw [collect, Overwriting.fst_bind, Reading.outcome_bind_of_ok _ ho, hl]
    dsimp only
    rw [Overwriting.run_bind_pure]
    rfl
  · rw [collect, Overwriting.snd_bind_of_ok _ ho, hl]
    dsimp only
    rw [Overwriting.run_bind_pure]

/-- All nodes that haven't been given yet are collected. -/
theorem collect_eq {limit : Nat} (h : cursor.RestsAt listing) (hr : cursor.IsReadable)
    (hl : listing.unpulled.length < limit) :
    ((collect limit).run (cursor.iterator first)).1.outcome = .ok listing.unpulled := by
  induction limit generalizing cursor listing with
  | zero => omega
  | succ limit ih =>
    obtain ⟨found, left, hp, -, hleft⟩ := hr.exists_pull .next h.isSound
    obtain ⟨hf, hrest⟩ := h.pull hp
    obtain ⟨hfound, hunpulled⟩ := listing.next_eq
    replace hf : found = listing.unpulled.head? := hf.trans hfound
    cases hu : listing.unpulled with
    | nil =>
      rw [hu] at hf
      subst hf
      exact (run_collect_of_none limit h.isSound hp).1
    | cons node rest =>
      rw [hu, List.tail_cons] at hunpulled
      rw [hu, List.length_cons] at hl
      rw [hu] at hf
      subst hf
      have hi := ih hrest hleft (show listing.next.2.unpulled.length < limit by
        rw [hunpulled]; omega)
      rw [show (Listing.pull .next listing).2.unpulled = rest from hunpulled] at hi
      rw [(run_collect_of_some limit h.isSound hp).1, hi]
      rfl

/-- An iterator is at its end: nothing that it's asked for gives a match or moves it. -/
structure IsOver (iterator : Iterator) : Prop where
  /-- it rests like one that has never been at a match -/
  restsLike : iterator.restsLike {} = true
  /-- it stays as it is -/
  stays : ∀ moves, (respond moves).run iterator = (pure (moves.map fun _ => none), iterator)

theorem isOver_empty : IsOver {} := by
  refine ⟨rfl, ?_⟩
  intro moves
  induction moves with
  | nil => rfl
  | cons move moves ih =>
    have hm : move.run.run {} = (pure none, {}) := by cases move <;> rfl
    rw [respond, Overwriting.run_bind_of_pure _ hm, Overwriting.run_bind_pure, ih]
    rfl

/-- An iterator that is started rests like a cursor, at the first of the selected nodes. -/
theorem exists_cursor_of_start {path : Path} {iterator : Iterator}
    (hf : path.steps = first :: path.steps.drop 1) (ho : (start path).outcome = .ok iterator) :
    ∃ cursor : Cursor, iterator = cursor.iterator first ∧
      cursor.RestsAt (.start path.selected) ∧ (cursor.IsReadable ↔ path.IsReadable) := by
  rw [start_eq hf, Reading.outcome_map_eq_ok] at ho
  obtain ⟨cursor, ho, rfl⟩ := ho
  obtain ⟨hr, hu⟩ := Cursor.restsAt_start (by rw [hf]; exact List.cons_ne_nil _ _) ho
  refine ⟨cursor, rfl, hr, ?_⟩
  rw [Cursor.IsReadable, hu]
  rfl

theorem exists_start_of_isReadable {path : Path} (h : path.steps ≠ []) (hr : path.IsReadable) :
    ∃ cursor, (Cursor.start path).outcome = .ok cursor := by
  have hs := path.start_shows h
  rw [Path.IsReadable] at hr
  generalize (Cursor.start path).outcome = outcome at hs
  generalize path.sightings = seen at hs hr
  cases hs with
  | cursor cursor _ => exact ⟨cursor, rfl⟩
  | refused refusal more => cases hr _ List.mem_cons_self

/-- Without refusals an iterator can be started, and it answers whatever it's asked for. -/
theorem exists_answers_of_isReadable {path : Path} (h : path.steps ≠ []) (hr : path.IsReadable) :
    ∃ iterator, (start path).outcome = .ok iterator ∧
      ∀ moves, ∃ found, ((respond moves).run iterator).1.outcome = .ok found := by
  obtain ⟨first, steps, hp⟩ := List.exists_cons_of_ne_nil h
  have hf : path.steps = first :: path.steps.drop 1 := by rw [hp]; rfl
  obtain ⟨cursor, hc⟩ := exists_start_of_isReadable h hr
  have ho : (start path).outcome = .ok (cursor.iterator first) := by
    rw [start_eq hf, Reading.outcome_map, hc]
    rfl
  refine ⟨_, ho, ?_⟩
  intro moves
  obtain ⟨other, he, hrest, hreadable⟩ := exists_cursor_of_start hf ho
  rw [he]
  obtain ⟨left, hm, -⟩ := @exists_respond other _ first moves hrest (hreadable.mpr hr)
  exact ⟨_, hm⟩

/-- Whatever an iterator over a path is asked for, it answers like the listing of the nodes that the
path selects, as far as no call fails; and none fails exactly if no lookup is refused in the course
of a search for all matches. Then advancing goes through all of them, and those that come behind the
place that was got to by advancing are collected. -/
theorem answers_selected {path : Path} (h : path.steps ≠ []) :
    (∀ iterator moves found, (start path).outcome = .ok iterator →
      ((respond moves).run iterator).1.outcome = .ok found →
      iterator.Answers (.start path.selected) moves ∧
      (((respond moves).run iterator).2.isExhausted = true →
        ((respond moves).run iterator).2.IsOver)) ∧
    (path.IsReadable ↔ ∃ iterator, (start path).outcome = .ok iterator ∧
      ∀ moves, iterator.Answers (.start path.selected) moves) ∧
    (path.IsReadable → ∃ iterator, (start path).outcome = .ok iterator ∧
      (∀ n, ((respond (List.replicate n .advance)).run iterator).2.current? = path.selected[n]?) ∧
      ∀ k limit, path.selected.length < limit →
        ((collect limit).run ((respond (List.replicate k .advance)).run iterator).2).1.outcome =
          .ok (if k = 0 then path.selected else path.selected.drop (k + 1))) := by
  obtain ⟨first, steps, hp⟩ := List.exists_cons_of_ne_nil h
  have hf : path.steps = first :: path.steps.drop 1 := by rw [hp]; rfl
  have hreadable (hr : path.IsReadable) :
      ∃ cursor : Cursor, (start path).outcome = .ok (cursor.iterator first) ∧
        cursor.RestsAt (.start path.selected) ∧ cursor.IsReadable := by
    obtain ⟨cursor, ho⟩ := exists_start_of_isReadable h hr
    have ho : (start path).outcome = .ok (cursor.iterator first) := by
      rw [start_eq hf, Reading.outcome_map, ho]
      rfl
    obtain ⟨other, he, hc, hi⟩ := exists_cursor_of_start hf ho
    exact ⟨other, he ▸ ho, hc, hi.mpr hr⟩
  refine ⟨?_, ⟨?_, ?_⟩, ?_⟩
  · -- calls that succeed
    intro iterator moves found ho hm
    obtain ⟨cursor, rfl, hc, -⟩ := exists_cursor_of_start hf ho
    obtain ⟨rfl, left, hl, hrest⟩ := respond_rests hc hm
    refine ⟨⟨hm, hl ▸ hrest.follows first⟩, ?_⟩
    intro he
    rw [hl, isExhausted_iterator] at he
    cases left with
    | exhausted =>
      rw [hl]
      exact isOver_empty
    | resting anchor trail pending => cases he
  · -- without refusals all calls succeed
    intro hr
    obtain ⟨cursor, ho, hc, hr⟩ := hreadable hr
    refine ⟨_, ho, ?_⟩
    intro moves
    obtain ⟨left, hm, hl, hrest, -⟩ := exists_respond moves hc hr
    exact ⟨hm, hl ▸ hrest.follows first⟩
  · rintro ⟨iterator, ho, ha⟩
    obtain ⟨cursor, rfl, hc, hi⟩ := exists_cursor_of_start hf ho
    exact hi.mp (isReadable_of_respond hc.isSound fun moves => ⟨_, (ha moves).1⟩)
  · -- what is advanced to, and what is collected from there
    intro hr
    obtain ⟨cursor, ho, hc, hr⟩ := hreadable hr
    refine ⟨_, ho, ?_, ?_⟩
    · intro n
      obtain ⟨left, -, hl, hrest, -⟩ := exists_respond (List.replicate n .advance) hc hr
      rw [hl, (hrest.follows first).current, Listing.current?_advances]
    · intro k limit hk
      obtain ⟨left, -, hl, hrest, hleft⟩ := exists_respond (List.replicate k .advance) hc hr
      have hn := Listing.unpulled_advances path.selected k
      have hlimit : ((Listing.start path.selected).respond
          (List.replicate k .advance)).2.unpulled.length < limit := by
        rw [hn]
        split
        · exact hk
        · rw [List.length_drop]
          omega
      rw [hl, collect_eq hrest hleft hlimit, hn]

end Iterator

/-- A path that selects three nodes, two calls for the next one and one to advance in between. -/
theorem answers_nestedPath :
    nestedPath.steps ≠ [] ∧ nestedPath.IsReadable ∧
      ∃ iterator, (Iterator.start nestedPath).outcome = .ok iterator ∧
        iterator.Answers (.start nestedPath.selected) [.next, .advance, .next] := by
  have hr : nestedPath.IsReadable := by decide
  obtain ⟨iterator, ho, ha⟩ := (@Iterator.answers_selected nestedPath (by decide)).2.1.mp hr
  exact ⟨by decide, hr, iterator, ho, ha _⟩

/-- Where a lookup is refused, an iterator answers like no listing at all. -/
theorem not_answers_interruptedPath :
    ¬ ∀ path : Path, path.steps ≠ [] → ∃ nodes iterator,
      (Iterator.start path).outcome = .ok iterator ∧
      ∀ moves, iterator.Answers (.start nodes) moves := by
  intro h
  obtain ⟨nodes, iterator, ho, ha⟩ := h interruptedPath (by decide)
  obtain ⟨hf, -⟩ := ha [.advance]
  have he := ho.symm.trans start_interruptedPath
  cases he
  have hc : ((Iterator.respond [.advance]).run interruptedIterator).1.outcome.isOk = false := by
    decide +kernel
  rw [hf] at hc
  cases hc

end MarkupPath
