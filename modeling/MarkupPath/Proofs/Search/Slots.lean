import MarkupPath.Proofs.Search.Matches
import MarkupPath.Query.Iterator

/-!
# Searching in place

A `Cursor` has a new trail after each move, an `Iterator` overwrites its slots. Both read the same,
call by call, and where a move succeeds the slots are bound to what is on the trail. Main
statements: `Iterator.start_eq`, `Iterator.advance_eq` and `Iterator.next_eq`.

While a move goes on the slots are in disorder, but not in any: the slots behind the one that is
searched for aren't bound. So when a lookup is refused in the course of a move, the slots are bound
up to one of them, the last of these to a candidate that was looked at, and the others aren't bound.
`Slots.Leaves` says what slots are like after a search for each of its results, this one included.
-/

namespace MarkupPath

/-- A question that is answered, unless a lookup is refused. -/
def Reading.IsLookup {α : Type} (r : Reading α) : Prop :=
  ∀ error, r.outcome = .error error → ∃ refusal, error = .lookup refusal

/-! ## Trails and slots -/

/-- The slot of a bound step. -/
def Bound.slot (bound : Bound) : Slot := ⟨bound.step, some bound.position⟩

namespace Search

variable {anchor : Position} {trail : List Bound}

/-- A trail that is sound but for its last node, a candidate that needn't meet the constraints. -/
def IsTried (anchor : Position) : List Bound → Prop
  | [] => True
  | last :: trail =>
    last.position ∈ last.step.candidates (endOf anchor trail) ∧ IsSound anchor trail

theorem IsSound.isTried (h : IsSound anchor trail) : IsTried anchor trail := by
  cases trail with
  | nil => trivial
  | cons last trail => exact ⟨(List.mem_filter.mp h.1).1, h.2⟩

end Search

namespace Slots

/-- The slots of the anchor step and of the steps on a trail. -/
def ofTrail (first : Step) (anchor : Position) (trail : List Bound) : List Slot :=
  ⟨first, some anchor⟩ :: (trail.map Bound.slot).reverse

/-- Slots that aren't bound. -/
def unbound (steps : List Step) : List Slot := steps.map fun step => { step }

end Slots

/-- The iterator that rests where a cursor does. A cursor doesn't know its anchor step. -/
def Cursor.iterator (first : Step) : Cursor → Iterator
  | exhausted => {}
  | resting anchor trail pending => { slots := Slots.ofTrail first anchor trail, pending }

/-! ## Questions for candidates -/

namespace Finds

variable {step : Step} {left : List Position}

theorem exists_refusal {answer : Except Error (Option Position)} {error : Error}
    (h : Finds step left answer) (he : answer = .error error) :
    ∃ refusal, error = .lookup refusal := by
  cases h with
  | nothing _ => cases he
  | refused _ =>
    cases he
    exact ⟨_, rfl⟩
  | candidate _ _ => cases he

theorem mem_candidates {context position : Position} {answer : Except Error (Option Position)}
    (h : Finds step left answer) (hl : left <:+ step.reachable context)
    (ho : answer = .ok (some position)) : position ∈ step.candidates context := by
  cases h with
  | nothing _ => cases ho
  | refused _ => cases ho
  | candidate hc hf =>
    cases ho
    exact Search.mem_candidates_of_finds hl hf

end Finds

namespace Step

variable {step : Step} {context position : Position}

theorem first_isLookup (step : Step) (context : Position) : (step.first context).IsLookup := by
  intro error he
  exact (step.first_finds context).exists_refusal he

theorem mem_candidates_of_first (h : (step.first context).outcome = .ok (some position)) :
    position ∈ step.candidates context :=
  (step.first_finds context).mem_candidates (List.suffix_refl _) h

theorem next_isLookup (h : position ∈ step.candidates context) :
    (step.next context position).plain.IsLookup := by
  intro error he
  exact (next_finds (List.mem_filter.mp h).1).exists_refusal he

theorem mem_candidates_of_next {next : Position} (h : position ∈ step.candidates context)
    (ho : (step.next context position).plain.outcome = .ok (some next)) :
    next ∈ step.candidates context := by
  have hr := (List.mem_filter.mp h).1
  exact (next_finds hr).mem_candidates
    ((List.suffix_cons _ _).trans (cons_beyond_suffix hr)) ho

theorem accepts_isLookup (step : Step) (position : Position) :
    (step.accepts position).IsLookup := by
  intro error he
  rw [accepts, outcome_allHold] at he
  cases hj : position.judge step.constraints with
  | error refusal =>
    rw [hj] at he
    cases he
    exact ⟨refusal, rfl⟩
  | ok verdict =>
    rw [hj] at he
    cases he

/-- A candidate that is accepted is selected. -/
theorem mem_selects_of_accepts (h : position ∈ step.candidates context)
    (ho : (step.accepts position).outcome = .ok true) : position ∈ step.selects context := by
  rw [accepts, outcome_allHold] at ho
  cases hj : position.judge step.constraints with
  | error refusal =>
    rw [hj] at ho
    cases ho
  | ok verdict =>
    rw [hj] at ho
    cases ho
    exact Search.mem_selects_of_judge h hj

end Step

namespace Slots

variable {anchor : Position} {front : List Slot} {steps rest : List Step}
  {trail bounds : List Bound} {found other : Reading (Option (List Bound))}

theorem bind_apply (front : List Slot) (slot : Slot) (behind : List Slot) (node : Option Position) :
    (bind front.length node).run (front ++ slot :: behind) =
      (pure (), front ++ { slot with node } :: behind) := by
  rw [bind, Overwriting.run_modify]
  congr 1
  induction front with
  | nil => rfl
  | cons first rest ih => exact congrArg (first :: ·) ih

theorem map_step_unbound (steps : List Step) : (unbound steps).map Slot.step = steps := by
  simp [unbound, Function.comp_def]

/-! ## What a search leaves of slots -/

/-- What is left of slots after a search for their steps, by what it finds at the end of a trail.
The slots in front of them are left alone. -/
inductive Leaves (anchor : Position) (front : List Slot) (steps : List Step) (trail : List Bound) :
    Except Error (Option (List Bound)) → List Slot → Prop where
  /-- none of them is bound, as nothing is found -/
  | nothing : Leaves anchor front steps trail (.ok none) (front ++ unbound steps)
  /-- they are bound to what is found -/
  | found (bounds : List Bound) :
    (bounds.map Bound.step).reverse = steps → Search.IsSound anchor (bounds ++ trail) →
    Leaves anchor front steps trail (.ok (some (bounds ++ trail)))
      (front ++ (bounds.map Bound.slot).reverse)
  /-- they are bound up to where a lookup is refused -/
  | refused (refusal : Refusal) (bounds : List Bound) (rest : List Step) :
    (bounds.map Bound.step).reverse ++ rest = steps → Search.IsTried anchor (bounds ++ trail) →
    Leaves anchor front steps trail (.error (.lookup refusal))
      (front ++ ((bounds.map Bound.slot).reverse ++ unbound rest))

/-- Slots in front that are bound count among those that are searched for. -/
theorem Leaves.prepend {outcome : Except Error (Option (List Bound))} {slots : List Slot}
    (h : Leaves anchor (front ++ (bounds.map Bound.slot).reverse) rest (bounds ++ trail) outcome
      slots) (hn : outcome ≠ .ok none) :
    Leaves anchor front ((bounds.map Bound.step).reverse ++ rest) trail outcome slots := by
  cases h with
  | nothing => exact absurd rfl hn
  | found others hs ht =>
    have hslots : Leaves anchor front ((bounds.map Bound.step).reverse ++ rest) trail _ _ :=
      .found (others ++ bounds) (by rw [List.map_append, List.reverse_append, hs])
        (by rwa [List.append_assoc])
    rwa [List.append_assoc others, List.map_append, List.reverse_append,
      ← List.append_assoc front] at hslots
  | refused refusal others left hs ht =>
    have hslots : Leaves anchor front ((bounds.map Bound.step).reverse ++ rest) trail _ _ :=
      .refused refusal (others ++ bounds) left
        (by rw [List.map_append, List.reverse_append, List.append_assoc, hs])
        (by rwa [List.append_assoc])
    rwa [List.map_append, List.reverse_append, List.append_assoc,
      ← List.append_assoc front] at hslots

/-- What comes of searching for steps in slots, compared with a search for them at the end of a
trail. -/
structure Fills (anchor : Position) (front : List Slot) (steps : List Step) (trail : List Bound)
    (found : Reading (Option (List Bound))) (result : Reading Bool × List Slot) : Prop where
  /-- the same is read, and something is found or not -/
  reading : result.1 = Option.isSome <$> found
  /-- the slots are left as it says -/
  slots : Leaves anchor front steps trail found.outcome result.2

namespace Fills

theorem nothing :
    Fills anchor front steps trail (pure none) (pure false, front ++ unbound steps) :=
  ⟨rfl, .nothing⟩

/-- A slot is cleared, as nothing is found for it. -/
theorem cleared (slot : Slot) :
    Fills anchor front (slot.step :: steps) trail (pure none)
      ((do bind front.length none; return false : Overwriting (List Slot) Bool).run
        (front ++ slot :: unbound steps)) := by
  rw [Overwriting.run_bind_of_pure _ (bind_apply _ _ _ _)]
  exact nothing

/-- Something is looked up before. The slots may be bound up to one of them. -/
theorem read (bounds : List Bound) {α : Type} {r : Reading α}
    {g : α → Reading (Option (List Bound))} {f : α → Overwriting (List Slot) Bool} (hr : r.IsLookup)
    (hs : (bounds.map Bound.step).reverse ++ rest = steps)
    (ht : Search.IsTried anchor (bounds ++ trail))
    (h : ∀ a, r.outcome = .ok a → Fills anchor front steps trail (g a)
      ((f a).run (front ++ ((bounds.map Bound.slot).reverse ++ unbound rest)))) :
    Fills anchor front steps trail (r >>= g)
      ((Overwriting.read r >>= f).run
        (front ++ ((bounds.map Bound.slot).reverse ++ unbound rest))) := by
  cases ho : r.outcome with
  | error error =>
    obtain ⟨refusal, rfl⟩ := hr error ho
    refine ⟨?_, ?_⟩
    · rw [Overwriting.fst_bind, Overwriting.run_read, Reading.bind_eq, Reading.bind_eq,
        Reading.bind_of_error _ ho, Reading.bind_of_error _ ho]
      rfl
    · rw [Reading.outcome_bind_of_error g ho, Overwriting.snd_bind_of_error f ho]
      exact .refused refusal bounds rest hs ht
  | ok a =>
    obtain ⟨hreading, hslots⟩ := h a ho
    refine ⟨?_, ?_⟩
    · rw [Overwriting.fst_bind, Overwriting.run_read, Reading.bind_eq, Reading.bind_eq,
        Reading.bind_of_ok _ ho, Reading.bind_of_ok _ ho, hreading]
      rfl
    · rw [Reading.outcome_bind_of_ok g ho, Overwriting.snd_bind_of_ok f ho]
      exact hslots

/-- What is found first, or else what is found after that. -/
theorem orElse (bounds : List Bound) {m n : Overwriting (List Slot) Bool} {slots : List Slot}
    (h : Fills anchor (front ++ (bounds.map Bound.slot).reverse) rest (bounds ++ trail) found
      (m.run slots))
    (ho : Fills anchor front ((bounds.map Bound.step).reverse ++ rest) trail other
      (n.run (front ++ (bounds.map Bound.slot).reverse ++ unbound rest))) :
    Fills anchor front ((bounds.map Bound.step).reverse ++ rest) trail
      (found >>= fun found => match found with
        | some more => pure (some more)
        | none => other)
      ((m >>= fun isFound => if isFound then pure true else n).run slots) := by
  obtain ⟨hreading, hslots⟩ := h
  have hm : (m.run slots).1.outcome = found.outcome.map Option.isSome := by
    rw [hreading, Reading.outcome_map]
  cases hf : found.outcome with
  | error error =>
    rw [hf] at hm hslots
    refine ⟨?_, ?_⟩
    · rw [Overwriting.fst_bind, hreading, Reading.bind_eq, Reading.bind_of_error _ (hreading ▸ hm),
        Reading.bind_eq, Reading.bind_of_error _ hf]
      rfl
    · rw [Reading.outcome_bind_of_error _ hf, Overwriting.snd_bind_of_error _ hm]
      exact hslots.prepend nofun
  | ok answer =>
    rw [hf] at hm hslots
    cases answer with
    | some more =>
      refine ⟨?_, ?_⟩
      · rw [Overwriting.fst_bind, hreading, Reading.bind_eq, Reading.bind_of_ok _ (hreading ▸ hm),
          Reading.bind_eq, Reading.bind_of_ok _ hf]
        rfl
      · rw [Reading.outcome_bind_of_ok _ hf, Overwriting.snd_bind_of_ok _ hm]
        exact hslots.prepend nofun
    | none =>
      -- the slots behind those in front are cleared, so the second search starts from there
      have hleft : (m.run slots).2 = front ++ (bounds.map Bound.slot).reverse ++ unbound rest := by
        generalize (m.run slots).2 = left at hslots
        cases hslots
        rfl
      obtain ⟨hother, hlast⟩ := ho
      rw [← hleft] at hother hlast
      refine ⟨?_, ?_⟩
      · rw [Overwriting.fst_bind, hreading, Reading.bind_eq, Reading.bind_of_ok _ (hreading ▸ hm),
          Reading.bind_eq, Reading.bind_of_ok _ hf]
        simp only [Option.isSome_none, Bool.false_eq_true, if_false]
        rw [hother]
        rfl
      · rw [Reading.outcome_bind_of_ok _ hf, Overwriting.snd_bind_of_ok _ hm]
        exact hlast

end Fills

/-! ## Settling, descending and moving on -/

section Settle

variable {step : Step} {accept : Position → Overwriting (List Slot) Bool}
  {find : Position → Reading (Option (List Bound))}

theorem examine_fills {candidate : Position} (ht : Search.IsSound anchor trail)
    (hc : candidate ∈ step.candidates (Search.endOf anchor trail))
    (ha : candidate ∈ step.selects (Search.endOf anchor trail) →
      Fills anchor (front ++ [⟨step, some candidate⟩]) steps (⟨step, candidate⟩ :: trail)
        (find candidate)
        ((accept candidate).run (front ++ [⟨step, some candidate⟩] ++ unbound steps))) :
    Fills anchor (front ++ [⟨step, some candidate⟩]) steps (⟨step, candidate⟩ :: trail)
      (Search.examine step find candidate)
      ((examine step accept candidate).run
        (front ++ [⟨step, some candidate⟩] ++ unbound steps)) := by
  refine .read [] (step.accepts_isLookup candidate) rfl ⟨hc, ht⟩ ?_
  intro isMet ho
  cases isMet with
  | true => exact ha (Step.mem_selects_of_accepts hc ho)
  | false => exact .nothing

/-- What a search finds from a candidate on, without the candidate itself. -/
theorem map_settleFrom (step : Step) (context : Position)
    (find : Position → Reading (Option (List Bound))) (candidate : Position) :
    Option.map Prod.snd <$> Search.settleFrom step context find candidate =
      Search.examine step find candidate >>= fun found => match found with
        | some more => pure (some more)
        | none => step.next context candidate >>= fun next => match next with
          | none => pure none
          | some ⟨next, _⟩ => Option.map Prod.snd <$> Search.settleFrom step context find next := by
  rw [Search.settleFrom]
  simp only [map_eq_pure_bind, bind_assoc]
  congr 1
  funext found
  cases found with
  | some more => rfl
  | none =>
    simp only [bind_assoc]
    congr 1
    funext next
    cases next <;> rfl

/-- Settling from a candidate does what a search does, if accepting candidates does. By induction on
the number of nodes that come later than the candidate. -/
theorem settleFrom_fills (ht : Search.IsSound anchor trail)
    (ha : ∀ candidate ∈ step.selects (Search.endOf anchor trail),
      Fills anchor (front ++ [⟨step, some candidate⟩]) steps (⟨step, candidate⟩ :: trail)
        (find candidate)
        ((accept candidate).run (front ++ [⟨step, some candidate⟩] ++ unbound steps)))
    {candidate : Position} (hc : candidate ∈ step.candidates (Search.endOf anchor trail))
    {slot : Slot} (hs : slot.step = step) :
    Fills anchor front (step :: steps) trail
      (Option.map Prod.snd <$>
        Search.settleFrom step (Search.endOf anchor trail) find candidate)
      ((settleFrom step front.length (Search.endOf anchor trail) accept candidate).run
        (front ++ slot :: unbound steps)) := by
  induction hn : candidate.ahead using Nat.strongRecOn generalizing candidate slot with
  | ind n ih =>
    subst hn
    obtain ⟨own, node⟩ := slot
    change own = step at hs
    subst own
    rw [map_settleFrom, settleFrom, Overwriting.run_bind_of_pure _ (bind_apply _ _ _ _),
      ← List.singleton_append (l := unbound steps), ← List.append_assoc]
    refine .orElse [⟨step, candidate⟩] (examine_fills ht hc (ha candidate)) ?_
    -- the candidate isn't accepted, and stays bound until the next one is found
    rw [List.append_assoc]
    have hlookup : (step.next (Search.endOf anchor trail) candidate).IsLookup := by
      intro error he
      exact Step.next_isLookup hc error (Reading.outcome_map_eq_error.mpr he)
    refine .read [⟨step, candidate⟩] hlookup rfl ⟨hc, ht⟩ ?_
    intro next ho
    cases next with
    | none => exact .cleared ⟨step, some candidate⟩
    | some next =>
      have hnext := Step.mem_candidates_of_next hc (Reading.outcome_map_eq_ok.mpr ⟨_, ho, rfl⟩)
      exact ih _ next.property hnext rfl rfl

theorem settle_fills (ht : Search.IsSound anchor trail)
    (ha : ∀ candidate ∈ step.selects (Search.endOf anchor trail),
      Fills anchor (front ++ [⟨step, some candidate⟩]) steps (⟨step, candidate⟩ :: trail)
        (find candidate)
        ((accept candidate).run (front ++ [⟨step, some candidate⟩] ++ unbound steps)))
    (candidate : Option Position)
    (hc : ∀ node, candidate = some node → node ∈ step.candidates (Search.endOf anchor trail))
    {slot : Slot} (hs : slot.step = step) :
    Fills anchor front (step :: steps) trail
      (Option.map Prod.snd <$> Search.settle step (Search.endOf anchor trail) find candidate)
      ((settle step front.length (Search.endOf anchor trail) accept candidate).run
        (front ++ slot :: unbound steps)) := by
  cases candidate with
  | none =>
    subst hs
    exact .cleared slot
  | some candidate => exact settleFrom_fills ht ha (hc candidate rfl) hs

end Settle

/-- The descent binds the slots behind to what a search finds below. -/
theorem descend_fills (steps : List Step) {index : Nat} (ht : Search.IsSound anchor trail)
    (hi : front.length = index + 1) :
    Fills anchor front steps trail
      (Search.bindBelow trail (Search.endOf anchor trail) steps)
      ((descend index (Search.endOf anchor trail) steps).run (front ++ unbound steps)) := by
  induction steps generalizing index front trail with
  | nil => exact ⟨rfl, .found [] rfl ht⟩
  | cons step steps ih =>
    rw [Search.bindBelow_cons, map_bind, descend, ← hi]
    refine .read [] (step.first_isLookup _) rfl ht.isTried ?_
    intro candidate ho
    refine settle_fills ht ?_ candidate ?_ rfl
    · intro candidate hc
      have hcandidate : Search.IsSound anchor (⟨step, candidate⟩ :: trail) := ⟨hc, ht⟩
      exact ih hcandidate (by simp)
    · rintro node rfl
      exact Step.mem_candidates_of_first ho

section OfTrail

variable (first : Step) (anchor : Position) (trail : List Bound)

theorem ofTrail_cons (last : Bound) :
    ofTrail first anchor (last :: trail) = ofTrail first anchor trail ++ [last.slot] := by
  simp [ofTrail]

theorem length_ofTrail : (ofTrail first anchor trail).length = trail.length + 1 := by
  simp [ofTrail]

/-- The last slot is bound to the end of the trail. -/
theorem getLast?_ofTrail :
    (ofTrail first anchor trail).getLast?.bind Slot.node = some (Search.endOf anchor trail) := by
  cases trail with
  | nil => rfl
  | cons last trail =>
    rw [ofTrail_cons, List.getLast?_concat]
    rfl

/-- A bound slot moves on, or else the one before it does. -/
theorem run_moveOn (last : Bound) (below : List Step) :
    (moveOn (trail.length + 1)).run (ofTrail first anchor (last :: trail) ++ unbound below) =
      (Overwriting.read (last.step.next (Search.endOf anchor trail) last.position).plain >>=
        fun candidate =>
          settle last.step (trail.length + 1) (Search.endOf anchor trail)
            (fun node => descend (trail.length + 1) node below) candidate >>= fun isFound =>
              if isFound then pure true else moveOn trail.length).run
        (ofTrail first anchor (last :: trail) ++ unbound below) := by
  have hlength := length_ofTrail first anchor trail
  rw [ofTrail_cons, List.append_assoc, List.singleton_append]
  have hcontext : (ofTrail first anchor trail ++ last.slot :: unbound below)[trail.length]?.bind
      Slot.node = some (Search.endOf anchor trail) := by
    rw [List.getElem?_append_left (by omega), ← getLast?_ofTrail first anchor trail,
      List.getLast?_eq_getElem?, hlength, Nat.add_sub_cancel]
  have hlast : (ofTrail first anchor trail ++ last.slot :: unbound below)[trail.length + 1]? =
      some ⟨last.step, some last.position⟩ := by
    rw [← hlength, List.getElem?_append_right (Nat.le_refl _), Nat.sub_self]
    rfl
  have hbelow : ((ofTrail first anchor trail ++ last.slot :: unbound below).drop
      (trail.length + 2)).map Slot.step = below := by
    rw [show trail.length + 2 = _ + 1 from congrArg (· + 1) hlength.symm, ← List.drop_drop,
      List.drop_left]
    exact map_step_unbound below
  rw [moveOn, Overwriting.run_bind_of_pure _ (Overwriting.run_get _)]
  simp only [hcontext, hlast, hbelow]

end OfTrail

/-- Slots move on as a search is resumed. By induction on the slots that may move. -/
theorem moveOn_fills (first : Step) (below : List Step) (ht : Search.IsTried anchor trail) :
    Fills anchor [⟨first, some anchor⟩] ((trail.map Bound.step).reverse ++ below) []
      (Search.resume anchor trail below)
      ((moveOn trail.length).run (ofTrail first anchor trail ++ unbound below)) := by
  induction trail generalizing below with
  | nil => exact .nothing
  | cons last trail ih =>
    have hsteps : ((last :: trail).map Bound.step).reverse ++ below =
        (trail.map Bound.step).reverse ++ last.step :: below := by simp
    rw [List.length_cons, run_moveOn, Search.resume_cons, map_bind, bind_assoc, hsteps]
    refine .read (last :: trail) (Step.next_isLookup ht.1) hsteps (by rwa [List.append_nil]) ?_
    intro candidate ho
    refine .orElse trail ?_ (ih (last.step :: below) ht.2.isTried)
    -- the slots behind the one that moves are those of the steps below
    have hslots : [⟨first, some anchor⟩] ++ (((last :: trail).map Bound.slot).reverse ++
        unbound below) = ofTrail first anchor trail ++ last.slot :: unbound below := by
      simp [ofTrail]
    rw [hslots, List.append_nil, ← length_ofTrail first anchor trail]
    refine settle_fills ht.2 ?_ candidate ?_ rfl
    · intro candidate hc
      have hcandidate : Search.IsSound anchor (⟨last.step, candidate⟩ :: trail) := ⟨hc, ht.2⟩
      exact descend_fills below hcandidate (by simp [ofTrail])
    · rintro node rfl
      exact Step.mem_candidates_of_next ht.1 ho

/-- The slots behind an anchor that fill up are those of the trail that is found. -/
theorem Fills.eq_ofTrail {first : Step} {result : Reading Bool × List Slot}
    (h : Fills anchor [⟨first, some anchor⟩] steps [] found result)
    (hf : found.outcome = .ok (some trail)) : result.2 = ofTrail first anchor trail := by
  obtain ⟨-, hslots⟩ := h
  generalize result.2 = left at hslots
  rw [hf] at hslots
  cases hslots with
  | found bounds _ _ =>
    rw [List.append_nil]
    rfl

end Slots

namespace Iterator

variable {anchor : Position} {first : Step} {steps : List Step} {trail : List Bound}

/-- An iterator is started as a cursor is. -/
theorem start_eq {path : Path} (h : path.steps = first :: steps) :
    start path = Cursor.iterator first <$> Cursor.start path := by
  obtain ⟨anchor, _⟩ := path
  subst h
  cases anchor with
  | none => rfl
  | some anchor =>
    have hs : Search.IsSound anchor [] := trivial
    have hf : Slots.Fills anchor [⟨first, some anchor⟩] steps []
        (Search.bindBelow [] anchor steps)
        ((Slots.descend 0 anchor steps).run
          (⟨first, some anchor⟩ :: steps.map fun step => { step })) :=
      Slots.descend_fills steps hs rfl
    simp only [start, Cursor.start, hf.reading, map_eq_pure_bind, bind_assoc, pure_bind]
    apply Reading.bind_congr_of_ok
    intro found hb
    cases found with
    | none => rfl
    | some trail => rw [hf.eq_ofTrail hb]; rfl

/-- Where an iterator rests after it was moved on, by what the search for the steps finds. -/
inductive Lands (first : Step) (anchor : Position) (steps : List Step) :
    Except Error (Option (List Bound)) → Iterator → Prop where
  /-- there's no further match -/
  | exhausted : Lands first anchor steps (.ok none) {}
  /-- the next match is at the end of the trail -/
  | resting (trail : List Bound) :
    (trail.map Bound.step).reverse = steps → Search.IsSound anchor trail →
    Lands first anchor steps (.ok (some trail)) { slots := Slots.ofTrail first anchor trail }
  /-- a lookup is refused, and the slots are bound up to there -/
  | refused (refusal : Refusal) (trail : List Bound) (rest : List Step) :
    (trail.map Bound.step).reverse ++ rest = steps → Search.IsTried anchor trail →
    Lands first anchor steps (.error (.lookup refusal))
      { slots := Slots.ofTrail first anchor trail ++ Slots.unbound rest }

/-- An iterator moves on as a search is resumed. -/
theorem advance_lands (first : Step) (pending : Bool) (ht : Search.IsTried anchor trail) :
    let moved := advance.run ((Cursor.resting anchor trail pending).iterator first)
    moved.1 = (fun _ => ()) <$> Search.resume anchor trail [] ∧
      Lands first anchor (trail.map Bound.step).reverse (Search.resume anchor trail []).outcome
        moved.2 := by
  have hf := Slots.moveOn_fills first [] ht
  rw [List.append_nil, show Slots.unbound [] = [] from rfl, List.append_nil] at hf
  simp only [advance, Cursor.iterator, Slots.length_ofTrail, Nat.add_sub_cancel]
  refine ⟨?_, ?_⟩
  · simp only [hf.reading, map_eq_pure_bind, bind_assoc, pure_bind]
  · rw [hf.reading, Reading.outcome_map]
    have hslots := hf.slots
    generalize ((Slots.moveOn trail.length).run _).2 = left at hslots ⊢
    generalize (Search.resume anchor trail []).outcome = outcome at hslots
    cases hslots with
    | nothing => exact .exhausted
    | found bounds hs ht =>
      rw [List.append_nil] at ht ⊢
      exact .resting bounds hs ht
    | refused refusal bounds rest hs ht =>
      rw [List.append_nil] at ht
      exact .refused refusal bounds rest hs ht

/-- An iterator moves on as a cursor does. -/
theorem advance_eq (first : Step) {cursor : Cursor} (hs : cursor.IsSound) :
    (advance.run (cursor.iterator first)).1 = (fun _ => ()) <$> cursor.advance ∧
      ∀ left, cursor.advance.outcome = .ok left →
        (advance.run (cursor.iterator first)).2 = left.iterator first := by
  cases cursor with
  | exhausted =>
    refine ⟨rfl, ?_⟩
    intro left hl
    cases hl
    rfl
  | resting anchor trail pending =>
    obtain ⟨hr, hl⟩ := advance_lands first pending (Search.IsSound.isTried hs)
    refine ⟨?_, ?_⟩
    · rw [hr]
      simp only [Cursor.advance, map_eq_pure_bind, bind_assoc, pure_bind]
    · intro left ho
      obtain ⟨found, hfound, ho⟩ := Reading.outcome_bind_eq_ok.mp ho
      cases ho
      generalize (advance.run _).2 = moved at hl
      rw [hfound] at hl
      cases hl with
      | exhausted => rfl
      | resting trail _ _ => rfl

@[simp] theorem current?_iterator (first : Step) (cursor : Cursor) :
    (cursor.iterator first).current? = cursor.current? := by
  cases cursor with
  | exhausted => rfl
  | resting anchor trail pending => exact Slots.getLast?_ofTrail first anchor trail

@[simp] theorem isExhausted_iterator (first : Step) (cursor : Cursor) :
    (cursor.iterator first).isExhausted = cursor.isExhausted := by
  cases cursor <;> rfl

/-- The next match is the one where the iterator rests then, after a move unless it's pending. -/
theorem run_next (iterator : Iterator) :
    next.run iterator =
      if iterator.pending then (pure iterator.current?, { iterator with pending := false })
      else ((fun _ => (advance.run iterator).2.current?) <$> (advance.run iterator).1,
        (advance.run iterator).2) := by
  rw [next, Overwriting.run_bind_of_pure _ (Overwriting.run_get _)]
  dsimp only
  split
  · rw [Overwriting.run_bind_of_pure _ (Overwriting.run_modify _ _)]
    rfl
  · refine Prod.ext ?_ ?_
    · rw [Overwriting.fst_bind, map_eq_pure_bind]
      rfl
    · cases ha : (advance.run iterator).1.outcome with
      | error error => rw [Overwriting.snd_bind_of_error _ ha]
      | ok _ => rw [Overwriting.snd_bind_of_ok _ ha]; rfl

/-- A cursor that moves on for a pull, and an iterator that does so for the next match. -/
theorem next_eq_of_advance {cursor : Cursor} (hs : cursor.IsSound)
    (hp : (cursor.iterator first).pending = false)
    (hc : cursor.pull = do let left ← cursor.advance; return (left.current?, left)) :
    (next.run (cursor.iterator first)).1 = Prod.fst <$> cursor.pull ∧
      ∀ found left, cursor.pull.outcome = .ok (found, left) →
        (next.run (cursor.iterator first)).2 = left.iterator first := by
  obtain ⟨ha, hl⟩ := advance_eq first hs
  rw [run_next, hp, hc]
  simp only [Bool.false_eq_true, if_false]
  refine ⟨?_, ?_⟩
  · simp only [ha, map_eq_pure_bind, bind_assoc, pure_bind]
    apply Reading.bind_congr_of_ok
    intro left ho
    rw [hl left ho, current?_iterator]
  · intro found left ho
    obtain ⟨left, hv, ho⟩ := Reading.outcome_bind_eq_ok.mp ho
    cases ho
    exact hl left hv

/-- An iterator gives the next match as a cursor does. -/
theorem next_eq (first : Step) {cursor : Cursor} (hs : cursor.IsSound) :
    (next.run (cursor.iterator first)).1 = Prod.fst <$> cursor.pull ∧
      ∀ found left, cursor.pull.outcome = .ok (found, left) →
        (next.run (cursor.iterator first)).2 = left.iterator first := by
  cases cursor with
  | exhausted => exact next_eq_of_advance hs rfl rfl
  | resting anchor trail pending =>
    cases pending with
    | false => exact next_eq_of_advance hs rfl rfl
    | true =>
      rw [run_next]
      refine ⟨?_, ?_⟩
      · change pure (Cursor.iterator first (.resting anchor trail true)).current? = _
        rw [current?_iterator]
        rfl
      · intro found left ho
        cases ho
        rfl

end Iterator
end MarkupPath
