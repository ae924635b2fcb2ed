import Mathlib.Data.List.Basic
import MarkupPath.Proofs.Path.Enclosure

/-!
# The parts of a path expression

What a path expression is divided into, without a scan (`IsDivision`): parts that make up the
expression when they are joined with slashes, each of which reaches to the next slash that stands
outside quotes and brackets and has more than slashes in front of it. Main statement
(`splitPath_divides`): the parts that a scan collects are such a division and the only one. So all
but the last hold more than slashes, and those of their slashes that aren't enclosed come first.

What has been scanned matters for the rest of an expression only by the part that is being
collected (`Collects`).
-/

namespace MarkupPath

namespace Split

/-- The text in front of a part, given the parts that come before it. -/
def inFront (parts : List Part) : List Char := parts.flatMap fun part => part.text ++ ['/']

/-- The text behind a part, given the parts that come after it. -/
def behind (parts : List Part) : List Char := parts.flatMap fun part => '/' :: part.text

end Split

/-- Where a part ends. -/
def Part.stop (part : Part) : Nat := part.offset + part.text.length

open Split

/-- A division of an expression into parts. -/
structure IsDivision (text : List Char) (parts : List Part) : Prop where
  /-- there is at least one part -/
  nonempty : parts ≠ []
  /-- joined with slashes, the parts are the expression -/
  joined : ['/'].intercalate (parts.map Part.text) = text
  /-- each part stands at its offset, behind those before it -/
  placed : ∀ before part after, parts = before ++ part :: after →
    part.offset = (inFront before).length ∧ text = inFront before ++ part.text ++ behind after
  /-- a slash from the start of a part on is where it ends, exactly if the slash isn't enclosed and
  something else has been collected -/
  separates : ∀ front back, text = front ++ '/' :: back → ∀ part ∈ parts,
    part.offset ≤ front.length → front.length ≤ part.stop →
      (front.length = part.stop ↔ IsClosed front ∧ ∃ c ∈ front.drop part.offset, c ≠ '/')

namespace Split

variable {position offset : Nat} {nesting : Nesting} {text front back collected : List Char}
  {done before after : List Part} {part last : Part}

theorem length_inFront_cons (part : Part) (others : List Part) :
    (inFront (part :: others)).length = part.text.length + 1 + (inFront others).length := by
  simp only [inFront, List.flatMap_cons, List.length_append, List.length_singleton]

theorem isFilled_iff : isFilled collected = true ↔ ∃ c ∈ collected, c ≠ '/' := by
  simp [isFilled]

/-- What has been collected comes first in the first part. -/
theorem exists_first (position offset : Nat) (nesting : Nesting) (collected text : List Char) :
    ∃ first others, parts position offset nesting collected text =
      ⟨offset, collected ++ first⟩ :: others := by
  obtain ⟨first, others, -, -, h⟩ := exists_parts position nesting collected text
  exact ⟨first, _, h 0 offset collected rfl⟩

/-- Joined with slashes, the first part and those after it. -/
theorem joined_cons (part : Part) (after : List Part) :
    ['/'].intercalate ((part :: after).map Part.text) = part.text ++ behind after := by
  induction after generalizing part with
  | nil => simp [List.intercalate, behind]
  | cons next after ih =>
    rw [List.map_cons, List.map_cons, List.intercalate_cons_cons, ← List.map_cons, ih]
    simp [behind]

/-! ## The places of the parts -/

/-- The parts that are scanned make up the text, with what has been collected before it. By
induction on the text. -/
theorem parts_placed (hp : position = offset + collected.length)
    (h : parts position offset nesting collected text = before ++ part :: after) :
    part.offset = offset + (inFront before).length ∧
      collected ++ text = inFront before ++ part.text ++ behind after := by
  induction text generalizing position offset nesting collected before part after with
  | nil =>
    obtain ⟨rfl, hlast⟩ | ⟨rest, rfl, hrest⟩ := List.append_eq_cons_iff.mp h.symm
    · obtain ⟨rfl, rfl⟩ := List.cons.inj hlast
      simp [inFront, behind]
    · simp at hrest
  | cons c text ih =>
    rw [parts_cons] at h
    split at h
    · rename_i hs
      simp only [separates_eq, Bool.and_eq_true, beq_iff_eq] at hs
      obtain ⟨⟨rfl, -⟩, -⟩ := hs
      have hplace : position + 1 = position + 1 + ([] : List Char).length := rfl
      obtain ⟨rfl, hlast⟩ | ⟨rest, rfl, hrest⟩ := List.append_eq_cons_iff.mp h.symm
      · -- the part is complete, and the others make up what follows the slash
        obtain ⟨rfl, rfl⟩ := List.cons.inj hlast
        obtain ⟨first, others, hn⟩ := exists_first (position + 1) (position + 1) nesting [] text
        have hfirst : parts (position + 1) (position + 1) nesting [] text =
            [] ++ ⟨position + 1, [] ++ first⟩ :: others := hn
        obtain ⟨-, htext⟩ := ih hplace hfirst
        rw [List.nil_append] at htext
        rw [hn, htext]
        simp [inFront, behind]
      · obtain ⟨ho, htext⟩ := ih hplace hrest
        rw [List.nil_append] at htext
        rw [htext, ho, hp]
        constructor
        · rw [length_inFront_cons, Nat.add_assoc, Nat.add_assoc, Nat.add_assoc]
        · simp [inFront]
    · have hplace : position + 1 = offset + (collected ++ [c]).length := by
        rw [hp, List.length_append, List.length_singleton, Nat.add_assoc]
      have hrest := ih hplace h
      rwa [List.append_assoc, List.singleton_append] at hrest

/-- Each part of an expression stands at its offset. -/
theorem splitPath_placed (h : splitPath text = before ++ part :: after) :
    part.offset = (inFront before).length ∧ text = inFront before ++ part.text ++ behind after := by
  have hstart : 0 = 0 + ([] : List Char).length := rfl
  have hplaced := parts_placed hstart h
  rwa [Nat.zero_add, List.nil_append] at hplaced

/-- A part ends in front of the slash that the next ones stand behind. -/
theorem stop_lt_offset {others : List Part} {next : Part} (h : splitPath text = done ++ others)
    (hp : part ∈ done) (hn : next ∈ others) : part.stop < next.offset := by
  obtain ⟨before, mid, rfl⟩ := List.append_of_mem hp
  obtain ⟨more, after, rfl⟩ := List.append_of_mem hn
  rw [Part.stop, (splitPath_placed (h.trans (List.append_assoc _ _ _))).1,
    (splitPath_placed (h.trans (List.append_assoc _ _ _).symm)).1]
  simp only [inFront, List.flatMap_append, List.flatMap_cons, List.length_append,
    List.length_singleton]
  omega

/-! ## Scanning on -/

/-- What a scan has made of the front of an expression: parts that are complete, and one that is
being collected. -/
structure Collects (front : List Char) (done : List Part) (last : Part) : Prop where
  /-- the scan goes on with the part that is being collected -/
  goesOn : ∀ back, splitPath (front ++ back) =
    done ++ parts front.length last.offset (nestingBehind front) last.text back
  /-- a part that is complete holds more than slashes, and is closed -/
  complete : ∀ part ∈ done, isFilled part.text = true ∧ (nestingBehind part.text).isOpen = true
  /-- what is open was opened in the part that is being collected -/
  nesting : nestingBehind last.text = nestingBehind front

theorem nestingBehind_concat (front : List Char) (c : Char) :
    nestingBehind (front ++ [c]) = (nestingBehind front).after c := by
  rw [nestingBehind, List.foldl_append]
  rfl

/-- By induction on the front from its end, as one character after the other is scanned. -/
theorem exists_collects (front : List Char) : ∃ done last, Collects front done last := by
  induction front using List.reverseRecOn with
  | nil => exact ⟨[], ⟨0, []⟩, fun back => rfl, by simp, rfl⟩
  | append_singleton front c ih =>
    obtain ⟨done, last, hgo, hcomplete, hnesting⟩ := ih
    have hscan (back : List Char) := hgo (c :: back)
    simp only [parts_cons] at hscan
    by_cases hs : separates (nestingBehind front) last.text c = true
    · -- the slash ends the part, and another one begins
      have hsep := hs
      simp only [separates_eq, Bool.and_eq_true, beq_iff_eq] at hsep
      obtain ⟨⟨rfl, hopen⟩, hfilled⟩ := hsep
      refine ⟨done ++ [last], ⟨front.length + 1, []⟩, ?_, ?_, ?_⟩
      · intro back
        rw [List.append_assoc, List.singleton_append, hscan, if_pos hs, nestingBehind_concat,
          Nesting.after_slash hopen, List.length_append]
        simp
      · intro part hm
        rcases List.mem_append.mp hm with hm | hm
        · exact hcomplete part hm
        · obtain rfl := List.mem_singleton.mp hm
          exact ⟨hfilled, hnesting ▸ hopen⟩
      · rw [nestingBehind_concat, Nesting.after_slash hopen, Nesting.eq_of_isOpen hopen]
        rfl
    · refine ⟨done, ⟨last.offset, last.text ++ [c]⟩, ?_, hcomplete, ?_⟩
      · intro back
        rw [List.append_assoc, List.singleton_append, hscan, if_neg hs, nestingBehind_concat,
          List.length_append]
        rfl
      · rw [nestingBehind_concat, nestingBehind_concat, hnesting]

namespace Collects

theorem splitPath_eq (h : Collects front done last) : splitPath front = done ++ [last] := by
  have hend := h.goesOn []
  rwa [List.append_nil] at hend

/-- All parts but the last are complete. -/
theorem mem_done (h : Collects text done last) (hs : splitPath text = before ++ part :: after)
    (ha : after ≠ []) : part ∈ done := by
  have hparts := h.splitPath_eq.symm.trans hs
  rw [← List.dropLast_append_getLast (List.cons_ne_nil part after), ← List.append_assoc] at hparts
  obtain ⟨rfl, -⟩ := List.append_inj' hparts rfl
  rw [List.dropLast_cons_of_ne_nil ha]
  exact List.mem_append_right _ List.mem_cons_self

/-- The part that is being collected stands at the end of what has been scanned. -/
theorem placed (h : Collects front done last) :
    last.offset = (inFront done).length ∧ front = inFront done ++ last.text := by
  obtain ⟨ho, ht⟩ := splitPath_placed h.splitPath_eq
  exact ⟨ho, ht.trans (List.append_nil _)⟩

theorem drop_eq (h : Collects front done last) : front.drop last.offset = last.text := by
  rw [h.placed.1, h.placed.2, List.drop_left]

theorem stop_eq (h : Collects front done last) : last.stop = front.length := by
  rw [Part.stop, h.placed.1, h.placed.2, List.length_append]

/-- Whether the part that is being collected ends at a slash. -/
theorem separates_iff (h : Collects front done last) :
    separates (nestingBehind front) last.text '/' = true ↔
      IsClosed front ∧ ∃ c ∈ front.drop last.offset, c ≠ '/' := by
  rw [separates_eq, h.drop_eq, ← isFilled_iff, ← isOpen_nestingBehind_iff]
  simp

/-- A slash ends the part that was being collected or belongs to it. -/
theorem exists_covering (h : Collects front done last) (back : List Char) :
    ∃ part others, splitPath (front ++ '/' :: back) = done ++ part :: others ∧
      part.offset = last.offset ∧ front.length ≤ part.stop ∧
        (front.length = part.stop ↔ IsClosed front ∧ ∃ c ∈ front.drop last.offset, c ≠ '/') := by
  have hscan := h.goesOn ('/' :: back)
  have hstop := h.stop_eq
  rw [parts_cons] at hscan
  rw [← h.separates_iff]
  split at hscan
  · rename_i hs
    exact ⟨last, _, hscan, rfl, hstop.ge, iff_of_true hstop.symm hs⟩
  · rename_i hs
    obtain ⟨first, others, hrest⟩ := exists_first (front.length + 1) last.offset
      ((nestingBehind front).after '/') (last.text ++ ['/']) back
    have hlt : front.length < (⟨last.offset, last.text ++ ['/'] ++ first⟩ : Part).stop := by
      simp only [Part.stop, List.length_append, List.length_singleton] at hstop ⊢
      omega
    rw [hrest] at hscan
    exact ⟨_, others, hscan, rfl, hlt.le, iff_of_false hlt.ne hs⟩

end Collects

/-- By the part that is being collected when the scan comes to the slash: those before it end
further to the front, those behind it start further to the back. -/
theorem splitPath_separates (ht : text = front ++ '/' :: back) (hm : part ∈ splitPath text)
    (ho : part.offset ≤ front.length) (hs : front.length ≤ part.stop) :
    front.length = part.stop ↔ IsClosed front ∧ ∃ c ∈ front.drop part.offset, c ≠ '/' := by
  obtain ⟨done, last, hc⟩ := exists_collects front
  obtain ⟨covering, others, hscan, hoffset, hle, hsep⟩ := hc.exists_covering back
  rw [← ht] at hscan
  rw [hscan] at hm
  rcases List.mem_append.mp hm with hm | hm
  · have hlt := stop_lt_offset hscan hm List.mem_cons_self
    have hstop := hc.stop_eq
    rw [Part.stop] at hstop
    omega
  · rcases List.mem_cons.mp hm with rfl | hm
    · rwa [hoffset]
    · have hlt := stop_lt_offset (hscan.trans (List.append_cons _ _ _))
        (List.mem_append_right done List.mem_cons_self) hm
      omega

end Split

/-! ## Divisions -/

namespace IsDivision

variable {text : List Char} {parts others before after after' : List Part} {part part' : Part}

/-- The parts of a scan are a division. -/
theorem of_splitPath (text : List Char) : IsDivision text (splitPath text) where
  nonempty := by
    obtain ⟨first, others, h⟩ := exists_first 0 0 {} [] text
    exact ne_of_eq_of_ne h (List.cons_ne_nil _ _)
  joined := by
    obtain ⟨first, others, h⟩ := exists_first 0 0 {} [] text
    have hsplit : splitPath text = [] ++ ⟨0, [] ++ first⟩ :: others := h
    obtain ⟨-, hplaced⟩ := splitPath_placed hsplit
    rw [splitPath, h, joined_cons, hplaced]
    rfl
  placed := fun _ _ _ => splitPath_placed
  separates := fun _ _ ht _ => splitPath_separates ht

/-- A part that another one follows ends at a slash. -/
theorem exists_slash (h : IsDivision text parts) (hs : parts = before ++ part :: after)
    (ha : after ≠ []) : ∃ back, text = (inFront before ++ part.text) ++ '/' :: back ∧
      (inFront before ++ part.text).length = part.stop := by
  obtain ⟨next, after, rfl⟩ := List.exists_cons_of_ne_nil ha
  obtain ⟨ho, ht⟩ := h.placed _ _ _ hs
  exact ⟨next.text ++ behind after, ht, by rw [Part.stop, ho, List.length_append]⟩

/-- Of two parts with the same ones before them, none ends earlier than the other. -/
theorem stop_le (h : IsDivision text parts) (h' : IsDivision text others)
    (hs : parts = before ++ part :: after) (hs' : others = before ++ part' :: after') :
    part'.stop ≤ part.stop := by
  obtain ⟨ho, ht⟩ := h.placed _ _ _ hs
  obtain ⟨ho', ht'⟩ := h'.placed _ _ _ hs'
  by_contra hlt
  by_cases ha : after = []
  · -- the one that ends earlier isn't the last one
    subst ha
    have hlength := congrArg List.length (ht.symm.trans ht')
    simp only [List.length_append, behind, List.flatMap_nil, List.length_nil] at hlength
    simp only [Part.stop] at hlt
    omega
  · obtain ⟨back, hback, hstop⟩ := h.exists_slash hs ha
    have hoffset : part.offset ≤ (inFront before ++ part.text).length := by simp [ho]
    have hends := (h.separates _ _ hback part (by simp [hs]) hoffset hstop.le).mp hstop
    rw [ho, ← ho'] at hends
    have hends' := (h'.separates _ _ hback part' (by simp [hs']) (by simp [ho'])
      (by omega)).mpr hends
    omega

/-- Two divisions with the same parts up to some place go on with the same one. -/
theorem part_eq (h : IsDivision text parts) (h' : IsDivision text others)
    (hs : parts = before ++ part :: after) (hs' : others = before ++ part' :: after') :
    part = part' ∧ behind after = behind after' := by
  have hstop := Nat.le_antisymm (h'.stop_le h hs' hs) (h.stop_le h' hs hs')
  obtain ⟨ho, ht⟩ := h.placed _ _ _ hs
  obtain ⟨ho', ht'⟩ := h'.placed _ _ _ hs'
  have hoffset := ho.trans ho'.symm
  have hlength : part.text.length = part'.text.length := by
    simp only [Part.stop] at hstop
    omega
  have htext := ht.symm.trans ht'
  rw [List.append_assoc, List.append_assoc, List.append_cancel_left_eq] at htext
  obtain ⟨htext, hbehind⟩ := List.append_inj htext hlength
  obtain ⟨offset, partText⟩ := part
  obtain ⟨offset', partText'⟩ := part'
  subst hoffset htext
  exact ⟨rfl, hbehind⟩

theorem eq_nil_of_behind (h : behind after = []) : after = [] := by
  cases after with
  | nil => rfl
  | cons part after => cases h

/-- There's one division only. By induction on what is left of it. -/
theorem eq (h : IsDivision text parts) (h' : IsDivision text others) : parts = others := by
  have hrest (after after' before : List Part) (part part' : Part)
      (hs : parts = before ++ part :: after) (hs' : others = before ++ part' :: after') :
      part :: after = part' :: after' := by
    induction after generalizing after' before part part' with
    | nil =>
      obtain ⟨rfl, hb⟩ := h.part_eq h' hs hs'
      rw [eq_nil_of_behind hb.symm]
    | cons next after ih =>
      obtain ⟨rfl, hb⟩ := h.part_eq h' hs hs'
      cases after' with
      | nil => cases eq_nil_of_behind hb
      | cons next' after' =>
        rw [ih after' (before ++ [part]) next next' (hs.trans (List.append_cons _ _ _))
          (hs'.trans (List.append_cons _ _ _))]
  obtain ⟨part, after, rfl⟩ := List.exists_cons_of_ne_nil h.nonempty
  obtain ⟨part', after', rfl⟩ := List.exists_cons_of_ne_nil h'.nonempty
  exact hrest after after' [] part part' rfl rfl

/-- All parts but the last hold more than slashes. -/
theorem filled (h : IsDivision text parts) (hs : parts = before ++ part :: after)
    (ha : after ≠ []) : ∃ c ∈ part.text, c ≠ '/' := by
  obtain ⟨back, hback, hstop⟩ := h.exists_slash hs ha
  obtain ⟨ho, -⟩ := h.placed _ _ _ hs
  have hends := (h.separates _ _ hback part (by simp [hs]) (by simp [ho]) hstop.le).mp hstop
  rw [ho, List.drop_left] at hends
  exact hends.2

/-- In front of a slash of a part that isn't enclosed there are slashes only. -/
theorem leading (h : IsDivision text parts) (hm : part ∈ parts) {front back : List Char}
    (ht : part.text = front ++ '/' :: back)
    (hc : IsClosed (text.take (part.offset + front.length))) : ∀ c ∈ front, c = '/' := by
  obtain ⟨before, after, hs⟩ := List.append_of_mem hm
  obtain ⟨ho, htext⟩ := h.placed _ _ _ hs
  rw [ht, List.append_assoc, List.append_assoc, List.cons_append, ← List.append_assoc] at htext
  have hlength : (inFront before ++ front).length = part.offset + front.length := by
    rw [List.length_append, ho]
  rw [← hlength, htext, List.take_left] at hc
  have hstop : (inFront before ++ front).length < part.stop := by
    simp only [Part.stop, hlength, ht, List.length_append, List.length_cons]
    omega
  by_contra hother
  push Not at hother
  have hends : ∃ c ∈ (inFront before ++ front).drop part.offset, c ≠ '/' := by
    rwa [ho, List.drop_left]
  exact hstop.ne ((h.separates _ _ htext part hm (by omega) hstop.le).mpr ⟨hc, hends⟩)

end IsDivision

/-- The parts of a path expression are its only division. All but the last hold more than slashes,
and in each of them the slashes that aren't enclosed come first. -/
theorem splitPath_divides (text : List Char) :
    (∀ parts, IsDivision text parts ↔ parts = splitPath text) ∧
    (∀ before part after, splitPath text = before ++ part :: after → after ≠ [] →
      ∃ c ∈ part.text, c ≠ '/') ∧
    (∀ part ∈ splitPath text, ∀ front back, part.text = front ++ '/' :: back →
      IsClosed (text.take (part.offset + front.length)) → ∀ c ∈ front, c = '/') := by
  have h := IsDivision.of_splitPath text
  refine ⟨fun parts => ⟨fun hp => hp.eq h, ?_⟩, ?_, ?_⟩
  · rintro rfl
    exact h
  · intro before part after hs ha
    exact h.filled hs ha
  · intro part hm front back ht hc
    exact h.leading hm ht hc

/-- The second slash of a pair opens a part, and those between quotes or brackets don't count. -/
theorem splitPath_divides_enclosed : IsDivision "//a[']/']//b".toList
    [⟨0, "//a[']/']".toList⟩, ⟨10, "/b".toList⟩] :=
  ((splitPath_divides _).1 _).mpr (by decide)

end MarkupPath
