import Mathlib.Data.List.Basic
import MarkupPath.Proofs.Path.Recognition
import MarkupPath.Proofs.Tree.Naming

/-!
# Names in node tests

The names that elements have in markup can stand in a node test: their characters, and the colon
between a qualifier and a local part, are all letters of a node test, and none of them starts with a
dot (`Name.IsPlain.isName`).

By itself such a name is compiled wherever it stands (`Step.compile_name`). Behind a marker it's
only compiled if it holds no dot; otherwise the first one is refused (`Step.compile_marked`).
-/

namespace MarkupPath

open Markup StepReader Progress

/-! ## The letters of plain names -/

theorem isNameLetter_of_isNameCharacter {c : Char} (h : isNameCharacter c = true) :
    isNameLetter c = true := by
  by_contra hletter
  have hc : c = '*' ∨ c = '/' ∨ isDelimiter c = true := by
    simp only [isNameLetter, Bool.and_eq_true, Bool.not_eq_true', bne_iff_ne] at hletter
    grind
  simp only [isDelimiter, Bool.or_eq_true, beq_iff_eq] at hc
  rcases hc with rfl | rfl | ((((rfl | rfl) | rfl) | rfl) | rfl) | rfl <;>
    exact absurd h (by decide)

theorem StepReader.IsName.of_isPlainName {word : List Char} (h : isPlainName word = true) :
    IsName word := by
  refine ⟨?_, fun c hc => isNameLetter_of_isNameCharacter (isNameCharacter_of_mem h hc), ?_⟩
  · rintro rfl
    cases h
  · cases word with
    | nil => simp
    | cons first rest =>
      simp only [isPlainName, Bool.and_eq_true] at h
      intro hdot
      obtain rfl := Option.some.inj hdot
      exact absurd h.1 (by decide)

/-- A name with a qualifier stays one in a node test, as the colon is a letter there. -/
theorem StepReader.IsName.append {front back : List Char} (hf : IsName front)
    (hb : ∀ c ∈ back, isNameLetter c = true) : IsName (front ++ back) := by
  refine ⟨by simp [hf.nonempty], fun c hc => ?_, ?_⟩
  · rcases List.mem_append.mp hc with hc | hc
    · exact hf.letters c hc
    · exact hb c hc
  · have hstart := hf.start
    cases front with
    | nil => exact absurd rfl hf.nonempty
    | cons c front => exact hstart

/-- A name is one in a node test if its parts are. -/
theorem Name.isName_written {name : Name} (hl : IsName name.localPart.toList)
    (hq : ∀ qualifier, name.qualifier = some qualifier → IsName qualifier.toList) :
    IsName name.written.toList := by
  cases he : name.qualifier with
  | none =>
    rw [Name.written, he]
    exact hl
  | some qualifier =>
    rw [Name.written, he]
    simp only [String.toList_append]
    refine ((hq qualifier he).append ?_).append hl.letters
    -- between the parts stands a colon
    intro c hc
    obtain rfl := List.mem_singleton.mp hc
    decide

theorem Name.IsPlain.isName {name : Name} (h : name.IsPlain) : IsName name.written.toList :=
  Name.isName_written (.of_isPlainName h.localPart) fun qualifier hq =>
    .of_isPlainName (h.qualifier qualifier hq)

/-! ## Names behind markers -/

section Markers

variable {offset position : Int} {marker front text : List Char} {axis : Axis} {name : String}
variable {progress between : Progress} {problem : StepProblem} {c : Char}

theorem StepReader.Progress.run_append_of_error (hf : progress.run position front = .ok between)
    (hc : between.take (position + front.length) c = .error problem) :
    progress.run position (front ++ c :: text) = .error (position + front.length, problem) := by
  rw [run_append, hf]
  change between.run _ (c :: text) = _
  rw [run, hc]

namespace Step

/-- A name by itself asks for children, wherever it stands. -/
theorem compile_name (hn : IsName name.toList) (offset : Int) :
    compile name.toList offset = .ok { name } := by
  have hslash : '.' ∉ name.toList.dropWhile (· != '/') := by
    rw [List.dropWhile_eq_nil_iff.mpr]
    · exact List.not_mem_nil
    · intro c hc
      have hletter := hn.letters c hc
      simp only [isNameLetter, Bool.and_eq_true] at hletter
      exact hletter.1.2
  have htest : NodeTest offset name.toList { name } := by
    have h : NodeTest offset name.toList { name := String.ofList name.toList } := .named hn
    rwa [String.ofList_toList] at h
  exact compile_eq_ok.mpr ⟨_, htest.runs hslash, by simp [finish, tested]⟩

/-- Behind a marker a name is compiled if it holds no dot. Otherwise its first dot is refused. -/
theorem compile_marked (hm : Marker offset marker axis) (hn : IsName name.toList) :
    compile (marker ++ name.toList) offset =
      if '.' ∈ name.toList then
        .error ⟨String.ofList (marker ++ name.toList),
          offset + marker.length + name.toList.idxOf '.', .unexpected '.'⟩
      else .ok { name, axis } := by
  have hletters {read : List Char} (hr : read <+: name.toList) (hd : '.' ∉ read) :
      Progress.run {} offset (marker ++ read) = .ok { name := read, axis } :=
    run_append_eq_ok.mpr ⟨_, hm.run, run_letters rfl ⟨rfl, rfl⟩ hm.axis_ne.1 hm.axis_ne.2
      (fun c hc => hn.letters c (hr.subset hc)) fun h => absurd h hd⟩
  split
  · -- the letters in front of the first dot are read, as they would be without it
    rename_i hdot
    obtain ⟨front, back, hsplit, hfront⟩ := List.eq_append_cons_of_mem hdot
    have hrun := hletters (hsplit ▸ List.prefix_append front ('.' :: back)) hfront
    have htake (position : Int) : Progress.take { name := front, axis } position '.' =
        .error (.unexpected '.') := by
      rcases hm.axis_eq with rfl | rfl <;> rfl
    have hindex : name.toList.idxOf '.' = front.length := by
      rw [hsplit, List.idxOf_append_of_notMem hfront, List.idxOf_cons_self, Nat.add_zero]
    have hfail : Progress.run {} offset (marker ++ front ++ '.' :: back) = _ :=
      run_append_of_error hrun (htake _)
    rw [List.append_assoc, ← hsplit, List.length_append, Int.natCast_add, ← Int.add_assoc] at hfail
    rw [compile, hfail, hindex]
  · rename_i hdot
    exact compile_eq_ok.mpr ⟨_, hletters (List.prefix_refl _) hdot, by simp [finish]⟩

end Step

end Markers

end MarkupPath
