import MarkupPath.Document.Basic
import MarkupPath.Proofs.Editing.Idempotence
import MarkupPath.Proofs.Path.Names
import MarkupPath.Proofs.Path.PathText

/-!
# Finding a root by its name

A path from a document is absolute, so its first name is put behind a slash and has to be that of
the root. A name with a dot isn't accepted there, though it is where it stands by itself: whoever
asks a document for its root by such a name is told that the path is malformed.

Main statement: `Name.IsPlain.behind_markers`, for names behind all markers and for the searches
from a document.
-/

namespace MarkupPath

open StepReader Split

variable {name : String}

/-! ## Absolute paths of one name -/

theorem head?_ne_slash (hn : IsName name.toList) : name.toList.head? ≠ some '/' := fun h =>
  absurd (hn.letters '/' (List.mem_of_head? h)) (by decide)

theorem toList_absolutePath {expression : String} (h : expression.toList.head? ≠ some '/') :
    (absolutePath expression).toList = '/' :: expression.toList := by
  rw [absolutePath, if_neg h, String.toList_append]
  rfl

theorem isAbsolute_absolutePath {expression : String} (h : expression.toList.head? ≠ some '/') :
    isAbsolute (absolutePath expression) = true :=
  isAbsolute_iff.mpr ⟨_, toList_absolutePath h, h⟩

/-- A slash and a text without one are a single part. -/
theorem splitPath_slash {text : List Char} (h : '/' ∉ text) :
    splitPath ('/' :: text) = [⟨0, '/' :: text⟩] := by
  have hslash : ∀ c ∈ ['/'], c = '/' := by simp
  have hsplit : splitPath (['/'] ++ (text ++ [])) = _ := parts_of_slashes hslash rfl
  rw [parts_of_keeps (keeps_of_notMem h), List.append_nil] at hsplit
  exact hsplit

/-- A name behind the slash that anchors a path at the root is refused if it holds a dot. -/
theorem compileSteps_absolutePath (hn : IsName name.toList) :
    compileSteps (absolutePath name) =
      if '.' ∈ name.toList then
        .error ⟨absolutePath name, 1 + name.toList.idxOf '.', .unexpected '.'⟩
      else .ok [{ name, axis := .root }] := by
  have hslash : '/' ∉ name.toList := fun h => absurd (hn.letters '/' h) (by decide)
  have htext := toList_absolutePath (head?_ne_slash hn)
  have hofList : String.ofList ('/' :: name.toList) = absolutePath name := by
    rw [← htext, String.ofList_toList]
  have hcompile := Step.compile_marked .root hn
  rw [List.singleton_append, hofList] at hcompile
  rw [compileSteps, htext, splitPath_slash hslash, compileParts]
  change (Step.compile ('/' :: name.toList) 0).bind _ = _
  rw [hcompile]
  split <;> rfl

/-! ## Searches for the root -/

namespace Path

variable {origin : Origin} {expression : String} {mode : EmptyPath}

theorem outcome_compile_of_refusal {refusal : Refusal}
    (hr : origin.position.refusal? = some refusal) :
    (compile (some origin) expression mode).outcome = .error (.lookup refusal) := by
  simp only [compile, Position.tellName, hr]
  rfl

theorem outcome_compile_of_malformed {step : MalformedStep} (hr : origin.position.refusal? = none)
    (hn : expression.toList ≠ []) (hc : compileSteps expression = .error step) :
    (compile (some origin) expression mode).outcome = .error (.malformed step) := by
  have he : expression.isEmpty = false := by simpa [Bool.eq_false_iff] using hn
  simp only [compile, Position.tellName, hr, he, hc, pure_bind]
  rfl

/-- An absolute path is anchored as its first step is, or fails as that. -/
theorem outcome_compile_of_absolute {step : Step} {steps : List Step}
    (hr : origin.position.refusal? = none) (ha : isAbsolute expression = true)
    (hc : compileSteps expression = .ok (step :: steps)) :
    (compile (some origin) expression mode).outcome =
      (origin.anchor step).outcome.map (⟨·, step :: steps⟩) := by
  have he : expression.isEmpty = false := by
    obtain ⟨rest, hl, -⟩ := isAbsolute_iff.mp ha
    simp [Bool.eq_false_iff, hl, ← String.toList_eq_nil_iff]
  simp only [compile, Position.tellName, hr, he, hc, ha, pure_bind]
  exact Reading.outcome_bind _ _

end Path

/-- A search for the root of a tree by a name comes to rest there, if that is the root's name. -/
theorem outcome_search_root {origin : Origin} {top : Position} (hn : IsName name.toList)
    (hr : origin.position.refusal? = none) (ht : origin.root = some top) (mode : EmptyPath) :
    (search (some origin) (absolutePath name) mode).outcome.map
        (fun cursor => cursor.current?.map Position.id) =
      if '.' ∈ name.toList then
        .error (.malformed ⟨absolutePath name, 1 + name.toList.idxOf '.', .unexpected '.'⟩)
      else
        match top.refusal? with
        | some refusal => .error (.lookup refusal)
        | none =>
          if top.name = name then .ok (some top.id) else .error (.rootMismatch name top.name) := by
  have hhead := head?_ne_slash hn
  have hc := compileSteps_absolutePath hn
  have hsearch : (search (some origin) (absolutePath name) mode).outcome =
      (Path.compile (some origin) (absolutePath name) mode).outcome >>= fun path =>
        (Cursor.start path).outcome := Reading.outcome_bind _ _
  rw [hsearch]
  split
  · -- the path isn't compiled, so nothing is asked for
    rename_i hdot
    rw [if_pos hdot] at hc
    have hne : (absolutePath name).toList ≠ [] := by simp [toList_absolutePath hhead]
    rw [Path.outcome_compile_of_malformed hr hne hc]
    rfl
  · rename_i hdot
    rw [if_neg hdot] at hc
    rw [Path.outcome_compile_of_absolute hr (isAbsolute_absolutePath hhead) hc,
      Origin.outcome_anchor, ht]
    simp only [reduceCtorEq, if_false]
    cases top.refusal? with
    | some refusal => rfl
    | none =>
      have hne : name.isEmpty = false := by simpa [Bool.eq_false_iff] using hn.nonempty
      have hmatch : Step.matchesName { name, axis := .root } top.name = (top.name == name) := by
        simp [Step.matchesName, hne]
      simp only [hmatch, beq_iff_eq]
      split <;> rfl

/-- Names are accepted alike wherever they stand by themselves, but behind a marker only if they
hold no dot. So whoever asks a document for what has the name of its root gets the root of the tree
that it belongs to, if that has the name and it holds no dot. -/
theorem Name.IsPlain.behind_markers {name : Name} (hn : name.IsPlain) :
    (∀ offset, Step.compile name.written.toList offset = .ok { name := name.written }) ∧
    (∀ offset marker axis, Marker offset marker axis →
      Step.compile (marker ++ name.written.toList) offset =
        if '.' ∈ name.written.toList then
          .error ⟨String.ofList (marker ++ name.written.toList),
            offset + marker.length + name.written.toList.idxOf '.', .unexpected '.'⟩
        else .ok { name := name.written, axis }) ∧
    (∀ (document : Document) (workspace : Workspace) (root top : Position) (mode : EmptyPath),
      workspace.KnowsRoots → document.root = some root.id →
      workspace.forest.position? root.id = some root → root.refusal? = none →
      workspace.forest.rootOf? root.id = some top.id →
      workspace.forest.position? top.id = some top →
      ((Editing.findFirst document.root (absolutePath name.written) mode).run workspace).1 =
        if '.' ∈ name.written.toList then
          .error (.malformed ⟨absolutePath name.written,
            1 + name.written.toList.idxOf '.', .unexpected '.'⟩)
        else
          match top.refusal? with
          | some refusal => .error (.lookup refusal)
          | none =>
            if top.name = name.written then .ok (some top.id)
            else .error (.rootMismatch name.written top.name)) := by
  have hname := hn.isName
  refine ⟨Step.compile_name hname, fun offset marker axis hm => Step.compile_marked hm hname, ?_⟩
  intro document workspace root top mode hknows hroot hposition hrefusal htop hthere
  have horigin : workspace.forest.origin? root.id = some ⟨root, some top⟩ := by
    simp only [Forest.origin?, hposition, htop, Option.map_some, Option.bind_some, hthere]
  obtain ⟨last, hrun, -⟩ :=
    Editing.run_findFirst hknows root.id (absolutePath name.written) mode
  have hsearch := @outcome_search_root _ ⟨root, some top⟩ top hname hrefusal rfl mode
  rw [hroot, hrun, horigin]
  exact hsearch

/-- A document whose root has a name with a dot, beside one whose root has none. -/
def dottedWorkspace : Workspace where
  forest := {
    trees := [⟨.element { id := ⟨0⟩, name := { localPart := "my.element" } } .nil none .nil, 0⟩,
      ⟨.element { id := ⟨1⟩, name := { localPart := "element" } } .nil none .nil, 0⟩]
    next := 2 }

theorem behind_markers_dottedWorkspace :
    Step.compile "//element".toList 0 = .ok { name := "element", axis := .descendants } ∧
      ((Editing.findFirst (some ⟨1⟩) (absolutePath "element") .self).run dottedWorkspace).1 =
        .ok (some ⟨1⟩) := by
  have hplain : Name.IsPlain { localPart := "element" } := ⟨by decide, nofun⟩
  obtain ⟨-, hmarked, hfind⟩ := hplain.behind_markers
  refine ⟨hmarked 0 _ _ .descendants, ?_⟩
  have hknows : dottedWorkspace.KnowsRoots := by
    intro h
    cases h
  let root : Position := .top ⟨{ id := ⟨1⟩, name := { localPart := "element" } }, .nil⟩
  have hfound := hfind { root := some ⟨1⟩ } dottedWorkspace root root .self hknows rfl rfl
    (by decide) rfl rfl
  exact hfound.trans (by decide +kernel)

/-- A name with a dot, that is accepted by itself, is refused behind a slash, and so a document
isn't found by it. -/
theorem not_compiled_behind_slash :
    Name.IsPlain { localPart := "my.element" } ∧
      Step.compile "my.element".toList 1 = .ok { name := "my.element" } ∧
      Step.compile "/my.element".toList 0 = .error ⟨"/my.element", 3, .unexpected '.'⟩ ∧
      ((Editing.findFirst (some ⟨0⟩) (absolutePath "my.element") .self).run dottedWorkspace).1 =
        .error (.malformed ⟨"/my.element", 3, .unexpected '.'⟩) := by
  refine ⟨⟨by decide, nofun⟩, rfl, rfl, ?_⟩
  decide +kernel

end MarkupPath
