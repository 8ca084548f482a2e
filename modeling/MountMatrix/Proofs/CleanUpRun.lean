import MountMatrix.Proofs.GenerationRun

/-! # Removing what was generated

A removal by a path that leads to a file takes this file and nothing else, and the paths of other
names in the same directory lead on as before. So each removal of a clean-up finds what it would
have found at the beginning.

* `FileTree.without`, `FileTree.withoutAll`: trees after the removal of one path, and of the names
  in a directory one after the other.
* `fileAt_without`: names that do not matter to one another.
* `run_removeFixture`, `run_removals`: one removal, and all of them up to a given name.
* `Generation.cleaned`: the tree after a generation and a clean-up.
* `cleanUpFixtures_after_generation`: a clean-up takes away what a generation has written.
-/

set_option autoImplicit false

namespace MountMatrix

/-! ## Trees with less -/

namespace FileTree

/-- The tree after an attempt to remove the file that a path leads to. -/
def without (tree : FileTree) (path : String) : FileTree :=
  (tree.commit (tree.remove path)).2

def withoutAll (tree : FileTree) (directory : String) (names : List String) : FileTree :=
  names.foldl (fun tree name => tree.without (Path.join directory name)) tree

variable {tree : FileTree} {directory name other path : String} {place : Place}
  {content : ByteArray}

theorem withoutAll_cons (tree : FileTree) (directory name : String) (names : List String) :
    tree.withoutAll directory (name :: names) =
      (tree.without (Path.join directory name)).withoutAll directory names := rfl

theorem without_of_error {error : IoError} (h : tree.fileAt path = .error error) :
    tree.without path = tree := by
  rw [without, remove, h]
  rfl

theorem node?_without (h : tree.fileAt path = .ok (place, content)) (here : Place) :
    (tree.without path).node? here = if here = place then none else tree.node? here := by
  obtain ⟨slot, -, -, isFile⟩ := fileAt_eq_ok_iff.mp h
  rw [without, remove, h]
  exact node?_removeFile isFile here

theorem sameDirectories_without (tree : FileTree) (path : String) :
    tree.SameDirectories (tree.without path) := by
  intro here
  rcases h : tree.fileAt path with error | ⟨place, content⟩
  · rw [without_of_error h]
  · obtain ⟨slot, -, -, isFile⟩ := fileAt_eq_ok_iff.mp h
    rw [node?_without h]
    split
    next same =>
      subst same
      simp [isFile]
    next => rfl

theorem node?_without_of_none (h : tree.node? place = none) (path : String) :
    (tree.without path).node? place = none := by
  rcases hfile : tree.fileAt path with error | ⟨found, content⟩
  · rw [without_of_error hfile, h]
  · rw [node?_without hfile, h, ite_self]

/-- What a name leads to does not depend on whether another name of the directory was removed. -/
theorem fileAt_without (simple : Path.Simple name) (simple' : Path.Simple other)
    (ne : name ≠ other) :
    (tree.without (Path.join directory other)).fileAt (Path.join directory name) =
      tree.fileAt (Path.join directory name) := by
  rcases h : tree.fileAt (Path.join directory other) with error | ⟨place, content⟩
  · rw [without_of_error h]
  · obtain ⟨slot, reached, rfl, -⟩ := fileAt_eq_ok_iff.mp h
    obtain ⟨hother, onward⟩ := reached.of_join simple'
    have located := locate_congr (sameDirectories_without tree (Path.join directory other))
      (Path.segments_join simple) onward
    refine (fileAt_congr located fun found slash hfound => ?_).symm
    rw [node?_without h, if_neg]
    intro here
    have hname := name_of_locate_join simple hfound
    rw [Slot.place_injective here, hother] at hname
    exact ne hname.symm

end FileTree

/-! ## Several names of one directory -/

/-- Names of entries of a directory, none of them twice. -/
structure Path.Apart (names : List String) : Prop where
  simple : ∀ name ∈ names, Path.Simple name
  nodup : names.Nodup

section Apart
variable {tree : FileTree} {directory name : String} {names : List String} {place : Place}
  {content : ByteArray}

theorem Path.Apart.tail (apart : Path.Apart (name :: names)) : Path.Apart names :=
  ⟨fun other hother => apart.simple other (List.mem_cons_of_mem name hother),
    (List.nodup_cons.mp apart.nodup).2⟩

theorem Path.Apart.fileAt_without (apart : Path.Apart (name :: names)) {other : String}
    (hother : other ∈ names) :
    (tree.without (Path.join directory name)).fileAt (Path.join directory other) =
      tree.fileAt (Path.join directory other) := by
  refine FileTree.fileAt_without (apart.simple other (List.mem_cons_of_mem name hother))
    (apart.simple name List.mem_cons_self) ?_
  rintro rfl
  exact (List.nodup_cons.mp apart.nodup).1 hother

namespace FileTree

theorem node?_withoutAll_of_none (h : tree.node? place = none) :
    (tree.withoutAll directory names).node? place = none := by
  induction names generalizing tree with
  | nil => exact h
  | cons name names ih => exact ih (node?_without_of_none h _)

theorem node?_withoutAll_of_mem (apart : Path.Apart names) (hname : name ∈ names)
    (h : tree.fileAt (Path.join directory name) = .ok (place, content)) :
    (tree.withoutAll directory names).node? place = none := by
  induction names generalizing tree with
  | nil => cases hname
  | cons first names ih =>
    rcases List.mem_cons.mp hname with rfl | hlater
    · rw [withoutAll_cons]
      refine node?_withoutAll_of_none ?_
      rw [node?_without h, if_pos rfl]
    · exact ih apart.tail hlater ((apart.fileAt_without hlater).trans h)

theorem node?_withoutAll_of_ne (apart : Path.Apart names)
    (ne : ∀ name ∈ names, ∀ content,
      tree.fileAt (Path.join directory name) ≠ .ok (place, content)) :
    (tree.withoutAll directory names).node? place = tree.node? place := by
  induction names generalizing tree with
  | nil => rfl
  | cons first names ih =>
    obtain ⟨hfirst, hrest⟩ := List.forall_mem_cons.mp ne
    have hlater : ∀ name ∈ names, ∀ content,
        (tree.without (Path.join directory first)).fileAt (Path.join directory name) ≠
          .ok (place, content) := fun name hname content =>
      (apart.fileAt_without hname).symm ▸ hrest name hname content
    refine (ih apart.tail hlater).trans ?_
    rcases h : tree.fileAt (Path.join directory first) with error | ⟨found, content⟩
    · rw [without_of_error h]
    · rw [node?_without h, if_neg]
      rintro rfl
      exact hfirst content h

end FileTree
end Apart

/-! ## Removals -/

/-- What an attempt to remove ends in: whether there was a file. That there is none is no failure. -/
def removal : Except IoError (Place × ByteArray) → Except IoError Bool
  | .ok _ => .ok true
  | .error .notFound => .ok false
  | .error cause => .error cause

def removalNotices (path : String) : Except IoError (Place × ByteArray) → List Notice
  | .ok _ => [.removed path]
  | .error _ => []

/-- A removal that also tells its path. -/
def removeNamed (path : String) : Dialogue FileAccess IoError (String × Bool) :=
  (removeFixture path).bind fun removed => .succeed (path, removed)

theorem cleanUpFixtures_eq (directory : String) :
    cleanUpFixtures directory =
      (Dialogue.traverse (Fixture.generatedNames.map (Path.join directory)) removeNamed).bind
        fun visited => .note .cleanedUpFiles
          (.succeed ((visited.filter Prod.snd).map Prod.fst)) := rfl

theorem run_removeFixture (path : String) (tree : FileTree) :
    (removeFixture path).run FileTree.serve tree =
      ⟨removal (tree.fileAt path), tree.without path, removalNotices path (tree.fileAt path)⟩ := by
  rw [removeFixture, Dialogue.run_ask, FileTree.serve, FileTree.without, FileTree.remove]
  rcases tree.fileAt path with error | found
  · cases error <;> rfl
  · rfl

/-- As long as no removal fails, each ends as it would at the beginning. -/
theorem run_removals {tree : FileTree} {directory : String} {names : List String}
    (apart : Path.Apart names) (was : String → Bool)
    (ends : ∀ name ∈ names, removal (tree.fileAt (Path.join directory name)) = .ok (was name)) :
    (Dialogue.traverse (names.map (Path.join directory)) removeNamed).run FileTree.serve tree =
      ⟨.ok (names.map fun name => (Path.join directory name, was name)),
        tree.withoutAll directory names,
        names.flatMap fun name =>
          removalNotices (Path.join directory name) (tree.fileAt (Path.join directory name))⟩ := by
  induction names generalizing tree with
  | nil => rfl
  | cons name names ih =>
    obtain ⟨hname, hnames⟩ := List.forall_mem_cons.mp ends
    have hlater : ∀ other ∈ names,
        removal ((tree.without (Path.join directory name)).fileAt (Path.join directory other)) =
          .ok (was other) := fun other hother => by
      rw [apart.fileAt_without hother, hnames other hother]
    have hrest := ih apart.tail hlater
    have hlog : (names.flatMap fun other => removalNotices (Path.join directory other)
        ((tree.without (Path.join directory name)).fileAt (Path.join directory other))) =
        names.flatMap fun other =>
          removalNotices (Path.join directory other) (tree.fileAt (Path.join directory other)) :=
      List.flatMap_congr fun other hother => by rw [apart.fileAt_without hother]
    rw [List.map_cons, Dialogue.traverse, Dialogue.run_bind, removeNamed, Dialogue.run_bind,
      run_removeFixture, hname]
    simp only [Dialogue.run_succeed, Dialogue.run_bind, hrest, hlog]
    simp [FileTree.withoutAll_cons]

/-! ## After a generation -/

namespace Fixture

theorem exists_production_of_mem {name : String} (h : name ∈ generatedNames) :
    ∃ v f, (v, f) ∈ productions ∧ f.outputName v = name := by
  obtain ⟨f, hf, hname⟩ := List.mem_flatMap.mp h
  obtain ⟨v, hv, hname⟩ := List.mem_map.mp hname
  exact ⟨v, f, mem_productions.mpr ⟨hv, hf⟩, hname⟩

theorem generatedNames_perm :
    generatedNames.Perm (productions.map fun job => job.2.outputName job.1) := by
  decide

theorem apart_generatedNames : Path.Apart generatedNames where
  simple name hname := by
    obtain ⟨v, f, hjob, rfl⟩ := exists_production_of_mem hname
    exact Generation.simple_outputName hjob
  nodup := generatedNames_perm.nodup_iff.mpr Generation.nodup_outputNames

end Fixture

/-- A clean-up of all names that are there removes them all. -/
theorem run_cleanUpFixtures_of_present {tree : FileTree} {directory : String}
    (present : ∀ name ∈ Fixture.generatedNames, ∃ found,
      tree.fileAt (Path.join directory name) = .ok found) :
    let outcome := (cleanUpFixtures directory).run FileTree.serve tree
    outcome.result = .ok (Fixture.generatedNames.map (Path.join directory)) ∧
      outcome.state = tree.withoutAll directory Fixture.generatedNames := by
  have hends : ∀ name ∈ Fixture.generatedNames,
      removal (tree.fileAt (Path.join directory name)) = .ok true := by
    intro name hname
    obtain ⟨found, hfound⟩ := present name hname
    rw [hfound]
    rfl
  have hrun := run_removals Fixture.apart_generatedNames (fun _ => true) hends
  rw [cleanUpFixtures_eq, Dialogue.run_bind, hrun]
  refine ⟨?_, rfl⟩
  have hkept : ∀ names : List String, ((names.map fun name =>
      (Path.join directory name, true)).filter Prod.snd).map Prod.fst =
        names.map (Path.join directory) := by
    intro names
    rw [List.filter_eq_self.mpr (by simp), List.map_map]
    rfl
  simp only [Dialogue.run_note, Dialogue.run_succeed, hkept]

namespace Generation

variable {g : Generation} {tree : FileTree}

theorem fileAt_output {v : Variant} {f : Fixture} (hjob : (v, f) ∈ Fixture.productions)
    (h : g.Possible tree v f) :
    ∃ slot content, tree.Reaches (g.outputPath v f) slot ∧
      (g.writtenAll tree Fixture.productions tree).fileAt (g.outputPath v f) =
        .ok (slot.place, content) := by
  have hself : Fixture.productions ⊆ Fixture.productions := List.Subset.refl _
  have hbegin : g.Underway tree tree := .inl rfl
  obtain ⟨⟨slot, content⟩, hattempt⟩ := h
  have reached := (attempt_eq_ok_iff.mp hattempt).2.1
  refine ⟨slot, content, reached, FileTree.fileAt_eq_ok_iff.mpr ⟨slot, ?_, rfl, ?_⟩⟩
  · exact reached.transfer (hbegin.writtenAll hself).sameDirectories
  · exact hbegin.node?_writtenAll_of_mem hself nodup_outputNames hjob hattempt

theorem perm_paths (g : Generation) :
    (Fixture.generatedNames.map (Path.join g.outputDir)).Perm g.paths := by
  have hnames := Fixture.generatedNames_perm.map (Path.join g.outputDir)
  rwa [List.map_map] at hnames

/-- The tree after all files have been written and all of them removed. -/
def cleaned (g : Generation) (tree : FileTree) : FileTree :=
  (g.writtenAll tree Fixture.productions tree).withoutAll g.outputDir Fixture.generatedNames

section Possible
variable (possible : ∀ v ∈ Variant.matrix, ∀ f ∈ Fixture.all, g.Possible tree v f)
include possible

theorem fileAt_generated {name : String} (hname : name ∈ Fixture.generatedNames) :
    ∃ slot content, tree.Reaches (Path.join g.outputDir name) slot ∧
      (g.writtenAll tree Fixture.productions tree).fileAt (Path.join g.outputDir name) =
        .ok (slot.place, content) := by
  obtain ⟨v, f, hjob, rfl⟩ := Fixture.exists_production_of_mem hname
  obtain ⟨hv, hf⟩ := Fixture.mem_productions.mp hjob
  exact fileAt_output hjob (possible v hv f hf)

theorem exists_gone {path : String} (hpath : path ∈ g.paths) :
    ∃ slot, tree.Reaches path slot ∧ (g.cleaned tree).node? slot.place = none := by
  obtain ⟨name, hname, rfl⟩ := List.mem_map.mp (g.perm_paths.mem_iff.mpr hpath)
  obtain ⟨slot, content, reached, hfile⟩ := fileAt_generated possible hname
  exact ⟨slot, reached,
    FileTree.node?_withoutAll_of_mem Fixture.apart_generatedNames hname hfile⟩

theorem node?_cleaned_of_not_reached (place : Place)
    (hplace : ∀ path ∈ g.paths, ∀ slot, tree.Reaches path slot → place ≠ slot.place) :
    (g.cleaned tree).node? place = tree.node? place := by
  have hremoved : (g.cleaned tree).node? place =
      (g.writtenAll tree Fixture.productions tree).node? place := by
    refine FileTree.node?_withoutAll_of_ne Fixture.apart_generatedNames
      fun name hname content' hfile' => ?_
    obtain ⟨slot, content, reached, hfile⟩ := fileAt_generated possible hname
    rw [hfile] at hfile'
    have hpath := g.perm_paths.mem_iff.mp (List.mem_map_of_mem hname)
    exact hplace _ hpath slot reached (Prod.mk.inj (Except.ok.inj hfile')).1.symm
  rw [hremoved]
  refine node?_writtenAll_of_not_reached (List.Subset.refl _) place fun v f hjob => ?_
  have hpath : g.outputPath v f ∈ g.paths := List.mem_map.mpr ⟨(v, f), hjob, rfl⟩
  exact hplace (g.outputPath v f) hpath

theorem cleaned_eq (hnew : ∀ path ∈ g.paths, ∀ slot, tree.Reaches path slot →
    tree.node? slot.place = none) : g.cleaned tree = tree := by
  refine FileTree.ext fun place => ?_
  by_cases hplace : ∃ path ∈ g.paths, ∃ slot, tree.Reaches path slot ∧ place = slot.place
  · obtain ⟨path, hpath, slot, reached, rfl⟩ := hplace
    obtain ⟨slot', reached', hgone⟩ := exists_gone possible hpath
    rw [hnew path hpath slot reached, reached.unique reached', hgone]
  · exact node?_cleaned_of_not_reached possible place fun path hpath slot reached here =>
      hplace ⟨path, hpath, slot, reached, here⟩

end Possible

end Generation

/-- A clean-up after a generation removes the twelve files that were written, kind by kind, and
leaves the tree as it was before the generation but for these paths, where nothing is left. If
nothing was there before, the tree is as it was. -/
theorem cleanUpFixtures_after_generation (templateDir outputDir : String)
    (options : InstallOptions) (tree : FileTree) {returned : List String}
    (generated : ((generateFixtures templateDir outputDir options).run FileTree.serve tree).result =
      .ok returned) :
    let between := ((generateFixtures templateDir outputDir options).run FileTree.serve tree).state
    let outcome := (cleanUpFixtures outputDir).run FileTree.serve between
    (∃ removed, outcome.result = .ok removed ∧
      removed = Fixture.generatedNames.map (Path.join outputDir) ∧
      removed.Perm returned ∧ removed.Nodup ∧ removed.length = 12) ∧
    (∀ path ∈ returned, ∃ slot, tree.Reaches path slot ∧
      outcome.state.node? slot.place = none) ∧
    (∀ place, (∀ path ∈ returned, ∀ slot, tree.Reaches path slot → place ≠ slot.place) →
      outcome.state.node? place = tree.node? place) ∧
    ((∀ path ∈ returned, ∀ slot, tree.Reaches path slot → tree.node? slot.place = none) →
      outcome.state = tree) := by
  intro between outcome
  let g : Generation := ⟨templateDir, outputDir, options⟩
  have possible : ∀ v ∈ Variant.matrix, ∀ f ∈ Fixture.all, g.Possible tree v f :=
    Generation.result_eq_ok_iff.mp ⟨returned, generated⟩
  have hrun := (Generation.foretold_of_possible possible).run_eq tree (.inl rfl)
  have hbetween : between = g.writtenAll tree Fixture.productions tree := congrArg Outcome.state hrun
  obtain rfl : returned = g.paths :=
    Except.ok.inj (generated.symm.trans (congrArg Outcome.result hrun))
  obtain ⟨hresult, hstate⟩ := run_cleanUpFixtures_of_present fun name hname =>
    let ⟨_, _, _, hfile⟩ := Generation.fileAt_generated possible hname
    ⟨_, hfile⟩
  rw [← hbetween] at hresult hstate
  have hcleaned : outcome.state = g.cleaned tree :=
    hstate.trans (congrArg (FileTree.withoutAll · outputDir Fixture.generatedNames) hbetween)
  rw [hcleaned]
  exact ⟨⟨_, hresult, rfl, g.perm_paths,
      Fixture.apart_generatedNames.nodup.map (Path.join_injective outputDir), rfl⟩,
    fun path hpath => Generation.exists_gone possible hpath,
    Generation.node?_cleaned_of_not_reached possible, Generation.cleaned_eq possible⟩

/-- Templates and outputs share the directory, which is left with the templates only. -/
theorem cleanUpFixtures_after_generation_of_shared_directory :
    let tree := templatesOnly "{{ARCH}}"
    let generation := (generateFixtures "." "." {}).run FileTree.serve tree
    let outcome := (cleanUpFixtures ".").run FileTree.serve generation.state
    ∃ returned removed, generation.result = .ok returned ∧ outcome.result = .ok removed ∧
      removed.Perm returned ∧ removed.length = 12 ∧ outcome.state = tree := by
  have generated : ((generateFixtures "." "." {}).run FileTree.serve
      (templatesOnly "{{ARCH}}")).result = .ok (Generation.paths ⟨".", ".", {}⟩) := by
    decide +kernel
  have hfree : ∀ name ∈ Fixture.generatedNames,
      (templatesOnly "{{ARCH}}").node? [name] = none := by
    decide +kernel
  have hdot : Path.segments "." = [.current] := rfl
  obtain ⟨⟨removed, hresult, -, hperm, -, hlength⟩, -, -, hrestored⟩ :=
    cleanUpFixtures_after_generation "." "." {} (templatesOnly "{{ARCH}}") generated
  refine ⟨_, removed, generated, hresult, hperm, hlength,
    hrestored fun path hpath slot reached => ?_⟩
  obtain ⟨⟨v, f⟩, hjob, rfl⟩ := List.mem_map.mp hpath
  obtain ⟨hname, onward⟩ := reached.of_join (Generation.simple_outputName hjob)
  rw [hdot] at onward
  obtain ⟨directory, name⟩ := slot
  obtain rfl : name = f.outputName v := hname
  cases onward with
  | current onward =>
    cases onward
    exact hfree (f.outputName v) (Generation.outputName_mem hjob)

end MountMatrix
