import MountMatrix.Proofs.CleanUpRun
import MountMatrix.Proofs.Questions

/-! # What runs on files can change

Of the parts of the program that work on files, one reads and writes some paths, and the other
removes some paths, and nothing else in the tree changes.

* `FileTree.OnlyWrites`, `FileTree.OnlyRemoves`: what some paths can have made of a tree.
* `generateFixtures_onlyWrites`, `cleanUpFixtures_onlyRemoves`: the parts that work on files.
-/

set_option autoImplicit false

namespace MountMatrix

/-! ## Trees with few changes -/

namespace FileTree

/-- Some of the paths reaches the place. -/
def Reached (tree : FileTree) (paths : List String) (place : Place) : Prop :=
  ∃ path ∈ paths, ∃ slot, tree.Reaches path slot ∧ slot.place = place

/-- Nothing has changed but places that the paths reach, where there are files now and no
directories were. -/
def OnlyWrites (initial : FileTree) (paths : List String) (tree : FileTree) : Prop :=
  ∀ place, tree.node? place = initial.node? place ∨
    initial.Reached paths place ∧ initial.node? place ≠ some .directory ∧
      ∃ content, tree.node? place = some (.file content)

/-- Nothing has changed but places that the paths reach, where there were files and is nothing
now. -/
def OnlyRemoves (initial : FileTree) (paths : List String) (tree : FileTree) : Prop :=
  ∀ place, tree.node? place = initial.node? place ∨
    initial.Reached paths place ∧ (∃ content, initial.node? place = some (.file content)) ∧
      tree.node? place = none

variable {initial tree : FileTree} {paths : List String} {path : String}

theorem OnlyWrites.sameDirectories (h : initial.OnlyWrites paths tree) :
    tree.SameDirectories initial := by
  intro place
  rcases h place with hsame | ⟨-, hbefore, content, hafter⟩
  · rw [hsame]
  · rw [hafter]
    exact ⟨nofun, fun hdirectory => absurd hdirectory hbefore⟩

theorem OnlyRemoves.sameDirectories (h : initial.OnlyRemoves paths tree) :
    tree.SameDirectories initial := by
  intro place
  rcases h place with hsame | ⟨-, ⟨content, hbefore⟩, hafter⟩
  · rw [hsame]
  · rw [hbefore, hafter]
    exact ⟨nofun, nofun⟩

theorem OnlyWrites.write (h : initial.OnlyWrites paths tree) (hpath : path ∈ paths)
    (text : String) : initial.OnlyWrites paths (tree.commit (tree.write path text)).2 := by
  rw [FileTree.write, writeBytes]
  rcases hslot : tree.slotFor path with error | slot
  · exact h
  obtain ⟨reached, free⟩ := slotFor_eq_ok_iff.mp hslot
  intro place
  rw [Except.map, commit, node?_put _ reached.isDirectory free]
  split
  next hplace =>
    -- the directories are as at the beginning, so the path led here then as well
    have hreached := reached.transfer h.sameDirectories
    have hbefore : initial.node? place ≠ some .directory := by
      rw [hplace]
      exact mt (h.sameDirectories slot.place).mpr free
    exact .inr ⟨⟨path, hpath, slot, hreached, hplace.symm⟩, hbefore, _, rfl⟩
  next => exact h place

theorem OnlyRemoves.remove (h : initial.OnlyRemoves paths tree) (hpath : path ∈ paths) :
    initial.OnlyRemoves paths (tree.commit (tree.remove path)).2 := by
  rcases hfile : tree.fileAt path with error | ⟨found, content⟩
  · rw [FileTree.remove, hfile]
    exact h
  obtain ⟨slot, reached, hslot, hnode⟩ := fileAt_eq_ok_iff.mp hfile
  intro place
  have hafter := node?_without hfile place
  rw [without] at hafter
  rw [hafter]
  split
  next hplace =>
    subst hplace
    rcases h place with hsame | ⟨-, -, hgone⟩
    · exact .inr ⟨⟨path, hpath, slot, reached.transfer h.sameDirectories, hslot⟩,
        ⟨content, hsame ▸ hnode⟩, rfl⟩
    · rw [hgone] at hnode
      cases hnode
  next => exact h place

end FileTree

/-! ## The parts that work on files -/

/-- The paths of the generated files in a directory. -/
def Fixture.outputs (directory : String) : List String :=
  generatedNames.map (Path.join directory)

/-- Reading anything, and writing the paths. -/
def FileRequest.Writes (paths : List String) : FileRequest → Prop
  | .read _ => True
  | .write path _ => path ∈ paths
  | .remove _ => False

def FileRequest.Removes (paths : List String) : FileRequest → Prop
  | .remove path => path ∈ paths
  | _ => False

theorem generateFixtures_asks (templateDir outputDir : String) (options : InstallOptions) :
    (generateFixtures templateDir outputDir options).Asks
      (FileRequest.Writes (Fixture.outputs outputDir)) := by
  have hfixture : ∀ v ∈ Variant.matrix, ∀ f ∈ Fixture.all,
      (generateFixture templateDir outputDir options v f).Asks
        (FileRequest.Writes (Fixture.outputs outputDir)) := by
    intro v hv f hf
    have houtput : Path.join outputDir (f.outputName v) ∈ Fixture.outputs outputDir :=
      List.mem_map_of_mem (Generation.outputName_mem (Fixture.mem_productions.mpr ⟨hv, hf⟩))
    have hrender : (renderFile (Path.join templateDir f.template)
        (Path.join outputDir (f.outputName v)) v options).Asks
          (FileRequest.Writes (Fixture.outputs outputDir)) := by
      refine .ask trivial fun answer => ?_
      cases answer with
      | error cause => exact .finished _
      | ok text =>
        refine .ask houtput fun written => ?_
        cases written with
        | error cause => exact .finished _
        | ok value => exact .note _ (.finished _)
    exact hrender.bind fun _ => .note _ (.finished _)
  have hvariants := Dialogue.asks_traverse fun v hv =>
    Dialogue.Asks.note (.generating v) (Dialogue.asks_traverse (hfixture v hv))
  exact hvariants.bind fun _ => .finished _

theorem cleanUpFixtures_asks (directory : String) :
    (cleanUpFixtures directory).Asks (FileRequest.Removes (Fixture.outputs directory)) := by
  have hremove : ∀ path ∈ Fixture.outputs directory,
      (removeFixture path).Asks (FileRequest.Removes (Fixture.outputs directory)) := by
    intro path hpath
    refine .ask hpath fun answer => ?_
    split
    · exact .note _ (.finished _)
    · exact .finished _
    · exact .finished _
  have hnamed : ∀ path ∈ Fixture.outputs directory, (removeNamed path).Asks
      (FileRequest.Removes (Fixture.outputs directory)) := fun path hpath =>
    (hremove path hpath).bind fun _ => .finished _
  rw [cleanUpFixtures_eq]
  exact (Dialogue.asks_traverse hnamed).bind fun _ => .note _ (.finished _)

theorem generateFixtures_onlyWrites (templateDir outputDir : String) (options : InstallOptions)
    (tree : FileTree) :
    tree.OnlyWrites (Fixture.outputs outputDir)
      ((generateFixtures templateDir outputDir options).run FileTree.serve tree).state := by
  refine (generateFixtures_asks templateDir outputDir options).run ?_ fun _ => .inl rfl
  rintro (path | ⟨path, text⟩ | path) now hallowed hnow
  · exact hnow
  · exact hnow.write hallowed text
  · exact hallowed.elim

theorem cleanUpFixtures_onlyRemoves (directory : String) (tree : FileTree) :
    tree.OnlyRemoves (Fixture.outputs directory)
      ((cleanUpFixtures directory).run FileTree.serve tree).state := by
  refine (cleanUpFixtures_asks directory).run ?_ fun _ => .inl rfl
  rintro (path | ⟨path, text⟩ | path) now hallowed hnow
  · exact hallowed.elim
  · exact hallowed.elim
  · exact hnow.remove hallowed

end MountMatrix
