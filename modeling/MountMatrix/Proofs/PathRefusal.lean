import MountMatrix.Proofs.PathReach

/-! # Why a path leads to no file

The failures of a path, told by the walk: each cause belongs to one way in which the text of the
path or a step on the way can be wrong, and a path that leads to a file has none.

* `FileTree.Strays`: a walk that does not end at a file, with the cause.
* `FileTree.Refuses`, `fileAt_eq_error_iff`: a path that leads to no file, with the cause.
* `FileTree.HasFile`: a path that leads to a file.
-/

set_option autoImplicit false

namespace MountMatrix

namespace FileTree

/-- From a directory along steps that do not end at a file. What goes on after a name has to be in a
directory, and `slash` tells whether a directory is insisted on at the end. -/
inductive Strays (tree : FileTree) (slash : Bool) : Place → List Segment → IoError → Prop
  | directory (place : Place) : Strays tree slash place [] .isADirectory
  | current {place : Place} {rest : List Segment} {cause : IoError}
      (onward : Strays tree slash place rest cause) :
      Strays tree slash place (.current :: rest) cause
  | parent {place : Place} {rest : List Segment} {cause : IoError}
      (onward : Strays tree slash place.dropLast rest cause) :
      Strays tree slash place (.parent :: rest) cause
  | named {place : Place} {name : String} {rest : List Segment} {cause : IoError}
      (short : name.utf8ByteSize ≤ Path.maxNameBytes)
      (isDirectory : tree.node? (place ++ [name]) = some .directory)
      (onward : Strays tree slash (place ++ [name]) rest cause) :
      Strays tree slash place (.named name :: rest) cause
  | tooLong {place : Place} {name : String} {rest : List Segment}
      (long : Path.maxNameBytes < name.utf8ByteSize) :
      Strays tree slash place (.named name :: rest) .nameTooLong
  | missing {place : Place} {name : String} {rest : List Segment}
      (short : name.utf8ByteSize ≤ Path.maxNameBytes)
      (free : tree.node? (place ++ [name]) = none) :
      Strays tree slash place (.named name :: rest) .notFound
  | throughFile {place : Place} {name : String} {rest : List Segment} {content : ByteArray}
      (short : name.utf8ByteSize ≤ Path.maxNameBytes)
      (isFile : tree.node? (place ++ [name]) = some (.file content))
      (further : rest ≠ [] ∨ slash = true) :
      Strays tree slash place (.named name :: rest) .notADirectory

/-- The path leads to no file, because of its text or because the walk from the root strays. -/
inductive Refuses (tree : FileTree) (path : String) : IoError → Prop
  | nul (nul : Char.ofNat 0 ∈ path.toList) : Refuses tree path .nulInPath
  | empty (empty : path = "") : Refuses tree path .notFound
  | tooLong (noNul : Char.ofNat 0 ∉ path.toList) (long : Path.maxBytes < path.utf8ByteSize) :
      Refuses tree path .nameTooLong
  | strays {cause : IoError} (acceptable : Path.Acceptable path) (nonempty : path ≠ "")
      (walk : tree.Strays (Path.endsInSlash path) [] (Path.segments path) cause) :
      Refuses tree path cause

/-- The path leads to a file. -/
def HasFile (tree : FileTree) (path : String) : Prop :=
  ∃ slot content, tree.Reaches path slot ∧ tree.node? slot.place = some (.file content)

variable {tree : FileTree} {here : Place} {name path : String} {slash : Bool}
  {rest segments : List Segment} {cause : IoError}

/-! ## The walk -/

theorem strays_named_iff :
    tree.Strays slash here (.named name :: rest) cause ↔
      match tree.entry ⟨here, name⟩ with
      | .error error => cause = error
      | .ok none => cause = .notFound
      | .ok (some .directory) => tree.Strays slash (here ++ [name]) rest cause
      | .ok (some (.file _)) => cause = .notADirectory ∧ (rest ≠ [] ∨ slash = true) := by
  by_cases long : Path.maxNameBytes < name.utf8ByteSize
  · have hentry : tree.entry ⟨here, name⟩ = .error .nameTooLong := if_pos long
    rw [hentry]
    constructor
    · intro h
      cases h with
      | tooLong => rfl
      | named short => exact absurd short (Nat.not_le.mpr long)
      | missing short => exact absurd short (Nat.not_le.mpr long)
      | throughFile short => exact absurd short (Nat.not_le.mpr long)
    · rintro rfl
      exact .tooLong long
  · have short := Nat.not_lt.mp long
    have hentry : tree.entry ⟨here, name⟩ = .ok (tree.node? (here ++ [name])) :=
      entry_of_short short
    rw [hentry]
    rcases hnode : tree.node? (here ++ [name]) with _ | ⟨content | _⟩
    · constructor
      · intro h
        cases h with
        | missing => rfl
        | named _ isDirectory => simp [hnode] at isDirectory
        | tooLong => contradiction
        | throughFile _ isFile => simp [hnode] at isFile
      · rintro rfl
        exact .missing short hnode
    · constructor
      · intro h
        cases h with
        | throughFile _ _ further => exact ⟨rfl, further⟩
        | named _ isDirectory => simp [hnode] at isDirectory
        | tooLong => contradiction
        | missing _ free => simp [hnode] at free
      · rintro ⟨rfl, further⟩
        exact .throughFile short hnode further
    · constructor
      · intro h
        cases h with
        | named _ _ onward => exact onward
        | tooLong => contradiction
        | missing _ free => simp [hnode] at free
        | throughFile _ isFile => simp [hnode] at isFile
      · exact .named short hnode

/-- What a path leads to, once the walk has come to the last step. -/
def fileOf (tree : FileTree) : Location → Except IoError (Place × ByteArray)
  | .directory _ => .error .isADirectory
  | .entry slot slash =>
    match tree.entry slot with
    | .error error => .error error
    | .ok none => .error .notFound
    | .ok (some .directory) => .error .isADirectory
    | .ok (some (.file content)) =>
      if slash then .error .notADirectory else .ok (slot.place, content)

theorem fileAt_eq_bind : tree.fileAt path = (tree.locate path).bind tree.fileOf := by
  rw [fileAt]
  rcases tree.locate path with error | ⟨place | ⟨slot, slash⟩⟩ <;> rfl

theorem follow_bind_eq_error_iff :
    (tree.follow here slash segments).bind tree.fileOf = .error cause ↔
      tree.Strays slash here segments cause := by
  fun_induction follow tree here slash segments with
  | case1 here =>
    constructor
    · intro h
      cases h
      exact .directory here
    · rintro ⟨⟩
      rfl
  | case2 here name =>
    rw [strays_named_iff, Except.bind, fileOf]
    rcases tree.entry ⟨here, name⟩ with error | _ | ⟨content | _⟩
    · simp [eq_comm]
    · simp [eq_comm]
    · cases slash <;> simp [eq_comm]
    · constructor
      · intro h
        cases h
        exact .directory _
      · rintro ⟨⟩
        rfl
  | case3 here step rest notLast error failed =>
    cases step with
    | current => cases failed
    | parent => cases failed
    | named name =>
      have further : rest ≠ [] := notLast name rfl
      rw [enter] at failed
      rw [strays_named_iff, Except.bind]
      rcases hentry : tree.entry ⟨here, name⟩ with error' | _ | ⟨content | _⟩ <;>
        rw [hentry] at failed <;> cases failed <;> simp [further, eq_comm]
  | case4 here step rest notLast next entered ih =>
    rw [ih]
    cases step with
    | current =>
      cases entered
      refine ⟨.current, fun h => ?_⟩
      cases h with
      | current onward => exact onward
    | parent =>
      cases entered
      refine ⟨.parent, fun h => ?_⟩
      cases h with
      | parent onward => exact onward
    | named name =>
      obtain ⟨short, isDirectory, rfl⟩ := enter_named_eq_ok_iff.mp entered
      have hentry : tree.entry ⟨here, name⟩ = .ok (some .directory) :=
        (entry_of_short short).trans (congrArg Except.ok isDirectory)
      rw [strays_named_iff, hentry]

theorem fileAt_eq_error_iff : tree.fileAt path = .error cause ↔ tree.Refuses path cause := by
  rw [fileAt_eq_bind, locate]
  split
  next nul =>
    simp only [List.contains_iff_mem] at nul
    constructor
    · intro h
      cases h
      exact .nul nul
    · intro h
      cases h with
      | nul => rfl
      | empty empty => simp [empty] at nul
      | tooLong noNul => contradiction
      | strays acceptable => exact absurd nul acceptable.no_nul
  next noNul =>
    simp only [List.contains_iff_mem] at noNul
    split
    next empty =>
      constructor
      · intro h
        cases h
        exact .empty empty
      · intro h
        cases h with
        | nul nul => contradiction
        | empty => rfl
        | tooLong _ long => simp [empty] at long
        | strays _ nonempty => contradiction
    next nonempty =>
      split
      next long =>
        constructor
        · intro h
          cases h
          exact .tooLong noNul long
        · intro h
          cases h with
          | nul nul => contradiction
          | empty empty => contradiction
          | tooLong => rfl
          | strays acceptable => exact absurd acceptable.short (Nat.not_le.mpr long)
      next short =>
        rw [follow_bind_eq_error_iff]
        constructor
        · exact .strays ⟨noNul, Nat.not_lt.mp short⟩ nonempty
        · intro h
          cases h with
          | nul nul => contradiction
          | empty empty => contradiction
          | tooLong _ long => contradiction
          | strays _ _ walk => exact walk

/-! ## Files -/

theorem hasFile_iff : tree.HasFile path ↔ ∃ found, tree.fileAt path = .ok found := by
  constructor
  · rintro ⟨slot, content, reached, hnode⟩
    exact ⟨(slot.place, content), fileAt_eq_ok_iff.mpr ⟨slot, reached, rfl, hnode⟩⟩
  · rintro ⟨⟨place, content⟩, hfile⟩
    obtain ⟨slot, reached, rfl, hnode⟩ := fileAt_eq_ok_iff.mp hfile
    exact ⟨slot, content, reached, hnode⟩

instance (tree : FileTree) (path : String) : Decidable (tree.HasFile path) :=
  match h : tree.fileAt path with
  | .ok found => .isTrue (hasFile_iff.mpr ⟨found, h⟩)
  | .error cause => .isFalse fun hfile => by
      obtain ⟨found, hfound⟩ := hasFile_iff.mp hfile
      cases hfound.symm.trans h

theorem Refuses.not_hasFile (h : tree.Refuses path cause) : ¬ tree.HasFile path := by
  intro hfile
  obtain ⟨found, hfound⟩ := hasFile_iff.mp hfile
  cases hfound.symm.trans (fileAt_eq_error_iff.mpr h)

end FileTree

end MountMatrix
