import MountMatrix.File.Access

/-! # What a path reaches

The walk along a path as a relation, and the file operations in terms of it. The walk sees only
which places are directories, so it goes the same way in trees that have the same directories.

* `FileTree.Leads`, `FileTree.Reaches`: the walk through directories, and the entry at its end.
* `locate_eq_entry_iff`: the walk that is computed.
* `FileTree.HasText`, `read_eq_ok_iff`: what can be read.
* `FileTree.Writable`, `slotFor_eq_ok_iff`: what can be written.
* `SameDirectories`: trees in which all paths lead the same way; `read_congr`, `slotFor_congr`.
* `Path.segments_join`, `walk_join_iff`: the path of a name in a directory.
-/

set_option autoImplicit false

namespace MountMatrix

/-- A text that can be a path: without a zero character, and not too long. -/
structure Path.Acceptable (path : String) : Prop where
  no_nul : Char.ofNat 0 ∉ path.toList
  short : path.utf8ByteSize ≤ Path.maxBytes

theorem Slot.place_injective : Function.Injective Slot.place := by
  rintro ⟨directory, name⟩ ⟨directory', name'⟩ h
  obtain ⟨rfl, hname⟩ := List.append_inj' h rfl
  obtain rfl := List.head_eq_of_cons_eq hname
  rfl

namespace FileTree

/-- From a directory along steps that each end in a directory. Above the root there is only the
root. -/
inductive Leads (tree : FileTree) : Place → List Segment → Place → Prop
  | here (place : Place) : Leads tree place [] place
  | current {place last : Place} {rest : List Segment} (onward : Leads tree place rest last) :
      Leads tree place (.current :: rest) last
  | parent {place last : Place} {rest : List Segment}
      (onward : Leads tree place.dropLast rest last) : Leads tree place (.parent :: rest) last
  | named {place last : Place} {name : String} {rest : List Segment}
      (short : name.utf8ByteSize ≤ Path.maxNameBytes)
      (isDirectory : tree.node? (place ++ [name]) = some .directory)
      (onward : Leads tree (place ++ [name]) rest last) :
      Leads tree place (.named name :: rest) last

/-- The entry that a path names, in a directory that exists. Whether there is such an entry is left
open. -/
structure Reaches (tree : FileTree) (path : String) (slot : Slot) : Prop where
  acceptable : Path.Acceptable path
  open_end : Path.endsInSlash path = false
  walk : ∃ steps, Path.segments path = steps ++ [.named slot.name] ∧
    tree.Leads [] steps slot.directory
  short : slot.name.utf8ByteSize ≤ Path.maxNameBytes

/-- The path is that of a file, which holds the text. -/
def HasText (tree : FileTree) (path text : String) : Prop :=
  ∃ slot, tree.Reaches path slot ∧ tree.node? slot.place = some (.file text.toUTF8)

/-- The path can be that of a file: its directory exists and it is not a directory itself. -/
def Writable (tree : FileTree) (path : String) : Prop :=
  ∃ slot, tree.Reaches path slot ∧ tree.node? slot.place ≠ some .directory

variable {tree other : FileTree} {here last place : Place} {path name text : String} {slot : Slot}

/-! ## The walk that is computed -/

theorem entry_of_short (short : slot.name.utf8ByteSize ≤ Path.maxNameBytes) :
    tree.entry slot = .ok (tree.node? slot.place) :=
  if_neg (Nat.not_lt.mpr short)

theorem entry_eq_ok_iff {node : Option Node} :
    tree.entry slot = .ok node ↔
      slot.name.utf8ByteSize ≤ Path.maxNameBytes ∧ tree.node? slot.place = node := by
  rw [entry]
  split
  next long => simp [Nat.not_le.mpr long]
  next short => simp [Nat.not_lt.mp short]

theorem enter_named_eq_ok_iff {next : Place} :
    tree.enter here (.named name) = .ok next ↔
      name.utf8ByteSize ≤ Path.maxNameBytes ∧
        tree.node? (here ++ [name]) = some .directory ∧ next = here ++ [name] := by
  have hentry : tree.entry ⟨here, name⟩ = .ok (some .directory) ↔
      name.utf8ByteSize ≤ Path.maxNameBytes ∧ tree.node? (here ++ [name]) = some .directory :=
    entry_eq_ok_iff
  rw [← and_assoc, ← hentry, enter]
  rcases tree.entry ⟨here, name⟩ with error | _ | ⟨_ | _⟩ <;> simp [eq_comm]

theorem leads_cons_iff {step : Segment} {rest : List Segment} :
    tree.Leads here (step :: rest) last ↔
      ∃ next, tree.enter here step = .ok next ∧ tree.Leads next rest last := by
  constructor
  · intro h
    cases h with
    | current onward => exact ⟨here, rfl, onward⟩
    | parent onward => exact ⟨here.dropLast, rfl, onward⟩
    | named short isDirectory onward =>
      exact ⟨_, enter_named_eq_ok_iff.mpr ⟨short, isDirectory, rfl⟩, onward⟩
  · rintro ⟨next, hnext, onward⟩
    cases step with
    | current => exact .current (Except.ok.inj hnext ▸ onward)
    | parent => exact .parent (Except.ok.inj hnext ▸ onward)
    | named name =>
      obtain ⟨short, isDirectory, rfl⟩ := enter_named_eq_ok_iff.mp hnext
      exact .named short isDirectory onward

/-- A walk up to a last name is a step and the walk from there, unless that name is all. -/
theorem walk_cons_iff {step : Segment} {rest : List Segment}
    (notLast : ∀ name, step = .named name → rest = [] → False) :
    (∃ steps, step :: rest = steps ++ [.named name] ∧ tree.Leads here steps last) ↔
      ∃ next, tree.enter here step = .ok next ∧
        ∃ steps, rest = steps ++ [.named name] ∧ tree.Leads next steps last := by
  constructor
  · rintro ⟨steps, hsteps, onward⟩
    cases steps with
    | nil =>
      obtain ⟨hstep, hrest⟩ := List.cons.inj hsteps
      exact absurd hrest (notLast name hstep)
    | cons first steps =>
      obtain ⟨rfl, hrest⟩ := List.cons.inj hsteps
      obtain ⟨next, entered, onward⟩ := leads_cons_iff.mp onward
      exact ⟨next, entered, steps, hrest, onward⟩
  · rintro ⟨next, entered, steps, rfl, onward⟩
    exact ⟨step :: steps, rfl, leads_cons_iff.mpr ⟨next, entered, onward⟩⟩

theorem follow_eq_entry_iff {slash insists : Bool} {segments : List Segment} :
    tree.follow here slash segments = .ok (.entry slot insists) ↔
      insists = slash ∧ ∃ steps, segments = steps ++ [.named slot.name] ∧
        tree.Leads here steps slot.directory := by
  fun_induction follow tree here slash segments with
  | case1 here => simp
  | case2 here name =>
    constructor
    · intro h
      obtain ⟨rfl, rfl⟩ := Location.entry.inj (Except.ok.inj h)
      exact ⟨rfl, [], rfl, .here _⟩
    · rintro ⟨rfl, steps, hsteps, onward⟩
      obtain ⟨rfl, rfl⟩ : steps = [] ∧ slot.name = name := by
        simpa [List.cons_eq_append_iff] using hsteps
      cases onward
      rfl
  | case3 here step rest notLast error failed =>
    rw [walk_cons_iff notLast, failed]
    simp
  | case4 here step rest notLast next entered ih =>
    rw [walk_cons_iff notLast, entered, ih]
    simp

theorem locate_eq_entry_iff {slash : Bool} :
    tree.locate path = .ok (.entry slot slash) ↔
      Path.Acceptable path ∧ slash = Path.endsInSlash path ∧
        ∃ steps, Path.segments path = steps ++ [.named slot.name] ∧
          tree.Leads [] steps slot.directory := by
  rw [← follow_eq_entry_iff, locate]
  split
  next nul =>
    simp only [List.contains_iff_mem] at nul
    simp only [reduceCtorEq, false_iff]
    exact fun h => h.1.no_nul nul
  next noNul =>
    simp only [List.contains_iff_mem] at noNul
    split
    next empty =>
      -- the empty text has no steps, so it leads to the root itself
      subst empty
      have hroot : tree.follow [] (Path.endsInSlash "") (Path.segments "") = .ok (.directory []) :=
        rfl
      simp [hroot]
    next =>
      split
      next long =>
        simp only [reduceCtorEq, false_iff]
        exact fun h => absurd h.1.short (Nat.not_le.mpr long)
      next short => exact (and_iff_right ⟨noNul, Nat.not_lt.mp short⟩).symm

/-! ## Reading and writing -/

theorem reaches_iff :
    tree.Reaches path slot ↔ tree.locate path = .ok (.entry slot false) ∧
      slot.name.utf8ByteSize ≤ Path.maxNameBytes := by
  rw [locate_eq_entry_iff]
  exact ⟨fun h => ⟨⟨h.acceptable, h.open_end.symm, h.walk⟩, h.short⟩,
    fun h => ⟨h.1.1, h.1.2.1.symm, h.1.2.2, h.2⟩⟩

/-- A path reaches one entry at most. -/
theorem Reaches.unique {slot' : Slot} (h : tree.Reaches path slot)
    (h' : tree.Reaches path slot') : slot = slot' := by
  have hsame := (reaches_iff.mp h).1.symm.trans (reaches_iff.mp h').1
  exact (Location.entry.inj (Except.ok.inj hsame)).1

theorem fileAt_eq_ok_iff {content : ByteArray} :
    tree.fileAt path = .ok (place, content) ↔
      ∃ slot, tree.Reaches path slot ∧ slot.place = place ∧
        tree.node? place = some (.file content) := by
  constructor
  · intro h
    rw [fileAt] at h
    split at h
    next => cases h
    next => cases h
    next slot slash located =>
      split at h
      next => cases h
      next => cases h
      next => cases h
      next found hentry =>
        split at h
        next => cases h
        next openEnd =>
          obtain ⟨short, hnode⟩ := entry_eq_ok_iff.mp hentry
          obtain ⟨rfl, rfl⟩ := Prod.mk.inj (Except.ok.inj h)
          rw [Bool.eq_false_iff.mpr openEnd] at located
          exact ⟨slot, reaches_iff.mpr ⟨located, short⟩, rfl, hnode⟩
  · rintro ⟨slot, reached, rfl, hnode⟩
    obtain ⟨located, short⟩ := reaches_iff.mp reached
    rw [fileAt, located]
    dsimp only
    rw [entry_of_short short, hnode]
    rfl

theorem slotFor_eq_ok_iff :
    tree.slotFor path = .ok slot ↔
      tree.Reaches path slot ∧ tree.node? slot.place ≠ some .directory := by
  constructor
  · intro h
    rw [slotFor] at h
    split at h
    next => cases h
    next => cases h
    next found slash located =>
      split at h
      next => cases h
      next openEnd =>
        split at h
        next => cases h
        next => cases h
        next node notDirectory hentry =>
          obtain rfl := Except.ok.inj h
          obtain ⟨short, rfl⟩ := entry_eq_ok_iff.mp hentry
          rw [Bool.eq_false_iff.mpr openEnd] at located
          exact ⟨reaches_iff.mpr ⟨located, short⟩, notDirectory⟩
  · rintro ⟨reached, free⟩
    obtain ⟨located, short⟩ := reaches_iff.mp reached
    rw [slotFor, located]
    dsimp only
    rw [entry_of_short short]
    rcases hnode : tree.node? slot.place with _ | ⟨_ | _⟩
    · rfl
    · rfl
    · exact absurd hnode free

theorem fromUTF8?_eq_some_iff {content : ByteArray} :
    String.fromUTF8? content = some text ↔ content = text.toUTF8 := by
  rw [String.fromUTF8?]
  constructor
  · intro h
    split at h
    next => exact congrArg String.toUTF8 (Option.some.inj h)
    next => cases h
  · rintro rfl
    exact dif_pos text.isValidUTF8

theorem read_eq_ok_iff : tree.read path = .ok text ↔ tree.HasText path text := by
  constructor
  · intro h
    rw [read, readBytes] at h
    rcases hfile : tree.fileAt path with error | ⟨place, content⟩
    · rw [hfile] at h
      cases h
    · rw [hfile] at h
      obtain ⟨slot, reached, rfl, hnode⟩ := fileAt_eq_ok_iff.mp hfile
      cases htext : String.fromUTF8? content with
      | none => simp [Except.map, htext] at h
      | some found =>
        obtain rfl : found = text := by simpa [Except.map, htext] using h
        rw [fromUTF8?_eq_some_iff.mp htext] at hnode
        exact ⟨slot, reached, hnode⟩
  · rintro ⟨slot, reached, hnode⟩
    rw [read, readBytes, fileAt_eq_ok_iff.mpr ⟨slot, reached, rfl, hnode⟩]
    have htext : String.fromUTF8? text.toUTF8 = some text := fromUTF8?_eq_some_iff.mpr rfl
    simp only [Except.map, htext]

theorem HasText.unique {text' : String} (h : tree.HasText path text)
    (h' : tree.HasText path text') : text = text' :=
  Except.ok.inj ((read_eq_ok_iff.mpr h).symm.trans (read_eq_ok_iff.mpr h'))

/-! ## Trees with the same directories -/

def SameDirectories (tree other : FileTree) : Prop :=
  ∀ place, tree.node? place = some .directory ↔ other.node? place = some .directory

theorem Leads.transfer {steps : List Segment} (same : tree.SameDirectories other)
    (h : tree.Leads here steps last) : other.Leads here steps last := by
  induction h with
  | here place => exact .here place
  | current _ ih => exact .current ih
  | parent _ ih => exact .parent ih
  | named short isDirectory _ ih => exact .named short ((same _).mp isDirectory) ih

theorem Reaches.transfer (same : tree.SameDirectories other) (h : tree.Reaches path slot) :
    other.Reaches path slot where
  acceptable := h.acceptable
  open_end := h.open_end
  walk := h.walk.imp fun _ walk => ⟨walk.1, walk.2.transfer same⟩
  short := h.short

theorem node?_dropLast (h : tree.node? place = some .directory) :
    tree.node? place.dropLast = some .directory := by
  rcases List.eq_nil_or_concat place with rfl | ⟨directory, name, rfl⟩
  · rfl
  · rw [List.concat_eq_append] at h ⊢
    rw [List.dropLast_concat]
    rw [node?_concat] at h
    rcases tree.closed directory name .directory h with rfl | hdirectory
    · rfl
    · cases directory with
      | nil => rfl
      | cons first rest => exact hdirectory

theorem Leads.isDirectory {steps : List Segment} (h : tree.Leads here steps last)
    (start : tree.node? here = some .directory) : tree.node? last = some .directory := by
  induction h with
  | here => exact start
  | current _ ih => exact ih start
  | parent _ ih => exact ih (node?_dropLast start)
  | named _ isDirectory _ ih => exact ih isDirectory

theorem Reaches.isDirectory (h : tree.Reaches path slot) :
    tree.node? slot.directory = some .directory :=
  let ⟨_, _, onward⟩ := h.walk
  onward.isDirectory rfl

/-- A file that is written where none of the directories is leaves the directories as they are. -/
theorem sameDirectories_put (content : ByteArray)
    (isDirectory : tree.node? slot.directory = some .directory)
    (free : tree.node? slot.place ≠ some .directory) :
    (tree.put slot.directory slot.name (.file content)).SameDirectories tree := by
  intro place
  rw [node?_put _ isDirectory free]
  split
  next same =>
    subst same
    exact ⟨nofun, fun h => absurd h free⟩
  next => rfl

/-- Once the walk up to the last name succeeds, the place that a path leads to is settled by the
directories alone. -/
theorem locate_congr {steps : List Segment} (same : tree.SameDirectories other)
    (hsegments : Path.segments path = steps ++ [.named name])
    (onward : tree.Leads [] steps last) : tree.locate path = other.locate path := by
  by_cases acceptable : Path.Acceptable path
  · have hentry : tree.locate path = .ok (.entry ⟨last, name⟩ (Path.endsInSlash path)) :=
      locate_eq_entry_iff.mpr ⟨acceptable, rfl, steps, hsegments, onward⟩
    rw [hentry, eq_comm]
    exact locate_eq_entry_iff.mpr ⟨acceptable, rfl, steps, hsegments, onward.transfer same⟩
  · rw [locate, locate]
    split
    next => rfl
    next noNul =>
      split
      next => rfl
      next =>
        split
        next => rfl
        next short =>
          simp only [List.contains_iff_mem] at noNul
          exact absurd ⟨noNul, Nat.not_lt.mp short⟩ acceptable

/-- Whether a path can be written, and if not why, is settled by the place that it leads to and by
the directories. -/
theorem slotFor_congr (same : tree.SameDirectories other)
    (located : tree.locate path = other.locate path) :
    tree.slotFor path = other.slotFor path := by
  rw [slotFor, slotFor, located]
  rcases other.locate path with error | ⟨place | ⟨slot, _ | _⟩⟩
  · rfl
  · rfl
  · by_cases short : slot.name.utf8ByteSize ≤ Path.maxNameBytes
    · have hslot := same slot.place
      dsimp only
      rw [entry_of_short short, entry_of_short short]
      revert hslot
      rcases tree.node? slot.place with _ | ⟨_ | _⟩ <;>
        rcases other.node? slot.place with _ | ⟨_ | _⟩ <;> simp
    · simp only [entry, if_pos (Nat.not_le.mp short)]
  · rfl

theorem fileAt_congr (located : tree.locate path = other.locate path)
    (unchanged : ∀ slot slash, tree.locate path = .ok (.entry slot slash) →
      tree.node? slot.place = other.node? slot.place) : tree.fileAt path = other.fileAt path := by
  rw [fileAt, fileAt, ← located]
  rcases hlocate : tree.locate path with error | ⟨place | ⟨slot, slash⟩⟩
  · rfl
  · rfl
  · have hentry : tree.entry slot = other.entry slot := by
      rw [entry, entry, unchanged slot slash hlocate]
    dsimp only
    rw [hentry]

theorem read_congr (located : tree.locate path = other.locate path)
    (unchanged : ∀ slot slash, tree.locate path = .ok (.entry slot slash) →
      tree.node? slot.place = other.node? slot.place) : tree.read path = other.read path := by
  rw [read, read, readBytes, readBytes, fileAt_congr located unchanged]

end FileTree

/-! ## A name in a directory -/

namespace Path

/-- A name that stands for one entry of a directory. -/
structure Simple (name : String) : Prop where
  ne_empty : name ≠ ""
  no_slash : '/' ∉ name.toList
  ne_current : name ≠ "."
  ne_parent : name ≠ ".."

instance (name : String) : Decidable (Simple name) :=
  decidable_of_iff (name ≠ "" ∧ '/' ∉ name.toList ∧ name ≠ "." ∧ name ≠ "..")
    ⟨fun h => ⟨h.1, h.2.1, h.2.2.1, h.2.2.2⟩,
      fun h => ⟨h.ne_empty, h.no_slash, h.ne_current, h.ne_parent⟩⟩

theorem pieces_append (front back : List Char) :
    pieces (front ++ '/' :: back) = pieces front ++ pieces back := by
  fun_induction pieces front with
  | case1 => rfl
  | case2 rest ih => rw [List.cons_append, pieces, ih]; rfl
  | case3 c rest notSlash empty => exact absurd empty (pieces_ne_nil rest)
  | case4 c rest notSlash piece more found ih =>
    rw [List.cons_append, pieces.eq_3 c _ notSlash, ih, found]
    rfl

theorem pieces_of_no_slash {text : List Char} (h : '/' ∉ text) : pieces text = [text] := by
  induction text with
  | nil => rfl
  | cons c rest ih =>
    obtain ⟨hc, hrest⟩ := not_or.mp (mt List.mem_cons.mpr h)
    rw [pieces.eq_3 c _ (Ne.symm hc), ih hrest]

theorem segmentOf_of_simple {name : String} (simple : Simple name) :
    segmentOf name.toList = some (.named name) := by
  have hne : ∀ other : String, name ≠ other → name.toList ≠ other.toList :=
    fun _ => mt String.toList_inj.mp
  rw [segmentOf.eq_4, String.ofList_toList]
  · exact hne "" simple.ne_empty
  · exact hne "." simple.ne_current
  · exact hne ".." simple.ne_parent

theorem segments_of_simple {name : String} (simple : Simple name) :
    segments name = [.named name] := by
  rw [segments, pieces_of_no_slash simple.no_slash, List.filterMap_cons,
    segmentOf_of_simple simple]
  rfl

/-- What stands before a name in a directory, whatever the name: nothing, or a text that ends in a
slash and has the steps of the directory. -/
theorem exists_glue (directory : String) :
    ∃ glue : String, (∀ name, join directory name = glue ++ name) ∧
      segments glue = segments directory ∧
      (glue = "" ∨ ∃ front, glue.toList = front ++ ['/']) := by
  cases hlast : directory.toList.getLast? with
  | none =>
    obtain rfl : directory = "" := by simpa using hlast
    refine ⟨"", fun name => ?_, rfl, .inl rfl⟩
    rw [String.empty_append]
    rfl
  | some last =>
    by_cases hslash : last = '/'
    · subst hslash
      refine ⟨directory, fun name => ?_, rfl, .inr (List.getLast?_eq_some_iff.mp hlast)⟩
      simp only [join, hlast]
    · refine ⟨directory ++ "/", fun name => ?_, ?_, .inr ⟨directory.toList, by simp⟩⟩
      · simp only [join, hlast]
      · rw [segments, segments, String.toList_append]
        exact (congrArg _ (pieces_append directory.toList [])).trans (by simp [pieces, segmentOf])

theorem segments_join {directory name : String} (simple : Simple name) :
    segments (join directory name) = segments directory ++ [.named name] := by
  obtain ⟨glue, hjoin, hsegments, hend⟩ := exists_glue directory
  rw [hjoin, ← hsegments]
  rcases hend with rfl | ⟨front, hfront⟩
  · rw [String.empty_append, segments_of_simple simple]
    rfl
  · rw [← segments_of_simple simple]
    simp only [segments, String.toList_append, hfront, List.append_assoc, List.singleton_append,
      pieces_append, List.filterMap_append]
    rfl

theorem endsInSlash_join {directory name : String} (simple : Simple name) :
    endsInSlash (join directory name) = false := by
  obtain ⟨glue, hjoin, -⟩ := exists_glue directory
  have hne : name.toList ≠ [] := mt String.toList_eq_nil_iff.mp simple.ne_empty
  rw [endsInSlash, hjoin, String.toList_append, List.getLast?_append,
    List.getLast?_eq_some_getLast hne, Option.some_or, beq_eq_false_iff_ne]
  exact fun h => simple.no_slash (Option.some.inj h ▸ List.getLast_mem hne)

theorem join_injective (directory : String) : Function.Injective (join directory) := by
  intro a b h
  obtain ⟨glue, hjoin, -⟩ := exists_glue directory
  rw [hjoin, hjoin] at h
  exact String.append_right_inj glue |>.mp h

end Path

namespace FileTree

variable {tree : FileTree} {directory name : String} {slot : Slot}

theorem walk_join_iff (simple : Path.Simple name) :
    (∃ steps, Path.segments (Path.join directory name) = steps ++ [.named slot.name] ∧
      tree.Leads [] steps slot.directory) ↔
      slot.name = name ∧ tree.Leads [] (Path.segments directory) slot.directory := by
  rw [Path.segments_join simple]
  constructor
  · rintro ⟨steps, hsteps, onward⟩
    obtain ⟨rfl, hname⟩ := List.append_inj' hsteps rfl
    simp only [List.cons.injEq, Segment.named.injEq, and_true] at hname
    exact ⟨hname.symm, onward⟩
  · rintro ⟨rfl, onward⟩
    exact ⟨_, rfl, onward⟩

theorem name_of_locate_join {slash : Bool} (simple : Path.Simple name)
    (h : tree.locate (Path.join directory name) = .ok (.entry slot slash)) : slot.name = name :=
  ((walk_join_iff simple).mp (locate_eq_entry_iff.mp h).2.2).1

theorem Reaches.of_join (simple : Path.Simple name)
    (h : tree.Reaches (Path.join directory name) slot) :
    slot.name = name ∧ tree.Leads [] (Path.segments directory) slot.directory :=
  (walk_join_iff simple).mp h.walk

end FileTree

end MountMatrix
