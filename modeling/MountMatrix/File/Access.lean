import MountMatrix.Dialogue
import MountMatrix.File.Path
import MountMatrix.File.Tree

/-! # File access

Reading, writing and removing by path, and the ways in which each can fail.

* `IoError`: the failures, with their wording.
* `FileTree.locate`: where a path leads, every step on the way being checked.
* `FileTree.fileAt`, `FileTree.slotFor`: the file that is read or removed, and the entry that is
  written.
* `FileTree.read`, `FileTree.write`, `FileTree.remove`: the operations.
* `FileAccess`: the surroundings of the parts of the program that work on files.
-/

set_option autoImplicit false

namespace MountMatrix

/-! ## Failures -/

inductive IoError where
  | notFound
  | notADirectory
  | isADirectory
  | nameTooLong
  | invalidText
  | nulInPath
  | other (message : String)
  deriving DecidableEq

def IoError.message : IoError → String
  | notFound => "No such file or directory (os error 2)"
  | notADirectory => "Not a directory (os error 20)"
  | isADirectory => "Is a directory (os error 21)"
  | nameTooLong => "File name too long (os error 36)"
  | invalidText => "stream did not contain valid UTF-8"
  | nulInPath => "file name contained an unexpected NUL byte"
  | other message => message

/-! ## Where a path leads -/

structure Slot where
  directory : Place
  name : String
  deriving DecidableEq

def Slot.place (slot : Slot) : Place :=
  slot.directory ++ [slot.name]

inductive Location where
  | directory (place : Place)
  /-- To an entry of a directory; a path that ends in a slash insists on a directory there. -/
  | entry (slot : Slot) (slash : Bool)
  deriving DecidableEq

def Path.maxNameBytes : Nat := 255

def Path.maxBytes : Nat := 4095

namespace FileTree

def entry (tree : FileTree) (slot : Slot) : Except IoError (Option Node) :=
  if Path.maxNameBytes < slot.name.utf8ByteSize then .error .nameTooLong
  else .ok (tree.node? slot.place)

/-- One step from a directory to a directory. Above the root there is only the root. -/
def enter (tree : FileTree) (here : Place) : Segment → Except IoError Place
  | .current => .ok here
  | .parent => .ok here.dropLast
  | .named name =>
    match tree.entry ⟨here, name⟩ with
    | .error error => .error error
    | .ok none => .error .notFound
    | .ok (some (.file _)) => .error .notADirectory
    | .ok (some .directory) => .ok (here ++ [name])

/-- Goes along the steps of a path up to the last one, which is left to the operation. -/
def follow (tree : FileTree) (here : Place) (slash : Bool) :
    List Segment → Except IoError Location
  | [] => .ok (.directory here)
  | [.named name] => .ok (.entry ⟨here, name⟩ slash)
  | step :: rest =>
    match tree.enter here step with
    | .error error => .error error
    | .ok next => tree.follow next slash rest

/-- Where a path leads from the root. The text of the path is checked first. -/
def locate (tree : FileTree) (path : String) : Except IoError Location :=
  if path.toList.contains (Char.ofNat 0) then .error .nulInPath
  else if path = "" then .error .notFound
  else if Path.maxBytes < path.utf8ByteSize then .error .nameTooLong
  else tree.follow [] (Path.endsInSlash path) (Path.segments path)

/-! ## Operations -/

/-- The file that a path leads to: its place and its bytes. -/
def fileAt (tree : FileTree) (path : String) : Except IoError (Place × ByteArray) :=
  match tree.locate path with
  | .error error => .error error
  | .ok (.directory _) => .error .isADirectory
  | .ok (.entry slot slash) =>
    match tree.entry slot with
    | .error error => .error error
    | .ok none => .error .notFound
    | .ok (some .directory) => .error .isADirectory
    | .ok (some (.file content)) =>
      if slash then .error .notADirectory else .ok (slot.place, content)

def readBytes (tree : FileTree) (path : String) : Except IoError ByteArray :=
  (tree.fileAt path).map Prod.snd

def read (tree : FileTree) (path : String) : Except IoError String :=
  match tree.readBytes path with
  | .error error => .error error
  | .ok content =>
    match String.fromUTF8? content with
    | none => .error .invalidText
    | some text => .ok text

def slotFor (tree : FileTree) (path : String) : Except IoError Slot :=
  match tree.locate path with
  | .error error => .error error
  | .ok (.directory _) => .error .isADirectory
  | .ok (.entry slot slash) =>
    if slash then .error .isADirectory
    else
      match tree.entry slot with
      | .error error => .error error
      | .ok (some .directory) => .error .isADirectory
      | .ok _ => .ok slot

/-- The tree in which a path leads to a file of the given bytes, which replaces an older file. -/
def writeBytes (tree : FileTree) (path : String) (content : ByteArray) :
    Except IoError FileTree :=
  (tree.slotFor path).map fun slot => tree.put slot.directory slot.name (.file content)

def write (tree : FileTree) (path : String) (text : String) : Except IoError FileTree :=
  tree.writeBytes path text.toUTF8

def remove (tree : FileTree) (path : String) : Except IoError FileTree :=
  (tree.fileAt path).map fun (place, _) => tree.removeFile place

def enterOrMake (tree : FileTree) (here : Place) (step : Segment) :
    Except IoError (FileTree × Place) :=
  match tree.enter here step, step with
  | .error .notFound, .named name =>
    .ok (tree.put here name .directory, here ++ [name])
  | .error error, _ => .error error
  | .ok next, _ => .ok (tree, next)

def makeDirectories (tree : FileTree) (path : String) : Except IoError FileTree :=
  let made := (Path.segments path).foldlM
    (fun (state : FileTree × Place) step => state.1.enterOrMake state.2 step) (tree, [])
  made.map Prod.fst

end FileTree

/-! ## Surroundings -/

inductive FileRequest where
  | read (path : String)
  | write (path text : String)
  | remove (path : String)
  deriving DecidableEq

abbrev FileRequest.Value : FileRequest → Type
  | .read _ => String
  | .write _ _ => Unit
  | .remove _ => Unit

abbrev FileAccess : Interface where
  Question := FileRequest
  Answer := fun request => Except IoError request.Value

/-- A change that may fail: a failure leaves the tree as it was. -/
def FileTree.commit (tree : FileTree) :
    Except IoError FileTree → Except IoError Unit × FileTree
  | .ok next => (.ok (), next)
  | .error error => (.error error, tree)

def FileTree.serve : Responder FileAccess FileTree
  | .read path, tree => (tree.read path, tree)
  | .write path text, tree => tree.commit (tree.write path text)
  | .remove path, tree => tree.commit (tree.remove path)

end MountMatrix
