/-! # Paths

The text of a path and the steps that it describes.

* `Path.join`: a name inside a directory.
* `Path.segments`: the steps of a path, one after the other.
* `Path.endsInSlash`: whether a path insists on a directory.
-/

set_option autoImplicit false

namespace MountMatrix

inductive Segment where
  | current
  | parent
  | named (name : String)
  deriving DecidableEq

namespace Path

/-- The path of a name inside a directory. One slash parts the two, unless the directory ends in
one; in the directory with the empty path the name stands alone. -/
def join (directory name : String) : String :=
  match directory.toList.getLast? with
  | none => name
  | some '/' => directory ++ name
  | some _ => directory ++ "/" ++ name

def pieces : List Char → List (List Char)
  | [] => [[]]
  | '/' :: rest => [] :: pieces rest
  | c :: rest =>
    match pieces rest with
    | [] => [[c]]
    | piece :: more => (c :: piece) :: more

theorem pieces_ne_nil (text : List Char) : pieces text ≠ [] := by
  fun_cases pieces text <;> simp

def segmentOf : List Char → Option Segment
  | [] => none
  | ['.'] => some .current
  | ['.', '.'] => some .parent
  | piece => some (.named (.ofList piece))

def segments (path : String) : List Segment :=
  (pieces path.toList).filterMap segmentOf

def endsInSlash (path : String) : Bool :=
  path.toList.getLast? == some '/'

end Path

end MountMatrix
