import Std.Data.ExtTreeMap

/-! # File trees

The files and directories below one directory, the root, without links.

* `FileTree`: the nodes of a tree; every entry lies in a directory.
* `FileTree.node?`: what is found at a place.
* `FileTree.put`, `FileTree.removeFile`: the two ways in which a tree changes.
* `FileTree.listing`: the whole tree, in the order of the written paths.
-/

set_option autoImplicit false

namespace MountMatrix

abbrev Place := List String

inductive Node where
  | file (content : ByteArray)
  | directory

instance : DecidableEq Node
  | .file a, .file b =>
    match ByteArray.decEq a b with
    | isTrue h => isTrue (congrArg Node.file h)
    | isFalse h => isFalse fun heq => h (Node.file.inj heq)
  | .directory, .directory => isTrue rfl
  | .file _, .directory => isFalse nofun
  | .directory, .file _ => isFalse nofun

/-- The nodes of a tree at their places. The root is a directory and no entry. -/
structure FileTree where
  nodes : Std.ExtTreeMap Place Node
  root_free : nodes[([] : Place)]? = none
  closed : ∀ (directory : Place) (name : String) (node : Node),
    nodes[directory ++ [name]]? = some node →
      directory = [] ∨ nodes[directory]? = some .directory

namespace FileTree

def empty : FileTree where
  nodes := ∅
  root_free := by simp
  closed := by simp

def node? (tree : FileTree) : Place → Option Node
  | [] => some .directory
  | place => tree.nodes[place]?

theorem node?_cons (tree : FileTree) (name : String) (rest : Place) :
    tree.node? (name :: rest) = tree.nodes[name :: rest]? := rfl

theorem node?_of_ne_nil (tree : FileTree) {place : Place} (h : place ≠ []) :
    tree.node? place = tree.nodes[place]? := by
  cases place with
  | nil => exact absurd rfl h
  | cons name rest => rfl

@[simp]
theorem node?_concat (tree : FileTree) (directory : Place) (name : String) :
    tree.node? (directory ++ [name]) = tree.nodes[directory ++ [name]]? :=
  tree.node?_of_ne_nil (by simp)

@[ext]
theorem ext {a b : FileTree} (h : ∀ place, a.node? place = b.node? place) : a = b := by
  obtain ⟨nodesA, rootA, closedA⟩ := a
  obtain ⟨nodesB, rootB, closedB⟩ := b
  have same : nodesA = nodesB := Std.ExtTreeMap.ext_getElem? fun place => by
    cases place with
    | nil => rw [rootA, rootB]
    | cons name rest => exact h (name :: rest)
  subst same
  rfl

/-! ## Changes -/

/-- Puts a node into a directory, in place of nothing or of a file. Where there is no such
directory, and where an entry is a directory already, the tree stays as it is. -/
def put (tree : FileTree) (directory : Place) (name : String) (node : Node) : FileTree :=
  if h : tree.node? directory = some .directory ∧
      tree.nodes[directory ++ [name]]? ≠ some .directory then
    { nodes := tree.nodes.insert (directory ++ [name]) node
      root_free := by
        simp [Std.ExtTreeMap.getElem?_insert, tree.root_free]
      closed := by
        intro parent child found present
        have parentNode : parent = [] ∨ tree.nodes[parent]? = some .directory := by
          rw [Std.ExtTreeMap.getElem?_insert] at present
          split at present
          next same =>
            obtain ⟨here, -⟩ := List.append_inj' (Std.LawfulEqOrd.eq_of_compare same) rfl
            rw [← here]
            cases directory with
            | nil => exact .inl rfl
            | cons first rest => exact .inr h.1
          next => exact tree.closed parent child found present
        refine parentNode.imp id fun isDirectory => ?_
        rw [Std.ExtTreeMap.getElem?_insert, if_neg, isDirectory]
        intro same
        rw [Std.LawfulEqOrd.eq_of_compare same] at h
        exact h.2 isDirectory }
  else tree

/-- Removes a file. Where there is none, the tree stays as it is. -/
def removeFile (tree : FileTree) (place : Place) : FileTree :=
  match h : tree.nodes[place]? with
  | some (.file _) =>
    { nodes := tree.nodes.erase place
      root_free := by
        rw [Std.ExtTreeMap.getElem?_erase]
        split
        · rfl
        · exact tree.root_free
      closed := by
        intro parent child found present
        rw [Std.ExtTreeMap.getElem?_erase] at present
        split at present
        · cases present
        refine (tree.closed parent child found present).imp id fun isDirectory => ?_
        rw [Std.ExtTreeMap.getElem?_erase, if_neg, isDirectory]
        intro same
        rw [Std.LawfulEqOrd.eq_of_compare same, isDirectory] at h
        cases h }
  | _ => tree

/-- What a change puts at its own place, and that it leaves every other place alone. -/
theorem node?_put {tree : FileTree} {directory : Place} {name : String} (node : Node)
    (isDirectory : tree.node? directory = some .directory)
    (free : tree.node? (directory ++ [name]) ≠ some .directory) (place : Place) :
    (tree.put directory name node).node? place =
      if place = directory ++ [name] then some node else tree.node? place := by
  rw [node?_concat] at free
  rw [put, dif_pos ⟨isDirectory, free⟩]
  cases place with
  | nil => simp [node?]
  | cons first rest =>
    rw [node?_cons, node?_cons, Std.ExtTreeMap.getElem?_insert]
    exact ite_congr (propext (Std.LawfulEqCmp.compare_eq_iff_eq.trans eq_comm))
      (fun _ => rfl) fun _ => rfl

/-- A removed file leaves nothing at its place, and every other place stays as it was. -/
theorem node?_removeFile {tree : FileTree} {place : Place} {content : ByteArray}
    (isFile : tree.node? place = some (.file content)) (other : Place) :
    (tree.removeFile place).node? other = if other = place then none else tree.node? other := by
  cases place with
  | nil => cases isFile
  | cons first rest =>
    rw [node?_cons] at isFile
    rw [removeFile]
    split
    next =>
      cases other with
      | nil => simp [node?]
      | cons name more =>
        rw [node?_cons, node?_cons, Std.ExtTreeMap.getElem?_erase]
        exact ite_congr (propext (Std.LawfulEqCmp.compare_eq_iff_eq.trans eq_comm))
          (fun _ => rfl) fun _ => rfl
    next noFile => exact absurd isFile (noFile content)

/-! ## The whole tree -/

def listing (tree : FileTree) : List (String × Node) :=
  (tree.nodes.toList.map fun (place, node) => ("/".intercalate place, node)).mergeSort
    fun a b => (compare a.1 b.1).isLE

end FileTree

end MountMatrix
