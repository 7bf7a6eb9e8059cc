import Stylesheet.Path

/-!
# File trees

The files that a program can see, as a value: a tree of directories and files, and the directory in
which the program works.  A file has a text, or none when its bytes are not text.

`FileSystem.lookup?` follows a path.  An absolute path is followed from the top, and any other path
from the working directory.  `..` leads to the directory above, and the top is above itself.
-/

namespace Stylesheet

mutual

/-- A file or a directory. -/
inductive FileTree where
  /-- A file with its text, if its bytes are text. -/
  | file (text : Option String)
  /-- A directory with its entries. -/
  | directory (entries : List Entry)

/-- An entry of a directory. -/
structure Entry where
  /-- The name in the directory. -/
  name : String
  /-- What has the name. -/
  tree : FileTree

end

namespace FileTree

/-- The entries of a directory; a file has none. -/
def entries : FileTree → List Entry
  | .file _ => []
  | .directory entries => entries

/-- Is it a directory? -/
def isDirectory : FileTree → Bool
  | .file _ => false
  | .directory _ => true

/-! ## Looking up -/

/-- What an entry of a directory holds. -/
def child? (tree : FileTree) (name : String) : Option FileTree :=
  (tree.entries.find? fun entry => entry.name == name).map Entry.tree

/-- Follow the pieces of a path from a tree on.  `parents` are the directories above it, the
nearest first; the top has none.  Only directories can be gone through, also by `.` and by a
trailing slash. -/
def follow (tree : FileTree) (parents : List FileTree) : List String → Option FileTree
  | [] => some tree
  | piece :: rest =>
      if !tree.isDirectory then none
      else if piece == "" || piece == "." then follow tree parents rest
      else if piece == ".." then
        match parents with
        | [] => follow tree [] rest
        | parent :: above => follow parent above rest
      else
        match tree.child? piece with
        | some child => follow child (tree :: parents) rest
        | none => none

/-! ## Building -/

/-- Put a tree under a name, in place of what has the name. -/
def setEntry (name : String) (tree : FileTree) : List Entry → List Entry
  | [] => [⟨name, tree⟩]
  | entry :: entries =>
      if entry.name = name then ⟨name, tree⟩ :: entries else entry :: setEntry name tree entries

/-- Put a file or directory at a path of names.  Directories on the way are made, and one that is
there already keeps its entries. -/
def insertAt (leaf : FileTree) : (names : List String) → FileTree → FileTree
  | [], tree =>
      match leaf, tree with
      | .directory _, .directory entries => .directory entries
      | _, _ => leaf
  | name :: names, tree =>
      .directory (setEntry name (insertAt leaf names ((tree.child? name).getD (.directory [])))
        tree.entries)

/-- Put a file or directory at a path. -/
def insert (tree : FileTree) (path : String) (leaf : FileTree) : FileTree :=
  insertAt leaf ((Path.pieces path).filter fun piece => piece != "" && piece != ".") tree

end FileTree

/-! ## File systems -/

/-- All files, and the directory in which a program works. -/
structure FileSystem where
  /-- The tree of all files. -/
  top : FileTree
  /-- The names that lead from the top to the working directory. -/
  here : List String

namespace FileSystem

/-- The file system that has a tree as its working directory, and nothing beside it. -/
def ofDirectory (tree : FileTree) : FileSystem := ⟨.directory [⟨"work", tree⟩], ["work"]⟩

instance : Coe FileTree FileSystem := ⟨ofDirectory⟩

/-- What a path leads to. -/
def lookup? (files : FileSystem) (path : String) : Option FileTree :=
  if path.isEmpty then none
  else
    files.top.follow []
      ((if Text.startsWith "/" path then [] else files.here) ++ Path.pieces path)

/-- The text of the file that a path leads to. -/
def readText? (files : FileSystem) (path : String) : Option String :=
  match files.lookup? path with
  | some (.file text) => text
  | _ => none

end FileSystem

end Stylesheet
