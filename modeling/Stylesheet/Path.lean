import Stylesheet.Text

/-!
# Paths

A path is a string with `/` between its segments.  `Path.segments` reads it: repeated and trailing
slashes mean nothing, and a `.` means nothing except in front.  `..` stays as it is written.
Whether a path starts with another one is asked segment by segment.
-/

namespace Stylesheet.Path

/-- A segment of a path. -/
inductive Segment where
  /-- The `/` in front of an absolute path. -/
  | root
  /-- A `.` in front. -/
  | here
  /-- `..`. -/
  | parent
  /-- A name. -/
  | name (s : String)
deriving DecidableEq, Repr

/-- The pieces of a path between slashes. -/
def pieces (path : String) : List String := (path.toList.splitOn '/').map String.ofList

/-- The segment of a piece that is not in front, if it means anything. -/
def segment? (piece : String) : Option Segment :=
  if piece == "" || piece == "." then none
  else if piece == ".." then some .parent
  else some (.name piece)

/-- The segments of a path. -/
def segments (path : String) : List Segment :=
  match pieces path with
  | [] => []
  | first :: rest =>
      let front :=
        if first == "." then [Segment.here]
        else if first == "" && !rest.isEmpty then [Segment.root]
        else (segment? first).toList
      front ++ rest.filterMap segment?

/-- A path inside another one; an absolute path stays as it is. -/
def join (base path : String) : String :=
  if Text.startsWith "/" path then path
  else if base.isEmpty || Text.endsWith "/" base then base ++ path
  else base ++ "/" ++ path

/-- The segments after those of another path, if the path starts with it. -/
def dropFront? : (front path : List Segment) → Option (List Segment)
  | [], path => some path
  | _ :: _, [] => none
  | a :: front, b :: path => if a = b then dropFront? front path else none

/-- What stands after the last point of a file name that has something before it. -/
def extension? (path : List Segment) : Option String :=
  match path.getLast? with
  | some (.name s) =>
      match Text.splitLast? '.' s.toList with
      | some (before, after) => if before.isEmpty then none else some (.ofList after)
      | none => none
  | _ => none

/-! ## Examples -/

example : segments "./a//b/./../c/" = [.here, .name "a", .name "b", .parent, .name "c"] := by decide

example : [".html", "a.b.html", "a."].map (fun p => extension? (segments p)) =
    [none, some "html", some ""] := by decide

end Stylesheet.Path
