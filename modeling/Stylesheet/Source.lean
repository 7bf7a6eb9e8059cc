import Stylesheet.AllowList
import Stylesheet.FileTree
import Stylesheet.Markup

/-!
# Markup sources

Which names a project uses is found out by scanning its markup files.  `Source.scan` collects their
texts, and `Source.allowList` makes the allow-list of the names in a text and of entries that the
user adds.  Patterns among these are read by an engine.

* Every include path is followed from the root.  One that leads nowhere is reported.
* Directories are gone through depth first, with the entries of each in the order of their names.
* An excluded file or directory is left out with all that is in it.  What an exclude entry means is
  said at `covers`; it is asked about the path relative to the root, or about the whole path when it
  is not below the root.
* Files count when their extension is among the requested ones, in any case.  Files that are not
  text are reported.
-/

namespace Stylesheet.Source

open Stylesheet.Path (Segment)

/-! ## Warnings -/

/-- What is reported about a scan. -/
inductive Warning where
  /-- A requested extension that is not supported. -/
  | unsupportedExtension (extension : String)
  /-- An include path that leads nowhere. -/
  | missingInclude (path : String)
  /-- A file that is not text. -/
  | unreadable
  /-- All texts together are blank. -/
  | nothingFound
  /-- A pattern that cannot be read. -/
  | invalidPattern (pattern : String)
deriving DecidableEq, Repr

/-- The wording of a warning, without what comes from outside: behind `Skipping` the path of the
file and the error of the system are left out, and behind a pattern the error of its engine. -/
def Warning.message : Warning → String
  | .unsupportedExtension extension =>
      "Ignoring unsupported source extension `." ++ extension ++ "`"
  | .missingInclude path => "Include path does not exist: " ++ path
  | .unreadable => "Skipping"
  | .nothingFound => "No source files matched the given patterns"
  | .invalidPattern pattern => "Dropping invalid safelist pattern `" ++ pattern ++ "`"

/-! ## Extensions -/

/-- The extensions that can be scanned. -/
def supportedExtensions : List String :=
  ["html", "htm", "astro", "jsx", "tsx", "vue", "svelte", "php"]

/-- A requested extension in the form in which extensions are compared: trimmed, without points in
front, in lower case. -/
def normalizeExtension (requested : String) : String :=
  .ofList (Text.lower ((Text.trim requested.toList).dropWhile (· == '.')))

/-- The requested extensions that are supported, sorted. -/
def acceptedExtensions (requested : List String) : List String :=
  Text.sortedSet ((requested.map normalizeExtension).filter supportedExtensions.contains)

/-- The warnings about those that are not. -/
def extensionWarnings (requested : List String) : List Warning :=
  ((requested.map normalizeExtension).filter fun e => !supportedExtensions.contains e).map
    .unsupportedExtension

/-! ## Excluded paths -/

/-- A text without all `./` in front of it. -/
def dropHere : List Char → List Char
  | '.' :: '/' :: rest => dropHere rest
  | cs => cs

/-- Does an exclude entry cover a path?  An entry with a slash or backslash is a path, and covers
what starts with it.  Any other entry is a name, and covers paths with a segment of this name. -/
def covers (entry : String) (path : List Segment) : Bool :=
  if entry.toList.any fun c => c == '/' || c == '\\' then
    (Path.segments (.ofList (dropHere entry.toList))).isPrefixOf path
  else path.contains (.name entry)

/-- Is a path excluded? -/
def isExcluded (excludes : List String) (path : List Segment) : Bool :=
  excludes.any fun entry => covers entry path

/-! ## Walking -/

/-- What to look for in a scan. -/
structure Filter where
  /-- The segments of the root. -/
  root : List Segment
  /-- The exclude entries. -/
  excludes : List String
  /-- The extensions in lower case. -/
  extensions : List String

/-- Is the file or directory at a path left out? -/
def Filter.rejects (filter : Filter) (path : List Segment) : Bool :=
  isExcluded filter.excludes ((Path.dropFront? filter.root path).getD path)

/-- Has a file at a path one of the extensions? -/
def Filter.wants (filter : Filter) (path : List Segment) : Bool :=
  (Path.extension? path).any fun e => filter.extensions.contains (Text.lowercase e)

mutual

/-- The texts of the files at and below a path that a filter lets through, in order. -/
def walk (filter : Filter) (path : List Segment) : FileTree → List (Option String)
  | .file text => if !filter.rejects path && filter.wants path then [text] else []
  | .directory entries =>
      if filter.rejects path then []
      else
        ((walkEntries filter path entries).mergeSort fun a b => a.1 ≤ b.1).flatMap Prod.snd
termination_by structural tree => tree

/-- The texts below each entry of a directory, with the name of the entry. -/
def walkEntries (filter : Filter) (path : List Segment) :
    List Entry → List (String × List (Option String))
  | [] => []
  | entry :: entries => walkEntry filter path entry :: walkEntries filter path entries
termination_by structural entries => entries

/-- The texts below an entry of a directory, with the name of the entry. -/
def walkEntry (filter : Filter) (path : List Segment) : Entry → String × List (Option String)
  | ⟨name, tree⟩ => (name, walk filter (path ++ [.name name]) tree)
termination_by structural entry => entry

end

/-! ## Scanning -/

/-- What is scanned. -/
structure Request where
  /-- The directory that include paths start from. -/
  root : String
  /-- The files and directories to scan. -/
  includes : List String
  /-- The exclude entries. -/
  excludes : List String
  /-- The requested extensions. -/
  extensions : List String

/-- The texts of the files below one include path, or nothing if it leads nowhere. -/
def collect? (files : FileSystem) (request : Request) (path : String) :
    Option (List (Option String)) :=
  let base := Path.join request.root path
  (files.lookup? base).map
    (walk ⟨Path.segments request.root, request.excludes, acceptedExtensions request.extensions⟩
      (Path.segments base))

/-- The texts below all include paths in their order. -/
def texts (files : FileSystem) (request : Request) : List String :=
  request.includes.flatMap fun path => ((collect? files request path).getD []).filterMap id

/-- The warnings about the include paths and the files below them. -/
def includeWarnings (files : FileSystem) (request : Request) : List Warning :=
  request.includes.flatMap fun path =>
    match collect? files request path with
    | none => [.missingInclude path]
    | some found => (found.filter Option.isNone).map fun _ => .unreadable

/-- The texts that a request finds, one per line. -/
def scan (files : FileSystem) (request : Request) : String := Text.join "\n" (texts files request)

/-- The warnings of a scan in the order in which they arise. -/
def scanWarnings (files : FileSystem) (request : Request) : List Warning :=
  extensionWarnings request.extensions ++ includeWarnings files request ++
    if Text.blank (scan files request) then [.nothingFound] else []

/-! ## The allow-list -/

/-- An entry that the user adds to an allow-list. -/
inductive SafelistEntry where
  /-- A token. -/
  | literal (token : String)
  /-- A pattern, as it is written. -/
  | pattern (text : String)
deriving DecidableEq, Repr

/-- The matcher of an entry, if its pattern can be read. -/
def SafelistEntry.matcher? [engine : Pattern.Engine] : SafelistEntry → Option Matcher
  | .literal token => some (.literal token)
  | .pattern text => (engine.compile? text).map .test

/-- The names that a markup text uses. -/
def names (text : String) : List String :=
  Markup.tags text ++ Markup.ids text ++ Markup.classes text

/-- The allow-list of the names in a text and of the entries that can be read. -/
def allowList [Pattern.Engine] (text : String) (safelist : List SafelistEntry) : AllowList :=
  AllowList.ofMatchers ((names text).map .literal ++ safelist.filterMap SafelistEntry.matcher?)

/-- The warnings about entries that cannot be read. -/
def safelistWarnings [engine : Pattern.Engine] (safelist : List SafelistEntry) : List Warning :=
  safelist.filterMap fun
    | .literal _ => none
    | .pattern text => if (engine.compile? text).isSome then none else some (.invalidPattern text)

end Stylesheet.Source
