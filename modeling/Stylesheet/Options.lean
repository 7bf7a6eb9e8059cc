import Stylesheet.Comment
import Stylesheet.FileTree
import Stylesheet.Json.Reader
import Stylesheet.Source

/-!
# Options

What the user can choose, and how it is written in JSON.  Every option has a default and may be left
out, one by one.

A section is an object with the options as its members: unknown members are ignored, and a known one
may not come twice.  It may also be an array with the options in their order, of which any number
may be missing at the end.  The choice of comments may be written as a string, or as an object whose
only member has the choice as its key and the value `null`.

An entry of the safelist is a string, or an object with a member `pattern`.  It has to be sound and
not too deep throughout, also in members that are ignored.
-/

namespace Stylesheet

open Stylesheet.Source (SafelistEntry)

/-! ## Sections -/

/-- What is purged, and where the names in use come from. -/
structure PurgeOptions where
  /-- Is anything purged? -/
  enabled : Bool := true
  /-- Entries that the user adds to the names in use. -/
  safelist : List SafelistEntry := []
  /-- The directory that include paths start from. -/
  root : String := "."
  /-- The files and directories to scan. -/
  includePaths : List String := ["."]
  /-- What is left out of the scan. -/
  excludePaths : List String :=
    [".git", ".vscode", ".next", ".cache", ".tmp", ".vercel", "tmp", "test", "tests", "vendor",
      "node_modules"]
  /-- The extensions of files to scan. -/
  sourceExtensions : List String := ["html", "astro", "jsx", "tsx"]
deriving DecidableEq, Repr

/-- How layers are named, ordered and treated. -/
structure LayerOptions where
  /-- The name of the layer for nodes outside all layers. -/
  orphansName : String := "orphans"
  /-- The layers that come first. -/
  order : List String :=
    ["theme", "reset", "base", "layout.containers", "layout.grid", "layout.flex",
      "layout.shortcuts", "shortcuts", "orphans"]
  /-- The layers that are not purged, sorted. -/
  exempt : List String := ["reset", "theme"]
deriving DecidableEq, Repr

/-- Which passes run. -/
structure OptimizeOptions where
  /-- Merge and sort media blocks? -/
  mediaQueries : Bool := true
  /-- Shorten and fuse backgrounds? -/
  background : Bool := true
  /-- Fuse borders? -/
  border : Bool := true
  /-- Fuse fonts? -/
  font : Bool := true
  /-- Which comments are removed? -/
  comments : Comment.Removal := .nonBang
  /-- Put the character set in front? -/
  charset : Bool := true
deriving DecidableEq, Repr

/-- All options. -/
structure Options where
  /-- Write without optional spaces? -/
  minify : Bool := false
  /-- Purging. -/
  purge : PurgeOptions := {}
  /-- Layers. -/
  layers : LayerOptions := {}
  /-- Passes. -/
  optimize : OptimizeOptions := {}
deriving DecidableEq, Repr

/-! ## Errors -/

/-- Why options cannot be had. -/
inductive OptionsError where
  /-- The text is no JSON for options. -/
  | invalid
  /-- The file cannot be read. -/
  | unreadable (path : String)
  /-- The text of the file is no JSON for options. -/
  | invalidFile (path : String)
deriving DecidableEq, Repr

/-- The wording of an error about a text. -/
def OptionsError.invalidMessage : String := "invalid pipeline options JSON"

/-- The wording of an error. -/
def OptionsError.message : OptionsError → String
  | .invalid => invalidMessage
  | .unreadable path => "reading options from " ++ path
  | .invalidFile path => "parsing options in " ++ path ++ ": " ++ invalidMessage

/-! ## Reading values -/

namespace Json

/-- The truth value that a value is. -/
def bool? : Json → Option Bool
  | .bool b => some b
  | _ => none

/-- The text that a value is. -/
def string? : Json → Option String
  | .string s => some s
  | _ => none

/-- The texts that an array holds. -/
def strings? : Json → Option (List String)
  | .array items => items.mapM string?
  | _ => none

/-- The values of the members with a key. -/
def valuesOf (key : String) (members : List Member) : List Json :=
  (members.filter fun m => m.key == some key).map Member.value

/-- The value of the member with a key, if there is one; refused if there are several. -/
def member? (members : List Member) (key : String) : Option (Option Json) :=
  match valuesOf key members with
  | [] => some none
  | [value] => some (some value)
  | _ => none

/-- The values of the options of a section, given their names in order. -/
def fields? (names : List String) : Json → Option (List (Option Json))
  | .object members =>
      if members.all fun m => m.key.isSome then names.mapM (member? members) else none
  | .array items =>
      if items.length ≤ names.length then
        some (items.map some ++ List.replicate (names.length - items.length) none)
      else none
  | _ => none

/-- A value that may be left out. -/
def orDefault {α : Type} (fallback : α) (read : Json → Option α) : Option Json → Option α
  | none => some fallback
  | some j => read j

end Json

/-! ## Reading options -/

/-- How deep an entry of the safelist may be nested. -/
def maxEntryDepth : Nat := 124

/-- The choice with a name. -/
def removalOfName? : String → Option Comment.Removal
  | "none" => some .none
  | "non-bang" => some .nonBang
  | "all" => some .all
  | _ => none

/-- The choice of comments that a value writes. -/
def removal? : Json → Option Comment.Removal
  | .string name => removalOfName? name
  | .object [⟨some name, .null⟩] => removalOfName? name
  | _ => none

/-- The entry of a safelist that a value writes. -/
def safelistEntry? : Json → Option SafelistEntry
  | .string token => some (.literal token)
  | .object members =>
      let j := Json.object members
      if j.isSound && j.depth ≤ maxEntryDepth then do
        let value ← (← Json.member? members "pattern")
        return .pattern (← value.string?)
      else none
  | _ => none

/-- The safelist that a value writes. -/
def safelist? : Json → Option (List SafelistEntry)
  | .array items => items.mapM safelistEntry?
  | _ => none

/-- The set of texts that a value writes, sorted. -/
def sortedStrings? (j : Json) : Option (List String) := j.strings?.map Text.sortedSet

/-- The names of the options of `PurgeOptions`. -/
def PurgeOptions.names : List String :=
  ["enabled", "safelist", "root", "includePaths", "excludePaths", "sourceExtensions"]

/-- The options for purging that a value writes. -/
def PurgeOptions.ofJson? (j : Json) : Option PurgeOptions := do
  let d : PurgeOptions := {}
  match ← j.fields? PurgeOptions.names with
  | [enabled, safelist, root, includePaths, excludePaths, sourceExtensions] =>
      return {
        enabled := ← Json.orDefault d.enabled Json.bool? enabled
        safelist := ← Json.orDefault d.safelist safelist? safelist
        root := ← Json.orDefault d.root Json.string? root
        includePaths := ← Json.orDefault d.includePaths Json.strings? includePaths
        excludePaths := ← Json.orDefault d.excludePaths Json.strings? excludePaths
        sourceExtensions := ← Json.orDefault d.sourceExtensions Json.strings? sourceExtensions }
  | _ => none

/-- The names of the options of `LayerOptions`. -/
def LayerOptions.names : List String := ["orphansName", "order", "exempt"]

/-- The options for layers that a value writes. -/
def LayerOptions.ofJson? (j : Json) : Option LayerOptions := do
  let d : LayerOptions := {}
  match ← j.fields? LayerOptions.names with
  | [orphansName, order, exempt] =>
      return {
        orphansName := ← Json.orDefault d.orphansName Json.string? orphansName
        order := ← Json.orDefault d.order Json.strings? order
        exempt := ← Json.orDefault d.exempt sortedStrings? exempt }
  | _ => none

/-- The names of the options of `OptimizeOptions`. -/
def OptimizeOptions.names : List String :=
  ["mediaQueries", "background", "border", "font", "comments", "charset"]

/-- The choice of passes that a value writes. -/
def OptimizeOptions.ofJson? (j : Json) : Option OptimizeOptions := do
  let d : OptimizeOptions := {}
  match ← j.fields? OptimizeOptions.names with
  | [mediaQueries, background, border, font, comments, charset] =>
      return {
        mediaQueries := ← Json.orDefault d.mediaQueries Json.bool? mediaQueries
        background := ← Json.orDefault d.background Json.bool? background
        border := ← Json.orDefault d.border Json.bool? border
        font := ← Json.orDefault d.font Json.bool? font
        comments := ← Json.orDefault d.comments removal? comments
        charset := ← Json.orDefault d.charset Json.bool? charset }
  | _ => none

namespace Options

/-- The names of the options of `Options`. -/
def names : List String := ["minify", "purge", "layers", "optimize"]

/-- The options that a value writes. -/
def ofJson? (j : Json) : Option Options := do
  let d : Options := {}
  match ← j.fields? names with
  | [minify, purge, layers, optimize] =>
      return {
        minify := ← Json.orDefault d.minify Json.bool? minify
        purge := ← Json.orDefault d.purge PurgeOptions.ofJson? purge
        layers := ← Json.orDefault d.layers LayerOptions.ofJson? layers
        optimize := ← Json.orDefault d.optimize OptimizeOptions.ofJson? optimize }
  | _ => none

/-- The options that a text writes. -/
def ofText (text : String) : Except OptionsError Options :=
  match Json.ofText? text >>= ofJson? with
  | some options => .ok options
  | none => .error .invalid

/-- The options that a file holds. -/
def ofFile (files : FileSystem) (path : String) : Except OptionsError Options :=
  match files.readText? path with
  | none => .error (.unreadable path)
  | some text =>
      match ofText text with
      | .ok options => .ok options
      | .error _ => .error (.invalidFile path)

end Options

/-! ## Writing options -/

/-- An object with some members. -/
def Json.ofMembers (members : List (String × Json)) : Json :=
  .object (members.map fun (key, value) => ⟨some key, value⟩)

/-- An array of texts. -/
def Json.ofStrings (strings : List String) : Json := .array (strings.map .string)

/-- The name of a choice of comments. -/
def removalName : Comment.Removal → String
  | .none => "none"
  | .nonBang => "non-bang"
  | .all => "all"

/-- The value of an entry of the safelist. -/
def Source.SafelistEntry.toJson : SafelistEntry → Json
  | .literal token => .string token
  | .pattern text => .ofMembers [("pattern", .string text)]

/-- The value of the options for purging. -/
def PurgeOptions.toJson (o : PurgeOptions) : Json :=
  .ofMembers [("enabled", .bool o.enabled), ("safelist", .array (o.safelist.map (·.toJson))),
    ("root", .string o.root), ("includePaths", .ofStrings o.includePaths),
    ("excludePaths", .ofStrings o.excludePaths),
    ("sourceExtensions", .ofStrings o.sourceExtensions)]

/-- The value of the options for layers. -/
def LayerOptions.toJson (o : LayerOptions) : Json :=
  .ofMembers [("orphansName", .string o.orphansName), ("order", .ofStrings o.order),
    ("exempt", .ofStrings o.exempt)]

/-- The value of the choice of passes. -/
def OptimizeOptions.toJson (o : OptimizeOptions) : Json :=
  .ofMembers [("mediaQueries", .bool o.mediaQueries), ("background", .bool o.background),
    ("border", .bool o.border), ("font", .bool o.font),
    ("comments", .string (removalName o.comments)), ("charset", .bool o.charset)]

/-- The value of all options. -/
def Options.toJson (o : Options) : Json :=
  .ofMembers [("minify", .bool o.minify), ("purge", o.purge.toJson), ("layers", o.layers.toJson),
    ("optimize", o.optimize.toJson)]

end Stylesheet
