import Stylesheet.Charset
import Stylesheet.Layer
import Stylesheet.Media.Merge
import Stylesheet.Node.Printer
import Stylesheet.Node.Reader
import Stylesheet.Options
import Stylesheet.Purge
import Stylesheet.Shorthand.Background
import Stylesheet.Shorthand.Border
import Stylesheet.Shorthand.Font

/-!
# Processing a stylesheet

`Pipeline.process` does everything that the options ask for.

1. Directives that name the character set are removed.
2. If anything is to be purged, the markup files are scanned for the names in use, and the patterns
   that the user adds to these are read by an engine.
3. The stylesheet is gathered into layers, and every layer block is treated by itself: it is purged
   unless its layer is exempt, its media blocks are merged and sorted, comments are removed, and
   longhands are fused.
4. Comments at the top level are removed, and the character set is put in front.

Nothing fails.  What is left as it was for some reason is reported as a warning.
-/

namespace Stylesheet.Pipeline

/-! ## Reports and warnings -/

/-- A warning from one of the steps. -/
inductive Warning where
  /-- From the scan of the markup. -/
  | source (w : Source.Warning)
  /-- From purging. -/
  | purge (w : Purge.Warning)

/-- The wording of a warning. -/
def Warning.message : Warning → String
  | .source w => w.message
  | .purge w => w.message

/-- What was done to a layer block. -/
structure BlockReport where
  /-- Purging. -/
  purge : Purge.Report := {}
  /-- Media blocks. -/
  media : Media.Report := {}
  /-- Background shorthands made. -/
  backgrounds : Nat := 0
  /-- Border shorthands made. -/
  borders : Border.Report := {}
  /-- Font shorthands made. -/
  fonts : Nat := 0

/-- The sum of two reports. -/
def BlockReport.add (a b : BlockReport) : BlockReport where
  purge := a.purge.add b.purge
  media := a.media.add b.media
  backgrounds := a.backgrounds + b.backgrounds
  borders := a.borders.add b.borders
  fonts := a.fonts + b.fonts

/-- What was done to a stylesheet. -/
structure Report where
  /-- The layers in their order. -/
  layerOrder : List String
  /-- What was done to all layer blocks together. -/
  blocks : BlockReport
  /-- Directives that named the character set. -/
  charsetsRemoved : Nat

/-! ## Layer blocks -/

/-- The contents of a layer after treatment, with a report and warnings. -/
structure Treated where
  /-- The nodes in the layer. -/
  nodes : List Node
  /-- What was done. -/
  report : BlockReport := {}
  /-- Selectors that could not be read. -/
  warnings : List Purge.Warning := []

/-- Run a pass if it is asked for: change the nodes, and add to the report. -/
def Treated.run (t : Treated) (asked : Bool) (change : List Node → List Node)
    (count : List Node → BlockReport) : Treated :=
  if asked then { t with nodes := change t.nodes, report := t.report.add (count t.nodes) } else t

/-- Purge the contents of a layer unless it is exempt. -/
def purgeLayer (allow : Option AllowList) (options : Options) (name : String) (nodes : List Node) :
    Treated :=
  match allow with
  | some list =>
      if options.layers.exempt.contains name then { nodes }
      else
        let purged := Purge.purge list nodes
        { nodes := purged.nodes, report := { purge := purged.report }, warnings := purged.warnings }
  | none => { nodes }

/-- Treat the contents of a layer. -/
def treat (allow : Option AllowList) (options : Options) (name : String) (nodes : List Node) :
    Treated :=
  let passes := options.optimize
  let t := purgeLayer allow options name nodes
  let t := t.run passes.mediaQueries Media.normalize fun ns => { media := Media.report ns }
  let t := t.run true (Comment.remove passes.comments) fun _ => {}
  let t := t.run passes.background Background.optimize fun ns =>
    { backgrounds := Background.fusedCount ns }
  let t := t.run passes.border Border.optimize fun ns => { borders := Border.report ns }
  t.run passes.font Font.optimize fun ns => { fonts := Font.fusedCount ns }

/-- Treat a layer block. -/
def treatBlock (allow : Option AllowList) (options : Options) (name : String)
    (block : Layer.Block) : Layer.Block :=
  { block with children := (treat allow options name block.children).nodes }

/-! ## Stylesheets -/

/-- The allow-list that the options ask for, if anything is to be purged. -/
def allowList? [Pattern.Engine] (files : FileSystem) (options : PurgeOptions) : Option AllowList :=
  if options.enabled then
    let request : Source.Request :=
      ⟨options.root, options.includePaths, options.excludePaths, options.sourceExtensions⟩
    some (Source.allowList (Source.scan files request) options.safelist)
  else none

/-- The warnings from making it. -/
def sourceWarnings [Pattern.Engine] (files : FileSystem) (options : PurgeOptions) :
    List Source.Warning :=
  if options.enabled then
    let request : Source.Request :=
      ⟨options.root, options.includePaths, options.excludePaths, options.sourceExtensions⟩
    Source.scanWarnings files request ++ Source.safelistWarnings options.safelist
  else []

/-- How the options ask for layers to be ordered. -/
def plan (options : Options) : Layer.Plan := ⟨options.layers.orphansName, options.layers.order⟩

/-- A stylesheet after processing, with a report and warnings. -/
structure Processed where
  /-- The stylesheet. -/
  document : Document
  /-- What was done. -/
  report : Report
  /-- What was left as it was. -/
  warnings : List Warning

/-- Process a stylesheet in view of some files. -/
def process [Pattern.Engine] (files : FileSystem) (options : Options) (document : Document) :
    Processed :=
  let nodes := Charset.strip document.nodes
  let allow := allowList? files options.purge
  let treated := (Layer.visits (plan options) nodes).map fun (name, block) =>
    treat allow options name block.children
  let organized := Layer.organize (plan options) (treatBlock allow options) nodes
  let cleaned := Comment.removeAtRoot options.optimize.comments organized.nodes
  { document := ⟨if options.optimize.charset then Charset.declare cleaned else cleaned⟩
    report :=
      { layerOrder := organized.names
        blocks := (treated.map Treated.report).foldl BlockReport.add {}
        charsetsRemoved := Charset.strippedCount document.nodes }
    warnings :=
      (sourceWarnings files options.purge).map .source ++
        treated.flatMap fun t => t.warnings.map .purge }

/-- Read, process and write a stylesheet. -/
def processText [Pattern.Engine] (files : FileSystem) (options : Options) (text : String) :
    String :=
  (process files options (.ofText text)).document.render
    (if options.minify then .minified else .pretty)

end Stylesheet.Pipeline
