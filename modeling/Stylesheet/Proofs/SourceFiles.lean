import Mathlib.Data.List.Basic
import Stylesheet.Source

/-!
# Which files are scanned

`Source.walk` does not look into a directory that is excluded.  That loses nothing and lets nothing in: a
scan finds the files that are not excluded themselves, each asked by its own path (`scan_eq_filter_files`).

* `FileTree.files` lists the files of a tree with the names that lead to them, depth first, and no filter
  is asked.  It is checked against `FileTree.Leads`, which only follows names (`mem_files_iff`).
* Exclusion is inherited.  An entry that covers a path covers what lies below it, be it a name or the front
  of a path (`isExcluded_append`).  This is what cutting off a directory rests on (`walk_eq_selected`).
* The path that is asked about starts from the root.  An include path is joined to the root and the root is
  taken off again, and what is left are the segments of the include path (`segments_join`), except that a
  `.` in front of it means nothing below a root that is written.
-/

namespace Stylesheet

/-! ## The files of a tree -/

namespace FileTree

/-- A file of a tree. -/
structure Leaf where
  /-- The names that lead to it. -/
  names : List String
  /-- Its text, if its bytes are text. -/
  text : Option String

/-- A file as it is seen from the directory that has a tree with it under a name. -/
def Leaf.below (name : String) (leaf : Leaf) : Leaf := { leaf with names := name :: leaf.names }

/-- The path of a file in a tree that has a path itself. -/
def Leaf.path (front : List Path.Segment) (leaf : Leaf) : List Path.Segment :=
  front ++ leaf.names.map .name

theorem Leaf.path_below (name : String) (front : List Path.Segment) (leaf : Leaf) :
    (leaf.below name).path front = leaf.path (front ++ [.name name]) := by
  rw [path, path, below, List.map_cons, List.append_assoc, List.singleton_append]

mutual

/-- The files of a tree, depth first, with the entries of each directory in the order of their names. -/
def files : FileTree → List Leaf
  | .file text => [⟨[], text⟩]
  | .directory entries =>
      ((filesOfAll entries).mergeSort fun a b => a.1 ≤ b.1).flatMap fun (name, leaves) =>
        leaves.map (Leaf.below name)

/-- The files of each of some entries, with the name of the entry. -/
def filesOfAll : List Entry → List (String × List Leaf)
  | [] => []
  | entry :: entries => filesOf entry :: filesOfAll entries

/-- The files of an entry, with its name. -/
def filesOf : Entry → String × List Leaf
  | ⟨name, tree⟩ => (name, files tree)

end

/-- Some names lead from a tree to another one. -/
inductive Leads : FileTree → List String → FileTree → Prop where
  /-- Without a name one stays where one is. -/
  | here (tree : FileTree) : Leads tree [] tree
  /-- The name of an entry leads to what it holds. -/
  | enter {entries : List Entry} {name : String} {tree leaf : FileTree} {names : List String} :
      ⟨name, tree⟩ ∈ entries → Leads tree names leaf →
        Leads (.directory entries) (name :: names) leaf

theorem filesOfAll_eq_map (entries : List Entry) :
    filesOfAll entries = entries.map fun entry => (entry.name, entry.tree.files) := by
  induction entries with
  | nil => rfl
  | cons entry entries ih =>
      obtain ⟨name, tree⟩ := entry
      rw [filesOfAll, ih, List.map_cons, filesOf]

theorem mem_files_directory_iff {entries : List Entry} {leaf : Leaf} :
    leaf ∈ files (.directory entries) ↔
      ∃ entry ∈ entries, ∃ inner ∈ entry.tree.files, inner.below entry.name = leaf := by
  simp only [files, filesOfAll_eq_map, List.mem_flatMap, List.mem_mergeSort, List.mem_map]
  constructor
  · rintro ⟨_, ⟨entry, hentry, rfl⟩, inner, hinner, hleaf⟩
    exact ⟨entry, hentry, inner, hinner, hleaf⟩
  · rintro ⟨entry, hentry, inner, hinner, hleaf⟩
    exact ⟨_, ⟨entry, hentry, rfl⟩, inner, hinner, hleaf⟩

/-- The files of a tree are those to which names lead. -/
theorem mem_files_iff {tree : FileTree} {leaf : Leaf} :
    leaf ∈ tree.files ↔ Leads tree leaf.names (.file leaf.text) := by
  obtain ⟨names, text⟩ := leaf
  constructor
  · intro h
    induction names generalizing tree with
    | nil =>
        cases tree with
        | file text' =>
            obtain rfl : text = text' := (Leaf.mk.inj (List.mem_singleton.1 h)).2
            exact .here _
        | directory entries =>
            obtain ⟨_, _, _, _, hleaf⟩ := mem_files_directory_iff.1 h
            cases (Leaf.mk.inj hleaf).1
    | cons name names ih =>
        cases tree with
        | file text' => cases (Leaf.mk.inj (List.mem_singleton.1 h)).1
        | directory entries =>
            obtain ⟨⟨_, _⟩, hentry, inner, hinner, hleaf⟩ := mem_files_directory_iff.1 h
            cases hleaf
            exact .enter hentry (ih hinner)
  · intro h
    induction names generalizing tree with
    | nil =>
        cases h with
        | here => exact List.mem_singleton_self _
    | cons name names ih =>
        cases h with
        | enter hentry h => exact mem_files_directory_iff.2 ⟨_, hentry, _, ih h, rfl⟩

end FileTree

/-! ## Paths inside a root -/

namespace Path

variable {base path first : String} {rest : List String}

theorem pieces_append_slash (a b : List Char) :
    pieces (.ofList (a ++ '/' :: b)) = pieces (.ofList a) ++ pieces (.ofList b) := by
  simp only [pieces, String.toList_ofList, List.splitOn_append_cons_self, List.map_append]

/-- What the first piece of a path with more pieces stands for. -/
def front (first : String) : List Segment :=
  if first == "." then [.here] else if first == "" then [.root] else (segment? first).toList

theorem segments_eq_front (h : pieces path = first :: rest) (hrest : first = "" → rest ≠ []) :
    segments path = front first ++ rest.filterMap segment? := by
  have hroot : (first == "" && !rest.isEmpty) = (first == "") := by
    by_cases hfirst : first = ""
    · simp [hfirst, hrest hfirst]
    · simp [hfirst]
  rw [segments, h]
  dsimp only
  rw [hroot, front]

/-- Only the empty path has an empty piece and no other. -/
theorem eq_nil_of_pieces {cs : List Char} (h : pieces (.ofList cs) = [""]) : cs = [] := by
  have hpieces : (cs.splitOn '/').map String.ofList = [[]].map String.ofList := by
    rw [← String.toList_ofList (l := cs)]
    exact h
  have hsplit : cs.splitOn '/' = [[]] :=
    (List.map_inj_right fun _ _ hlist => String.ofList_injective hlist).1 hpieces
  have hcs : ['/'].intercalate (cs.splitOn '/') = cs := List.intercalate_splitOn '/'
  rw [← hcs, hsplit]
  rfl

/-- What stands in front of a slash is read without regard to what stands behind it. -/
theorem exists_opening (trunk : List Char) :
    ∃ opening, (trunk ≠ [] → segments (.ofList trunk) = opening) ∧
      ∀ tail, segments (.ofList (trunk ++ '/' :: tail)) =
        opening ++ (pieces (.ofList tail)).filterMap segment? := by
  obtain ⟨first, rest, hpieces⟩ : ∃ first rest, pieces (.ofList trunk) = first :: rest := by
    refine List.exists_cons_of_ne_nil ?_
    rw [pieces]
    exact fun hnil => List.splitOn_ne_nil _ _ (List.map_eq_nil_iff.1 hnil)
  refine ⟨front first ++ rest.filterMap segment?, fun htrunk => ?_, fun tail => ?_⟩
  · refine segments_eq_front hpieces fun hfirst hrest => htrunk (eq_nil_of_pieces ?_)
    rw [hpieces, hfirst, hrest]
  · have hall : pieces (.ofList (trunk ++ '/' :: tail)) = first :: (rest ++ pieces (.ofList tail)) := by
      rw [pieces_append_slash, hpieces, List.cons_append]
    have htail : pieces (.ofList tail) ≠ [] := by
      rw [pieces]
      exact fun hnil => List.splitOn_ne_nil _ _ (List.map_eq_nil_iff.1 hnil)
    rw [segments_eq_front hall fun _ => List.append_ne_nil_of_right_ne_nil _ htail,
      List.filterMap_append, List.append_assoc]

/-- The segments of a path that is written inside a base, when it is not absolute.  Only without a base
does a `.` in front of it mean anything. -/
def inside (base path : String) : List Segment :=
  if base.isEmpty then segments path else (pieces path).filterMap segment?

/-- Joining paths puts their segments one after the other. -/
theorem segments_join (h : Text.startsWith "/" path = false) :
    segments (join base path) = segments base ++ inside base path := by
  rw [join, if_neg (ne_true_of_eq_false h), inside]
  by_cases hbase : base = ""
  · subst hbase
    show segments ("" ++ path) = segments path
    rw [String.empty_append]
  have hempty : base.isEmpty = false := by simpa using hbase
  rw [hempty, if_neg Bool.false_ne_true, Bool.false_or]
  by_cases hslash : Text.endsWith "/" base = true
  · obtain ⟨trunk, htrunk⟩ := List.isSuffixOf_iff_suffix.1 hslash
    obtain ⟨opening, -, hopening⟩ := exists_opening trunk
    obtain rfl : base = .ofList (trunk ++ ['/']) := String.toList_injective (by simp [← htrunk])
    have hjoin : String.ofList (trunk ++ ['/']) ++ path = .ofList (trunk ++ '/' :: path.toList) :=
      String.toList_injective (by simp)
    rw [if_pos hslash, hjoin, hopening, hopening, String.ofList_toList]
    have : (pieces (.ofList [])).filterMap segment? = [] := by decide
    rw [this, List.append_nil]
  · obtain ⟨opening, htrunk, hopening⟩ := exists_opening base.toList
    have hjoin : base ++ "/" ++ path = .ofList (base.toList ++ '/' :: path.toList) :=
      String.toList_injective (by simp)
    rw [if_neg hslash, hjoin, hopening, ← htrunk (by simpa using hbase), String.ofList_toList,
      String.ofList_toList]

theorem dropFront?_append (front path : List Segment) :
    dropFront? front (front ++ path) = some path := by
  induction front with
  | nil => rfl
  | cons segment front ih => rw [List.cons_append, dropFront?, if_pos rfl, ih]

end Path

/-! ## Cutting off directories -/

namespace Source

open Stylesheet.Path (Segment)
open Stylesheet.FileTree (Leaf)

theorem covers_append {entry : String} {path : List Segment} (h : covers entry path = true)
    (more : List Segment) : covers entry (path ++ more) = true := by
  rw [covers] at h ⊢
  split at h
  · next hpath =>
      rw [if_pos hpath]
      rw [List.isPrefixOf_iff_prefix] at h ⊢
      exact h.trans (List.prefix_append path more)
  · next hname =>
      rw [if_neg hname]
      rw [List.contains_iff_mem] at h ⊢
      exact List.mem_append_left more h

/-- What lies below an excluded path is excluded. -/
theorem isExcluded_append {excludes : List String} {path : List Segment}
    (h : isExcluded excludes path = true) (more : List Segment) :
    isExcluded excludes (path ++ more) = true := by
  obtain ⟨entry, hentry, hcovers⟩ := List.any_eq_true.1 h
  exact List.any_eq_true.2 ⟨entry, hentry, covers_append hcovers more⟩

/-- The path below the root is what is asked about. -/
theorem Filter.rejects_append (filter : Filter) (path : List Segment) :
    filter.rejects (filter.root ++ path) = isExcluded filter.excludes path := by
  rw [Filter.rejects, Path.dropFront?_append, Option.getD_some]

/-- Is a file at a path one that a filter lets through? -/
def Filter.takes (filter : Filter) (path : List Segment) : Bool :=
  !filter.rejects path && filter.wants path

/-- What stands beside some names can be changed before they are sorted or after it. -/
theorem mergeSort_map_snd {α β : Type} (change : String × α → β) (rows : List (String × α)) :
    (rows.map fun row => (row.1, change row)).mergeSort (fun a b => a.1 ≤ b.1) =
      (rows.mergeSort fun a b => a.1 ≤ b.1).map fun row => (row.1, change row) :=
  (List.map_mergeSort (f := fun row => (row.1, change row)) fun _ _ _ _ => rfl).symm

section Walk

variable (filter : Filter)

/-- The files of a tree that a filter lets through, each asked by its own path. -/
def selected (path : List Segment) (tree : FileTree) : List (Option String) :=
  (tree.files.filter fun leaf => filter.takes (leaf.path path)).map Leaf.text

/-- The files that a filter lets through from a directory come entry by entry. -/
theorem selected_directory (path : List Segment) (entries : List Entry) :
    selected filter path (.directory entries) =
      ((entries.map fun entry =>
          (entry.name, selected filter (path ++ [.name entry.name]) entry.tree)).mergeSort
        fun a b => a.1 ≤ b.1).flatMap Prod.snd := by
  have hbelow : ∀ (name : String) (leaves : List Leaf),
      ((leaves.map (Leaf.below name)).filter fun leaf => filter.takes (leaf.path path)).map
          Leaf.text =
        (leaves.filter fun leaf => filter.takes (leaf.path (path ++ [.name name]))).map
          Leaf.text := by
    intro name leaves
    rw [List.filter_map, List.map_map]
    refine congrArg _ (List.filter_congr fun leaf _ => ?_)
    exact congrArg filter.takes (Leaf.path_below name path leaf)
  have hrows : (entries.map fun entry =>
      (entry.name, selected filter (path ++ [.name entry.name]) entry.tree)) =
        (FileTree.filesOfAll entries).map fun row => (row.1,
          (row.2.filter fun leaf => filter.takes (leaf.path (path ++ [.name row.1]))).map
            Leaf.text) := by
    rw [FileTree.filesOfAll_eq_map, List.map_map]
    rfl
  rw [hrows, mergeSort_map_snd, List.flatMap_map, selected, FileTree.files, List.filter_flatMap,
    List.map_flatMap]
  exact List.flatMap_congr fun row _ => hbelow row.1 row.2

/-- Nothing is taken from a directory that is excluded. -/
theorem selected_eq_nil {path : List Segment} (h : filter.rejects (filter.root ++ path) = true)
    (tree : FileTree) : selected filter (filter.root ++ path) tree = [] := by
  refine List.map_eq_nil_iff.2 (List.filter_eq_nil_iff.2 fun leaf _ => ?_)
  rw [Filter.rejects_append] at h
  rw [Leaf.path, List.append_assoc, Filter.takes, Filter.rejects_append, isExcluded_append h]
  exact Bool.false_ne_true

mutual

/-- To cut off the directories that are excluded is to leave out the files that are. -/
theorem walk_eq_selected (path : List Segment) : ∀ tree : FileTree,
    walk filter (filter.root ++ path) tree = selected filter (filter.root ++ path) tree
  | .file text => by
      have hpath : Leaf.path (filter.root ++ path) ⟨[], text⟩ = filter.root ++ path :=
        List.append_nil _
      rw [walk, selected, FileTree.files, List.filter_singleton, hpath, Filter.takes, cond_eq_ite]
      split
      · rfl
      · rfl
  | .directory entries => by
      rw [walk]
      split
      · next hrejects => exact (selected_eq_nil filter hrejects _).symm
      · rw [walkEntries_eq_selected path entries, selected_directory]

theorem walkEntries_eq_selected (path : List Segment) : ∀ entries : List Entry,
    walkEntries filter (filter.root ++ path) entries =
      entries.map fun entry =>
        (entry.name, selected filter (filter.root ++ path ++ [.name entry.name]) entry.tree)
  | [] => rfl
  | entry :: entries => by
      rw [walkEntries, walkEntries_eq_selected path entries, walkEntry_eq_selected path entry,
        List.map_cons]

theorem walkEntry_eq_selected (path : List Segment) : ∀ entry : Entry,
    walkEntry filter (filter.root ++ path) entry =
      (entry.name, selected filter (filter.root ++ path ++ [.name entry.name]) entry.tree)
  | ⟨name, tree⟩ => by
      rw [walkEntry, List.append_assoc, walk_eq_selected (path ++ [Segment.name name]) tree]

end

end Walk

/-! ## Scanning -/

/-- The files at and below an include path, if it leads somewhere. -/
def included (files : FileSystem) (request : Request) (path : String) : List Leaf :=
  ((files.lookup? (Path.join request.root path)).map FileTree.files).getD []

/-- Is a file below an include path asked for?  Its path from the root must not be excluded, and its
extension in lower case must be supported and among those requested. -/
def asksFor (request : Request) (path : String) (leaf : Leaf) : Bool :=
  !isExcluded request.excludes (leaf.path (Path.inside request.root path)) &&
    (Path.extension? (leaf.path (Path.segments (Path.join request.root path)))).any fun extension =>
      (request.extensions.map normalizeExtension).contains (Text.lowercase extension) &&
        supportedExtensions.contains (Text.lowercase extension)

variable {request : Request} {path : String}

theorem contains_acceptedExtensions (requested : List String) (extension : String) :
    (acceptedExtensions requested).contains extension =
      ((requested.map normalizeExtension).contains extension &&
        supportedExtensions.contains extension) := by
  rw [Bool.eq_iff_iff, Bool.and_eq_true, List.contains_iff_mem, List.contains_iff_mem,
    acceptedExtensions, Text.mem_sortedSet, List.mem_filter]

/-- What a request looks for. -/
def Request.filter (request : Request) : Filter :=
  ⟨Path.segments request.root, request.excludes, acceptedExtensions request.extensions⟩

theorem takes_eq_asksFor (h : Text.startsWith "/" path = false) (leaf : Leaf) :
    request.filter.takes (leaf.path (Path.segments (Path.join request.root path))) =
      asksFor request path leaf := by
  have hrejects : request.filter.rejects (leaf.path (Path.segments (Path.join request.root path))) =
      isExcluded request.excludes (leaf.path (Path.inside request.root path)) := by
    rw [Path.segments_join h, Leaf.path, List.append_assoc]
    exact Filter.rejects_append request.filter _
  rw [Filter.takes, hrejects, asksFor, Filter.wants]
  simp only [Request.filter, contains_acceptedExtensions]

/-- What is collected at and below an include path are the texts of the files that are asked for. -/
theorem collect?_eq_included (files : FileSystem) (h : Text.startsWith "/" path = false) :
    (collect? files request path).getD [] =
      ((included files request path).filter (asksFor request path)).map Leaf.text := by
  rw [collect?, included]
  cases files.lookup? (Path.join request.root path) with
  | none => rfl
  | some tree =>
      have hwalk : walk request.filter (Path.segments (Path.join request.root path)) tree =
          selected request.filter (Path.segments (Path.join request.root path)) tree := by
        rw [Path.segments_join h]
        exact walk_eq_selected request.filter (Path.inside request.root path) tree
      show walk request.filter (Path.segments (Path.join request.root path)) tree =
        (tree.files.filter (asksFor request path)).map Leaf.text
      rw [hwalk, selected]
      exact congrArg (List.map Leaf.text)
        (List.filter_congr fun leaf _ => takes_eq_asksFor h leaf)

/-- A scan finds the texts of just the files that are asked for and are text, and puts each on lines of its
own: include path by include path, depth first, and by name in a directory. -/
theorem scan_eq_filter_files (files : FileSystem) (request : Request)
    (h : ∀ path ∈ request.includes, Text.startsWith "/" path = false) :
    scan files request =
      Text.join "\n" (request.includes.flatMap fun path =>
        ((included files request path).filter (asksFor request path)).filterMap Leaf.text) := by
  rw [scan, texts]
  refine congrArg _ (List.flatMap_congr fun path hpath => ?_)
  rw [collect?_eq_included files (h path hpath), List.filterMap_map]
  rfl

/-- A directory with two directories that are excluded, one by its name and one by its path. -/
def shop : FileTree :=
  .directory [
    ⟨"node_modules", .directory [⟨"index.html", .file (some "<aside>")⟩]⟩,
    ⟨"src", .directory [
      ⟨"nav.HTM", .file (some "<nav>")⟩,
      ⟨"drafts", .directory [⟨"draft.html", .file (some "<del>")⟩]⟩,
      ⟨"drafts.html", .file (some "<ins>")⟩,
      ⟨"photo.html", .file none⟩,
      ⟨"notes.txt", .file (some "<p>")⟩]⟩]

/-- All files, when the shop does not lie in the working directory. -/
def market : FileSystem where
  top := .directory [⟨"home", .directory []⟩, ⟨"srv", .directory [⟨"shop", shop⟩]⟩]
  here := ["home"]

/-- A request that reaches every file of the shop twice. -/
def shopRequest (root : String) : Request :=
  ⟨root, [".", "missing", "."], ["node_modules", "./src/drafts"], [" .HTML", "htm", "exe"]⟩

/-- The shop is scanned by its absolute path, and by the way from the working directory. -/
theorem scan_shop :
    (∀ path ∈ (shopRequest "/srv/shop").includes, Text.startsWith "/" path = false) ∧
      scan market (shopRequest "/srv/shop") = "<ins>\n<nav>\n<ins>\n<nav>" ∧
      scan market (shopRequest "../srv/shop") = "<ins>\n<nav>\n<ins>\n<nav>" := by
  have h : ∀ root, ∀ path ∈ (shopRequest root).includes, Text.startsWith "/" path = false := by
    intro root
    show ∀ path ∈ [".", "missing", "."], _
    decide
  have hfiles : shop.files =
      [⟨["node_modules", "index.html"], some "<aside>"⟩,
        ⟨["src", "drafts", "draft.html"], some "<del>"⟩, ⟨["src", "drafts.html"], some "<ins>"⟩,
        ⟨["src", "nav.HTM"], some "<nav>"⟩, ⟨["src", "notes.txt"], some "<p>"⟩,
        ⟨["src", "photo.html"], none⟩] := by
    simp [shop, FileTree.files, FileTree.filesOfAll, FileTree.filesOf, List.mergeSort, Leaf.below]
  have hscan : ∀ root, included market (shopRequest root) "." = shop.files →
      included market (shopRequest root) "missing" = [] →
      (shop.files.filter (asksFor (shopRequest root) ".")).filterMap Leaf.text =
        ["<ins>", "<nav>"] →
      scan market (shopRequest root) = "<ins>\n<nav>\n<ins>\n<nav>" := by
    intro root hshop hmissing hasked
    rw [scan_eq_filter_files market _ (h root)]
    show Text.join "\n" ([_, _, _].flatMap _) = _
    rw [List.flatMap_cons, List.flatMap_cons, List.flatMap_singleton, hshop, hmissing, hasked]
    rfl
  refine ⟨h _, hscan _ rfl rfl ?_, hscan _ rfl rfl ?_⟩
  · rw [hfiles]
    decide +kernel
  · rw [hfiles]
    decide +kernel

end Source

end Stylesheet
