import Mathlib.Data.String.Basic
import Mathlib.Logic.Relation
import Stylesheet.Options
import Stylesheet.Proofs.Gathering
import Stylesheet.Proofs.JsonText

/-!
# Options that were written are read back

Options are written as an object with three sections, and any member may be left out of the object or of a
section.  What is read back are the options that were written, with the default of each option, or of each
section, that was left out (`ofJson?_leaveOut`).  Members that are no options may be added anywhere to the
object and to its sections, and nothing changes, whatever was written (`ofJson?_eq_of_reflTransGen`).

Both come down to single members.  An option is looked for among the members with its name, and among those
that were written there is one (`fields?_without`).  A member with another name is not looked at
(`fields?_padded`).

`Json.ofText?_render` carries this over to texts.
-/

namespace Stylesheet

open Stylesheet.Source (SafelistEntry)

namespace Json

/-! ## Members that are added -/

/-- Is a member no option with one of some names? -/
def isForeign (names : List String) (m : Member) : Bool := m.key.any fun key => !names.contains key

/-- An object with more members, in any places, that are no options with one of some names. -/
inductive Padded (names : List String) : Json → Json → Prop where
  /-- Without them it is the object from before. -/
  | object (members : List Member) :
      Padded names (.object (members.filter fun m => !isForeign names m)) (.object members)

/-- The keys that are added are text. -/
theorem all_isSome_filter (names : List String) (members : List Member) :
    ((members.filter fun m => !isForeign names m).all fun m => m.key.isSome) =
      members.all fun m => m.key.isSome := by
  rw [List.all_filter]
  congr 1
  funext m
  rw [isForeign]
  cases m.key with
  | none => rfl
  | some key => simp

/-- Options are found among added members. -/
theorem member?_filter {names : List String} {key : String} (hkey : key ∈ names)
    (members : List Member) :
    member? (members.filter fun m => !isForeign names m) key = member? members key := by
  have hfilter : (members.filter fun m => !isForeign names m).filter (fun m => m.key == some key) =
      members.filter fun m => m.key == some key := by
    rw [List.filter_filter]
    refine List.filter_congr fun m _ => ?_
    cases hm : m.key == some key with
    | false => rw [Bool.false_and]
    | true =>
        rw [isForeign, beq_iff_eq.1 hm]
        simpa using hkey
  rw [member?, member?, valuesOf, valuesOf, hfilter]

/-- Members that are added change no option. -/
theorem fields?_padded {names : List String} {j j' : Json} (h : Padded names j j') :
    j'.fields? names = j.fields? names := by
  obtain ⟨members⟩ := h
  have hread : ∀ ms, names.mapM (member? ms) = (names.map (member? ms)).mapM id := fun ms => by
    rw [List.mapM_map, Function.id_comp]
  have hmembers : names.map (member? (members.filter fun m => !isForeign names m)) =
      names.map (member? members) := List.map_congr_left fun key hkey => member?_filter hkey members
  rw [fields?, fields?, all_isSome_filter, hread, hread, hmembers]

/-! ## Members that are left out -/

/-- An object without some of its members. -/
def without (omitted : String → Bool) : Json → Json
  | .object members => .object (members.filter fun m => !m.key.any omitted)
  | j => j

/-- An object with its values changed. -/
def mapValues (change : String → Json → Json) : Json → Json
  | .object members =>
      .object (members.map fun m => { m with value := m.key.elim m.value fun key => change key m.value })
  | j => j

/-- Keys that are left out of an object, and of the objects that are its values. -/
structure Omission where
  /-- Is the member with this key left out? -/
  whole : String → Bool
  /-- Is the member with the second key left out of the value with the first? -/
  inside : String → String → Bool

/-- An object in which some members are left out. -/
def leaveOut (omitted : Omission) (j : Json) : Json :=
  (j.mapValues fun key value => value.without (omitted.inside key)).without omitted.whole

/-- A member with a key. -/
def keyed (m : String × Json) : Member := ⟨some m.1, m.2⟩

theorem without_ofMembers (omitted : String → Bool) (members : List (String × Json)) :
    (ofMembers members).without omitted =
      .object ((members.filter fun m => !omitted m.1).map keyed) := by
  have hkeyed : ofMembers members = .object (members.map keyed) := rfl
  rw [hkeyed, without, List.filter_map]
  rfl

/-- Among members with different keys there is one with the key of each. -/
theorem filter_eq_singleton {members : List (String × Json)}
    (hnodup : (members.map Prod.fst).Nodup) {m : String × Json} (hm : m ∈ members) :
    members.filter (fun n => n.1 == m.1) = [m] := by
  induction members with
  | nil => cases hm
  | cons n members ih =>
      obtain ⟨hnew, hrest⟩ := List.nodup_cons.1 hnodup
      rcases List.mem_cons.1 hm with rfl | hmem
      · have hnone : members.filter (fun n => n.1 == m.1) = [] := by
          rw [List.filter_eq_nil_iff]
          intro n hn heq
          exact hnew (List.mem_map.2 ⟨n, hn, beq_iff_eq.1 heq⟩)
        rw [List.filter_cons_of_pos (by simp), hnone]
      · have hne : n.1 ≠ m.1 := fun heq => hnew (List.mem_map.2 ⟨m, hmem, heq.symm⟩)
        rw [List.filter_cons_of_neg (by simpa using hne), ih hrest hmem]

/-- A member is found unless it was left out. -/
theorem member?_keyed {members : List (String × Json)} (hnodup : (members.map Prod.fst).Nodup)
    {m : String × Json} (hm : m ∈ members) (omitted : String → Bool) :
    member? ((members.filter fun n => !omitted n.1).map keyed) m.1 =
      some (if omitted m.1 then none else some m.2) := by
  have hkey : ((fun n : Member => n.key == some m.1) ∘ keyed) = fun n => n.1 == m.1 := rfl
  have hfilter : (members.filter fun n => !omitted n.1).filter (fun n => n.1 == m.1) =
      [m].filter fun n => !omitted n.1 := by
    rw [← filter_eq_singleton hnodup hm, List.filter_filter, List.filter_filter]
    simp only [Bool.and_comm]
  rw [member?, valuesOf, List.filter_map, hkey, hfilter]
  cases homitted : omitted m.1 with
  | true => simp [homitted]
  | false => simp [homitted, keyed]

theorem mapM_eq_some_map {α β : Type} {f : α → Option β} {g : α → β} {l : List α}
    (h : ∀ a ∈ l, f a = some (g a)) : l.mapM f = some (l.map g) := by
  induction l with
  | nil => rfl
  | cons a l ih =>
      rw [List.mapM_cons, h a List.mem_cons_self, ih fun b hb => h b (List.mem_cons_of_mem a hb)]
      rfl

/-- Of an object that was written, the options are those that were not left out. -/
theorem fields?_without {names : List String} (hnodup : names.Nodup) (omitted : String → Bool)
    {members : List (String × Json)} (hnames : members.map Prod.fst = names) :
    ((ofMembers members).without omitted).fields? names =
      some (members.map fun m => if omitted m.1 then none else some m.2) := by
  subst hnames
  have hall : (((members.filter fun m => !omitted m.1).map keyed).all fun m => m.key.isSome) = true := by
    rw [List.all_map, List.all_eq_true]
    exact fun _ _ => rfl
  rw [without_ofMembers, fields?, if_pos hall, List.mapM_map]
  exact mapM_eq_some_map fun m hm => member?_keyed hnodup hm omitted

/-- An option that was left out has its default, and another one the value that was written. -/
theorem orDefault_omitted {α : Type} {read : Json → Option α} {j : Json} {value : α}
    (h : read j = some value) (fallback : α) (omitted : Bool) :
    orDefault fallback read (if omitted then none else some j) =
      some (if omitted then fallback else value) := by
  cases omitted with
  | true => rfl
  | false => exact h

/-! ## Values that were written -/

/-- Values that were written one by one are read one by one. -/
theorem mapM_map_eq_some {α : Type} {write : α → Json} {read : Json → Option α}
    (h : ∀ a, read (write a) = some a) (values : List α) :
    (values.map write).mapM read = some values := by
  have hvalues := mapM_eq_some_map (f := read ∘ write) (l := values) fun a _ => h a
  rw [List.mapM_map, hvalues, List.map_id']

theorem bool?_bool (b : Bool) : (Json.bool b).bool? = some b := rfl

theorem string?_string (s : String) : (Json.string s).string? = some s := rfl

theorem strings?_ofStrings (strings : List String) : (ofStrings strings).strings? = some strings :=
  mapM_map_eq_some string?_string strings

end Json

open Json (Omission Padded bool?_bool fields?_padded fields?_without leaveOut orDefault_omitted
  string?_string strings?_ofStrings without)

theorem safelistEntry?_toJson (entry : SafelistEntry) : safelistEntry? entry.toJson = some entry := by
  cases entry with
  | literal token => rfl
  | pattern source => rfl

theorem safelist?_map_toJson (safelist : List SafelistEntry) :
    safelist? (.array (safelist.map (·.toJson))) = some safelist :=
  Json.mapM_map_eq_some safelistEntry?_toJson safelist

theorem removal?_removalName (removal : Comment.Removal) :
    removal? (.string (removalName removal)) = some removal := by
  cases removal with
  | none | nonBang | all => rfl

/-- A set that is sorted already stays as it is. -/
theorem sortedSet_eq_self {strings : List String} (h : strings.Pairwise (· < ·)) :
    Text.sortedSet strings = strings := by
  have hle : strings.Pairwise fun a b => decide (a ≤ b) = true :=
    h.imp fun hlt => decide_eq_true (Std.le_of_lt hlt)
  have hnodup : strings.Nodup := h.imp fun hlt => Std.ne_of_lt hlt
  rw [Text.sortedSet, List.mergeSort_of_pairwise hle, eraseDups_eq_self hnodup]

theorem sortedStrings?_ofStrings {strings : List String} (h : strings.Pairwise (· < ·)) :
    sortedStrings? (.ofStrings strings) = some strings := by
  rw [sortedStrings?, strings?_ofStrings, Option.map_some, sortedSet_eq_self h]

/-! ## Sections -/

section Sections

variable (omitted : String → Bool)

/-- The options for purging, some of them with their defaults. -/
def PurgeOptions.reset (o : PurgeOptions) : PurgeOptions :=
  let d : PurgeOptions := {}
  { enabled := if omitted "enabled" then d.enabled else o.enabled
    safelist := if omitted "safelist" then d.safelist else o.safelist
    root := if omitted "root" then d.root else o.root
    includePaths := if omitted "includePaths" then d.includePaths else o.includePaths
    excludePaths := if omitted "excludePaths" then d.excludePaths else o.excludePaths
    sourceExtensions :=
      if omitted "sourceExtensions" then d.sourceExtensions else o.sourceExtensions }

/-- The options for layers, some of them with their defaults. -/
def LayerOptions.reset (o : LayerOptions) : LayerOptions :=
  let d : LayerOptions := {}
  { orphansName := if omitted "orphansName" then d.orphansName else o.orphansName
    order := if omitted "order" then d.order else o.order
    exempt := if omitted "exempt" then d.exempt else o.exempt }

/-- The choice of passes, some of them with their defaults. -/
def OptimizeOptions.reset (o : OptimizeOptions) : OptimizeOptions :=
  let d : OptimizeOptions := {}
  { mediaQueries := if omitted "mediaQueries" then d.mediaQueries else o.mediaQueries
    background := if omitted "background" then d.background else o.background
    border := if omitted "border" then d.border else o.border
    font := if omitted "font" then d.font else o.font
    comments := if omitted "comments" then d.comments else o.comments
    charset := if omitted "charset" then d.charset else o.charset }

theorem PurgeOptions.nodup_names : names.Nodup := by decide

theorem LayerOptions.nodup_names : names.Nodup := by decide

theorem OptimizeOptions.nodup_names : names.Nodup := by decide

theorem PurgeOptions.ofJson?_without (o : PurgeOptions) :
    ofJson? (o.toJson.without omitted) = some (o.reset omitted) := by
  have hfields : (o.toJson.without omitted).fields? names = some _ :=
    fields?_without nodup_names omitted (by rfl)
  rw [ofJson?, hfields]
  simp only [Option.bind_eq_bind, Option.bind_some, List.map_cons, List.map_nil,
    orDefault_omitted (bool?_bool _), orDefault_omitted (safelist?_map_toJson _),
    orDefault_omitted (string?_string _), orDefault_omitted (strings?_ofStrings _)]
  rfl

theorem LayerOptions.ofJson?_without {o : LayerOptions} (hexempt : o.exempt.Pairwise (· < ·)) :
    ofJson? (o.toJson.without omitted) = some (o.reset omitted) := by
  have hfields : (o.toJson.without omitted).fields? names = some _ :=
    fields?_without nodup_names omitted (by rfl)
  rw [ofJson?, hfields]
  simp only [Option.bind_eq_bind, Option.bind_some, List.map_cons, List.map_nil,
    orDefault_omitted (string?_string _), orDefault_omitted (strings?_ofStrings _),
    orDefault_omitted (sortedStrings?_ofStrings hexempt)]
  rfl

theorem OptimizeOptions.ofJson?_without (o : OptimizeOptions) :
    ofJson? (o.toJson.without omitted) = some (o.reset omitted) := by
  have hfields : (o.toJson.without omitted).fields? names = some _ :=
    fields?_without nodup_names omitted (by rfl)
  rw [ofJson?, hfields]
  simp only [Option.bind_eq_bind, Option.bind_some, List.map_cons, List.map_nil,
    orDefault_omitted (bool?_bool _), orDefault_omitted (removal?_removalName _)]
  rfl

end Sections

section Padding

variable {j j' : Json}

theorem PurgeOptions.ofJson?_padded (h : Padded names j j') : ofJson? j' = ofJson? j := by
  rw [ofJson?, ofJson?, fields?_padded h]

theorem LayerOptions.ofJson?_padded (h : Padded names j j') : ofJson? j' = ofJson? j := by
  rw [ofJson?, ofJson?, fields?_padded h]

theorem OptimizeOptions.ofJson?_padded (h : Padded names j j') : ofJson? j' = ofJson? j := by
  rw [ofJson?, ofJson?, fields?_padded h]

end Padding

/-! ## All options -/

namespace Options

/-- All options, some of them, or of the sections, with their defaults. -/
def reset (omitted : Omission) (o : Options) : Options :=
  let d : Options := {}
  { minify := if omitted.whole "minify" then d.minify else o.minify
    purge := if omitted.whole "purge" then d.purge else o.purge.reset (omitted.inside "purge")
    layers := if omitted.whole "layers" then d.layers else o.layers.reset (omitted.inside "layers")
    optimize :=
      if omitted.whole "optimize" then d.optimize else o.optimize.reset (omitted.inside "optimize") }

theorem nodup_names : names.Nodup := by decide

/-- What is read of options that were written in part. -/
theorem ofJson?_leaveOut {o : Options} (hexempt : o.layers.exempt.Pairwise (· < ·))
    (omitted : Omission) : ofJson? (o.toJson.leaveOut omitted) = some (o.reset omitted) := by
  have hwritten : o.toJson.leaveOut omitted =
      (Json.ofMembers [("minify", .bool o.minify),
        ("purge", o.purge.toJson.without (omitted.inside "purge")),
        ("layers", o.layers.toJson.without (omitted.inside "layers")),
        ("optimize", o.optimize.toJson.without (omitted.inside "optimize"))]).without omitted.whole := rfl
  rw [hwritten, ofJson?, fields?_without nodup_names omitted.whole (by rfl)]
  simp only [Option.bind_eq_bind, Option.bind_some, List.map_cons, List.map_nil,
    orDefault_omitted (bool?_bool _), orDefault_omitted (PurgeOptions.ofJson?_without _ _),
    orDefault_omitted (LayerOptions.ofJson?_without _ hexempt),
    orDefault_omitted (OptimizeOptions.ofJson?_without _ _)]
  rfl

/-- The sections with the names of their options. -/
def sections : List (String × List String) :=
  [("purge", PurgeOptions.names), ("layers", LayerOptions.names),
    ("optimize", OptimizeOptions.names)]

/-- Members that are no options are added to the object, or to a section of it. -/
inductive Pads : Json → Json → Prop where
  /-- They are added to the object. -/
  | whole {j j' : Json} (h : Padded names j j') : Pads j j'
  /-- They are added to a section. -/
  | inside {key : String} {known : List String} (hsection : (key, known) ∈ sections) {j j' : Json}
      (h : Padded known j j') (before behind : List Member) :
      Pads (.object (before ++ ⟨some key, j⟩ :: behind)) (.object (before ++ ⟨some key, j'⟩ :: behind))

/-- The option with a name, or its default if it is left out. -/
def option? {α : Type} (members : List Member) (key : String) (fallback : α)
    (read : Json → Option α) : Option α :=
  (Json.member? members key).bind (Json.orDefault fallback read)

/-- An object is read option by option. -/
theorem ofJson?_object (members : List Member) :
    ofJson? (.object members) =
      if members.all fun m => m.key.isSome then do
        let d : Options := {}
        return {
          minify := ← option? members "minify" d.minify Json.bool?
          purge := ← option? members "purge" d.purge PurgeOptions.ofJson?
          layers := ← option? members "layers" d.layers LayerOptions.ofJson?
          optimize := ← option? members "optimize" d.optimize OptimizeOptions.ofJson? }
      else none := by
  simp only [ofJson?, Json.fields?, names, option?, List.mapM_cons, List.mapM_nil]
  cases members.all fun m => m.key.isSome with
  | false => rfl
  | true =>
      -- All options are looked for before any is read, but what is refused is the same.
      cases Json.member? members "minify" with
      | none => rfl
      | some minify =>
          cases Json.member? members "purge" with
          | none => simp
          | some purge =>
              cases Json.member? members "layers" with
              | none => simp
              | some layers =>
                  cases Json.member? members "optimize" with
                  | none => simp
                  | some optimize => rfl

/-- A value may be replaced by one that is read as the same. -/
theorem option?_replace {α : Type} {fallback : α} {read : Json → Option α} {key other : String}
    {j j' : Json} (h : other = key → read j' = read j) (before behind : List Member) :
    option? (before ++ ⟨some key, j'⟩ :: behind) other fallback read =
      option? (before ++ ⟨some key, j⟩ :: behind) other fallback read := by
  simp only [option?, Json.member?, Json.valuesOf, List.filter_append, List.filter_cons,
    List.map_append]
  by_cases hkey : other = key
  · have hsame := h hkey
    subst hkey
    simp only [beq_self_eq_true, if_true, List.map_cons]
    -- The value is the only one with this key, or else there are several in both objects.
    cases (before.filter fun m => m.key == some other).map Member.value with
    | cons v vs =>
        cases vs with
        | nil => rfl
        | cons w ws => rfl
    | nil =>
        cases (behind.filter fun m => m.key == some other).map Member.value with
        | cons v vs => rfl
        | nil => exact hsame
  · have hne : (some key == some other) = false := by
      rw [beq_eq_false_iff_ne]
      exact fun hsame => hkey (Option.some.inj hsame).symm
    rw [hne]
    rfl

/-- Members that are no options are not read. -/
theorem Pads.ofJson?_eq {j j' : Json} (h : Pads j j') : ofJson? j' = ofJson? j := by
  cases h with
  | whole h => rw [ofJson?, ofJson?, fields?_padded h]
  | @inside key known hsection j j' h before behind =>
      have hminify : "minify" = key → j'.bool? = j.bool? := by
        rintro rfl
        simp [sections] at hsection
      have hpurge : "purge" = key → PurgeOptions.ofJson? j' = PurgeOptions.ofJson? j := by
        rintro rfl
        obtain rfl : known = PurgeOptions.names := by simpa [sections] using hsection
        exact PurgeOptions.ofJson?_padded h
      have hlayers : "layers" = key → LayerOptions.ofJson? j' = LayerOptions.ofJson? j := by
        rintro rfl
        obtain rfl : known = LayerOptions.names := by simpa [sections] using hsection
        exact LayerOptions.ofJson?_padded h
      have hoptimize : "optimize" = key → OptimizeOptions.ofJson? j' = OptimizeOptions.ofJson? j := by
        rintro rfl
        obtain rfl : known = OptimizeOptions.names := by simpa [sections] using hsection
        exact OptimizeOptions.ofJson?_padded h
      simp only [ofJson?_object, option?_replace hminify, option?_replace hpurge,
        option?_replace hlayers, option?_replace hoptimize, List.all_append, List.all_cons]

theorem ofJson?_eq_of_reflTransGen {j j' : Json} (h : Relation.ReflTransGen Pads j j') :
    ofJson? j' = ofJson? j := by
  induction h with
  | refl => rfl
  | tail _ hstep ih => rw [hstep.ofJson?_eq, ih]

/-! ## Texts -/

theorem ofText_render_of_ofJson? {j : Json} {o : Options} (h : ofJson? j = some o) :
    ofText j.render = .ok o := by
  rw [ofText, Json.ofText?_render, Option.bind_eq_bind, Option.bind_some, h]

theorem ofText_render_congr {j j' : Json} (h : ofJson? j' = ofJson? j) :
    ofText j'.render = ofText j.render := by
  rw [ofText, ofText, Json.ofText?_render, Json.ofText?_render, Option.bind_eq_bind,
    Option.bind_some, Option.bind_some, h]

/-- Options that were written are read back: all of them, and if some members were left out, the others with
the defaults of these.  Members that are no options may be added to the object and its sections, and nothing
changes, whatever was written.  The exempt layers are a set, which is kept in the order of its elements. -/
theorem ofText_render_leaveOut :
    (∀ o : Options, o.layers.exempt.Pairwise (· < ·) →
      ofText o.toJson.render = .ok o ∧
        ∀ omitted : Omission, ofText (o.toJson.leaveOut omitted).render = .ok (o.reset omitted)) ∧
    ∀ j j' : Json, Relation.ReflTransGen Pads j j' → ofText j'.render = ofText j.render := by
  refine ⟨fun o hexempt => ⟨?_, fun omitted => ?_⟩, fun j j' h => ?_⟩
  · -- This is the case in which nothing is left out.
    exact ofText_render_of_ofJson? (ofJson?_leaveOut hexempt ⟨fun _ => false, fun _ _ => false⟩)
  · exact ofText_render_of_ofJson? (ofJson?_leaveOut hexempt omitted)
  · exact ofText_render_congr (ofJson?_eq_of_reflTransGen h)

/-- Options are read back without the root and without a section, and members are added to an object with a
section. -/
theorem ofText_render_leaveOut_root :
    let o : Options :=
      { minify := true
        purge := { root := "a", safelist := [.pattern "b"] }
        layers := { exempt := ["a", "b"] }
        optimize := { font := false } }
    let omitted : Omission := ⟨(· == "optimize"), fun key name => key == "purge" && name == "root"⟩
    let j : Json := .ofMembers [("layers", .ofMembers [("orphansName", .string "a")])]
    let j' : Json :=
      .ofMembers [("a", .bool true), ("layers", .ofMembers [("orphansName", .string "a"), ("b", .null)])]
    (o.layers.exempt.Pairwise (· < ·) ∧
      ofText (o.toJson.leaveOut omitted).render =
        .ok { o with purge := { safelist := [.pattern "b"] }, optimize := {} }) ∧
    Relation.ReflTransGen Pads j j' ∧ ofText j'.render = ofText j.render := by
  intro o omitted j j'
  have hexempt : o.layers.exempt.Pairwise (· < ·) := by decide +kernel
  have hwhole : Pads j (.ofMembers [("a", .bool true),
      ("layers", .ofMembers [("orphansName", .string "a")])]) :=
    .whole (.object [⟨some "a", .bool true⟩,
      ⟨some "layers", .ofMembers [("orphansName", .string "a")]⟩])
  have hsection : Padded LayerOptions.names (.ofMembers [("orphansName", .string "a")])
      (.ofMembers [("orphansName", .string "a"), ("b", .null)]) :=
    .object [⟨some "orphansName", .string "a"⟩, ⟨some "b", .null⟩]
  have hinside : Pads (.ofMembers [("a", .bool true),
      ("layers", .ofMembers [("orphansName", .string "a")])]) j' :=
    .inside (.tail _ (.head _)) hsection [⟨some "a", .bool true⟩] []
  have hpads : Relation.ReflTransGen Pads j j' := .tail (.single hwhole) hinside
  exact ⟨⟨hexempt, (ofText_render_leaveOut.1 o hexempt).2 omitted⟩, hpads,
    ofText_render_leaveOut.2 j j' hpads⟩

end Options

end Stylesheet
