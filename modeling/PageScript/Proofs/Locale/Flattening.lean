import PageScript.Proofs.Locale.Reference
import PageScript.Proofs.Locale.Table
import PageScript.Proofs.Module.Storage

/-! A document of nested records as a table (`LocaleTable.load_flattens`). -/

open List

namespace PageScript

variable {path : List String} {text : String} {object : Data} {fields : List (String × Data)}

namespace Data

/-- What a path of names leads to. -/
def descend? : Data → List String → Option Data
  | value, [] => some value
  | .record fields, name :: path => (Keyed.get? fields name).bind (descend? · path)
  | _, _ :: _ => none

theorem every_of_forall {holds : Data → Prop} (all : ∀ data, holds data) (data : Data) : Every holds data := by
  induction data using nested_induct with
  | list items inner => exact ⟨all _, everyItem_iff.mpr inner⟩
  | record fields inner => exact ⟨all _, everyField_iff.mpr inner⟩
  | null | bool _ | number _ | text _ => exact all _

private theorem every_ordered_sorted (data : Data) : Every Ordered data.sorted := by
  refine every_sorted ⟨?_, fun _ => trivial, fun _ sorted => sorted⟩ data
    (every_of_forall (fun _ => trivial) data)
  rintro (_ | _ | _ | _ | _ | fields) _ _ record
  case record => exact absurd rfl (record fields)
  all_goals trivial

end Data

theorem Tree.decode_ordered {tree : Tree} {file : Path} {format : Format}
    (read : tree.decode file format Part.sortedData = .ok object) : object.Every Data.Ordered := by
  obtain ⟨_, _, _, _, taken⟩ := Tree.decode_eq_ok.mp read
  obtain ⟨_, ran, rfl⟩ := Option.map_eq_some_iff.mp taken
  obtain ⟨⟨inner, _⟩, _, ⟨⟩⟩ := Option.bind_eq_some_iff.mp ran
  exact inner.every_ordered_sorted

theorem Text.splitOn_join {sep : Char} {parts : List Text} (some : parts ≠ [])
    (whole : ∀ part ∈ parts, sep ∉ part) : splitOn sep (join [sep] parts) = parts := by
  induction parts with
  | nil => exact absurd rfl some
  | cons part rest ih =>
    obtain ⟨first, others⟩ := forall_mem_cons.mp whole
    cases rest with
    | nil => exact splitOn_of_not_mem first
    | cons next rest =>
      rw [join, append_assoc, singleton_append, splitOn_append first, ih (cons_ne_nil _ _) others]
      exact cons_ne_nil _ _

namespace LocaleTable

/-- A null and a record have no text of their own. -/
def leafText? : Data → Option String
  | .text value => some value
  | .null | .record _ => none
  | leaf => some (String.ofList (Json.compact leaf))

mutual

/-- The texts of a value with the names on the way to each. -/
def leaves : Data → List (List String × String)
  | .record fields => fieldLeaves fields
  | leaf => (leafText? leaf).toList.map ([], ·)

def fieldLeaves : List (String × Data) → List (List String × String)
  | [] => []
  | (name, value) :: rest => (leaves value).map (fun leaf => (name :: leaf.1, leaf.2)) ++ fieldLeaves rest

end

def under (key : String) : List String → String
  | [] => key
  | name :: path => under (if key.isEmpty then name else key ++ "." ++ name) path

mutual

theorem flatten_eq (key : String) (done : Keyed String) : (value : Data) → flatten key done value =
    Keyed.putAll ((leaves value).map fun leaf => (under key leaf.1, leaf.2)) done
  | .record fields => flattenFields_eq key done fields
  | .null | .bool _ | .number _ | .text _ | .list _ => rfl

theorem flattenFields_eq (key : String) (done : Keyed String) : (fields : List (String × Data)) →
    flattenFields key done fields =
      Keyed.putAll ((fieldLeaves fields).map fun leaf => (under key leaf.1, leaf.2)) done
  | [] => rfl
  | (name, value) :: rest => by
      rw [flattenFields, flatten_eq _ done value, flattenFields_eq key _ rest, fieldLeaves, map_append,
        Keyed.putAll, Keyed.putAll, Keyed.putAll, foldl_append, map_map]
      rfl

end

private theorem mem_fieldLeaves :
    (path, text) ∈ fieldLeaves fields ↔ ∃ name value rest, (name, value) ∈ fields ∧
      path = name :: rest ∧ (rest, text) ∈ leaves value := by
  induction fields with
  | nil => simp [fieldLeaves]
  | cons field others ih =>
    obtain ⟨name, value⟩ := field
    rw [fieldLeaves, mem_append, ih, mem_map]
    constructor
    · rintro (⟨⟨rest, _⟩, member, ⟨⟩⟩ | ⟨other, inner, rest, later, found⟩)
      · exact ⟨name, value, rest, mem_cons_self, rfl, member⟩
      · exact ⟨other, inner, rest, mem_cons_of_mem _ later, found⟩
    · rintro ⟨other, inner, rest, member, rfl, found⟩
      rcases mem_cons.mp member with ⟨rfl, rfl⟩ | later
      · exact .inl ⟨(rest, text), found, rfl⟩
      · exact .inr ⟨other, inner, rest, later, rfl, found⟩

private theorem mem_leaves (ordered : object.Every Data.Ordered) : (path, text) ∈ leaves object ↔
    ∃ leaf, object.descend? path = some leaf ∧ leafText? leaf = some text := by
  induction path generalizing object with
  | nil =>
    cases object
    case record fields => simp [leaves, mem_fieldLeaves, Data.descend?, leafText?]
    all_goals simp [leaves, Data.descend?]
  | cons name path ih =>
    cases object
    case record fields =>
      have inside := Data.everyField_iff.mp ordered.2
      simp only [leaves, mem_fieldLeaves, Data.descend?, Option.bind_eq_some_iff,
        ← Keyed.mem_iff_get? (Keyed.Sorted.nodup ordered.1)]
      constructor
      · rintro ⟨_, inner, _, member, ⟨⟩, found⟩
        obtain ⟨leaf, reached, has⟩ := (ih (inside _ member)).mp found
        exact ⟨leaf, ⟨inner, member, reached⟩, has⟩
      · rintro ⟨leaf, ⟨inner, member, reached⟩, has⟩
        exact ⟨name, inner, path, member, rfl, (ih (inside _ member)).mpr ⟨leaf, reached, has⟩⟩
    all_goals simp [leaves, Data.descend?]

def dotted (path : List String) : String :=
  Locale.dotted (path.map String.toList)

def isPlainName (name : String) : Bool :=
  name != "" && ! name.toList.contains '.'

private theorem isPlainName_iff {name : String} :
    isPlainName name = true ↔ name ≠ "" ∧ '.' ∉ name.toList := by
  simp [isPlainName]

mutual

/-- The names of nested records are neither empty nor dotted. -/
def hasPlainNames : Data → Bool
  | .record fields => havePlainNames fields
  | _ => true

def havePlainNames : List (String × Data) → Bool
  | [] => true
  | (name, value) :: rest => isPlainName name && hasPlainNames value && havePlainNames rest

end

private theorem plain_of_mem (plain : havePlainNames fields = true) :
    ∀ field ∈ fields, isPlainName field.1 = true ∧ hasPlainNames field.2 = true := by
  induction fields with
  | nil => exact forall_mem_nil _
  | cons field rest ih =>
    rw [havePlainNames, Bool.and_eq_true, Bool.and_eq_true] at plain
    exact forall_mem_cons.mpr ⟨plain.1, ih plain.2⟩

private theorem plain_of_descend? {leaf : Data} (plain : hasPlainNames object = true)
    (reached : object.descend? path = some leaf) : ∀ name ∈ path, isPlainName name = true := by
  induction path generalizing object with
  | nil => exact forall_mem_nil _
  | cons name path ih =>
    cases object
    case record fields =>
      obtain ⟨inner, found, reached⟩ := Option.bind_eq_some_iff.mp reached
      obtain ⟨named, within⟩ := plain_of_mem plain _ (mem_of_lookup found)
      exact forall_mem_cons.mpr ⟨named, ih within reached⟩
    all_goals cases reached

private theorem toList_under {key : String} (some : key ≠ "") (path : List String) :
    (under key path).toList = Text.join ['.'] (key.toList :: path.map String.toList) := by
  induction path generalizing key with
  | nil => rfl
  | cons name path ih =>
    rw [under, if_neg (by simpa using some), ih (by simp [String.append_eq_empty_iff])]
    simp only [map_cons, String.toList_append]
    cases path.map String.toList <;> simp [Text.join]

private theorem under_eq_dotted (plain : ∀ name ∈ path, isPlainName name = true) :
    under "" path = dotted path := by
  cases path with
  | nil => rfl
  | cons name path =>
    rw [← String.toList_inj, dotted, Locale.dotted, String.toList_ofList]
    exact toList_under (isPlainName_iff.mp (plain name mem_cons_self)).1 path

private theorem splitOn_dotted (plain : ∀ name ∈ path, isPlainName name = true) (some : path ≠ []) :
    Text.splitOn '.' (dotted path).toList = path.map String.toList := by
  rw [dotted, Locale.dotted, String.toList_ofList, Text.splitOn_join (by simpa using some)]
  simpa using fun name member => (isPlainName_iff.mp (plain name member)).2

private theorem dotted_eq_empty (plain : ∀ name ∈ path, isPlainName name = true) :
    dotted path = "" ↔ path = [] := by
  refine ⟨fun blank => Decidable.byContradiction fun some => ?_, fun none => none ▸ rfl⟩
  have blanks : [] ∈ path.map String.toList := by
    rw [← splitOn_dotted plain some, blank]
    exact mem_singleton_self []
  obtain ⟨name, member, empty⟩ := mem_map.mp blanks
  exact (isPlainName_iff.mp (plain name member)).1 (String.toList_inj.mp empty)

private theorem dotted_inj {other : List String} (plain : ∀ name ∈ path, isPlainName name = true)
    (likewise : ∀ name ∈ other, isPlainName name = true) (same : dotted path = dotted other) :
    path = other := by
  by_cases none : path = []
  · rw [none, eq_comm, ← dotted_eq_empty likewise, ← same, none]
    rfl
  · have some : other ≠ [] := by rwa [Ne, ← dotted_eq_empty likewise, ← same, dotted_eq_empty plain]
    have parts := splitOn_dotted plain none
    rw [same, splitOn_dotted likewise some] at parts
    exact ((map_inj_right fun _ _ => String.toList_inj.mp).mp parts).symm

theorem get?_flatten (ordered : object.Every Data.Ordered) (plain : hasPlainNames object = true)
    (key text : String) : (flatten "" [] object).get? key = some text ↔
      ∃ path leaf, object.descend? path = some leaf ∧ leafText? leaf = some text ∧ key = dotted path := by
  have mem (key text : String) :
      (key, text) ∈ (leaves object).map (fun leaf => (under "" leaf.1, leaf.2)) ↔ ∃ path leaf,
        object.descend? path = some leaf ∧ leafText? leaf = some text ∧ key = dotted path := by
    rw [mem_map]
    constructor
    · rintro ⟨⟨path, _⟩, member, ⟨⟩⟩
      obtain ⟨leaf, reached, has⟩ := (mem_leaves ordered).mp member
      exact ⟨path, leaf, reached, has, under_eq_dotted (plain_of_descend? plain reached)⟩
    · rintro ⟨path, leaf, reached, has, rfl⟩
      refine ⟨(path, text), (mem_leaves ordered).mpr ⟨leaf, reached, has⟩, ?_⟩
      rw [under_eq_dotted (plain_of_descend? plain reached)]
  rw [flatten_eq, Keyed.get?_putAll_nil_iff, mem]
  intro key text other first second
  obtain ⟨path, leaf, reached, has, rfl⟩ := (mem key text).mp first
  obtain ⟨again, next, there, holds, same⟩ := (mem _ _).mp second
  obtain rfl := dotted_inj (plain_of_descend? plain reached) (plain_of_descend? plain there) same
  cases reached.symm.trans there
  exact Option.some.inj (has.symm.trans holds)

/-- A document that gives each language nested records with plain names is a table. A key of a language
has a text just if it is the dotted path to a leaf that has one, and no two paths are dotted alike. -/
theorem load_flattens (tree : Tree) (file : Path) (fields : List (String × Data))
    (read : tree.decode file (formatOf file) Part.sortedData = .ok (.record fields))
    (plain : ∀ item ∈ fields, hasPlainNames item.2 = true) :
    ∃ table, load tree file = .ok table ∧
      (∀ language key text, table.get? language key = some text ↔
        ∃ object path leaf, fields.lookup language = some object ∧ object.descend? path = some leaf ∧
          leafText? leaf = some text ∧ key = dotted path) ∧
      ∀ item ∈ fields, ∀ path other leaf value, item.2.descend? path = some leaf →
        item.2.descend? other = some value → dotted path = dotted other → path = other := by
  have ordered := Tree.decode_ordered read
  have inside := Data.everyField_iff.mp ordered.2
  have sorted : Keyed.Sorted (fields.map fun item => (item.1, flatten "" [] item.2)) := by
    rw [Keyed.Sorted, Keyed.keys, map_map]
    exact ordered.1
  refine ⟨⟨fields.map fun item => (item.1, flatten "" [] item.2)⟩, ?_, fun language key text => ?_, ?_⟩
  · rw [load, read]
    exact congrArg (Except.ok <| LocaleTable.mk ·) (Keyed.ofList_of_sorted sorted)
  · rw [get?, Option.bind_eq_some_iff]
    constructor
    · rintro ⟨entries, has, found⟩
      obtain ⟨⟨_, object⟩, member, ⟨⟩⟩ := mem_map.mp (mem_of_lookup has)
      obtain ⟨path, leaf, reached⟩ := (get?_flatten (inside _ member) (plain _ member) key text).mp found
      exact ⟨object, path, leaf, (Keyed.mem_iff_get? (Keyed.Sorted.nodup ordered.1)).mp member, reached⟩
    · rintro ⟨object, path, leaf, has, reached⟩
      have member := mem_of_lookup has
      refine ⟨_, (Keyed.mem_iff_get? sorted.nodup).mp (mem_map_of_mem member), ?_⟩
      exact (get?_flatten (inside _ member) (plain _ member) key text).mpr ⟨path, leaf, reached⟩
  · intro item member path other leaf value reached there
    have named := plain item member
    exact dotted_inj (plain_of_descend? named reached) (plain_of_descend? named there)

def menu : Data :=
  .record [("menu", .record [("open", .text "Auf"), ("size", .number (.int 2))]), ("old", .null)]

def menuTree : Tree where
  entries := [(["menu.json"], .file (Json.indented 0 (.record [("de", menu)])))]
  home := []

theorem load_flattens_menu : ∃ table, load menuTree ⟨"/menu.json"⟩ = .ok table ∧
    table.get? "de" "menu.open" = some "Auf" ∧ table.get? "de" "menu.size" = some "2" := by
  have held : menuTree.read ⟨"/menu.json"⟩ = .ok (Json.indented 0 (.record [("de", menu)])) :=
    toOption_eq_some.mp (by decide +kernel)
  have read : menuTree.decode ⟨"/menu.json"⟩ (formatOf ⟨"/menu.json"⟩) Part.sortedData =
      .ok (.record [("de", menu)]) := by
    refine Tree.decode_indented held ?_ (Part.sortedData_yields (by decide) ?_)
    · simp [menu, Data.Every, Data.EveryField, Data.Whole, Number.Whole, Json.maxWhole]
    · simp only [menu, Data.Every, Data.EveryField, Data.Ordered, Keyed.Sorted, Keyed.keys]
      decide
  obtain ⟨table, loaded, texts, _⟩ := load_flattens menuTree ⟨"/menu.json"⟩ _ read (by decide)
  refine ⟨table, loaded, (texts _ _ _).mpr ?_, (texts _ _ _).mpr ?_⟩
  · exact ⟨menu, ["menu", "open"], .text "Auf", rfl, rfl, rfl, by decide⟩
  · exact ⟨menu, ["menu", "size"], .number (.int 2), rfl, rfl, by decide, by decide⟩

end LocaleTable

end PageScript
