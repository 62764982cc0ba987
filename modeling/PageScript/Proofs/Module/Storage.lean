import PageScript.Proofs.Data.Decoding
import PageScript.Proofs.Data.Json
import PageScript.Proofs.Data.Numbers
import PageScript.Proofs.Plugin.Map
import PageScript.Proofs.Tree.Writing

/-!
Maps that are kept in a folder come back as they were (`maps_save_load`).
-/

open List

namespace PageScript

open Option

open Document (ofData)
open Decoding (Yields)

variable {data : Data} {module_ : Module} {tree : Tree} {map : ModuleMap} {folder : Path}

def Data.Regular : Data → Prop
  | .record fields => Keyed.Sorted fields
  | .number value => value.Fits
  | _ => True

def Data.Exact : Data → Prop
  | .number (.double _) => False
  | _ => True

theorem Data.regular_sorted (fitting : data.Every Data.Fitting) : data.sorted.Every Data.Regular := by
  refine Data.every_sorted ⟨?_, fun _ => trivial, fun _ sorted => sorted⟩ data fitting
  intro data fits _ other
  cases data with
  | record fields => exact absurd rfl (other fields)
  | number value => exact fits
  | _ => trivial

theorem Data.ordered_of_regular (regular : data.Every Data.Regular) : data.Every Data.Ordered := by
  refine Data.Every.and ?_ data regular regular
  intro data regular _
  cases data with
  | record fields => exact regular
  | _ => trivial

theorem Data.whole_of_regular (regular : data.Every Data.Regular) (exact : data.Every Data.Exact) :
    data.Every Data.Whole := by
  refine Data.Every.and ?_ data regular exact
  intro data regular exact
  cases data with
  | number value =>
    cases value with
    | int value => exact regular
    | double value => cases exact
  | _ => trivial

theorem Directive.dataValue_regular (raw : Text) : (dataValue raw).Every Data.Regular := by
  unfold dataValue
  dsimp only
  split
  · rename_i value read
    exact Data.regular_sorted (Json.fitting_of_parse? read)
  · trivial

namespace Module

def Regular (module_ : Module) : Prop :=
  (Data.record module_.metadata).Every Data.Regular

/-- The data of a module have no floating-point numbers, and they are not too deep to be read as part of
a map: of the 127 levels, three are around them. -/
def Storable (module_ : Module) : Prop :=
  ∀ field ∈ module_.metadata, field.2.Every Data.Exact ∧ field.2.depth ≤ 124

private theorem declared?_regular {file : Path} {source : Text}
    (declared : declared? file source = some module_) : module_.Regular := by
  unfold declared? at declared
  split at declared
  · cases declared
  · cases declared
    refine ⟨Keyed.sorted_ofList _, Data.everyField_iff.mpr fun field member => ?_⟩
    rcases Keyed.mem_putAll member with given | none
    · obtain ⟨pair, _, rfl⟩ := mem_map.mp given
      exact Directive.dataValue_regular pair.2
    · cases none

private theorem toData_whole (regular : module_.Regular) (storable : module_.Storable) :
    module_.toData.Every Data.Whole := by
  have metadata : (Data.record module_.metadata).Every Data.Whole := by
    refine Data.whole_of_regular regular ⟨trivial, Data.everyField_iff.mpr ?_⟩
    exact fun field member => (storable field member).1
  refine ⟨trivial, Data.everyField_iff.mpr fun field member => ?_⟩
  rcases mem_append.mp member with named | held
  · simp only [mem_cons, not_mem_nil, or_false] at named
    rcases named with rfl | rfl
    · trivial
    · trivial
  · split at held
    · cases held
    · cases mem_singleton.mp held
      exact metadata

private theorem metadata_yields (regular : module_.Regular) (storable : module_.Storable) :
    Yields (Part.keyed Part.sortedData ⟨ofData (.record module_.metadata), 125⟩) module_.metadata := by
  have each : ∀ field ∈ module_.metadata, Yields (Part.sortedData ⟨ofData field.2, 124⟩) field.2 := by
    intro field member
    refine Part.sortedData_yields (storable field member).2 (Data.ordered_of_regular ?_)
    exact Data.everyField_iff.mp regular.2 field member
  have taken := Part.keyed_yields each
  have same : module_.metadata.map (fun field => (field.1, field.2)) = module_.metadata :=
    map_id _
  rwa [same, Keyed.ofList_of_sorted regular.1] at taken

private theorem decode_yields (regular : module_.Regular) (storable : module_.Storable) :
    Yields (decode ⟨ofData module_.toData, 126⟩) module_ := by
  have metadata := metadata_yields regular storable
  obtain ⟨name, path, data⟩ := module_
  cases data with
  | nil =>
    refine (Part.fields_yields (by simp) (by simp)).bind ?_
    exact (Part.text_yields name 125).bind
      ((Part.text_yields path 125).bind ((Yields.pure []).bind (.pure _)))
  | cons field rest =>
    refine (Part.fields_yields (by simp) (by simp)).bind ?_
    exact (Part.text_yields name 125).bind ((Part.text_yields path 125).bind (metadata.bind (.pure _)))

end Module

namespace PluginEntry

private theorem toData_whole (entry : PluginEntry) : entry.toData.Every Data.Whole := by
  obtain ⟨name, path, key⟩ := entry
  cases key with
  | none => exact ⟨trivial, trivial, trivial, trivial⟩
  | some key => exact ⟨trivial, trivial, trivial, trivial, trivial⟩

theorem decode_yields (entry : PluginEntry) : Yields (decode ⟨ofData entry.toData, 126⟩) entry := by
  obtain ⟨name, path, key⟩ := entry
  cases key with
  | none =>
    refine (Part.fields_yields (by simp) (by simp)).bind ?_
    exact (Part.text_yields name 125).bind
      ((Part.text_yields path 125).bind ((Yields.pure none).bind (.pure _)))
  | some key =>
    have given : Yields (Part.optional Part.text ⟨Document.ofText key, 125⟩) (some key) :=
      (Yields.pure _).bind ((Part.text_yields key 125).map some)
    refine (Part.fields_yields (by simp) (by simp)).bind ?_
    exact (Part.text_yields name 125).bind ((Part.text_yields path 125).bind (given.bind (.pure _)))

end PluginEntry

theorem Tree.decode_indented {α : Type} {path : Path} {decode : Decoder α} {value : α}
    (read : tree.read path = .ok (Json.indented 0 data)) (whole : data.Every Data.Whole)
    (yields : Yields (decode ⟨ofData data, 127⟩) value) : tree.decode path .json decode = .ok value := by
  have parsed : Source.parse? .json (Json.indented 0 data) = some (.ofJson (ofData data)) := by
    rw [Source.parse?, Json.document?_indented whole]
    rfl
  exact Tree.decode_eq_ok.mpr ⟨_, _, read, parsed, Yields.decode? yields⟩

/-- Items that a file lists are read back. -/
theorem Tree.decode_items {α : Type} {path : Path} (decode : Decoder α) (toData : α → Data) {items : Keyed α}
    (read : tree.read path = .ok (Json.indented 0 (.list (items.map fun item => toData item.2))))
    (each : ∀ item ∈ items, (toData item.2).Every Data.Whole ∧
      Yields (decode ⟨ofData (toData item.2), 126⟩) item.2) :
    tree.holds path = true ∧ tree.decode path .json (Part.list decode) = .ok (items.map (·.2)) := by
  have whole : (Data.list (items.map fun item => toData item.2)).Every Data.Whole := by
    refine ⟨trivial, Data.everyItem_iff.mpr fun data member => ?_⟩
    obtain ⟨item, within, rfl⟩ := mem_map.mp member
    exact (each item within).1
  refine ⟨by rw [Tree.holds, Tree.read_eq_ok.mp read], Tree.decode_indented read whole ?_⟩
  exact Part.list_yields fun item member => (each item member).2

namespace ModuleMap

/-- What comes of a map without modules by adding modules and by making the map anew. -/
inductive Reachable : ModuleMap → Prop where
  | blank (root : Path) : Reachable { root }
  | insert {map : ModuleMap} {module_ : Module} (reachable : Reachable map)
      (regular : module_.Regular) : Reachable (map.insert module_)
  | regenerate {map : ModuleMap} (reachable : Reachable map) (tree : Tree) (roots : List Path) :
      Reachable (map.regenerate tree roots).1

/-- The modules stand in the order of their names, and so do their data. -/
structure Regular (map : ModuleMap) : Prop where
  filed : Keyed.Filed Module.name map.modules
  modules : ∀ item ∈ map.modules, item.2.Regular

private theorem regular_blank (root : Path) : Regular { root } :=
  ⟨.nil, forall_mem_nil _⟩

theorem Regular.insert (regular : map.Regular) (own : module_.Regular) : (map.insert module_).Regular := by
  refine ⟨regular.filed.putNew module_, fun item member => ?_⟩
  rcases Keyed.mem_putNew member with rfl | old
  · exact own
  · exact regular.modules item old

theorem Regular.addDeclared (regular : map.Regular) (files : List Path) :
    (addDeclared tree map files).1.Regular := by
  induction files generalizing map with
  | nil => exact regular
  | cons file rest ih =>
    unfold ModuleMap.addDeclared
    split
    · exact ih regular
    · rename_i module_ declared
      obtain ⟨source, _, declares⟩ := bind_eq_some_iff.mp declared
      split
      · exact ih regular
      · exact ih (regular.insert (Module.declared?_regular declares))

theorem Reachable.regular (reachable : map.Reachable) : map.Regular := by
  induction reachable with
  | blank root => exact regular_blank root
  | insert _ own ih => exact ih.insert own
  | @regenerate map _ tree roots ih => exact (regular_blank map.root).addDeclared _

def Storable (map : ModuleMap) : Prop :=
  ∀ item ∈ map.modules, item.2.Storable

private theorem load_of_read (regular : map.Regular) (storable : map.Storable)
    (read : tree.read (folder.join ⟨fileName⟩) = .ok map.text) :
    load tree folder = .ok { root := folder, modules := map.modules } := by
  obtain ⟨held, decoded⟩ := Tree.decode_items Module.decode Module.toData read fun item member =>
    ⟨Module.toData_whole (regular.modules item member) (storable item member),
      Module.decode_yields (regular.modules item member) (storable item member)⟩
  unfold load
  rw [if_pos held, decoded]
  refine congrArg Except.ok ((foldl_hom (ModuleMap.mk folder) fun _ _ => rfl).trans ?_)
  rw [Keyed.Filed.foldl_putNew [] map.modules regular.filed, nil_append]

private theorem save_load (reachable : map.Reachable) (storable : map.Storable)
    (writable : tree.Writable folder fileName) :
    ∃ saved, map.save tree folder = .ok saved ∧
      load saved folder = .ok { root := folder, modules := map.modules } := by
  obtain ⟨made, saved, folders, wrote, read⟩ := writable.stores (by decide) (by decide) map.text
  refine ⟨saved, ?_, load_of_read reachable.regular storable read⟩
  unfold save
  rw [folders]
  exact mapError_eq_ok.mpr wrote

private theorem resolve_of_root {other : ModuleMap}
    (settled : Path.isAbsolute ⟨module_.path⟩ = true ∨ map.root = other.root) :
    other.resolve module_ = map.resolve module_ := by
  unfold resolve
  rcases settled with absolute | same
  · rw [if_pos absolute, if_pos absolute]
  · rw [same]

end ModuleMap

namespace PluginMap

/-- What comes of a map without plugins by adding plugins and by making the map anew. -/
inductive Reachable : PluginMap → Prop where
  | blank (root : Path) : Reachable { root }
  | insert {map : PluginMap} (reachable : Reachable map) (entry : PluginEntry) :
      Reachable (map.insert entry)
  | regenerate {map : PluginMap} (reachable : Reachable map) (tree : Tree) (roots : List Path) :
      Reachable (map.regenerate tree roots).1

abbrev Filed (map : PluginMap) : Prop :=
  Keyed.Filed PluginEntry.name map.plugins

theorem Reachable.filed {map : PluginMap} (reachable : map.Reachable) : map.Filed := by
  induction reachable with
  | blank root => exact .nil
  | insert _ entry ih => exact ih.putNew entry
  | @regenerate map _ tree roots ih => exact addDeclared_keeps (fun _ _ _ entry _ filed => filed.putNew entry) .nil

private theorem load_of_read {map : PluginMap} (filed : map.Filed)
    (read : tree.read (folder.join ⟨fileName⟩) = .ok map.text) :
    load tree folder = .ok { root := folder, plugins := map.plugins } := by
  obtain ⟨held, decoded⟩ := Tree.decode_items PluginEntry.decode PluginEntry.toData read fun item _ =>
    ⟨item.2.toData_whole, item.2.decode_yields⟩
  unfold load
  rw [if_pos held, decoded]
  refine congrArg Except.ok ((foldl_hom (PluginMap.mk folder) fun _ _ => rfl).trans ?_)
  rw [Keyed.Filed.foldl_putNew [] map.plugins filed, nil_append]

private theorem save_load {map : PluginMap} (reachable : map.Reachable)
    (writable : tree.Writable folder fileName) :
    ∃ saved, map.save tree folder = .ok saved ∧
      load saved folder = .ok { root := folder, plugins := map.plugins } := by
  obtain ⟨made, saved, folders, wrote, read⟩ := writable.stores (by decide) (by decide) map.text
  refine ⟨saved, ?_, load_of_read reachable.filed read⟩
  unfold save
  rw [folders]
  exact mapError_eq_ok.mpr wrote

private theorem get?_of_root {map other : PluginMap} {name : String} {entry : PluginEntry}
    (same : other.plugins = map.plugins) (found : map.plugins.get? name = some entry)
    (settled : Path.isAbsolute ⟨entry.path⟩ = true ∨ map.root = other.root) :
    other.get? name = map.get? name := by
  unfold get?
  rw [same, found, map_some, map_some]
  rcases settled with absolute | same
  · rw [if_pos absolute, if_pos absolute]
  · rw [same]

end PluginMap

/-- A map that is kept in a folder comes back with the same names and the same modules or plugins, and what
has an absolute path, or is in a map of that folder, is where it was. -/
theorem maps_save_load (tree : Tree) (folder : Path) :
    (∀ map : ModuleMap, map.Reachable → map.Storable → tree.Writable folder ModuleMap.fileName →
      ∃ saved loaded, map.save tree folder = .ok saved ∧ ModuleMap.load saved folder = .ok loaded ∧
        loaded.modules = map.modules ∧
        ∀ item ∈ map.modules, Path.isAbsolute ⟨item.2.path⟩ = true ∨ map.root = folder →
          loaded.resolve item.2 = map.resolve item.2) ∧
    (∀ map : PluginMap, map.Reachable → tree.Writable folder PluginMap.fileName →
      ∃ saved loaded, map.save tree folder = .ok saved ∧ PluginMap.load saved folder = .ok loaded ∧
        loaded.plugins = map.plugins ∧
        ∀ name entry, map.plugins.get? name = some entry →
          Path.isAbsolute ⟨entry.path⟩ = true ∨ map.root = folder →
          loaded.get? name = map.get? name) := by
  constructor
  · intro map reachable storable writable
    obtain ⟨saved, kept, loaded⟩ := ModuleMap.save_load reachable storable writable
    exact ⟨saved, _, kept, loaded, rfl, fun _ _ settled => ModuleMap.resolve_of_root settled⟩
  · intro map reachable writable
    obtain ⟨saved, kept, loaded⟩ := PluginMap.save_load reachable writable
    refine ⟨saved, { root := folder, plugins := map.plugins }, kept, loaded, rfl, ?_⟩
    intro name entry found settled
    exact PluginMap.get?_of_root rfl found settled

/-! A module with data of all kinds, and a plugin without a key, kept in a folder that is yet to be
made. -/

def drum : Module where
  name := "drum"
  path := "parts/drum.js"
  metadata := [("locale", .text "de\"\n\x01é"), ("sizes", .list [.number (.int (-7)), .null,
    .record [("deep", .list []), ("wide", .bool true)]])]

def orchestra : ModuleMap :=
  ModuleMap.insert { root := ⟨"/hall/maps"⟩ } drum

def backstage : PluginMap :=
  PluginMap.insert { root := ⟨"/hall/maps"⟩ } { name := "lights", path := "lights" }

def hall : Tree where
  entries := [(["hall"], .folder)]
  home := ["hall"]

private theorem drum_regular : drum.Regular := by
  refine ⟨?_, trivial, ⟨trivial, ?_, trivial, ⟨?_, ⟨trivial, trivial⟩, trivial, trivial⟩, trivial⟩, trivial⟩
  · exact pairwise_pair.mpr (by decide)
  · exact ⟨by decide, by decide⟩
  · exact pairwise_pair.mpr (by decide)

private theorem orchestra_storable : orchestra.Storable := by
  intro item member
  cases mem_singleton.mp member
  intro field member
  simp only [drum, mem_cons, not_mem_nil, or_false] at member
  rcases member with rfl | rfl
  · exact ⟨trivial, by decide⟩
  · exact ⟨⟨trivial, trivial, trivial, ⟨trivial, ⟨trivial, trivial⟩, trivial, trivial⟩, trivial⟩, by decide⟩

private theorem hall_writable {name : String} (named : name ∈ ["_modules.json", "_plugins.json"]) :
    hall.Writable ⟨"/hall/maps"⟩ name := by
  have made : (hall.makeFolders ⟨"/hall/maps"⟩).toOption.map (fun tree => (tree.entries, tree.home)) =
      some ([(["hall", "maps"], .folder), (["hall"], .folder)], ["hall"]) := by
    decide +kernel
  obtain ⟨⟨entries, home⟩, done, same⟩ := map_eq_some_iff.mp made
  cases same
  refine ⟨_, toOption_eq_some.mp done, .inr ⟨["hall", "maps", name], toOption_eq_some.mp ?_, ?_⟩⟩
  · revert name
    decide +kernel
  · revert name
    decide +kernel

theorem maps_save_load_hall :
    (∃ saved loaded, orchestra.save hall ⟨"/hall/maps"⟩ = .ok saved ∧
      ModuleMap.load saved ⟨"/hall/maps"⟩ = .ok loaded ∧ loaded.modules = [("drum", drum)] ∧
      loaded.resolve drum = ⟨"/hall/maps/parts/drum.js"⟩) ∧
    ∃ saved loaded, backstage.save hall ⟨"/hall/maps"⟩ = .ok saved ∧
      PluginMap.load saved ⟨"/hall/maps"⟩ = .ok loaded ∧
      loaded.plugins = [("lights", { name := "lights", path := "lights" })] ∧
      loaded.get? "lights" = some { name := "lights", path := "/hall/maps/lights" } := by
  constructor
  · obtain ⟨saved, loaded, kept, back, same, resolves⟩ := (maps_save_load hall ⟨"/hall/maps"⟩).1
      orchestra (.insert (.blank _) drum_regular) orchestra_storable (hall_writable (by decide))
    exact ⟨saved, loaded, kept, back, same,
      (resolves ("drum", drum) List.mem_cons_self (.inr rfl)).trans (by decide +kernel)⟩
  · obtain ⟨saved, loaded, kept, back, same, gets⟩ := (maps_save_load hall ⟨"/hall/maps"⟩).2
      backstage (.insert (.blank _) _) (hall_writable (by decide))
    exact ⟨saved, loaded, kept, back, same, (gets "lights" _ rfl (.inr rfl)).trans (by decide +kernel)⟩

end PageScript
