import PageScript.Module
import PageScript.Proofs.Keyed
import PageScript.Proofs.Tree.Walks

/-! Modules that are found by searching folders (`regenerate_resolves`). -/

namespace PageScript

open List Option

variable {tree : Tree} {root file : Path} {module_ : Module} {source : Text} {roots : List Path}

namespace Tree

theorem proper_of_mem_childNames (linkless : tree.Linkless) {place : Location} {name : String}
    (member : name ∈ tree.childNames place) : Proper name := by
  obtain ⟨⟨names, entry⟩, below, found⟩ := mem_filterMap.mp member
  obtain ⟨⟨other, held⟩, within, dropped⟩ := mem_filterMap.mp (mem_mergeSort.mp below)
  dsimp only at found dropped
  split at dropped
  · cases dropped
    split at found
    · exact linkless.proper _ within name (mem_of_mem_drop (mem_of_head? found))
    · cases found
  · cases dropped

/-- What is found below a path is that path with names of the tree. -/
theorem descend_eq_appendNames {fuel : Nat} {around : List Location} {place : Location}
    (member : file ∈ tree.descend fuel around place root) :
    ∃ names, file = root.appendNames names ∧ (tree.Linkless → ∀ name ∈ names, Proper name) := by
  induction fuel generalizing around place root with
  | zero => cases member
  | succ fuel ih =>
    rcases mem_cons.mp member with rfl | below
    · exact ⟨[], rfl, fun _ _ none => absurd none not_mem_nil⟩
    · obtain ⟨name, listed, below⟩ := mem_flatMap.mp below
      dsimp only at below
      split at below
      · cases below
      · split at below
        · cases below
        · obtain ⟨names, rfl, proper⟩ := ih below
          refine ⟨name :: names, (Path.appendNames_cons _ _ _).symm, fun linkless => ?_⟩
          exact forall_mem_cons.mpr ⟨proper_of_mem_childNames linkless listed, proper linkless⟩

private theorem search_eq_appendNames (member : file ∈ tree.search root) :
    root.text ≠ "" ∧
      ∃ names, file = root.appendNames names ∧ (tree.Linkless → ∀ name ∈ names, Proper name) := by
  unfold search at member
  split at member
  · cases member
  · rename_i place placed
    obtain ⟨checked, _⟩ := place?_eq_ok.mp placed
    exact ⟨(checkPath_eq_ok checked).1, descend_eq_appendNames member⟩

private theorem isAbsolute_appendNames (absolute : root.isAbsolute = true) (names : List String) :
    (root.appendNames names).isAbsolute = true := by
  induction names generalizing root with
  | nil => exact absolute
  | cons name names ih =>
    rw [Path.appendNames_cons]
    apply ih
    cases start : Path.isAbsolute ⟨name⟩ with
    | true => rwa [Path.join_of_isAbsolute start]
    | false =>
      have some : root.text ≠ "" := by
        intro empty
        rw [Path.isAbsolute, empty] at absolute
        cases absolute
      rwa [Path.isAbsolute_join some start]

theorem read_eq_of_place? {left right : Path} (same : tree.place? left = tree.place? right) :
    tree.read left = tree.read right := by
  unfold read find?
  rw [same]

end Tree

namespace ModuleMap

def declaredAs? (tree : Tree) (name : String) (file : Path) : Option Module :=
  ((tree.read file).toOption.bind (Module.declared? file)).filter (·.name == name)

theorem declaredAs?_eq_some {name : String} (declared : declaredAs? tree name file = some module_) :
    ∃ source, tree.read file = .ok source ∧ Module.declared? file source = some module_ ∧
      module_.name = name := by
  obtain ⟨found, named⟩ := filter_eq_some_iff.mp declared
  obtain ⟨source, read, declares⟩ := bind_eq_some_iff.mp found
  exact ⟨source, toOption_eq_some.mp read, declares, by simpa using named⟩

private theorem path_of_declared? (declares : Module.declared? file source = some module_) :
    (⟨module_.path⟩ : Path) = file := by
  unfold Module.declared? at declares
  split at declares
  · cases declares
  · cases declares
    rfl

theorem get?_insert {map : ModuleMap} (free : map.get? module_.name = none) (name : String) :
    (map.insert module_).get? name =
      if module_.name = name then some module_ else map.get? name := by
  unfold ModuleMap.get? at free
  unfold ModuleMap.insert ModuleMap.get? Keyed.putNew
  dsimp only
  rw [free]
  by_cases same : module_.name = name
  · rw [if_pos same, ← same]
    exact Keyed.get?_put_self _ _ _
  · rw [if_neg same]
    exact Keyed.get?_put_of_ne (Ne.symm same) _ _

theorem get?_addDeclared (tree : Tree) (map : ModuleMap) (files : List Path) (name : String) :
    (addDeclared tree map files).1.get? name =
      (map.get? name).or (files.findSome? (declaredAs? tree name)) := by
  induction files generalizing map with
  | nil => simp [addDeclared]
  | cons file rest ih =>
    rw [addDeclared, findSome?_cons]
    cases declared : (tree.read file).toOption.bind (Module.declared? file) with
    | none =>
      have nothing : declaredAs? tree name file = none := by
        rw [declaredAs?, declared, filter_none]
      rw [nothing]
      exact ih map
    | some module_ =>
      have own : declaredAs? tree name file =
          if module_.name = name then some module_ else none := by
        by_cases same : module_.name = name <;> simp [declaredAs?, declared, same]
      rw [own]
      dsimp only
      split
      · -- the name is taken already
        rename_i taken
        rw [ih map]
        by_cases same : module_.name = name
        · obtain ⟨first, found⟩ := isSome_iff_exists.mp taken
          rw [← same, found]
          rfl
        · rw [if_neg same]
      · rename_i free
        have fresh : map.get? module_.name = none := by simpa using free
        rw [ih, get?_insert fresh]
        by_cases same : module_.name = name
        · rw [if_pos same, if_pos same, ← same, fresh]
          rfl
        · rw [if_neg same, if_neg same]

theorem get?_regenerate (map : ModuleMap) (tree : Tree) (roots : List Path) (name : String) :
    (map.regenerate tree roots).1.get? name =
      (scripts tree roots).findSome? (declaredAs? tree name) :=
  get?_addDeclared tree _ _ name

private theorem root_addDeclared (tree : Tree) (map : ModuleMap) (files : List Path) :
    (addDeclared tree map files).1.root = map.root := by
  induction files generalizing map with
  | nil => rfl
  | cons file rest ih =>
    rw [addDeclared]
    split
    · exact ih map
    split
    · exact ih map
    · exact ih _

private theorem resolve_eq_join (map : ModuleMap) (module_ : Module) :
    map.resolve module_ = map.root.join ⟨module_.path⟩ := by
  unfold resolve
  dsimp only
  split
  · rename_i absolute
    rw [Path.join_of_isAbsolute absolute]
  · rfl

/-- A search of folders comes from one of them to a script, which declares a module. -/
structure FoundAt (tree : Tree) (roots : List Path) (module_ : Module) (root file : Path)
    (source : Text) : Prop where
  searched : root ∈ roots
  reached : file ∈ tree.search root
  read : tree.read file = .ok source
  declares : Module.declared? file source = some module_

private theorem get?_regenerate_found {map : ModuleMap} {name : String}
    (registered : (map.regenerate tree roots).1.get? name = some module_) :
    module_.name = name ∧ ∃ root file source, FoundAt tree roots module_ root file source := by
  rw [get?_regenerate] at registered
  obtain ⟨file, member, declared⟩ := exists_of_findSome?_eq_some registered
  obtain ⟨source, read, declares, named⟩ := declaredAs?_eq_some declared
  obtain ⟨root, searched, reached⟩ := mem_flatMap.mp (mem_filter.mp member).1
  exact ⟨named, root, file, source, searched, reached, read, declares⟩

theorem FoundAt.resolve_eq (found : FoundAt tree roots module_ root file source) (map : ModuleMap) :
    map.resolve module_ = map.root.join file := by
  rw [resolve_eq_join, path_of_declared? found.declares]

/-- Without links, a module leads to its script exactly if the folder that was searched is the same one
from the folder of the map. -/
theorem FoundAt.place?_resolve_iff (found : FoundAt tree roots module_ root file source)
    (linkless : tree.Linkless) (map : ModuleMap) :
    tree.place? (map.resolve module_) = tree.place? file ↔
      tree.locate (map.root.join root) = tree.locate root ∧
        Tree.checkPath (map.resolve module_) = .ok () := by
  obtain ⟨some, names, rfl, proper⟩ := Tree.search_eq_appendNames found.reached
  obtain ⟨place, placed, _⟩ := Tree.find?_eq_ok.mp (Tree.read_eq_ok.mp found.read)
  obtain ⟨_, located⟩ := Tree.place?_eq_ok.mp placed
  have other : (map.root.join root).text ≠ "" := by
    by_cases absolute : root.isAbsolute = true
    · rw [Path.join_of_isAbsolute absolute]
      exact some
    · by_cases empty : map.root.text = ""
      · rw [Path.join_of_empty empty]
        exact some
      · exact Path.join_ne_empty empty (by simpa using absolute)
  have leads : tree.locate (map.resolve module_) = .ok place ↔
      tree.locate (map.root.join root) = tree.locate root := by
    rw [found.resolve_eq, Tree.join_appendNames some (proper linkless)]
    exact linkless.locate_appendNames_eq_iff some other (proper linkless) located
  rw [placed, Tree.place?_eq_ok, leads, and_comm]

/-- After the folders were searched, a name is registered with the first script that declares it. From a
folder with an absolute path the module resolves to that script. In general, in a tree without links, it
resolves to the place of the script exactly if the folder that was searched is the same one from the
folder of the map, and then it reads the script. -/
theorem regenerate_resolves (map : ModuleMap) (tree : Tree) (roots : List Path) (name : String) :
    (map.regenerate tree roots).1.get? name =
      (scripts tree roots).findSome? (declaredAs? tree name) ∧
    ∀ module_, (map.regenerate tree roots).1.get? name = some module_ →
      module_.name = name ∧
      ∃ root file source, FoundAt tree roots module_ root file source ∧
        (root.isAbsolute = true → (map.regenerate tree roots).1.resolve module_ = file) ∧
        (tree.Linkless →
          (tree.place? ((map.regenerate tree roots).1.resolve module_) = tree.place? file ↔
            tree.locate (map.root.join root) = tree.locate root ∧
              Tree.checkPath ((map.regenerate tree roots).1.resolve module_) = .ok ())) ∧
        (tree.place? ((map.regenerate tree roots).1.resolve module_) = tree.place? file →
          tree.read ((map.regenerate tree roots).1.resolve module_) = .ok source) := by
  refine ⟨get?_regenerate map tree roots name, fun module_ registered => ?_⟩
  have kept : (map.regenerate tree roots).1.root = map.root := root_addDeclared tree _ _
  obtain ⟨named, root, file, source, found⟩ := get?_regenerate_found registered
  refine ⟨named, root, file, source, found, ?_, ?_, ?_⟩
  · intro absolute
    obtain ⟨_, names, rfl, _⟩ := Tree.search_eq_appendNames found.reached
    rw [found.resolve_eq, Path.join_of_isAbsolute (Tree.isAbsolute_appendNames absolute names)]
  · intro linkless
    have exactly := found.place?_resolve_iff linkless (map.regenerate tree roots).1
    rwa [kept] at exactly
  · intro same
    rw [Tree.read_eq_of_place? same, found.read]

def atelier : Tree where
  entries := [(["w"], .folder), (["w", "src"], .folder),
    (["w", "src", "a.js"], .file "@lx:module A;".toList)]
  home := ["w"]

private theorem atelier_linkless : atelier.Linkless where
  proper := by
    have named : ∀ part ∈ ["w", "src", "a.js"], Tree.Proper part := fun part member =>
      { full := by revert part; decide
        down := by revert part; decide
        short := by revert part; decide +kernel
        whole := by revert part; decide }
    intro item member part within
    apply named
    revert part item
    decide
  noLink := by
    intro item member target same
    simp only [atelier, mem_cons, not_mem_nil, or_false] at member
    rcases member with rfl | rfl | rfl <;> cases same

/-- The module is registered and its script can be read, but from the folder of the map its path leads
elsewhere. -/
theorem regenerate_resolves_elsewhere :
    ∃ module_ source,
      (regenerate { root := ⟨"/w/maps"⟩ } atelier [⟨"src"⟩]).1.get? "A" = some module_ ∧
      atelier.read ⟨module_.path⟩ = .ok source ∧
      atelier.place? ((regenerate { root := ⟨"/w/maps"⟩ } atelier [⟨"src"⟩]).1.resolve module_) ≠
        atelier.place? ⟨module_.path⟩ := by
  obtain ⟨first, found⟩ := regenerate_resolves { root := ⟨"/w/maps"⟩ } atelier [⟨"src"⟩] "A"
  have some : ((scripts atelier [⟨"src"⟩]).findSome? (declaredAs? atelier "A")).isSome = true := by
    decide +kernel
  rw [← first] at some
  obtain ⟨module_, registered⟩ := Option.isSome_iff_exists.mp some
  obtain ⟨_, root, file, source, at_, _, exactly, _⟩ := found module_ registered
  have start : root = ⟨"src"⟩ := List.mem_singleton.mp at_.searched
  have written : (⟨module_.path⟩ : Path) = file := path_of_declared? at_.declares
  rw [← written, start] at exactly
  refine ⟨module_, source, registered, written ▸ at_.read, fun same => ?_⟩
  have apart := congrArg Except.toOption ((exactly atelier_linkless).mp same).1
  revert apart
  decide +kernel

end ModuleMap

end PageScript
