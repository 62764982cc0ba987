import PageScript.Plugin
import PageScript.Proofs.Keyed
import PageScript.Proofs.Outcome

/-! Entries of a plugin map have the names they are stored under. -/

namespace PageScript.PluginMap

variable {map : PluginMap}

def Named (map : PluginMap) : Prop :=
  ∀ item ∈ map.plugins, item.2.name = item.1

theorem named_blank (root : Path) : Named { root } := by
  intro item member
  cases member

theorem Named.insert (named : map.Named) (entry : PluginEntry) :
    (map.insert entry).Named := by
  intro item member
  rcases Keyed.mem_putNew member with rfl | old
  · rfl
  · exact named item old

theorem addDeclared_keeps {tree : Tree} {files : List Path} {holds : PluginMap → Prop}
    (kept : ∀ file ∈ files, ∀ map entry, declared? tree file = some entry → holds map →
      holds (map.insert entry)) {map : PluginMap} (start : holds map) :
    holds (addDeclared tree map files).1 := by
  induction files generalizing map with
  | nil => exact start
  | cons file rest ih =>
    obtain ⟨first, others⟩ := List.forall_mem_cons.mp kept
    unfold addDeclared
    split
    · exact ih others start
    · rename_i entry declared
      split
      · exact ih others start
      · exact ih others (first map entry declared start)

theorem named_regenerate (map : PluginMap) (tree : Tree) (roots : List Path) :
    (map.regenerate tree roots).1.Named :=
  addDeclared_keeps (fun _ _ _ entry _ named => named.insert entry) (named_blank map.root)

theorem Named.get?_eq_some (named : map.Named) {name : String} {entry : PluginEntry}
    (found : map.get? name = some entry) : entry.name = name ∧ name ∈ Keyed.keys map.plugins := by
  obtain ⟨held, within, rfl⟩ := Option.map_eq_some_iff.mp found
  have member : (name, held) ∈ map.plugins := mem_of_lookup within
  refine ⟨?_, List.mem_map_of_mem member⟩
  have own := named (name, held) member
  split
  · exact own
  · exact own

end PageScript.PluginMap
