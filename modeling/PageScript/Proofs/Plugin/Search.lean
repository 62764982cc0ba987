import PageScript.Proofs.Module.Storage

/-! Plugins that are found by searching, against the configurations that are loaded for them. -/

open List

namespace PageScript

open Decoding (bind_eq_some)

variable {source : Source} {hops left rest : Nat} {part : Part}

namespace Part

variable {between : Nat} {next : Part} {names others : List String} {fields more : List (String × Part)}

private theorem fields_followed (taken : part.fields names source hops = some (fields, left))
    (followed : part.followed source hops = some (next, between)) :
    next.fields names source between = some (fields, left) ∧ (next.isNull = true → fields = []) := by
  obtain ⟨document, _, here, taken⟩ := bind_eq_some.mp taken
  obtain ⟨_, _, again, same⟩ := bind_eq_some.mp followed
  cases here.symm.trans again
  cases same
  cases document with
  | list items => exact ⟨taken, fun null => by cases null⟩
  | record entries => exact ⟨taken, fun null => by cases null⟩
  | scalar scalar =>
    refine ⟨taken, fun _ => ?_⟩
    obtain ⟨text, value, isNull, blank⟩ := scalar
    cases blank <;> cases taken
    rfl
  | _ =>
    obtain ⟨_, _, got, taken⟩ := bind_eq_some.mp taken
    cases got
    cases taken

/-- The fields that two readings of a section both ask for are the same ones, if the second asks for the
first ones. -/
theorem lookup_fields (first : others <+: names)
    (taken : part.fields names source hops = some (fields, left))
    (again : part.fields others source hops = some (more, rest)) :
    left = rest ∧ ∀ name ∈ others, fields.lookup name = more.lookup name := by
  simp only [Part.fields, bind_eq_some] at taken again
  obtain ⟨document, between, followed, _, _, ⟨⟩, taken⟩ := taken
  obtain ⟨_, _, same, _, _, ⟨⟩, again⟩ := again
  cases followed.symm.trans same
  cases document with
  | scalar scalar =>
    obtain ⟨text, value, isNull, blank⟩ := scalar
    cases blank <;> cases taken
    cases again
    exact ⟨rfl, fun _ _ => rfl⟩
  | record entries =>
    simp only [bind_eq_some] at taken again
    obtain ⟨inner, _, deeper, all, _, keys, taken⟩ := taken
    obtain ⟨_, _, same, _, _, also, again⟩ := again
    cases deeper.symm.trans same
    cases keys.symm.trans also
    split at taken <;> cases taken
    split at again <;> cases again
    rename_i distinct once
    refine ⟨rfl, fun name listed => Option.ext fun value => ?_⟩
    refine (Keyed.mem_iff_get? distinct).symm.trans (.trans ?_ (Keyed.mem_iff_get? once))
    simp [first.subset listed, listed]
  | list items =>
    cases format : source.format with
    | yaml =>
      rw [format] at taken
      cases taken
    | json =>
      rw [format] at taken again
      simp only [bind_eq_some] at taken again
      obtain ⟨inner, _, deeper, taken⟩ := taken
      obtain ⟨_, _, same, again⟩ := again
      cases deeper.symm.trans same
      split at taken <;> cases taken
      split at again <;> cases again
      rename_i short
      obtain ⟨others', rfl⟩ := first
      have fits : (items.map inner).length ≤ others.length := by rwa [length_map]
      have most : (items.map inner).length ≤ (others ++ others').length :=
        Nat.le_trans fits (prefix_append others others').length_le
      refine ⟨rfl, fun name _ => ?_⟩
      rw [zip_eq_zip_take_min, Nat.min_eq_right most, take_append_of_le_length fits,
        ← Nat.min_eq_right fits, ← zip_eq_zip_take_min]
  | _ => cases taken

end Part

namespace PluginMap

variable {tree : Tree} {file other : Path} {entry : PluginEntry} {config : PluginConfig}
  {name key : Option String}

private theorem markedKey_eq {config : ServerConfig} {key : Option (Option String)}
    (taken : ServerConfig.decode part source hops = some (config, left))
    (marked : Part.optional markedKey part source hops = some (key, rest)) : key.bind id = config.key := by
  simp only [ServerConfig.decode, bind_eq_some] at taken
  obtain ⟨fields, between, section_, own, later, keyed, _, _, _, _, _, _, _, _, _, _, _, _, done⟩ := taken
  cases done
  obtain ⟨next, start, followed, marked⟩ := bind_eq_some.mp marked
  obtain ⟨again, null⟩ := Part.fields_followed section_ followed
  split at marked
  · rename_i nothing
    rw [null nothing] at keyed
    cases keyed
    cases marked
    rfl
  · simp only [markedKey, bind_eq_some] at marked
    obtain ⟨inner, _, ⟨known, _, fewer, marked⟩, same⟩ := marked
    cases same
    obtain ⟨rfl, same⟩ := Part.lookup_fields (by simp) again fewer
    rw [Decoding.textField, Decoding.withDefault, same "key" (by simp)] at keyed
    cases marked.symm.trans keyed
    rfl

/-- Of a section that is taken as a configuration, the search takes its name and its key. -/
theorem marker_eq (taken : PluginConfig.decode part source hops = some (config, left))
    (marked : marker part source hops = some ((name, key), rest)) :
    name = config.name ∧ key = config.server.key := by
  simp only [PluginConfig.decode, marker, bind_eq_some] at taken marked
  obtain ⟨fields, between, section_, own, middle, named, server, later, served, _, _, _, _, _, _, _, _, _,
    _, _, _, _, _, _, _, _, _, _, _, _, done⟩ := taken
  cases done
  obtain ⟨known, _, fewer, _, _, again, inner, _, keyed, done⟩ := marked
  cases done
  obtain ⟨rfl, same⟩ := Part.lookup_fields (by simp) section_ fewer
  rw [Decoding.textField, Decoding.withDefault, same "name" (by simp)] at named
  cases named.symm.trans again
  refine ⟨rfl, ?_⟩
  rw [Decoding.withDefault, same "server" (by simp)] at served
  unfold Decoding.withDefault at keyed
  cases found : known.lookup "server" with
  | some value =>
    rw [found] at served keyed
    exact markedKey_eq served keyed
  | none =>
    rw [found] at served keyed
    cases served
    cases keyed
    rfl

/-- A plugin found has the key of a configuration, and its name or that of the folder. -/
def Agrees (entry : PluginEntry) (config : PluginConfig) : Prop :=
  entry.name = config.name.getD ((Path.mk entry.path).fileName?.getD "") ∧ entry.key = config.server.key

private theorem agrees_of_marker {format : Format} (declared : declared? tree file = some entry)
    (taken : tree.decode file format PluginConfig.decode = .ok config)
    (alike : tree.decode file format marker = tree.decode file .yaml marker) : Agrees entry config := by
  obtain ⟨folder, _, declared⟩ := Option.bind_eq_some_iff.mp declared
  obtain ⟨⟨name, key⟩, marked, declared⟩ := Option.bind_eq_some_iff.mp declared
  cases declared
  obtain ⟨text, source, read, parsed, taken⟩ := Tree.decode_eq_ok.mp taken
  obtain ⟨_, _, again, found, marked⟩ := Tree.decode_eq_ok.mp (alike.trans (toOption_eq_some.mp marked))
  cases read.symm.trans again
  cases parsed.symm.trans found
  obtain ⟨⟨_, _⟩, ran, ⟨⟩⟩ := Option.map_eq_some_iff.mp taken
  obtain ⟨⟨_, _⟩, seen, ⟨⟩⟩ := Option.map_eq_some_iff.mp marked
  obtain ⟨rfl, rfl⟩ := marker_eq ran seen
  exact ⟨rfl, rfl⟩

/-- Every plugin of a map made anew was found in a configuration below the folders. It agrees with the
configuration that is loaded for it where loading takes a file with the text of the one found, unless that
file is read as JSON and the search would find something else in it as JSON than it finds as YAML. -/
theorem regenerate_agrees (map : PluginMap) (tree : Tree) (roots : List Path) :
    ∀ item ∈ (map.regenerate tree roots).1.plugins, item.2.name = item.1 ∧
      ∃ file ∈ configFiles tree roots, declared? tree file = some item.2 ∧
        ∀ chosen config, Plugin.configFile? tree ⟨item.2.path⟩ = some chosen →
          PluginConfig.load tree chosen = .ok config → tree.read chosen = tree.read file →
          (chosen.extension? = some "json" →
            tree.decode file .json marker = tree.decode file .yaml marker) →
          Agrees item.2 config := by
  intro item member
  refine ⟨named_regenerate map tree roots item member, ?_⟩
  have found : ∃ file ∈ configFiles tree roots, declared? tree file = some item.2 := by
    refine @addDeclared_keeps tree _ (fun map => ∀ item ∈ map.plugins, ∃ file ∈ configFiles tree roots,
      declared? tree file = some item.2) ?_ _ (forall_mem_nil _) item member
    intro file listed map entry declared kept item member
    rcases Keyed.mem_putNew member with rfl | old
    · exact ⟨file, listed, declared⟩
    · exact kept item old
  obtain ⟨file, listed, declared⟩ := found
  refine ⟨file, listed, declared, fun chosen config _ loaded same alike => ?_⟩
  have loaded' : tree.decode file (if chosen.extension? = some "json" then .json else .yaml)
      PluginConfig.decode = .ok config := by
    rw [PluginConfig.load, Tree.decode_eq_ok, same] at loaded
    exact Tree.decode_eq_ok.mpr loaded
  split at loaded'
  · rename_i json
    exact agrees_of_marker declared loaded' (alike json)
  · exact agrees_of_marker declared loaded' rfl

/-- A folder with the JSON configuration of one plugin. -/
def stall : Tree where
  entries := [(["a"], .folder),
    (["a", "lx-config.json"], .file "\x7b\"name\": \"P\", \"server\": \x7b\"key\": \"j\"\x7d\x7d".toList)]
  home := []

theorem regenerate_agrees_stall : ∃ config, PluginConfig.load stall ⟨"/a/lx-config.json"⟩ = .ok config ∧
    Agrees ⟨"P", "/a", some "j"⟩ config := by
  have found : (regenerate { root := ⟨"/"⟩ } stall [⟨"/a"⟩]).1.plugins =
      [("P", ⟨"P", "/a", some "j"⟩)] := by decide +kernel
  have files : configFiles stall [⟨"/a"⟩] = [⟨"/a/lx-config.json"⟩] := by decide +kernel
  have chosen : Plugin.configFile? stall ⟨"/a"⟩ = some ⟨"/a/lx-config.json"⟩ := by decide +kernel
  have alike : (stall.decode ⟨"/a/lx-config.json"⟩ .json marker).toOption = some (some "P", some "j") ∧
      (stall.decode ⟨"/a/lx-config.json"⟩ .yaml marker).toOption = some (some "P", some "j") := by
    decide +kernel
  have loads : (PluginConfig.load stall ⟨"/a/lx-config.json"⟩).toOption.isSome = true := by decide +kernel
  obtain ⟨config, loaded⟩ := Option.isSome_iff_exists.mp loads
  obtain ⟨_, file, listed, _, agrees⟩ := regenerate_agrees _ _ _ _ (found ▸ mem_singleton_self _)
  rw [files, mem_singleton] at listed
  subst listed
  have done := toOption_eq_some.mp loaded
  refine ⟨config, done, agrees _ config chosen done rfl fun _ => ?_⟩
  rw [toOption_eq_some.mp alike.1, toOption_eq_some.mp alike.2]

end PluginMap

end PageScript
