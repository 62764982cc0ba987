import PageScript.Module

/-! The plugins of a project by name, stored in a file and found again. -/

namespace PageScript

structure PluginEntry where
  name : String
  path : String
  key : Option String := none
  deriving DecidableEq, Repr

namespace PluginEntry

def toData (entry : PluginEntry) : Data :=
  .record ([("name", .text entry.name), ("path", .text entry.path)] ++
    match entry.key with
    | some key => [("pluginKey", .text key)]
    | none => [])

def decode (part : Part) : Decoding PluginEntry := do
  let fields ← part.fields ["name", "path", "pluginKey"]
  let name ← Decoding.required fields "name" Part.text
  let path ← Decoding.required fields "path" Part.text
  let key ← Decoding.textField fields "pluginKey"
  return { name, path, key }

end PluginEntry

structure PluginMap where
  root : Path
  plugins : Keyed PluginEntry := []

namespace PluginMap

def fileName : String := "_plugins.json"

def configNames : List String :=
  ["lx-config.yaml", "lx-config.yml", "lx-config.json"]

def contains (map : PluginMap) (name : String) : Bool :=
  (map.plugins.get? name).isSome

def get? (map : PluginMap) (name : String) : Option PluginEntry :=
  (map.plugins.get? name).map fun entry =>
    if (Path.mk entry.path).isAbsolute then entry
    else { entry with path := (map.root.join ⟨entry.path⟩).text }

def insert (map : PluginMap) (entry : PluginEntry) : PluginMap :=
  { map with plugins := map.plugins.putNew entry.name entry }

def text (map : PluginMap) : Text :=
  Json.indented 0 (.list (map.plugins.map fun (_, entry) => entry.toData))

def save (map : PluginMap) (tree : Tree) (folder : Path) : Except Failure Tree := do
  let tree ← (tree.makeFolders folder).mapError (.io folder)
  let file := folder.join ⟨fileName⟩
  (tree.write file map.text).mapError (.io file)

def load (tree : Tree) (folder : Path) : Except Failure PluginMap := do
  let file := folder.join ⟨fileName⟩
  let blank : PluginMap := { root := folder }
  if tree.holds file then
    let entries ← tree.decode file .json (Part.list PluginEntry.decode)
    return entries.foldl insert blank
  else return blank

def markedKey (part : Part) : Decoding (Option String) := do
  Decoding.textField (← part.fields ["key"]) "key"

def marker (part : Part) : Decoding (Option String × Option String) := do
  let fields ← part.fields ["name", "server"]
  let name ← Decoding.textField fields "name"
  let key ← Decoding.withDefault fields "server" none (Part.optional markedKey)
  return (name, key.bind id)

def declared? (tree : Tree) (file : Path) : Option PluginEntry := do
  let folder ← file.parent?
  let (name, key) ← (tree.decode file .yaml marker).toOption
  return { name := name.getD (folder.fileName?.getD ""), path := folder.text, key }

def configFiles (tree : Tree) (roots : List Path) : List Path :=
  (roots.flatMap tree.search).filter fun path =>
    tree.isFile path && (path.fileName?.map configNames.contains).getD false

def addDeclared (tree : Tree) : PluginMap → List Path → PluginMap × List String
  | map, [] => (map, [])
  | map, file :: rest =>
      match declared? tree file with
      | none => addDeclared tree map rest
      | some entry =>
          if map.contains entry.name then
            let (map, duplicates) := addDeclared tree map rest
            (map, entry.name :: duplicates)
          else addDeclared tree (map.insert entry) rest

/-- Makes the map anew from the configurations below some folders; the names found again come
second. -/
def regenerate (map : PluginMap) (tree : Tree) (roots : List Path) : PluginMap × List String :=
  addDeclared tree { map with plugins := [] } (configFiles tree roots)

end PluginMap

end PageScript
