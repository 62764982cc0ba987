import PageScript.Directive.Resource
import PageScript.Plugin

/-! Snippets of plugins: where they are looked for and what running one gives. -/

namespace PageScript

structure Snippet where
  key : String
  parent : Option String
  params : Keyed Data
  html : Text
  self : Data
  data : Data
  elements : List Data
  js : Text

structure Reference where
  target : String
  key : Option String := none
  params : Keyed Data := []

structure SnippetResult where
  html : Option String := none
  js : Option String := none
  data : Data := .null
  self : Data := .null
  elements : List Data := []
  plugins : List Reference := []

def Reference.decode (target : String) (part : Part) : Decoding Reference := do
  let fields ← part.fields [target, "key", "params"]
  let name ← Decoding.required fields target Part.text
  let key ← Decoding.textField fields "key"
  let params ← Decoding.withDefault fields "params" [] (Part.keyed Part.sortedData)
  return { target := name, key, params }

def SnippetResult.decode (part : Part) : Decoding SnippetResult := do
  let fields ← part.fields ["html", "js", "data", "self", "lxElements", "subPlugins"]
  let html ← Decoding.textField fields "html"
  let js ← Decoding.textField fields "js"
  let data ← Decoding.withDefault fields "data" .null Part.sortedData
  let self ← Decoding.withDefault fields "self" .null Part.sortedData
  let elements ← Decoding.withDefault fields "lxElements" [] (Part.list Part.sortedData)
  let plugins ← Decoding.withDefault fields "subPlugins" [] (Part.list (Reference.decode "name"))
  return { html, js, data, self, elements, plugins }

def SnippetResult.ofData? : Data → Option SnippetResult
  | .null => some {}
  | data => data.decode? decode

def Plugin.assetPath (plugin : Plugin) (path : String) : String :=
  if Directive.isRemote path.toList then path else (plugin.resolve path).text

def Plugin.assets (plugin : Plugin) : AssetSet :=
  let client := plugin.config.client
  let scripts := (client.core.toList ++ client.file.toList).map fun path =>
    Asset.mk (plugin.assetPath path) .script
  let styles := plugin.config.styles.map fun path => Asset.mk (plugin.assetPath path) .style
  let modules := client.require.map fun name => Asset.mk name .module
  ({} : AssetSet).addAll (scripts ++ styles ++ modules)

namespace SnippetSearch

def complete (path : Path) : Path :=
  path.withDefaultExtension "js"

def foreign? (tree : Tree) (plugins : PluginMap) (plugin : String) (path snippet : Option String) :
    Option Path := do
  let entry ← plugins.get? plugin
  let root : Path := ⟨entry.path⟩
  match path with
  | some path => return root.join ⟨path⟩
  | none =>
      let snippet ← snippet
      let config : PluginConfig :=
        ((Plugin.configFile? tree root).bind fun file =>
          (PluginConfig.load tree file).toOption).getD {}
      let folders := if config.server.snippets.isEmpty then ["snippets"] else config.server.snippets
      (folders.map fun folder => complete ((root.join ⟨folder⟩).join ⟨snippet⟩)).find? tree.isFile

/-- The places where a snippet may be: the snippet folders of the plugin, its map of snippets, and the
folder of the file that refers to it. -/
def places (tree : Tree) (plugins : PluginMap) (plugin : Plugin) (from_ : Path) (name : String) :
    List Path :=
  let server := plugin.config.server
  let inFolders := server.snippets.map fun folder => (plugin.resolve folder).join ⟨name⟩
  let mapped :=
    match server.snippetsMap.get? name with
    | some (.bare path) | some (.file path) => [plugin.resolve path]
    | some (.foreign other path snippet) => (foreign? tree plugins other path snippet).toList
    | none => []
  let beside := from_.parent?.toList.map fun folder => folder.join ⟨name⟩
  inFolders ++ mapped ++ beside

def candidates (tree : Tree) (places : List Path) : List Path :=
  ((places.map complete).filter tree.isFile).foldl
    (fun found place =>
      let file := tree.canonical place
      if found.any (·.same file) then found else found ++ [file])
    []

def file (tree : Tree) (plugins : PluginMap) (plugin : Plugin) (from_ : Path) (name : String) :
    Except String Path :=
  match candidates tree (places tree plugins plugin from_ name) with
  | [file] => .ok file
  | [] => .error s!"snippet '{name}' not found"
  | found => .error s!"snippet '{name}' is ambiguous ({found.length} matches)"

end SnippetSearch

end PageScript
