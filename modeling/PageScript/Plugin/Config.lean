import PageScript.CacheMode
import PageScript.Data.Decoder

/-! The configuration of a plugin, every part of which may be left out. -/

namespace PageScript

inductive SnippetSource where
  | foreign (plugin : String) (path snippet : Option String)
  | file (path : String)
  | bare (path : String)
  deriving DecidableEq, Repr

namespace SnippetSource

def foreign? (content : Content) : Option SnippetSource := do
  let fields ← content.form? ["plugin", "path", "snippet"]
  let plugin ← (fields.lookup "plugin").bind Content.text?
  let path ← Content.optionalText? ((fields.lookup "path").getD .null)
  let snippet ← Content.optionalText? ((fields.lookup "snippet").getD .null)
  return .foreign plugin path snippet

def file? (content : Content) : Option SnippetSource := do
  let fields ← content.form? ["path"]
  let path ← (fields.lookup "path").bind Content.text?
  return .file path

def ofContent? (content : Content) : Option SnippetSource :=
  foreign? content <|> file? content <|> content.text?.map .bare

def decode (part : Part) : Decoding SnippetSource := do
  match ofContent? (← part.content) with
  | some source => return source
  | none => failure

def toData : SnippetSource → Data
  | .foreign plugin path snippet =>
      .record [("plugin", .text plugin), ("path", .ofText? path), ("snippet", .ofText? snippet)]
  | .file path => .record [("path", .text path)]
  | .bare path => .text path

end SnippetSource

structure ServerConfig where
  key : Option String := none
  rootSnippet : Option String := none
  snippets : List String := []
  snippetsMap : Keyed SnippetSource := []
  require : List String := []

structure ClientConfig where
  file : Option String := none
  require : List String := []
  core : Option String := none
  guiNodes : Option Data := none

structure PageTemplate where
  space : Option String := none
  block : Option String := none

structure PageConfig where
  title : Option String := none
  icon : Option String := none
  template : Option PageTemplate := none

structure PluginConfig where
  name : Option String := none
  server : ServerConfig := {}
  client : ClientConfig := {}
  page : PageConfig := {}
  images : Option String := none
  locales : List String := []
  cache : CacheMode := .none
  require : List String := []
  styles : List String := []

def ServerConfig.decode (part : Part) : Decoding ServerConfig := do
  let fields ← part.fields ["key", "rootSnippet", "snippets", "snippetsMap", "require"]
  let key ← Decoding.textField fields "key"
  let rootSnippet ← Decoding.textField fields "rootSnippet"
  let snippets ← Decoding.textsField fields "snippets"
  let snippetsMap ← Decoding.withDefault fields "snippetsMap" [] (Part.keyed SnippetSource.decode)
  let require ← Decoding.textsField fields "require"
  return { key, rootSnippet, snippets, snippetsMap, require }

def ClientConfig.decode (part : Part) : Decoding ClientConfig := do
  let fields ← part.fields ["file", "require", "core", "guiNodes"]
  let file ← Decoding.textField fields "file"
  let require ← Decoding.textsField fields "require"
  let core ← Decoding.textField fields "core"
  let guiNodes ← Decoding.withDefault fields "guiNodes" none (Part.optional Part.sortedData)
  return { file, require, core, guiNodes }

def PageTemplate.decode (part : Part) : Decoding PageTemplate := do
  let fields ← part.fields ["namespace", "block"]
  let space ← Decoding.textField fields "namespace"
  let block ← Decoding.textField fields "block"
  return { space, block }

def PageConfig.decode (part : Part) : Decoding PageConfig := do
  let fields ← part.fields ["title", "icon", "template"]
  let title ← Decoding.textField fields "title"
  let icon ← Decoding.textField fields "icon"
  let template ← Decoding.withDefault fields "template" none (Part.optional PageTemplate.decode)
  return { title, icon, template }

namespace PluginConfig

def decode (part : Part) : Decoding PluginConfig := do
  let fields ← part.fields
    ["name", "server", "client", "page", "images", "i18n", "cacheType", "require", "cssAssets"]
  let name ← Decoding.textField fields "name"
  let server ← Decoding.withDefault fields "server" {} ServerConfig.decode
  let client ← Decoding.withDefault fields "client" {} ClientConfig.decode
  let page ← Decoding.withDefault fields "page" {} PageConfig.decode
  let images ← Decoding.textField fields "images"
  let locales ← Decoding.textsField fields "i18n"
  let cache ← Decoding.withDefault fields "cacheType" .none (Part.choice CacheMode.ofName?)
  let require ← Decoding.textsField fields "require"
  let styles ← Decoding.textsField fields "cssAssets"
  return { name, server, client, page, images, locales, cache, require, styles }

/-- The configuration in a file: JSON if its extension says so, and YAML otherwise. -/
def load (tree : Tree) (path : Path) : Except Failure PluginConfig :=
  tree.decode path (if path.extension? = some "json" then .json else .yaml) decode

def defaultRootSnippet : String := "snippets/_root.js"

def rootSnippet (config : PluginConfig) : String :=
  config.server.rootSnippet.getD defaultRootSnippet

def serverModules (config : PluginConfig) : List String :=
  (config.server.require ++ config.require).foldl
    (fun names name => if names.contains name then names else names ++ [name]) []

def toData (config : PluginConfig) : Data :=
  let texts (items : List String) : Data := .list (items.map .text)
  let server := config.server
  let client := config.client
  let page := config.page
  let template : Data :=
    match page.template with
    | none => .null
    | some template =>
        .record [("namespace", .ofText? template.space), ("block", .ofText? template.block)]
  .record [
    ("name", .ofText? config.name),
    ("server", .record [
      ("key", .ofText? server.key), ("rootSnippet", .ofText? server.rootSnippet),
      ("snippets", texts server.snippets),
      ("snippetsMap", .record (server.snippetsMap.map fun (name, source) => (name, source.toData))),
      ("require", texts server.require)]),
    ("client", .record [
      ("file", .ofText? client.file), ("require", texts client.require),
      ("core", .ofText? client.core), ("guiNodes", client.guiNodes.getD .null)]),
    ("page", .record [
      ("title", .ofText? page.title), ("icon", .ofText? page.icon), ("template", template)]),
    ("images", .ofText? config.images),
    ("i18n", texts config.locales),
    ("cacheType", .text config.cache.name),
    ("require", texts config.require),
    ("cssAssets", texts config.styles)]

end PluginConfig

end PageScript
