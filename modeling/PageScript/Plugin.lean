import PageScript.Plugin.Config
import PageScript.Plugin.Map
import PageScript.Locale.Load

/-! Plugins, loaded from their folders. -/

namespace PageScript

structure PluginHooks where
  extendParams : PluginConfig → Keyed Data → Keyed Data := fun _ params => params
  /-- Adjusts the markup of a rendered snippet, whose key comes first. -/
  afterRender : String → Text → Text := fun _ html => html

abbrev HookRegistry := List (String × PluginHooks)

structure Plugin where
  entry : PluginEntry
  config : PluginConfig
  hooks : PluginHooks

namespace Plugin

def root (plugin : Plugin) : Path :=
  ⟨plugin.entry.path⟩

def configFile? (tree : Tree) (root : Path) : Option Path :=
  (PluginMap.configNames.map fun name => root.join ⟨name⟩).find? tree.isFile

/-- The key given for a plugin: the one of the map comes before the configured one. -/
def givenKey? (entry : PluginEntry) (config : PluginConfig) : Option String :=
  entry.key <|> config.server.key

def load (tree : Tree) (registry : HookRegistry) (entry : PluginEntry) : Except Failure Plugin := do
  let root : Path := ⟨entry.path⟩
  match configFile? tree root with
  | none => .error (.unresolved s!"plugin {entry.name} has no config file in {root.quoted}")
  | some file =>
      let config ← PluginConfig.load tree file
      config.cache.ensureSupported
      let hooks := ((givenKey? entry config).bind fun key => registry.lookup key).getD {}
      return { entry, config, hooks }

def name (plugin : Plugin) : String :=
  plugin.entry.name

def key (plugin : Plugin) : String :=
  (givenKey? plugin.entry plugin.config).getD plugin.name

def resolve (plugin : Plugin) (path : String) : Path :=
  (plugin.root.join ⟨String.ofList (path.toList.dropWhile (· == '/'))⟩).normalize

/-- The localised texts of a plugin: those of its files in order, where the first text of a key stays.
A file that cannot be read is passed over. -/
def locales (plugin : Plugin) (tree : Tree) : LocaleTable :=
  plugin.config.locales.foldl
    (fun table file =>
      match LocaleTable.load tree (plugin.resolve file) with
      | .ok other => (table.merge none other).1
      | .error _ => table)
    {}

end Plugin

end PageScript
