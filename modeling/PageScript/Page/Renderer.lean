import PageScript.Compile
import PageScript.Page.Fragment
import PageScript.Page.Payload
import PageScript.Page.Snippet
import PageScript.Sandbox

/-! Rendering a plugin, with the snippets and plugins that it refers to. -/

namespace PageScript

structure Renderer where
  compiler : Compiler
  plugins : PluginMap
  hooks : HookRegistry := []
  execute : Tree → Text → Keyed Data → Except Failure Execution
  linker : Linker
  language : String := "en"
  mode : String := "dev"

structure RenderState where
  tree : Tree
  snippets : List Snippet := []
  keys : List String := []
  lastNumber : Nat := 0
  payload : Payload := {}
  assets : AssetSet := {}
  diagnostics : List Diagnostic := []

abbrev Rendering (α : Type) := StateT RenderState (Except Failure) α

/-- A snippet to be rendered, and the files and plugins it is inside of, outermost first. -/
structure Visit where
  plugin : Plugin
  file : Path
  key : String
  params : Keyed Data
  parent : Option String
  files : List Path
  names : List String

/-- The visit once its own file is among those it is inside of. -/
def Visit.entered (visit : Visit) (tree : Tree) : Visit :=
  { visit with files := visit.files ++ [tree.canonical visit.file] }

def Visit.snippet (visit : Visit) (result : SnippetResult) (js : Text) : Snippet where
  key := visit.key
  parent := visit.parent
  params := visit.params
  html := visit.plugin.hooks.afterRender visit.key (result.html.getD "").toList
  self := result.self
  data := result.data
  elements := result.elements
  js := js

namespace RenderState

def report (state : RenderState) (topic : Topic) (file : Option Path) (message : String) :
    RenderState :=
  { state with
    diagnostics := state.diagnostics ++ [{ topic, message, file := file.map (·.text) }] }

def numbered (number : Nat) : String :=
  s!"lx-{number}"

def freeNumber (state : RenderState) : Nat :=
  let numbers := (List.range (state.keys.length + 1)).map (state.lastNumber + 1 + ·)
  (numbers.find? fun number => ! state.keys.contains (numbered number)).getD (state.lastNumber + 1)

/-- Takes a key: the one asked for, unless it is taken, or one that is made up. -/
def claimKey (state : RenderState) (requested : Option String) : Option String × RenderState :=
  match requested with
  | some key =>
      if state.keys.contains key then
        (none, state.report .resolution none s!"duplicate snippet key '{key}'")
      else (some key, { state with keys := state.keys ++ [key] })
  | none =>
      let number := state.freeNumber
      (some (numbered number),
        { state with keys := state.keys ++ [numbered number], lastNumber := number })

def addDiagnostics (state : RenderState) (job : Job) : RenderState :=
  { state with diagnostics := state.diagnostics ++ job.progress.diagnostics }

def addAssets (state : RenderState) (job : Job) : RenderState :=
  { state with assets := state.assets.merge job.progress.assets }

end RenderState

namespace Renderer

def report (topic : Topic) (file : Option Path) (message : String) : Rendering Unit :=
  modify (·.report topic file message)

def claimKey (requested : Option String) : Rendering (Option String) :=
  modifyGet (·.claimKey requested)

def linkOrReport (renderer : Renderer) (path : String) : Rendering (Option String) := do
  let state ← get
  let (outcome, tree) := renderer.linker.link state.tree path
  set { state with tree }
  match outcome with
  | .ok found => return some found
  | .error failure =>
      report .resolution none failure.message
      return none

def linkNamed (renderer : Renderer) (plugin : Plugin) : Option String → Rendering (Option String)
  | some path => renderer.linkOrReport (plugin.assetPath path)
  | none => pure none

def serverJob (renderer : Renderer) (tree : Tree) (plugin : Plugin) (file : Path) : Job where
  settings := {
    file := some file
    side := .server
    language := renderer.language
    mode := renderer.mode
    pluginTable := some (plugin.locales tree) }
  requested := plugin.config.serverModules

def clientJob (renderer : Renderer) (tree : Tree) (plugin : Plugin) (file : Path)
    (blocks : List Text) : Job where
  settings := {
    code := some (Text.join ['\n'] blocks)
    base := some (file.parent?.getD ⟨""⟩)
    side := .client
    language := renderer.language
    mode := renderer.mode
    buildModules := false
    pluginTable := some (plugin.locales tree) }

/-- The script of a snippet for the server. A failure is noted, but if compiling does not end, neither
does rendering. -/
def serverScript (renderer : Renderer) (plugin : Plugin) (file : Path) :
    Rendering (Option Text) := do
  let state ← get
  let (outcome, job) := (renderer.serverJob state.tree plugin file).compile state.tree renderer.compiler
  modify (·.addDiagnostics job)
  match outcome with
  | .ok script =>
      modify (·.addAssets job)
      return some script
  | .error .endless => throw .endless
  | .error failure =>
      report .structural (some file) failure.message
      return none

/-- The client script of a snippet: its client blocks, compiled with modules left for later. A failure
is noted, and the script is empty then. -/
def clientScript (renderer : Renderer) (plugin : Plugin) (file : Path) (source : Text) :
    Rendering Text := do
  match Directive.clientBodies source with
  | [] => return []
  | blocks =>
      let state ← get
      let (outcome, job) :=
        (renderer.clientJob state.tree plugin file blocks).compile state.tree renderer.compiler
      modify (·.addDiagnostics job)
      match outcome with
      | .ok script =>
          modify (·.addAssets job)
          return script
      | .error .endless => throw .endless
      | .error failure =>
          report .structural (some file) failure.message
          return []

def seed (visit : Visit) (images : Option String) : Keyed Data :=
  let params : Data := .record visit.params
  [("Plugin", .record [
      ("images", .ofText? images), ("key", .text visit.plugin.key),
      ("name", .text visit.plugin.name), ("params", params)]),
    ("Snippet", .record [("key", .text visit.key), ("params", params)])]

def runScript (renderer : Renderer) (visit : Visit) (script : Text) :
    Rendering (Option SnippetResult) := do
  let images ← renderer.linkNamed visit.plugin visit.plugin.config.images
  let state ← get
  let execution ← renderer.execute state.tree script (seed visit images)
  match execution.fatal with
  | some thrown =>
      report .execution (some visit.file) thrown
      return none
  | none =>
      match SnippetResult.ofData? execution.result with
      | some result => return some result
      | none =>
          report .execution (some visit.file) "malformed snippet result"
          return none

def joinScripts (scripts : List Text) : Text :=
  Text.join ['\n'] (scripts.filter fun script => ! Text.allBlank script)

/-- Renders a nested snippet if there is a reference to one. The key of a snippet that was rendered is
handed back. -/
def renderReference (renderer : Renderer) (inner : Visit → Rendering Bool) (visit : Visit)
    (element reference : Data) : Rendering (Option String) := do
  match reference.decode? (Reference.decode "path") with
  | none =>
      report .resolution (some visit.file) "bad snippet reference"
      return none
  | some reference =>
      let requested := reference.key <|> (element.field? "key").bind Data.text?
      let tree := (← get).tree
      match SnippetSearch.file tree renderer.plugins visit.plugin visit.file reference.target with
      | .error message =>
          report .resolution (some visit.file) message
          return none
      | .ok file =>
          if visit.files.any (·.same file) then
            report .resolution (some visit.file) s!"snippet cycle through {file.quoted}"
            return none
          else
            match ← claimKey requested with
            | none => return none
            | some key =>
                let rendered ← inner { visit with
                  file, key, params := reference.params, parent := some visit.key }
                return if rendered then some key else none

/-- Renders the snippets that elements refer to, in turn. The keys of those that were rendered and the
other elements are handed back. -/
def renderElements (renderer : Renderer) (inner : Visit → Rendering Bool) (visit : Visit) :
    List Data → Rendering (List String × List Data)
  | [] => pure ([], [])
  | element :: rest =>
      match element.field? "snippet" with
      | none => do
          let (keys, others) ← renderElements renderer inner visit rest
          return (keys, element :: others)
      | some reference => do
          let key ← renderReference renderer inner visit element reference
          let (keys, others) ← renderElements renderer inner visit rest
          return (key.toList ++ keys, others)

def renderPlugin (inner : Visit → Rendering Bool) (plugin : Plugin) (reference : Reference)
    (parent : Option String) (files : List Path) (names : List String) :
    Rendering (Option String) := do
  let params := plugin.hooks.extendParams plugin.config reference.params
  modify fun state => { state with assets := state.assets.merge plugin.assets }
  match ← claimKey reference.key with
  | none => return none
  | some key =>
      let file := plugin.resolve plugin.config.rootSnippet
      let rendered ← inner { plugin, file, key, params, parent, files, names := names ++ [plugin.name] }
      if rendered then
        let entry : PluginPayload :=
          { name := plugin.name, key := plugin.key, root := key
            guiNodes := plugin.config.client.guiNodes }
        modify fun state =>
          { state with payload := { state.payload with plugins := state.payload.plugins ++ [entry] } }
        return some key
      else return none

def renderSubPlugin (renderer : Renderer) (inner : Visit → Rendering Bool) (visit : Visit)
    (reference : Reference) : Rendering (Option String) := do
  if visit.names.contains reference.target then
    let chain := String.intercalate " -> " visit.names
    report .resolution (some visit.file) s!"plugin cycle through {reference.target} ({chain})"
    return none
  else
    match renderer.plugins.get? reference.target with
    | none =>
        report .resolution (some visit.file) s!"plugin {reference.target} not found"
        return none
    | some entry =>
        let tree := (← get).tree
        match Plugin.load tree renderer.hooks entry with
        | .error failure =>
            report .resolution (some visit.file) failure.message
            return none
        | .ok plugin => renderPlugin inner plugin reference (some visit.key) visit.files visit.names

/-- Renders the plugins that a snippet refers to, in turn, and hands back the keys of those that were
rendered. -/
def renderSubPlugins (renderer : Renderer) (inner : Visit → Rendering Bool) (visit : Visit) :
    List Reference → Rendering (List String)
  | [] => pure []
  | reference :: rest => do
      let key ← renderSubPlugin renderer inner visit reference
      let keys ← renderSubPlugins renderer inner visit rest
      return key.toList ++ keys

def renderInside (renderer : Renderer) (inner : Visit → Rendering Bool) (visit : Visit)
    (result : SnippetResult) (js : Text) : Rendering Unit := do
  modify fun state => { state with snippets := state.snippets ++ [visit.snippet result js] }
  let (keys, elements) ← renderElements renderer inner visit result.elements
  let pluginKeys ← renderSubPlugins renderer inner visit result.plugins
  let entry : SnippetPayload :=
    { self := result.self, data := result.data, js, snippets := keys ++ pluginKeys, elements }
  modify fun state =>
    { state with
      payload := { state.payload with snippets := state.payload.snippets.put visit.key entry } }

/-- Runs the scripts of a snippet. The answer is what the one for the server handed back and the script
for the client, unless the snippet is skipped. -/
def runScripts (renderer : Renderer) (visit : Visit) : Rendering (Option (SnippetResult × Text)) := do
  match (← get).tree.readSource visit.file with
  | .error failure =>
      report .resolution (some visit.file) failure.message
      return none
  | .ok source =>
      match ← renderer.serverScript visit.plugin visit.file with
      | none => return none
      | some script =>
          match ← renderer.runScript visit script with
          | none => return none
          | some result =>
              let client ← renderer.clientScript visit.plugin visit.file source
              return some (result, joinScripts [client, (result.js.getD "").toList])

/-- Renders a snippet and, by `inner`, everything it refers to. The answer is whether it was
rendered. -/
def renderVisit (renderer : Renderer) (inner : Visit → Rendering Bool) (visit : Visit) :
    Rendering Bool := do
  let visit := visit.entered (← get).tree
  match ← renderer.runScripts visit with
  | none => return false
  | some (result, js) =>
      renderInside renderer inner visit result js
      return true

/-- Renders a snippet. The fuel bounds how deep snippets are inside one another. -/
def renderSnippet (renderer : Renderer) : Nat → Visit → Rendering Bool
  | 0, _ => throw .endless
  | fuel + 1, visit => renderVisit renderer (renderSnippet renderer fuel) visit

/-- Enough fuel for every rendering: on the way to a snippet no file is entered twice, apart from the
root snippets of plugins, and no plugin is entered twice. -/
def fuel (renderer : Renderer) (tree : Tree) : Nat :=
  tree.entries.length + renderer.plugins.plugins.length + 2

end Renderer

/-- The fragment of the snippet with a key, with everything that was rendered from it, and the markup
of all snippets in it by key. The fuel bounds how deep snippets are inside one another. -/
def compose (snippets : List Snippet) : Nat → String → Fragment × Keyed Text
  | 0, key => ({ key, html := [] }, [])
  | fuel + 1, key =>
      let html := ((snippets.find? (·.key == key)).map (·.html)).getD []
      let children := (snippets.filter (·.parent == some key)).map fun child =>
        compose snippets fuel child.key
      let fragment := children.foldl (fun all child => all.insert child.1) (Fragment.mk key html [])
      let inner := children.foldl (fun all child => Keyed.putAll child.2 all) []
      (fragment, Keyed.put key fragment.render inner)

structure Page where
  root : String
  /-- The markup of all snippets, each with everything in it; that of the root is the body. -/
  html : Keyed Text
  payload : Payload
  title : Option String
  icon : Option String
  snippets : List Snippet
  diagnostics : List Diagnostic

def Page.body (page : Page) : Text :=
  (page.html.get? page.root).getD []

namespace Renderer

def assemble (renderer : Renderer) (plugin : Plugin) (root : String) : Rendering Page := do
  let icon ← renderer.linkNamed plugin plugin.config.page.icon
  let state ← get
  let (assets, noted, tree) := LinkedAssets.ofAssets renderer.linker state.tree state.assets
  set { state with tree }
  return {
    root
    html := (compose state.snippets (state.snippets.length + 1) root).2
    payload := { state.payload with root, assets }
    title := plugin.config.page.title
    icon
    snippets := state.snippets
    diagnostics := state.diagnostics ++ noted }

def renderLoaded (renderer : Renderer) (plugin : Plugin) : Rendering Page := do
  let tree := (← get).tree
  let root ← renderPlugin (renderSnippet renderer (renderer.fuel tree)) plugin { target := plugin.name }
    none [] []
  match root with
  | none => throw (.unresolved s!"root snippet of plugin {plugin.name} failed to render")
  | some root => renderer.assemble plugin root

def render (renderer : Renderer) (tree : Tree) (entry : PluginEntry) : Except Failure (Page × Tree) := do
  let plugin ← Plugin.load tree renderer.hooks entry
  let (page, state) ← (renderer.renderLoaded plugin).run { tree }
  return (page, state.tree)

end Renderer

end PageScript
