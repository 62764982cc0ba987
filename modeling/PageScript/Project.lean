import PageScript.Compile.Pass
import PageScript.Plugin.Map

/-! The configuration of a project and its targets. -/

namespace PageScript

inductive TargetKind where
  | app
  | script
  | server
  deriving DecidableEq, Repr

namespace TargetKind

def all : List TargetKind :=
  [.app, .script, .server]

def name : TargetKind → String
  | .app => "app"
  | .script => "script"
  | .server => "server"

def ofName? (name : String) : Option TargetKind :=
  all.find? (·.name == name)

end TargetKind

namespace DuplicatePolicy

def name : DuplicatePolicy → String
  | .firstWins => "first-wins"
  | .lastWins => "last-wins"

def ofName? (name : String) : Option DuplicatePolicy :=
  [firstWins, lastWins].find? (·.name == name)

end DuplicatePolicy

structure Target where
  source : Path
  output : Path
  kind : TargetKind

structure Project where
  runtimeCore : Path
  bootstrap : Option Path := none
  maps : Path
  publicRoot : String
  internalRoot : Path
  linksFolder : String := "auto"
  targets : List Target := []
  sourceRoots : List Path := []
  packageFolders : List Path := []
  language : String := "en"
  mode : String := "dev"
  duplicates : DuplicatePolicy := .firstWins
  widgets : Keyed String := []
  checkSyntax : Bool := false

def Part.path (part : Part) : Decoding Path := do
  return ⟨← part.text⟩

def Target.decode (part : Part) : Decoding Target := do
  let fields ← part.fields ["entryPoint", "output", "type"]
  let source ← Decoding.required fields "entryPoint" Part.path
  let output ← Decoding.required fields "output" Part.path
  let kind ← Decoding.required fields "type" (Part.choice TargetKind.ofName?)
  return { source, output, kind }

namespace Project

def fieldNames : List String :=
  ["runtimeCore", "appBootstrap", "mapsDir", "publicRoot", "internalRoot", "linksDir", "targets",
    "sourceRoots", "packageDirs", "language", "mode", "duplicateClassPolicy", "widgets",
    "checkSyntax"]

def decode (part : Part) : Decoding Project := do
  let fields ← part.fields fieldNames
  let runtimeCore ← Decoding.required fields "runtimeCore" Part.path
  let bootstrap ← Decoding.withDefault fields "appBootstrap" none (Part.optional Part.path)
  let maps ← Decoding.required fields "mapsDir" Part.path
  let publicRoot ← Decoding.required fields "publicRoot" Part.text
  let internalRoot ← Decoding.required fields "internalRoot" Part.path
  let linksFolder ← Decoding.withDefault fields "linksDir" "auto" Part.text
  let targets ← Decoding.withDefault fields "targets" [] (Part.list Target.decode)
  let sourceRoots ← Decoding.withDefault fields "sourceRoots" [] (Part.list Part.path)
  let packageFolders ← Decoding.withDefault fields "packageDirs" [] (Part.list Part.path)
  let language ← Decoding.withDefault fields "language" "en" Part.text
  let mode ← Decoding.withDefault fields "mode" "dev" Part.text
  let duplicates ← Decoding.withDefault fields "duplicateClassPolicy" .firstWins
    (Part.choice DuplicatePolicy.ofName?)
  let widgets ← Decoding.withDefault fields "widgets" [] (Part.keyed Part.text)
  let checkSyntax ← Decoding.withDefault fields "checkSyntax" false Part.bool
  return {
    runtimeCore, bootstrap, maps, publicRoot, internalRoot, linksFolder, targets, sourceRoots,
    packageFolders, language, mode, duplicates, widgets, checkSyntax }

def inFolder (project : Project) (folder : Path) : Project :=
  { project with
    runtimeCore := folder.join project.runtimeCore
    bootstrap := project.bootstrap.map folder.join
    maps := folder.join project.maps
    internalRoot := folder.join project.internalRoot
    targets := project.targets.map fun target =>
      { target with source := folder.join target.source, output := folder.join target.output }
    sourceRoots := project.sourceRoots.map folder.join
    packageFolders := project.packageFolders.map folder.join }

/-- The configuration in a file: YAML if its extension says so, and JSON otherwise. Paths start from
the folder of the file. -/
def load (tree : Tree) (path : Path) : Except Failure Project := do
  let format : Format :=
    if path.extension? = some "yaml" ∨ path.extension? = some "yml" then .yaml else .json
  let project ← tree.decode path format decode
  return project.inFolder (path.parent?.getD ⟨"."⟩)

def scanRoots (project : Project) : List Path :=
  project.sourceRoots ++ project.packageFolders

def registry (project : Project) (modules : ModuleMap) : Template.Registry :=
  (Template.Registry.builtin.extend modules.widgetTags).extend project.widgets

def compiler (project : Project) (modules : ModuleMap) (syntaxErrors : Text → List String) : Compiler where
  modules
  widgets := project.registry modules
  duplicates := project.duplicates
  checkSyntax := project.checkSyntax
  syntaxErrors

def regenerate (project : Project) (tree : Tree) :
    Except Failure (Tree × ModuleMap × PluginMap) := do
  let (modules, _) := ({ root := project.maps } : ModuleMap).regenerate tree project.scanRoots
  let tree ← modules.save tree project.maps
  let (plugins, _) := ({ root := project.maps } : PluginMap).regenerate tree project.scanRoots
  let tree ← plugins.save tree project.maps
  return (tree, modules, plugins)

def toData (project : Project) : Data :=
  let path (path : Path) : Data := .text path.text
  .record [
    ("runtimeCore", path project.runtimeCore),
    ("appBootstrap", .ofText? (project.bootstrap.map (·.text))),
    ("mapsDir", path project.maps),
    ("publicRoot", .text project.publicRoot),
    ("internalRoot", path project.internalRoot),
    ("linksDir", .text project.linksFolder),
    ("targets", .list (project.targets.map fun target => .record [
      ("entryPoint", path target.source), ("output", path target.output),
      ("type", .text target.kind.name)])),
    ("sourceRoots", .list (project.sourceRoots.map path)),
    ("packageDirs", .list (project.packageFolders.map path)),
    ("language", .text project.language),
    ("mode", .text project.mode),
    ("duplicateClassPolicy", .text project.duplicates.name),
    ("widgets", .record (project.widgets.map fun (tag, name) => (tag, .text name))),
    ("checkSyntax", .bool project.checkSyntax)]

end Project

end PageScript
