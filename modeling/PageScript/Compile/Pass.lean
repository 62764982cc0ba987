import PageScript.Class.Sugar
import PageScript.Compile.Job
import PageScript.Directive.Block
import PageScript.Directive.Resource
import PageScript.Module
import PageScript.Script.Comment
import PageScript.Template.Emitter
import PageScript.Template.Reader

/-! The pass over one script, which takes out everything that concerns this script alone. -/

namespace PageScript

inductive DuplicatePolicy where
  | firstWins
  | lastWins
  deriving DecidableEq, Repr

structure Compiler where
  modules : ModuleMap
  widgets : Template.Registry
  defaultExtension : String := "js"
  duplicates : DuplicatePolicy := .firstWins
  checkSyntax : Bool := false
  /-- What a parser of scripts objects to. -/
  syntaxErrors : Text → List String := fun _ => []

def Compiler.ofModules (modules : ModuleMap) : Compiler where
  modules
  widgets := Template.Registry.builtin.extend modules.widgetTags

/-- What compiling depends on and does not change: the files, the compiler and the settings. -/
structure Context where
  tree : Tree
  compiler : Compiler
  settings : Settings

namespace Context

/-- Templates become scripts; one with a violation becomes nothing. -/
def expandTemplates (context : Context) (label : String) (file : Option Path) (progress : Progress)
    (code : Text) : Text × Progress :=
  Text.weave
    (fun (progress : Progress) _ (block : Directive.TemplateBlock) =>
      let emitted := do
        let nodes ← Template.read context.compiler.widgets label block.offset block.body
        Template.emit label block.output nodes
      match emitted with
      | .ok script => (script, progress)
      | .error violation => ([], progress.report .structural file violation.display))
    progress (Text.cut Directive.templateBlock code)

def dataText (context : Context) (format : Format) (path : Path) : Except Failure Text := do
  let data ← context.tree.decode path format Part.sortedData
  return Json.compact data

def injectData (context : Context) (base : Path) (file : Option Path) (progress : Progress)
    (code : Text) : Text × Progress :=
  Text.weave
    (fun (progress : Progress) _ ((format, path) : Format × Text) =>
      match context.dataText format (base.join ⟨String.ofList path⟩).normalize with
      | .ok text => (text, progress)
      | .error failure => ("null".toList, progress.report .data file failure.message))
    progress (Text.cut Directive.dataReference code)

def collectAssets (base : Path) (progress : Progress) (code : Text) : Text × Progress :=
  Text.weave
    (fun (progress : Progress) _ ((kind, path) : AssetKind × Text) =>
      ([], progress.addAsset (Directive.assetPath base path) kind))
    progress (Text.cut Directive.asset code)

def reportHeaders (label : String) (file : Option Path) (progress : Progress) (headers : List Text) :
    Progress :=
  headers.foldl
    (fun progress header =>
      progress.report .structural file (ClassSugar.malformedHeader label header).display)
    progress

/-- The part of the pass before class sugar, after which only code for this side is left, with its
data. -/
def prepare (context : Context) (label : String) (base : Path) (file : Option Path)
    (progress : Progress) (code : Text) : Text × Progress :=
  let (code, progress) :=
    context.expandTemplates label file progress (Directive.dropCommentedOut code)
  let code := Directive.dropModuleDirectives (Script.stripComments code)
  let code := Directive.filterBlocks "context" context.settings.side.label.toList code
  context.injectData base file progress code

def conclude (context : Context) (label : String) (base : Path) (file : Option Path)
    (progress : Progress) (desugared : ClassSugar.Desugared) : Text × Progress :=
  let progress := reportHeaders label file progress desugared.malformed
  let (code, progress) := collectAssets base progress desugared.code
  (Directive.filterBlocks "mode" context.settings.mode.toList code, progress)

def pass (context : Context) (file : Option Path) (progress : Progress) (code : Text) :
    Except Violation Text × Progress :=
  let label := (file.map (·.text)).getD context.settings.label
  let base := (file.bind Path.parent?).getD context.settings.folder
  let (code, progress) := context.prepare label base file progress code
  match ClassSugar.desugar label code with
  | .error violation => (.error violation, progress)
  | .ok desugared =>
      let (code, progress) := context.conclude label base file progress desugared
      (.ok code, progress)

end Context

end PageScript
