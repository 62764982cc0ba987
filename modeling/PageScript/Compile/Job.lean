import PageScript.Asset
import PageScript.Directive.Inclusion
import PageScript.Failure
import PageScript.Locale.Table

/-! What a compilation is told and how far it has come. -/

namespace PageScript

inductive Side where
  | client
  | server
  deriving DecidableEq, Repr

def Side.label : Side → String
  | .client => "CLIENT"
  | .server => "SERVER"

structure Settings where
  file : Option Path := none
  /-- Where relative paths start, in place of the folder of the file. -/
  base : Option Path := none
  prelude : Text := []
  code : Option Text := none
  postlude : Text := []
  side : Side
  isApp : Bool := false
  language : String := "en"
  mode : String := "dev"
  flags : InclusionFlags := {}
  ignored : List String := []
  pluginTable : Option LocaleTable := none
  /-- Whether modules are built, or only noted for later. -/
  buildModules : Bool := true
  wrap : Bool := false

namespace Settings

def source (settings : Settings) (tree : Tree) : Except Failure Text :=
  match settings.code, settings.file with
  | some code, _ => .ok code
  | none, some file => tree.readSource file
  | none, none => .ok []

def folder (settings : Settings) : Path :=
  match settings.base with
  | some base => base
  | none => (settings.file.bind Path.parent?).getD ⟨"."⟩

def label (settings : Settings) : String :=
  match settings.file with
  | some file => file.text
  | none => "<inline>"

end Settings

structure Progress where
  assets : AssetSet := {}
  compiledModules : List String := []
  compiledFiles : List Path := []
  deferredModules : List String := []
  moduleTable : LocaleTable := {}
  diagnostics : List Diagnostic := []

namespace Progress

def isCompiled (progress : Progress) (file : Path) : Bool :=
  progress.compiledFiles.any (·.same file)

def markFile (progress : Progress) (file : Path) : Progress :=
  if progress.isCompiled file then progress
  else { progress with compiledFiles := progress.compiledFiles ++ [file] }

def report (progress : Progress) (topic : Topic) (file : Option Path) (message : String) : Progress :=
  { progress with
    diagnostics := progress.diagnostics ++ [{ topic, message, file := file.map (·.text) }] }

def addAsset (progress : Progress) (path : String) (kind : AssetKind) : Progress :=
  { progress with assets := progress.assets.add path kind }

def markModule (progress : Progress) (name : String) : Progress :=
  if progress.compiledModules.contains name then progress
  else { progress with compiledModules := progress.compiledModules ++ [name] }

/-- Notes a module for later, also as an asset. -/
def deferModule (progress : Progress) (name : String) : Progress :=
  if progress.deferredModules.contains name then progress
  else
    { progress.addAsset name .module with
      deferredModules := progress.deferredModules ++ [name] }

end Progress

structure Job where
  settings : Settings
  requested : List String := []
  progress : Progress := {}

end PageScript
