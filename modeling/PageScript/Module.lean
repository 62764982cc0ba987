import PageScript.Data.Json.Printer
import PageScript.Directive.Declaration

/-! Modules of a project, found by the names that their files declare. -/

namespace PageScript

structure Module where
  name : String
  path : String
  metadata : Keyed Data := []

namespace Module

def text? (module_ : Module) (name : String) : Option String :=
  (module_.metadata.get? name).bind Data.text?

def widgetTag? (module_ : Module) : Option String :=
  module_.text? "widget"

def locale? (module_ : Module) : Option String :=
  module_.text? "i18n"

def declared? (file : Path) (source : Text) : Option Module :=
  match Text.occurrences Directive.moduleName source with
  | [] => none
  | name :: _ =>
      let pairs := (Text.occurrences Directive.moduleData source).map fun (name, value) =>
        (String.ofList name, Directive.dataValue value)
      some { name := String.ofList name, path := file.text, metadata := .ofList pairs }

def toData (module_ : Module) : Data :=
  .record ([("name", .text module_.name), ("path", .text module_.path)] ++
    if module_.metadata.isEmpty then [] else [("metadata", .record module_.metadata)])

def decode (part : Part) : Decoding Module := do
  let fields ← part.fields ["name", "path", "metadata"]
  let name ← Decoding.required fields "name" Part.text
  let path ← Decoding.required fields "path" Part.text
  let metadata ← Decoding.withDefault fields "metadata" [] (Part.keyed Part.sortedData)
  return { name, path, metadata }

end Module

structure ModuleMap where
  root : Path
  modules : Keyed Module := []

namespace ModuleMap

def fileName : String := "_modules.json"

def get? (map : ModuleMap) (name : String) : Option Module :=
  map.modules.get? name

def insert (map : ModuleMap) (module_ : Module) : ModuleMap :=
  { map with modules := map.modules.putNew module_.name module_ }

def resolve (map : ModuleMap) (module_ : Module) : Path :=
  let path : Path := ⟨module_.path⟩
  if path.isAbsolute then path else map.root.join path

def widgetTags (map : ModuleMap) : List (String × String) :=
  map.modules.filterMap fun (name, module_) => module_.widgetTag?.map fun tag => (tag, name)

def text (map : ModuleMap) : Text :=
  Json.indented 0 (.list (map.modules.map fun (_, module_) => module_.toData))

def save (map : ModuleMap) (tree : Tree) (folder : Path) : Except Failure Tree := do
  let tree ← (tree.makeFolders folder).mapError (.io folder)
  let file := folder.join ⟨fileName⟩
  (tree.write file map.text).mapError (.io file)

def load (tree : Tree) (folder : Path) : Except Failure ModuleMap := do
  let file := folder.join ⟨fileName⟩
  let blank : ModuleMap := { root := folder }
  if tree.holds file then
    let modules ← tree.decode file .json (Part.list Module.decode)
    return modules.foldl insert blank
  else return blank

end ModuleMap

namespace Tree

def childNames (tree : Tree) (place : Location) : List String :=
  (tree.below place).filterMap fun (names, _) => if names.length = 1 then names.head? else none

/-- Whether a link leads back from a folder to that folder or to one that is searched around it. -/
def leadsBack (tree : Tree) (link target : Location) (around : List Location) : Bool :=
  match tree.entry? link with
  | some (.link _) => around.contains target
  | _ => false

/-- A path and everything below it by name, each folder before what is in it. Links are followed, unless
they lead back or to nothing. The fuel bounds the depth: a path grows with each step inwards, and one that
is too long leads to nothing. -/
def descend (tree : Tree) : Nat → List Location → Location → Path → List Path
  | 0, _, _, _ => []
  | fuel + 1, around, place, path =>
      path :: (tree.childNames place).flatMap fun name =>
        let inner := path.join ⟨name⟩
        match tree.place? inner with
        | .error _ => []
        | .ok target =>
            if tree.leadsBack (place ++ [name]) target (place :: around) then []
            else tree.descend fuel (place :: around) target inner

def search (tree : Tree) (root : Path) : List Path :=
  match tree.place? root with
  | .error _ => []
  | .ok place => tree.descend (maxPath + 1) [] place root

end Tree

namespace ModuleMap

def scripts (tree : Tree) (roots : List Path) : List Path :=
  (roots.flatMap tree.search).filter fun path => tree.isFile path && path.extension? == some "js"

/-- Adds the modules that files declare; the names that were taken come second. -/
def addDeclared (tree : Tree) : ModuleMap → List Path → ModuleMap × List String
  | map, [] => (map, [])
  | map, file :: rest =>
      match (tree.read file).toOption.bind (Module.declared? file) with
      | none => addDeclared tree map rest
      | some module_ =>
          if (map.get? module_.name).isSome then
            let (map, duplicates) := addDeclared tree map rest
            (map, module_.name :: duplicates)
          else addDeclared tree (map.insert module_) rest

/-- Makes the map anew from the scripts below some folders; the names declared again come second. -/
def regenerate (map : ModuleMap) (tree : Tree) (roots : List Path) : ModuleMap × List String :=
  addDeclared tree { map with modules := [] } (scripts tree roots)

end ModuleMap

end PageScript
