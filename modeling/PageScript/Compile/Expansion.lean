import PageScript.Compile.Inclusion
import PageScript.Locale.Load
import PageScript.Locale.Reference

/-!
Expanding the directives that include other code. A file that is compiled already is not included again
unless that is forced; a forced cycle has no expansion, which is said by `none`.
-/

namespace PageScript

def isolated (code : Text) : Text :=
  "(function()\x7b\n".toList ++ code ++ "\n\x7d)();".toList

abbrev Expander := Path → Progress → Text → Option (Text × Progress)

namespace Context

def folderFiles (context : Context) (recursive : Bool) (folder : Path) : List Path :=
  match context.tree.place? folder with
  | .error _ => []
  | .ok place =>
      let inner := (context.tree.below place).filterMap fun (names, entry) =>
        match entry with
        | .file _ | .binary => if recursive || names.length == 1 then some names else none
        | _ => none
      let paths := inner.map fun names => names.foldl (fun path name => path.join ⟨name⟩) folder
      paths.filter fun path => path.extension? == some context.compiler.defaultExtension

/-- The files that a target names: a list in braces, a folder, or a single file that is there. -/
def targetFiles? (context : Context) (flags : InclusionFlags) (base : Path) (target : Text) :
    Option (List Path) :=
  let complete (path : Path) : Path := path.withDefaultExtension context.compiler.defaultExtension
  let located (item : Text) : Path := base.join ⟨String.ofList (Script.unquote item)⟩
  if target.head? = some '{' ∧ target.getLast? = some '}' then
    some ((Script.topLevelParts ',' (target.drop 1).dropLast).map fun item => complete (located item))
  else
    let place := located target
    if context.tree.isFolder place then some (context.folderFiles flags.recursive place)
    else if (Script.unquote target).getLast? = some '/' then none
    else if context.tree.isFile (complete place) then some [complete place]
    else none

/-- The pass over the files of a directive in turn. A file that cannot be read is left out, and so is
one with a violation, which is noted. -/
def passAll (context : Context) : Nat → Progress → List Path → List Inclusion × Progress
  | _, progress, [] => ([], progress)
  | order, progress, file :: rest =>
      match context.tree.read file with
      | .error _ => context.passAll order progress rest
      | .ok source =>
          match context.pass (some file) progress source with
          | (.error violation, progress) =>
              context.passAll order (progress.report .structural (some file) violation.display) rest
          | (.ok code, progress) =>
              let (others, progress) := context.passAll (order + 1) progress rest
              (Inclusion.ofCode file code order :: others, progress)

def expandAll (expand : Expander) : Progress → List Inclusion → Option (List Text × Progress)
  | progress, [] => some ([], progress)
  | progress, inclusion :: rest => do
      let (code, progress) ← expand (inclusion.path.parent?.getD ⟨""⟩) progress inclusion.code
      let (others, progress) ← expandAll expand progress rest
      return (code :: others, progress)

/-- The files of a directive that are brought in: those that are not compiled yet, or all of them if
that is forced. -/
def pendingFiles (context : Context) (flags : InclusionFlags) (progress : Progress)
    (files : List Path) : List Path :=
  (files.map context.tree.canonical).filter fun file => flags.force || ! progress.isCompiled file

/-- Marks the files of a directive and takes their code through the pass, in the order in which it is
written out. -/
def gather (context : Context) (progress : Progress) (pending : List Path) :
    List Inclusion × Progress :=
  let (inclusions, progress) := context.passAll 0 (pending.foldl Progress.markFile progress) pending
  let (kept, progress) := Inclusion.dropDuplicates context.compiler.duplicates inclusions progress
  (Inclusion.ordered kept, progress)

def assembleParts (flags : InclusionFlags) (parts : List Text) : Text :=
  let code := Text.join ['\n'] parts
  if Text.allBlank code then [] else if flags.unwrapped then code else isolated code

/-- What a `require` directive becomes. Without a value the directive stays as it is. -/
def require (context : Context) (expand : Expander) (flags : InclusionFlags) (base : Path)
    (progress : Progress) (target : Text) : Option (Option Text × Progress) :=
  match context.targetFiles? flags base target with
  | none => some (none, progress)
  | some files =>
      let single := files.length = 1 ∧ target.head? ≠ some '{'
      let pending := context.pendingFiles flags progress files
      let unreadable := pending.any fun file => (context.tree.read file).toOption.isNone
      if single ∧ unreadable then some (none, pending.foldl Progress.markFile progress)
      else do
        let (inclusions, progress) := context.gather progress pending
        let (parts, progress) ← expandAll expand progress inclusions
        return (some (assembleParts flags parts), progress)

/-- Expands the `require` directives of a script. The fuel bounds how deep files include files. -/
def expandRequires (context : Context) : Nat → Expander
  | 0, _, _, _ => none
  | fuel + 1, base, progress, code =>
      Text.weave?
        (fun progress lexeme (directive : Directive.Require) => do
          let flags := ((directive.flags.map InclusionFlags.parse).getD {}).union
            context.settings.flags
          let (written, progress) ← context.require (context.expandRequires fuel) flags base progress
            (Text.trim directive.target)
          return (written.getD lexeme, progress))
        progress (Text.cut Directive.require code)

/-- Enough fuel for every nesting without force. Each inclusion marks a new file, and a path that can be
read consists of names of the tree and is not too long. -/
def requireFuel (context : Context) : Nat :=
  Nat.pow (context.tree.entries.length + 4) (Tree.maxPath + 2) + 2

/-- Merges the localised texts of a module in, and makes the references of its code name the module. -/
def addLocales (context : Context) (name : String) (folder : Path) (file : Option String)
    (progress : Progress) (code : Text) : Text × Progress :=
  match file with
  | none => (code, progress)
  | some file =>
      let file := folder.join ⟨file⟩
      match LocaleTable.load context.tree file with
      | .ok table =>
          (Locale.qualifyReferences name.toList code,
            { progress with moduleTable := (progress.moduleTable.merge (some name) table).1 })
      | .error failure => (code, progress.report .data (some file) failure.message)

def useAll (use : Progress → String → Option (Text × Progress)) :
    Progress → List String → Option (Text × Progress)
  | progress, [] => some ([], progress)
  | progress, name :: rest => do
      let (code, progress) ← use progress name
      let (others, progress) ← useAll use progress rest
      return (code ++ others, progress)

/-- The own code of a module with its locales and the files it requires, its `use` directives still
standing. Nothing if it has a violation. -/
def moduleScript (context : Context) (name : String) (file : Path) (locales : Option String)
    (progress : Progress) (source : Text) : Option (Option Text × Progress) :=
  match context.pass (some file) progress source with
  | (.error violation, progress) =>
      some (none, progress.report .structural (some file) violation.display)
  | (.ok code, progress) => do
      let folder := file.parent?.getD ⟨""⟩
      let (code, progress) := context.addLocales name folder locales (progress.markFile file) code
      let (code, progress) ← context.expandRequires context.requireFuel folder progress code
      return (some code, progress)

def moduleCode (context : Context) (use : Progress → String → Option (Text × Progress))
    (name : String) (file : Path) (locales : Option String) (progress : Progress)
    (source : Text) : Option (Option Text × Progress) := do
  match ← context.moduleScript name file locales progress source with
  | (none, progress) => return (none, progress)
  | (some code, progress) =>
      let names := (Directive.usedModules code).map String.ofList
      let (dependencies, progress) ← useAll use progress names
      return (some (dependencies ++ Directive.dropUses code), progress)

def moduleFile (context : Context) (module_ : Module) : Path :=
  context.tree.canonical (context.compiler.modules.resolve module_)

/-- What the use of a module becomes, inside the modules that are being built. The modules that it uses
itself are used by `inner`. -/
def useOne (context : Context)
    (inner : List String → Progress → String → Option (Text × Progress)) (building : List String)
    (progress : Progress) (name : String) : Option (Text × Progress) :=
  if context.settings.ignored.contains name || progress.compiledModules.contains name then
    some ([], progress)
  else if building.contains name then some ([], progress)
  else if ! context.settings.buildModules then some ([], progress.deferModule name)
  else
    match context.compiler.modules.get? name with
    | none => some ([], progress.report .resolution none s!"module {name} not found")
    | some module_ =>
        let file := context.moduleFile module_
        match context.tree.read file with
        | .error fault =>
            some ([], progress.report .resolution (some file)
              s!"module {name} unreadable: {fault.message}")
        | .ok source => do
            let (code, progress) ← context.moduleCode (inner (name :: building)) name file
              module_.locale? progress source
            match code with
            | none => return ([], progress)
            | some code => return (code ++ ['\n'], progress.markModule name)

/-- What the use of a module becomes. The fuel bounds how deep modules use modules. -/
def useModule (context : Context) : Nat → List String → Progress → String → Option (Text × Progress)
  | 0, _, _, _ => none
  | fuel + 1, building, progress, name =>
      context.useOne (context.useModule fuel) building progress name

def useFuel (context : Context) : Nat :=
  context.compiler.modules.modules.length + 2

def useDirectives (context : Context) (progress : Progress) (pieces : List (Piece (List Text))) :
    Option (Text × Progress) :=
  Text.weave?
    (fun progress _ names =>
      useAll (context.useModule context.useFuel []) progress (names.map String.ofList))
    progress pieces

def expandUses (context : Context) (progress : Progress) (code : Text) : Option (Text × Progress) :=
  context.useDirectives progress (Text.cut Directive.use code)

def expand (context : Context) (base : Path) (progress : Progress) (code : Text) :
    Option (Text × Progress) := do
  let (code, progress) ← context.expandRequires context.requireFuel base progress code
  context.expandUses progress code

end Context

end PageScript
