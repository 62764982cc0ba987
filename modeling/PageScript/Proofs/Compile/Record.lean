import PageScript.Compile
import PageScript.Proofs.Text.Weave

/-! Recorded expansions, which note the files that were written out and the modules that were built. -/

namespace PageScript

open Text Directive Option

/-- A module that was built: its file and its own code, in which the `use` directives still stand. -/
structure Built where
  name : String
  file : Path
  code : Text

namespace Built

def uses (built : Built) : List String :=
  (usedModules built.code).map String.ofList

def text (built : Built) : Text :=
  dropUses built.code ++ ['\n']

end Built

inductive Insertion where
  /-- Files in the order in which their code was written, and whether that was forced. -/
  | files (forced : Bool) (paths : List Path)
  | built (module_ : Built)

namespace Insertion

def built? : Insertion → Option Built
  | .files _ _ => none
  | .built module_ => some module_

def paths : Insertion → List Path
  | .files _ paths => paths
  | .built module_ => [module_.file]

def forced : Insertion → Bool
  | .files forced _ => forced
  | .built _ => false

def modules (record : List Insertion) : List Built :=
  record.filterMap built?

def allPaths (record : List Insertion) : List Path :=
  record.flatMap paths

@[simp] theorem modules_append (left right : List Insertion) :
    modules (left ++ right) = modules left ++ modules right :=
  List.filterMap_append

@[simp] theorem modules_built (module_ : Built) : modules [.built module_] = [module_] := rfl

@[simp] theorem allPaths_append (left right : List Insertion) :
    allPaths (left ++ right) = allPaths left ++ allPaths right :=
  List.flatMap_append

end Insertion

abbrev Recorded (α : Type) := α × Progress × List Insertion

namespace Context

variable (context : Context) (recorded : Path → Progress → Text → Option (Recorded Text))

def recordedAll (expand : Path → Progress → Text → Option (Recorded Text)) :
    Progress → List Inclusion → Option (Recorded (List Text))
  | progress, [] => some ([], progress, [])
  | progress, inclusion :: rest => do
      let (code, progress, record) ←
        expand (inclusion.path.parent?.getD ⟨""⟩) progress inclusion.code
      let (others, progress, more) ← recordedAll expand progress rest
      return (code :: others, progress, record ++ more)

/-- The files that a directive wrote. White space alone is not written. -/
def writtenFiles (flags : InclusionFlags) (inclusions : List Inclusion) (parts : List Text) :
    List Insertion :=
  if assembleParts flags parts = [] then [] else [.files flags.force (inclusions.map (·.path))]

def recordedRequire (context : Context) (expand : Path → Progress → Text → Option (Recorded Text))
    (flags : InclusionFlags) (base : Path) (progress : Progress) (target : Text) :
    Option (Recorded (Option Text)) :=
  match context.targetFiles? flags base target with
  | none => some (none, progress, [])
  | some files =>
      let single := files.length = 1 ∧ target.head? ≠ some '{'
      let pending := context.pendingFiles flags progress files
      let unreadable := pending.any fun file => (context.tree.read file).toOption.isNone
      if single ∧ unreadable then some (none, pending.foldl Progress.markFile progress, [])
      else do
        let (inclusions, progress) := context.gather progress pending
        let (parts, progress, inner) ← recordedAll expand progress inclusions
        return (some (assembleParts flags parts), progress,
          writtenFiles flags inclusions parts ++ inner)

def effectiveFlags (context : Context) (directive : Require) : InclusionFlags :=
  ((directive.flags.map InclusionFlags.parse).getD {}).union context.settings.flags

def recordedRequires (context : Context) : Nat → Path → Progress → Text → Option (Recorded Text)
  | 0, _, _, _ => none
  | fuel + 1, base, progress, code =>
      weaveRecorded
        (fun progress lexeme (directive : Require) => do
          let (written, progress, record) ← context.recordedRequire (context.recordedRequires fuel)
            (context.effectiveFlags directive) base progress (trim directive.target)
          return (written.getD lexeme, progress, record))
        progress (cut Directive.require code)

def recordedScript (context : Context) (name : String) (file : Path) (locales : Option String)
    (progress : Progress) (source : Text) : Option (Recorded (Option Text)) :=
  match context.pass (some file) progress source with
  | (.error violation, progress) =>
      some (none, progress.report .structural (some file) violation.display, [])
  | (.ok code, progress) => do
      let folder := file.parent?.getD ⟨""⟩
      let (code, progress) := context.addLocales name folder locales (progress.markFile file) code
      let (code, progress, record) ←
        context.recordedRequires context.requireFuel folder progress code
      return (some code, progress, record)

def recordedAllUses (use : Progress → String → Option (Recorded Text)) :
    Progress → List String → Option (Recorded Text)
  | progress, [] => some ([], progress, [])
  | progress, name :: rest => do
      let (code, progress, record) ← use progress name
      let (others, progress, more) ← recordedAllUses use progress rest
      return (code ++ others, progress, record ++ more)

def recordedModule (context : Context) (use : Progress → String → Option (Recorded Text))
    (name : String) (file : Path) (locales : Option String) (progress : Progress) (source : Text) :
    Option (Recorded Text) := do
  match ← context.recordedScript name file locales progress source with
  | (none, progress, record) => return ([], progress, record)
  | (some code, progress, record) =>
      let built : Built := { name, file, code }
      let (dependencies, progress, more) ← recordedAllUses use progress built.uses
      return (dependencies ++ built.text, progress.markModule name,
        record ++ more ++ [.built built])

def recordedOne (context : Context)
    (inner : List String → Progress → String → Option (Recorded Text)) (building : List String)
    (progress : Progress) (name : String) : Option (Recorded Text) :=
  if context.settings.ignored.contains name || progress.compiledModules.contains name then
    some ([], progress, [])
  else if building.contains name then some ([], progress, [])
  else if ! context.settings.buildModules then some ([], progress.deferModule name, [])
  else
    match context.compiler.modules.get? name with
    | none => some ([], progress.report .resolution none s!"module {name} not found", [])
    | some module_ =>
        let file := context.moduleFile module_
        match context.tree.read file with
        | .error fault =>
            some ([], progress.report .resolution (some file)
              s!"module {name} unreadable: {fault.message}", [])
        | .ok source =>
            context.recordedModule (inner (name :: building)) name file module_.locale? progress
              source

def recordedUse (context : Context) :
    Nat → List String → Progress → String → Option (Recorded Text)
  | 0, _, _, _ => none
  | fuel + 1, building, progress, name =>
      context.recordedOne (context.recordedUse fuel) building progress name

def recordedNames (context : Context) (progress : Progress) (names : List Text) :
    Option (Recorded Text) :=
  recordedAllUses (context.recordedUse context.useFuel []) progress (names.map String.ofList)

def recordedDirectives (context : Context) (progress : Progress)
    (pieces : List (Piece (List Text))) : Option (Recorded Text) :=
  weaveRecorded (fun progress _ names => context.recordedNames progress names) progress pieces

def recordedExpand (context : Context) (base : Path) (progress : Progress) (code : Text) :
    Option (Recorded Text) := do
  let (code, progress, record) ← context.recordedRequires context.requireFuel base progress code
  let (code, progress, more) ←
    context.recordedDirectives progress (cut use code)
  return (code, progress, record ++ more)

private theorem withoutRecord_recordedAll (expand : Expander)
    (same : ∀ base progress code, withoutRecord (recorded base progress code) =
      expand base progress code)
    (progress : Progress) (inclusions : List Inclusion) :
    withoutRecord (recordedAll recorded progress inclusions) =
      expandAll expand progress inclusions := by
  induction inclusions generalizing progress with
  | nil => rfl
  | cons inclusion rest ih =>
    simp only [recordedAll, expandAll, ← same]
    cases recorded (inclusion.path.parent?.getD ⟨""⟩) progress inclusion.code with
    | none => rfl
    | some first =>
      simp only [withoutRecord, bind_eq_bind, bind_some, map_some, ← ih]
      cases recordedAll recorded first.2.1 rest with
      | none => rfl
      | some others => rfl

private theorem withoutRecord_recordedRequire (expand : Expander)
    (same : ∀ base progress code, withoutRecord (recorded base progress code) =
      expand base progress code)
    (flags : InclusionFlags) (base : Path) (progress : Progress) (target : Text) :
    withoutRecord (context.recordedRequire recorded flags base progress target) =
      context.require expand flags base progress target := by
  unfold recordedRequire require
  cases context.targetFiles? flags base target with
  | none => rfl
  | some files =>
    simp only
    split
    · rfl
    · rw [← withoutRecord_recordedAll recorded expand same]
      cases recordedAll recorded _ _ with
      | none => rfl
      | some parts => rfl

theorem withoutRecord_recordedRequires (fuel : Nat) (base : Path)
    (progress : Progress) (code : Text) :
    withoutRecord (context.recordedRequires fuel base progress code) =
      context.expandRequires fuel base progress code := by
  induction fuel generalizing base progress code with
  | zero => rfl
  | succ fuel ih =>
    unfold recordedRequires expandRequires
    apply withoutRecord_weaveRecorded
    intro progress lexeme directive
    simp only [effectiveFlags, ← context.withoutRecord_recordedRequire _ _ ih]
    cases context.recordedRequire _ _ base progress (trim directive.target) with
    | none => rfl
    | some written => rfl

private theorem withoutRecord_recordedScript (name : String) (file : Path)
    (locales : Option String) (progress : Progress) (source : Text) :
    withoutRecord (context.recordedScript name file locales progress source) =
      context.moduleScript name file locales progress source := by
  unfold recordedScript moduleScript
  cases context.pass (some file) progress source with
  | mk outcome passed =>
    cases outcome with
    | error violation => rfl
    | ok code =>
      simp only [← context.withoutRecord_recordedRequires]
      cases context.recordedRequires _ _ _ _ with
      | none => rfl
      | some script => rfl

theorem withoutRecord_recordedAllUses (recorded : Progress → String → Option (Recorded Text))
    (use : Progress → String → Option (Text × Progress))
    (same : ∀ progress name, withoutRecord (recorded progress name) = use progress name)
    (progress : Progress) (names : List String) :
    withoutRecord (recordedAllUses recorded progress names) = useAll use progress names := by
  induction names generalizing progress with
  | nil => rfl
  | cons name rest ih =>
    simp only [recordedAllUses, useAll, ← same]
    cases recorded progress name with
    | none => rfl
    | some first =>
      simp only [withoutRecord, bind_eq_bind, bind_some, map_some, ← ih]
      cases recordedAllUses recorded first.2.1 rest with
      | none => rfl
      | some others => rfl

theorem withoutRecord_recordedUse (fuel : Nat) (building : List String)
    (progress : Progress) (name : String) :
    withoutRecord (context.recordedUse fuel building progress name) =
      context.useModule fuel building progress name := by
  induction fuel generalizing building progress name with
  | zero => rfl
  | succ fuel ih =>
    unfold recordedUse useModule recordedOne useOne
    split
    · rfl
    split
    · rfl
    split
    · rfl
    cases context.compiler.modules.get? name with
    | none => rfl
    | some module_ =>
      simp only
      cases context.tree.read _ with
      | error fault => rfl
      | ok source =>
        simp only [recordedModule, moduleCode, ← context.withoutRecord_recordedScript]
        cases context.recordedScript _ _ _ _ _ with
        | none => rfl
        | some script =>
          obtain ⟨code, scripted, record⟩ := script
          cases code with
          | none => rfl
          | some code =>
            simp only [withoutRecord, bind_eq_bind, bind_some,
              map_some,
              ← withoutRecord_recordedAllUses _ _ (ih (name :: building)), Built.uses]
            cases recordedAllUses _ _ _ with
            | none => rfl
            | some dependencies => simp [Built.text]

theorem withoutRecord_recordedDirectives (progress : Progress) (pieces : List (Piece (List Text))) :
    withoutRecord (context.recordedDirectives progress pieces) =
      context.useDirectives progress pieces := by
  apply withoutRecord_weaveRecorded
  intro progress lexeme names
  exact withoutRecord_recordedAllUses _ _ (context.withoutRecord_recordedUse _ _) _ _

theorem withoutRecord_recordedExpand (base : Path) (progress : Progress) (code : Text) :
    withoutRecord (context.recordedExpand base progress code) =
      context.expand base progress code := by
  unfold recordedExpand expand expandUses
  rw [← context.withoutRecord_recordedRequires]
  cases context.recordedRequires _ _ _ _ with
  | none => rfl
  | some required =>
    simp only [withoutRecord, bind_eq_bind, bind_some, map_some,
      ← context.withoutRecord_recordedDirectives]
    cases context.recordedDirectives _ _ with
    | none => rfl
    | some used => rfl

end Context

end PageScript
