import PageScript.Compile
import PageScript.Project

/-! Building the targets of a project, each for itself. -/

namespace PageScript

structure BuildReport where
  target : Target
  bytes : Nat
  compiledModules : List String
  diagnostics : List Diagnostic
  failure : Option Failure

def Project.job (project : Project) (target : Target) : Job where
  settings := {
    file := some target.source
    side := if target.kind = .server then .server else .client
    isApp := target.kind == .app
    wrap := target.kind == .app
    language := project.language
    mode := project.mode }

def Target.write (target : Target) (tree : Tree) (code : Text) : Except Failure Tree := do
  let tree ← match target.output.parent? with
    | some folder => (tree.makeFolders folder).mapError (.io folder)
    | none => .ok tree
  (tree.write target.output code).mapError (.io target.output)

def Project.buildAll (project : Project) (compiler : Compiler) :
    Tree → List Target → Except Failure (List BuildReport × Tree)
  | tree, [] => .ok ([], tree)
  | tree, target :: rest => do
      let (outcome, job) := (project.job target).compile tree compiler
      let report (bytes : Nat) (failure : Option Failure) : BuildReport := {
        target, bytes, failure
        compiledModules := job.progress.compiledModules
        diagnostics := job.progress.diagnostics }
      match outcome with
      | .error .endless => throw .endless
      | .error failure =>
          let (others, tree) ← project.buildAll compiler tree rest
          return (report 0 (some failure) :: others, tree)
      | .ok code =>
          let tree ← target.write tree code
          let (others, tree) ← project.buildAll compiler tree rest
          return (report code.byteLength none :: others, tree)

def Project.build (project : Project) (compiler : Compiler) (tree : Tree) :
    Except Failure (List BuildReport × Tree) :=
  project.buildAll compiler tree project.targets

end PageScript
