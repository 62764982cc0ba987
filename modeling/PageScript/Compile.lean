import PageScript.Compile.Expansion

/-! Compiling a job: its script, the scripts it includes and its localised texts. -/

namespace PageScript

def Settings.finish (settings : Settings) (progress : Progress) (code : Text) : Text :=
  Directive.resolveSelf
    (Locale.substitute settings.language progress.moduleTable settings.pluginTable code)

def lineOf (text : Text) : Text :=
  if text.isEmpty then [] else text ++ ['\n']

/-- The code that is compiled: a directive for each module asked for, then the source between what is
put around it. -/
def Job.fullSource (job : Job) (source : Text) : Text :=
  (job.requested.flatMap fun name => "@lx:use ".toList ++ name.toList ++ ";\n".toList) ++
    lineOf job.settings.prelude ++ lineOf source ++ lineOf job.settings.postlude

def Job.file? (job : Job) (tree : Tree) : Option Path :=
  job.settings.file.map tree.canonical

def Job.begun (job : Job) (tree : Tree) : Progress :=
  match job.file? tree with
  | some file => job.progress.markFile file
  | none => job.progress

/-- Notes each error in the syntax of a script, if that is asked for. -/
def Compiler.check (compiler : Compiler) (file : Option Path) (progress : Progress) (code : Text) :
    Progress :=
  if compiler.checkSyntax then
    (compiler.syntaxErrors code).foldl (fun progress error => progress.report .syntactic file error) progress
  else progress

/-- Compiles a job. A failure leaves the job as far as it got. -/
def Job.compile (job : Job) (tree : Tree) (compiler : Compiler) :
    Except Failure Text × Job :=
  let context : Context := { tree, compiler, settings := job.settings }
  let started : Job := { job with requested := [] }
  match job.settings.source tree with
  | .error failure => (.error failure, job)
  | .ok source =>
      match context.pass (job.file? tree) (job.begun tree) (job.fullSource source) with
      | (.error violation, progress) => (.error (.structural violation), { started with progress })
      | (.ok code, progress) =>
          let code := if job.settings.wrap then isolated code else code
          match context.expand job.settings.folder progress code with
          | none => (.error .endless, { started with progress })
          | some (code, progress) =>
              let code := job.settings.finish progress code
              (.ok code, { started with progress := compiler.check (job.file? tree) progress code })

end PageScript
