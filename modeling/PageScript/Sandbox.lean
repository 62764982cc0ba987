import PageScript.Sandbox.Run

/-! Running a script apart from everything else. -/

namespace PageScript

structure Execution where
  log : Keyed (List Data) := []
  errors : Keyed (List Data) := []
  dumps : List Data := []
  result : Data := .null
  fatal : Option String := none

structure Sandbox where
  core : Path
  bootstrap : Option Path := none

namespace Sandbox

/-- What was thrown, as text, with what the value tells of where it comes from. -/
def thrownText : Thrown → Run Text
  | .fault kind reason => return kind.toList ++ ": ".toList ++ reason.toList
  | .value value => do
      let text ← textOf value
      match value with
      | .undefined | .null => return text
      | value => do
          let stack ← memberOf value "stack"
          if stack.isTrue then return text ++ '\n' :: (← primitive stack).plainText else return text

def Machine.execution (machine : Machine) (result : Data) (fatal : Option String) : Execution where
  log := machine.log
  errors := machine.errors
  dumps := machine.dumps
  result
  fatal

def resultOf (program : List Statement) : Run Data := do
  dataOf ((← runStatements program).getD .undefined)

def evaluate (script : Text) : Except Failure Execution :=
  match parse? (parameterFrame.map (·.1)) script with
  | none => .ok { fatal := some "SyntaxError: the script is not well formed" }
  | some program =>
      match (resultOf program).run.run (.start program) with
      | (.ok result, machine) => .ok (machine.execution result none)
      | (.error thrown, machine) =>
          match (thrownText thrown).run.run machine with
          | (.ok text, machine) => .ok (machine.execution .null (some (String.ofList text)))
          | (.error _, _) => .error (.infrastructure "interpreter failure: TypeError")

def seedText (seed : Keyed Data) : Text :=
  seed.flatMap fun (name, value) =>
    "const ".toList ++ name.toList ++ " = ".toList ++ Json.compact value ++ ";\n".toList

def execute (sandbox : Sandbox) (tree : Tree) (script : Text) (seed : Keyed Data) :
    Except Failure Execution := do
  let core ← (tree.read sandbox.core).mapError fun fault =>
    .infrastructure s!"runtime core {sandbox.core.quoted} unreadable: {fault.message}"
  let bootstrap ←
    match sandbox.bootstrap with
    | none => .ok []
    | some path =>
        (tree.read path).mapError fun fault =>
          .infrastructure s!"app bootstrap {path.quoted} unreadable: {fault.message}"
  evaluate (Text.join ['\n'] [core, bootstrap, seedText seed ++ script])

end Sandbox

end PageScript
