import PageScript.Text.Basic

/-! How much is logged. -/

namespace PageScript

inductive LogLevel where
  | error
  | warn
  | info
  | debug
  | trace
  deriving DecidableEq, Repr

namespace LogLevel

def all : List LogLevel :=
  [.error, .warn, .info, .debug, .trace]

def name : LogLevel → String
  | .error => "ERROR"
  | .warn => "WARN"
  | .info => "INFO"
  | .debug => "DEBUG"
  | .trace => "TRACE"

def ofName (text : String) : LogLevel :=
  let numbered : Option LogLevel := do
    let number ← Text.wholeNumber? text.toList
    if number = 0 then none else all[number - 1]?
  let named := all.find? fun level => Text.sameUpToCase level.name.toList text.toList
  (numbered <|> named).getD .info

end LogLevel

end PageScript
