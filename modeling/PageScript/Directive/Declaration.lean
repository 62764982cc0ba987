import PageScript.Data.Decoder
import PageScript.Script.Literal
import PageScript.Text.Expect

/-! Directives that name a module and its data. -/

namespace PageScript.Directive

def moduleName : Recogniser Text
  | _, text => do
      let rest ← Text.expect "@lx:module" text
      let rest ← Text.blanks1 rest
      let (name, rest) ← Text.run1? isLabel rest
      let rest ← Text.expect ";" (Text.blanks rest)
      return (name, rest)

def moduleData : Recogniser (Text × Text)
  | _, text => do
      let rest ← Text.expect "@lx:module-data" text
      let rest ← Text.expect ":" (Text.blanks rest)
      let (name, rest) ← Text.run1? isLabel (Text.blanks rest)
      let rest ← Text.expect "=" (Text.blanks rest)
      let (value, rest) ← Text.upToSemicolon rest
      let value ← Text.content value
      return ((name, value), rest)

def moduleDirective : Recogniser Unit
  | before, text =>
      match moduleName before text with
      | some (_, rest) => some ((), rest)
      | none => do
          let rest ← Text.expect "@lx:module-data" text
          let rest ← Text.expect ":" (Text.blanks rest)
          let (_, rest) ← Text.upToSemicolon rest
          return ((), rest)

def dropModuleDirectives (code : Text) : Text :=
  Text.replace moduleDirective (fun _ => []) code

/-- The value of module data: JSON if it can be read as such, and otherwise the text without quotes. -/
def dataValue (raw : Text) : Data :=
  let raw := Text.trim raw
  match Json.parse? raw with
  | some value => value.sorted
  | none => .text (String.ofList (Script.unquote raw))

end PageScript.Directive
