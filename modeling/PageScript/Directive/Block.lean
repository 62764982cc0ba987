import PageScript.Text.Cut
import PageScript.Text.Expect

/-! Directives around other code: templates and blocks for a side or a mode. -/

namespace PageScript.Directive

def commentedOut : Recogniser Unit
  | _, text => do
      let rest ← Text.expect "//" text
      let rest ← Text.expect "@lx:" (Text.gaps rest)
      return ((), rest.dropWhile (· != '\n'))

def dropCommentedOut (code : Text) : Text :=
  Text.replace commentedOut (fun _ => []) code

/-- A template in a script: the name that collects its widgets, its text, and the number of line ends
before it. -/
structure TemplateBlock where
  output : Option Text
  body : Text
  offset : Nat

def templateBlock : Recogniser TemplateBlock
  | before, text => do
      let rest ← Text.expect "@lx:<ml" text
      let named : Option (Text × Text) := do
        let rest ← Text.expect ":" rest
        let (name, rest) ← Text.name rest
        let rest ← Text.expect ":" rest
        return (name, rest)
      let (output, rest) : Option Text × Text ←
        match named with
        | some (name, rest) => some (some name, rest)
        | none => (Text.expect ":" rest).map fun rest => (none, rest)
      let (body, rest) ← Text.cutAt? "@lx:ml>".toList rest
      return ({ output, body, offset := before.count '\n' }, rest)

def labelledBlock (word : String) : Recogniser (Text × Text)
  | _, text => do
      let rest ← Text.expect "@lx:<" text
      let rest ← Text.expect word rest
      let rest ← Text.blanks1 rest
      let (label, rest) ← Text.run1? isWord rest
      let rest ← Text.expect ":" (Text.blanks rest)
      let (body, rest) ← Text.cutAt? ("@lx:" ++ word ++ ">").toList rest
      return ((label, body), rest)

def filterBlocks (word : String) (active code : Text) : Text :=
  Text.replace (labelledBlock word)
    (fun (label, body) => if Text.sameUpToCase label active then body else []) code

def expectAnyCase (start : Text) (text : Text) : Option Text :=
  if Text.sameUpToCase (text.take start.length) start then some (text.drop start.length) else none

def cutAtAnyCase? (marker : Text) : Text → Option (Text × Text)
  | [] => none
  | c :: text =>
      match expectAnyCase marker (c :: text) with
      | some rest => some ([], rest)
      | none => (cutAtAnyCase? marker text).map fun (before, rest) => (c :: before, rest)

def clientBlock : Recogniser Text
  | _, text => do
      let rest ← expectAnyCase "@lx:<context".toList text
      let rest ← Text.blanks1 rest
      let rest ← expectAnyCase "client".toList rest
      let rest ← Text.expect ":" (Text.blanks rest)
      let (body, rest) ← cutAtAnyCase? "@lx:context>".toList rest
      return (body, rest)

def clientBodies (code : Text) : List Text :=
  Text.occurrences clientBlock code

end PageScript.Directive
