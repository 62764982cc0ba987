import PageScript.Asset
import PageScript.Data.Decoder
import PageScript.Script.Literal
import PageScript.Text.Expect

/-! References to data files, assets and the plugin itself. -/

namespace PageScript.Directive

def isPathQuote (c : Char) : Bool :=
  c == '\x27' || c == '\x22'

def dataReference : Recogniser (Format × Text)
  | _, text => do
      let rest ← Text.expect "lx(" text
      let rest := Text.blanks rest
      let (format, rest) ←
        ((Text.expect "json" rest).map fun rest => (Format.json, rest)) <|>
          ((Text.expect "yaml" rest).map fun rest => (Format.yaml, rest))
      let rest ← Text.expect "," (Text.blanks rest)
      match Text.blanks rest with
      | [] => none
      | quote :: rest =>
          if ! isPathQuote quote then none
          let (path, rest) ← Text.run1? (! isPathQuote ·) rest
          let rest ← Text.expect ")" (Text.blanks (rest.drop 1))
          return ((format, path), rest)

/-- Recognises an asset directive: its kind and its path as written, which stays on one line. -/
def asset : Recogniser (AssetKind × Text)
  | _, text => do
      let rest ← Text.expect "@lx:" text
      let (kind, rest) ←
        ((Text.expect "js" rest).map fun rest => (AssetKind.script, rest)) <|>
          ((Text.expect "css" rest).map fun rest => (AssetKind.style, rest))
      let (gap, rest) ← Text.run1? isBlank rest
      let (path, rest) := Text.run (fun c => c != ';' && c != '\n') rest
      let rest ← Text.expect ";" rest
      match path, gap.reverse with
      | [], last :: _ :: _ => if last = '\n' then none else some ((kind, [last]), rest)
      | [], _ => none
      | path, _ => some ((kind, path), rest)

def isRemote (path : Text) : Bool :=
  ["http://", "https://", "//"].any fun start => (Text.expect start path).isSome

def assetPath (base : Path) (written : Text) : String :=
  let path := Script.unquote written
  let relative := (Text.expect "./" path).isSome || (Text.expect "../" path).isSome
  if relative && ! isRemote path then (base.join ⟨String.ofList path⟩).normalize.text
  else String.ofList path

def selfReference : Recogniser Text
  | _, text => do
      let rest ← Text.expect "lx.self(" text
      let (name, rest) ← Text.run1? (fun c => isNameRest c || c == '.') (Text.blanks rest)
      let rest ← Text.expect ")" (Text.blanks rest)
      return (name, rest)

def resolveSelf (code : Text) : Text :=
  Text.replace selfReference ("Plugin.".toList ++ ·) code

end PageScript.Directive
