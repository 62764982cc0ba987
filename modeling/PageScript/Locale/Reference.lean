import PageScript.Text.Expect
import PageScript.Text.Replacement
import PageScript.Locale.Table

/-! References to localised texts. The longest start of a key that has a text is replaced. -/

namespace PageScript.Locale

structure Reference where
  space : Option Text
  segments : List Text
  called : Bool

def isSegment (segment : Text) : Bool :=
  match segment with
  | c :: _ => isNameStart c
  | [] => false

def dottedKey (text : Text) : Option (List Text × Text) :=
  let written := text.takeWhile fun c => isNameRest c || c == '.'
  match (Text.splitOn '.' written).takeWhile isSegment with
  | [] => none
  | segments => some (segments, text.drop (Text.join ['.'] segments).length)

def reference : Recogniser Reference
  | _, text => do
      let rest ← Text.expect "lx(i18n" text
      let (space, rest) : Option Text × Text :=
        match rest with
        | ':' :: label =>
            match Text.run1? isLabel label with
            | some (space, rest) => (some space, rest)
            | none => (none, rest)
        | rest => (none, rest)
      let rest ← Text.expect ")." rest
      let (segments, rest) ← dottedKey rest
      return ({ space, segments, called := rest.head? == some '(' }, rest)

def dotted (segments : List Text) : String :=
  String.ofList (Text.join ['.'] segments)

/-- The text of a key: a module's key is looked up in the module table first, any other in the plugin
table. -/
def lookup? (language : String) (modules : LocaleTable) (plugin : Option LocaleTable)
    (space : Option Text) (key : String) : Option String :=
  let ofPlugin := plugin.bind fun table => table.get? language key
  match space with
  | some space => modules.get? language (String.ofList space ++ "." ++ key) <|> ofPlugin
  | none => ofPlugin <|> modules.get? language key

def literalWith (literal : String) (rest : List Text) : Text :=
  Json.quoted literal.toList ++ rest.flatMap ('.' :: ·)

def longest? (lookup : String → Option String) (segments : List Text) : Nat → Option (String × Nat)
  | 0 => none
  | count + 1 =>
      match lookup (dotted (segments.take (count + 1))) with
      | some text => some (text, count + 1)
      | none => longest? lookup segments count

def Reference.resolve (language : String) (modules : LocaleTable)
    (plugin : Option LocaleTable) (reference : Reference) : Text :=
  let segments := reference.segments
  match longest? (lookup? language modules plugin reference.space) segments segments.length with
  | some (text, count) => literalWith text (segments.drop count)
  | none =>
      let count :=
        if reference.called ∧ 1 < segments.length then segments.length - 1 else segments.length
      literalWith (dotted (segments.take count)) (segments.drop count)

def substitute (language : String) (modules : LocaleTable) (plugin : Option LocaleTable)
    (code : Text) : Text :=
  Text.replace reference (·.resolve language modules plugin) code

def plainStart : Text := "lx(i18n).".toList

def qualifyReferences (space code : Text) : Text :=
  let template := "lx(i18n:".toList ++ space ++ ").".toList
  Text.replace (fun _ text => (Text.after? plainStart text).map fun rest => ((), rest))
    (fun _ => Replacement.expand template plainStart) code

end PageScript.Locale
