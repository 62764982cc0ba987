import PageScript.Text.Cut
import PageScript.Text.Expect

/-! Headers of classes: which ones open a class, and what the class is called and extends. -/

namespace PageScript.ClassHeader

/-- The keyword, not followed by a word character, and everything up to the opening brace on the same
line. -/
def keywordToBrace (text : Text) : Option Text := do
  let rest ← Text.expect "class" text
  match rest with
  | c :: _ => if isWord c then none
  | [] => none
  match rest.dropWhile fun c => c != '\n' && c != '{' with
  | '{' :: rest => some rest
  | _ => none

def exported (text : Text) : Text :=
  match (Text.expect "export" text).bind Text.gaps1 with
  | some rest => ((Text.expect "default" rest).bind Text.gaps1).getD rest
  | none => text

def takesOperand (c : Char) : Bool :=
  c == '=' || c == '(' || c == ',' || c == ':' || c == '?'

/-- Recognises a header up to and including its brace; the value is where it starts. -/
def loose : Recogniser Nat
  | before, text =>
      let atLineStart :=
        match before.head? with
        | none | some '\n' => true
        | some _ => false
      let inLine := if atLineStart then keywordToBrace (exported (Text.gaps text)) else none
      let asOperand : Option Text :=
        match text with
        | c :: rest => if takesOperand c then keywordToBrace (Text.gaps rest) else none
        | [] => none
      let returned : Option Text :=
        if (before.head?.map isWord).getD false then none
        else (((Text.expect "return" text).bind Text.gaps1).bind keywordToBrace)
      (inLine <|> asOperand <|> returned).map fun rest => (before.length, rest)

structure Heading where
  name : Option Text
  parent : Option Text
  deriving DecidableEq, Repr

def ends (text : Text) : Bool :=
  Text.blanks text == ['{']

def heritage (text : Text) : Option (Option Text) :=
  let extended : Option Text := do
    let rest ← Text.blanks1 text
    let rest ← Text.expect "extends" rest
    let rest ← Text.blanks1 rest
    let (parent, rest) ← Text.nameOf (fun c => isNameRest c || c == '.') rest
    if ends rest then some parent else none
  match extended with
  | some parent => some (some parent)
  | none => if ends text then some none else none

def named (text : Text) : Option Heading := do
  let rest ← Text.blanks1 text
  let (name, rest) ← Text.name rest
  let parent ← heritage rest
  return { name := some name, parent }

def declaration? (header : Text) : Option Heading :=
  (Text.expect "class" (Text.gaps header)).bind named

/-- The text before the keyword of a class that is exported, an operand or returned. -/
def leadIn (header : Text) : Option Text :=
  let asExport : Option Text :=
    ((Text.expect "export" (Text.gaps header)).bind Text.gaps1).map fun rest =>
      ((Text.expect "default" rest).bind Text.gaps1).getD rest
  let asOperand : Option Text :=
    match header with
    | c :: rest => if takesOperand c then some (Text.gaps rest) else none
    | [] => none
  let returned : Option Text := (Text.expect "return" header).bind Text.gaps1
  asExport <|> asOperand <|> returned

/-- An exported class or a class expression, with or without a name. -/
def expression? (header : Text) : Option Heading := do
  let rest ← leadIn header
  let rest ← Text.expect "class" rest
  named rest <|> (heritage rest).map fun parent => { name := none, parent }

inductive Kind where
  | declaration (name : Text)
  | expression
  | malformed
  deriving DecidableEq, Repr

def kind (header : Text) : Kind :=
  match declaration? header with
  | some { name := some name, .. } => .declaration name
  | _ => if (expression? header).isSome then .expression else .malformed

structure Declared where
  name : Text
  parent : Option Text
  deriving DecidableEq, Repr

def Declared.parentShort (declared : Declared) : Option Text :=
  declared.parent.map fun parent => (parent.reverse.takeWhile (· != '.')).reverse

def declared? (header : Text) : Option Declared := do
  let heading ← declaration? header <|> expression? header
  let name ← heading.name
  return { name, parent := heading.parent }

def declaredClasses (code : Text) : List Declared :=
  (Text.cut loose code).filterMap fun
    | .plain _ => none
    | .found header _ => declared? header

end PageScript.ClassHeader
