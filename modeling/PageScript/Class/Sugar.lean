import PageScript.Class.Header
import PageScript.Script.Bracket
import PageScript.Violation

/-! Class sugar: constants become static accessors, and namespaces guards that register classes once. -/

namespace PageScript.ClassSugar

structure NamespaceMark where
  start : Nat
  stop : Nat
  name : Text

def namespaceMark : Recogniser NamespaceMark
  | before, text => do
      let rest ← Text.expect "@lx:namespace" text
      let rest ← Text.blanks1 rest
      let (name, rest) ← Text.run1? (fun c => isNameRest c || c == '.') rest
      let rest ← Text.expect ";" (Text.blanks rest)
      let start := before.length
      return ({ start, stop := start + (text.length - rest.length), name }, rest)

def constant : Recogniser (Text × Text)
  | _, text => do
      let rest ← Text.expect "@lx:const" text
      let rest ← Text.blanks1 rest
      let (name, rest) ← Text.name rest
      let rest ← Text.expect "=" (Text.blanks rest)
      let (expression, rest) ← Text.upToSemicolon rest
      let expression ← Text.content expression
      return ((name, expression), rest)

def classConstants (text : Text) : Text :=
  Text.replace constant
    (fun (name, expression) =>
      "static get ".toList ++ name ++ "() \x7b return ".toList ++ expression ++ "; \x7d".toList)
    text

def looseConstants (text : Text) : Text :=
  Text.replace constant
    (fun (name, expression) => "const ".toList ++ name ++ " = ".toList ++ expression ++ [';']) text

def guarded (space name body : Text) : Text :=
  "(function()\x7bconst __ns__=lx.createNamespace('".toList ++ space ++ "');if(__ns__.".toList ++
    name ++ "!==undefined)return;\n".toList ++ body ++ "\n__ns__.".toList ++ name ++ ['='] ++ name ++
    ";if(".toList ++ name ++ ".__afterDefinition)".toList ++ name ++
    ".__afterDefinition();\n\x7d)();".toList

/-- What stops the desugaring: a namespace directive or a class header with its brace. -/
inductive Mark where
  | space (mark : NamespaceMark)
  | header (start brace : Nat)

def Mark.start : Mark → Nat
  | .space mark => mark.start
  | .header start _ => start

def marks (code : Text) : List Mark :=
  let spaces := (Text.occurrences namespaceMark code).map Mark.space
  let headers := (Text.cut ClassHeader.loose code).filterMap fun
    | .plain _ => none
    | .found header start => some (Mark.header start (start + header.length - 1))
  (spaces ++ headers).mergeSort fun left right => left.start ≤ right.start

def slice (code : Text) (start stop : Nat) : Text :=
  (code.drop start).take (stop - start)

structure Desugared where
  code : Text
  malformed : List Text

def Desugared.prepend (text : Text) (desugared : Desugared) : Desugared :=
  { desugared with code := text ++ desugared.code }

def Desugared.note (header : Text) (desugared : Desugared) : Desugared :=
  { desugared with malformed := header :: desugared.malformed }

def classText (space : Option Text) (text : Text) : ClassHeader.Kind → Text
  | .declaration name =>
      match space with
      | some space => guarded space name (classConstants text)
      | none => classConstants text
  | .expression => classConstants text
  | .malformed => text

def unbalanced (file : String) (code : Text) (start : Nat) (header : Text)
    (kind : ClassHeader.Kind) : Violation where
  cause := .unbalancedClass <|
    match kind with
    | .declaration name => some (String.ofList name)
    | _ => none
  file
  line := Text.newlines (code.take start) + 1
  context := some (String.ofList (Text.trim header))

def desugarFrom (file : String) (code : Text) :
    Nat → Option Text → List Mark → Except Violation Desugared
  | cursor, _, [] => .ok { code := looseConstants (code.drop cursor), malformed := [] }
  | cursor, space, mark :: rest =>
      if mark.start < cursor then desugarFrom file code cursor space rest
      else
        match mark with
        | .space { start, stop, name } => do
            let desugared ← desugarFrom file code stop (some name) rest
            return desugared.prepend (looseConstants (slice code cursor start))
        | .header start brace =>
            let header := slice code start (brace + 1)
            let kind := ClassHeader.kind header
            match Script.closing? (code.drop brace) with
            | none =>
                match kind with
                | .malformed => do
                    let desugared ← desugarFrom file code cursor space rest
                    return desugared.note (Text.trim header)
                | _ => .error (unbalanced file code start header kind)
            | some length => do
                let stop := brace + length + 1
                let desugared ← desugarFrom file code stop space rest
                let desugared :=
                  match kind with
                  | .malformed => desugared.note (Text.trim header)
                  | _ => desugared
                return desugared.prepend
                  (looseConstants (slice code cursor start) ++
                    classText space (slice code start stop) kind)

/-- The script with its class sugar desugared. A class that is not closed is a violation. -/
def desugar (file : String) (code : Text) : Except Violation Desugared :=
  desugarFrom file code 0 none (marks code)

def malformedHeader (file : String) (header : Text) : Violation where
  cause := .malformedClass (String.ofList header)
  file
  line := 0
  column := 0

end PageScript.ClassSugar
