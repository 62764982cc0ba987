import PageScript.Script.Bracket
import PageScript.Template.Node
import PageScript.Text.Expect
import PageScript.Violation

/-! One line of a template. -/

namespace PageScript.Template

def lineName (text : Text) : Option (Text × Text) :=
  Text.nameOf (fun c => isNameRest c || c == '-') text

/-- The number at the start of a geometry value: a sign, digits, and digits after a point. -/
def afterNumber (text : Text) : Option Text := do
  let unsigned :=
    match text with
    | '-' :: rest => rest
    | rest => rest
  let (_, rest) ← Text.run1? isDigit unsigned
  match rest with
  | '.' :: more =>
      match Text.run1? isDigit more with
      | some (_, rest) => some rest
      | none => some rest
  | rest => some rest

def isPlainNumber (text : Text) : Bool :=
  afterNumber text == some []

def isGeometryValue (text : Text) : Bool :=
  match afterNumber text with
  | some unit => (["", "px", "%", "em", "rem", "vw", "vh"].map String.toList).contains unit
  | none => false

inductive LineToken where
  | key (name : Text)
  | css (name : Text)
  | call (call : Call)
  | volumetric
  | field (name : Text)
  | matrix (name : Text)
  | geometry (values : List Text)
  | config (text : Text)
  | data (text : Text)
  | text (text : Text)
  | close
  deriving DecidableEq, Repr

def bracketToken (inner : Text) : Except Cause LineToken :=
  if inner = ['_'] then .ok .volumetric
  else
    match Text.expect "f:" inner, Text.expect "m:" inner with
    | some name, _ => .ok (.field (Text.trim name))
    | none, some name => .ok (.matrix (Text.trim name))
    | none, none =>
        let values := (Text.splitOn ':' inner).map Text.trim
        if values.length ≤ 4 ∧ values.all isGeometryValue then .ok (.geometry values)
        else .error (.invalidGeometry (String.ofList inner))

/-- The text literal after its opening quote, and the rest. It is closed if it ends with the quote. -/
def textLiteral (quote : Char) (rest : Text) : Except Cause LineToken × Text :=
  let literal := rest.take (Script.literalTail quote rest)
  (if literal.getLast? = some quote then .ok (.text literal.dropLast) else .error .unterminatedText,
    rest.drop literal.length)

def bracketed (text : Text) (token : Text → Except Cause LineToken) :
    Except Cause LineToken × Text :=
  match Script.enclosed? text with
  | some (inner, rest) => (token inner, rest)
  | none => (.error .unbalancedBrackets, [])

def nameToken (rest : Text) (token : Text → LineToken) : Except Cause LineToken × Text :=
  match lineName rest with
  | some (name, rest) => (.ok (token name), rest)
  | none => (.error .expectedName, rest)

def callToken (rest : Text) : Except Cause LineToken × Text :=
  match lineName rest with
  | none => (.error .expectedName, rest)
  | some (name, rest) =>
      if rest.head? = some '(' then
        bracketed rest fun args => .ok (.call { name, args := Text.trim args })
      else (.error .callWithoutArguments, rest)

def lineToken : Recogniser (Except Cause LineToken)
  | _, [] => none
  | _, c :: rest =>
      if isAsciiBlank c then none
      else if c = '>' then
        some (if Text.allBlank rest then .ok .close else .error .textAfterTag, [])
      else if c = '@' then some (nameToken rest .key)
      else if c = '.' then some (nameToken rest .css)
      else if c = '#' then some (callToken rest)
      else if c = '[' then some (bracketed (c :: rest) fun inner => bracketToken (Text.trim inner))
      else if c = '(' then
        some (bracketed (c :: rest) fun inner => .ok (.config (Text.trim inner)))
      else if c = '{' then
        some (bracketed (c :: rest) fun inner => .ok (.data ('{' :: inner ++ ['}'])))
      else if c = '\x22' ∨ c = '\x27' then some (textLiteral c rest)
      else some (.error (.unexpectedCharacter c), rest)

def Widget.apply (widget : Widget) : LineToken → Widget
  | .key name => { widget with key := some name }
  | .css name => { widget with css := widget.css ++ [name] }
  | .call call => { widget with calls := widget.calls ++ [call] }
  | .volumetric => { widget with volumetric := true }
  | .field name => { widget with field := some name }
  | .matrix name => { widget with matrix := some name }
  | .geometry values => { widget with geometry := some values }
  | .config text => { widget with config := some text }
  | .data text => { widget with data := some text }
  | .text text => { widget with text := some text }
  | .close => widget

def Widget.applyAll : Widget → List (Piece (Except Cause LineToken)) → Except Cause Widget
  | _, [] => .error .unclosedTag
  | widget, .plain _ :: rest => widget.applyAll rest
  | _, .found _ (.error cause) :: _ => .error cause
  | widget, .found _ (.ok .close) :: _ => .ok widget
  | widget, .found _ (.ok token) :: rest => (widget.apply token).applyAll rest

def withoutColon (text : Text) : Text :=
  if text.getLast? = some ':' then text.dropLast else text

def control? (content : Text) : Except Cause (Option Control) :=
  let head := withoutColon (content.takeWhile (! isBlank ·))
  let tail := Text.trim (content.dropWhile (! isBlank ·))
  let expression := Text.trim (withoutColon tail)
  let needed (control : Control) : Except Cause (Option Control) :=
    if expression.isEmpty then .error (.withoutExpression (String.ofList head)) else .ok (some control)
  if head = "if".toList then needed (.whenTrue expression)
  else if head = "elseif".toList then needed (.elseWhen expression)
  else if head = "for".toList then needed (.loop expression)
  else if head = "else".toList then
    if expression.isEmpty then .ok (some .otherwise) else .error .elseWithCondition
  else .ok none

/-- A block tag after its mark. Definitions stand at depth 0. -/
def blockTag (depth : Nat) (link : Bool) (text : Text) : Except Cause Kind :=
  match lineName text with
  | none => .error .blockWithoutName
  | some (name, rest) =>
      if Text.trim rest ≠ ['>'] then .error .malformedBlock
      else if link = false ∧ depth ≠ 0 then .error (.nestedBlock (String.ofList name))
      else .ok (.block name link)

def isTagChar (c : Char) : Bool :=
  c.isAlphanum || c == '_'

/-- What a line stands for; nothing means raw HTML. -/
def lineKind (registry : Registry) (depth : Nat) (content : Text) : Except Cause (Option Kind) := do
  match ← control? content with
  | some control => return some (.control control)
  | none =>
      match content with
      | '<' :: '*' :: rest => return some (← blockTag depth false rest)
      | '<' :: '&' :: rest => return some (← blockTag depth true rest)
      | '<' :: rest =>
          let tag := rest.takeWhile isTagChar
          match registry.constructor? (String.ofList tag) with
          | none => return none
          | some constructor =>
              let blank : Widget := { tag, constructor := constructor.toList }
              let widget ← blank.applyAll (Text.cut lineToken (rest.dropWhile isTagChar))
              return some (.widget widget)
      | _ => return none

end PageScript.Template
