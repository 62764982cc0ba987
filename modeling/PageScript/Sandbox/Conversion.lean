import PageScript.Data.Decoder
import PageScript.Data.Json.Printer
import PageScript.Sandbox.Machine

/-! Values as texts, as numbers and in JSON. -/

namespace PageScript.Sandbox

def commas (texts : List Text) : Text :=
  Text.join [','] texts

def Value.plainText : Value → Text
  | .undefined => "undefined".toList
  | .null => "null".toList
  | .bool true => "true".toList
  | .bool false => "false".toList
  | .number x => numberText x
  | .text value => value.toList
  | .object _ => []

def Value.plainJson? : Value → Option Text
  | .undefined | .object _ => none
  | .number x => some (if x.isFinite then numberText x else "null".toList)
  | .text value => some (Json.quoted value.toList)
  | value => some value.plainText

def dataOfJson (text : Text) : Data :=
  ((Json.parse? text).map Data.sorted).getD .null

def addNote (category : String) (data : List Data) (notes : Keyed (List Data)) : Keyed (List Data) :=
  notes.put category ((notes.get? category).getD [] ++ data)

def noteIn (asError : Bool) (category : String) (data : List Data) : Run Unit :=
  modify fun machine =>
    if asError then { machine with errors := addNote category data machine.errors }
    else { machine with log := addNote category data machine.log }

def categoryOf (category : Option Text) : Run String := do
  let name := String.ofList (category.getD "default".toList)
  if commonMembers.contains name then fail "TypeError" s!"category {name}" else return name

def function? (value : Value) : Run (Option (Option Native)) := do
  match value with
  | .object place =>
      match ((← get).object place).kind with
      | .function native => return some native
      | _ => return none
  | _ => return none

def sandboxPlace : Nat := 0

def consolePlace : Nat := 1

/-- The function of the sandbox that the console hands its messages to, as that is then. -/
def handler (asError : Bool) : Run Value :=
  memberOf (.object sandboxPlace) (if asError then "error" else "log")

def handOver (handler : Value) (message : Text) (category : Option String) : Run Unit := do
  let data : Data := .text (String.ofList message)
  match ← function? handler with
  | some (some (.note asError)) => do
      noteIn asError (← categoryOf (category.map (·.toList))) [data]
  | some (some .dump) => modify fun machine => { machine with dumps := machine.dumps ++ [data] }
  | some (some (.console _ _)) => fail "RangeError" "too many calls inside one another"
  | _ => fail "TypeError" "not a function"

def callPlain (function : Option Native) (argument : Option String) : Run Unit := do
  let data : Data := .ofText? argument
  match function with
  | none => fail "TypeError" "a class is no function"
  | some (.note asError) => noteIn asError "default" [data]
  | some .dump => modify fun machine => { machine with dumps := machine.dumps ++ [data] }
  | some (.console asError category) =>
      handOver (← handler asError) ((argument.map (·.toList)).getD []) category

/-- Calls a member of an object if the object was given a function for it. What comes back is whether
the member was given, and whether it was called. -/
def callGiven (place : Nat) (name : String) (argument : Option String) : Run (Option Bool) := do
  match (← get).given? place name with
  | none => return none
  | some value =>
      match ← function? value with
      | none => return some false
      | some function => do
          callPlain function argument
          return some true

def usualText (toText : Value → Run Text) (place : Nat) : ObjectKind → Run Text
  | .record => return "[object Object]".toList
  | .list items empty => do
      match ← callGiven place "join" none with
      | some true => return "undefined".toList
      | some false => return "[object Array]".toList
      | none => do
          let texts ← items.mapM fun item =>
            if item = .undefined ∨ item = .null then pure [] else toText item
          return commas (texts ++ List.replicate empty [])
  | .error => do
      let name ← memberOf (.object place) "name"
      let message ← memberOf (.object place) "message"
      let name ← if name = .undefined then pure "Error".toList else toText name
      let message ← if message = .undefined then pure [] else toText message
      if name.isEmpty then return message
      else if message.isEmpty then return name
      else return name ++ ": ".toList ++ message
  | .function _ => do
      let machine ← get
      match (machine.object place).kind, (machine.object place).fields.lookup "name" with
      | .function _, some name =>
          return "function ".toList ++ name.value.plainText ++ "() \x7b [native code] \x7d".toList
      | _, _ => fail "TypeError" "not a function"

/-- An object as text by its own member or by the usual one: nothing if there is neither. -/
def ownText? (toText : Value → Run Text) (place : Nat) : Run (Option Value) := do
  match ← callGiven place "toString" none with
  | some true => return some .undefined
  | some false => return none
  | none =>
      match (← get).usualKind? place with
      | none => return none
      | some kind => return some (.text (String.ofList (← usualText toText place kind)))

/-- An object as a value by its own member; the usual one gives the object, which does not count. -/
def ownValue? (place : Nat) : Run (Option Value) := do
  match ← callGiven place "valueOf" none with
  | some true => return some .undefined
  | _ => return none

/-- A value that is no object, from an object by one of its members. The text is asked for first where
a text is needed. -/
def primitiveBy (toText : Value → Run Text) (textFirst : Bool) (value : Value) : Run Value := do
  match value with
  | .object place =>
      let first ← if textFirst then ownText? toText place else ownValue? place
      match first with
      | some found => return found
      | none =>
          let second ← if textFirst then ownValue? place else ownText? toText place
          match second with
          | some found => return found
          | none => fail "TypeError" "no plain value"
  | value => return value

/-- A value as text. The fuel bounds how deep objects are inside one another. -/
def textWithin : Nat → Value → Run Text
  | 0, _ => fail "RangeError" "too many calls inside one another"
  | fuel + 1, value => do
      return (← primitiveBy (textWithin fuel) true value).plainText

def textOf (value : Value) : Run Text := do
  textWithin ((← get).objects.length + 2) value

def primitive (value : Value) : Run Value :=
  primitiveBy textOf false value

def fieldText (name : String) (value : Text) : Text :=
  Json.quoted name.toList ++ ':' :: value

/-- A value in JSON, under a name: functions and what is undefined have no text. The fuel bounds how
deep objects are inside one another; an object inside itself is a fault. -/
def jsonWithin : Nat → String → Value → Run (Option Text)
  | _, _, .undefined => return none
  | 0, _, .object _ => fail "TypeError" "an object inside itself"
  | fuel + 1, name, .object place => do
      match ← callGiven place "toJSON" (some name) with
      | some true => return none
      | _ =>
          let object := (← get).object place
          match object.kind with
          | .function _ => return none
          | .list items empty => do
              let texts ← items.zipIdx.mapM fun (item, index) => jsonWithin fuel (toString index) item
              let texts := texts.map (·.getD "null".toList) ++ List.replicate empty "null".toList
              return some ('[' :: commas texts ++ [']'])
          | _ => do
              let texts ← object.listed.mapM fun (name, value) => do
                return (← jsonWithin fuel name value).map (fieldText name)
              return some ('{' :: commas (texts.filterMap id) ++ ['}'])
  | _, _, value => return value.plainJson?

def jsonOf (value : Value) : Run (Option Text) := do
  jsonWithin ((← get).objects.length + 1) "" value

/-- A value as data. One that has no JSON is its text. -/
def dataOf (value : Value) : Run Data := do
  if value = .undefined then return .null
  let found ← tryCatch (jsonOf value) fun _ => return none
  match found with
  | some text => return dataOfJson text
  | none => return .text (String.ofList (← textOf value))

def notNumber : Double :=
  .ofFloat (0.0 / 0.0)

def decimalOf? (text : Text) : Option Double := do
  let (whole, rest) := Text.run Char.isDigit text
  let (fraction, rest) : Text × Text :=
    match rest with
    | '.' :: rest => Text.run Char.isDigit rest
    | rest => ([], rest)
  if whole.isEmpty ∧ fraction.isEmpty then none
  let (lower, exponent, rest) ← Json.exponentPart? rest
  if ! rest.isEmpty then none
  let power : Int := Json.digitsValue exponent
  let scale := (if lower then -power else power) - fraction.length
  return .ofDecimal false (Json.digitsValue (whole ++ fraction)) scale

/-- The number of a text: white space around it does not count, and no text is zero. Other radixes have
no sign. -/
def numberOfText (text : Text) : Double :=
  let trimmed := ((text.dropWhile Script.isSpace).reverse.dropWhile Script.isSpace).reverse
  let unsigned (digits : Text) : Option Double :=
    if digits = "Infinity".toList then some (.ofFloat (1.0 / 0.0)) else decimalOf? digits
  let found : Option Double :=
    match trimmed with
    | [] => some (.ofDecimal false 0 0)
    | '-' :: digits => (unsigned digits).map fun x => .ofFloat (-x.toFloat)
    | '+' :: digits => unsigned digits
    | '0' :: c :: digits =>
        match Script.radixDigit? c with
        | some digit =>
            if digits.isEmpty ∨ ¬ digits.all digit then none
            else some (numberValue ('0' :: c :: digits))
        | none => unsigned trimmed
    | digits => unsigned digits
  found.getD notNumber

def Value.plainNumber : Value → Double
  | .undefined | .object _ => notNumber
  | .null => .ofDecimal false 0 0
  | .bool value => .ofDecimal false (if value then 1 else 0) 0
  | .number x => x
  | .text value => numberOfText value.toList

def numberOf (value : Value) : Run Double := do
  return (← primitive value).plainNumber

def sum (left right : Value) : Run Value := do
  let left ← primitive left
  let right ← primitive right
  match left, right with
  | .text _, _ | _, .text _ => return .text (String.ofList (left.plainText ++ right.plainText))
  | _, _ => return .number (.ofFloat (left.plainNumber.toFloat + right.plainNumber.toFloat))

/-- A list with another length: what is beyond it is dropped, and places before it that have no item
are empty. -/
def resized (items : List Value) (length : Nat) : ObjectKind :=
  .list (items.take length) (length - items.length)

def setLength (place : Nat) (items : List Value) (value : Value) : Run Unit := do
  match (← numberOf value).toInt? with
  | some (.ofNat length) =>
      if length < Nat.pow 2 32 then
        replace place { (← get).object place with kind := resized items length }
      else fail "RangeError" "no length"
  | _ => fail "RangeError" "no length"

def setMember (value : Value) (name : String) (new : Value) : Run Unit := do
  match value with
  | .undefined | .null => fail "TypeError" s!"no member {name}"
  | .object place =>
      let object := (← get).object place
      match object.kind, name with
      | _, "__proto__" => setParent place new
      | .list items _, "length" => setLength place items new
      | _, _ => replace place (object.put name new)
  | _ => return ()

def messagePart (value : Value) : Run Text := do
  match value with
  | .text text => return text.toList
  | value => return (← jsonOf value).getD []

def note (asError : Bool) (value category : Value) : Run Unit := do
  let category : Option Text ←
    if category = .undefined ∨ category = .null then pure none else some <$> textOf category
  let category ← categoryOf category
  noteIn asError category []
  noteIn asError category [← dataOf value]

def call (callee : Value) (arguments : List Value) : Run Value := do
  let first := arguments.getD 0 .undefined
  match ← function? callee with
  | some (some (.note asError)) => note asError first (arguments.getD 1 .undefined)
  | some (some .dump) => do
      let data ← dataOf first
      modify fun machine => { machine with dumps := machine.dumps ++ [data] }
  | some (some (.console asError category)) => do
      let handler ← handler asError
      let parts ← arguments.mapM messagePart
      handOver handler (Text.join [' '] parts) category
  | _ => fail "TypeError" "not a function"
  return .undefined

end PageScript.Sandbox
