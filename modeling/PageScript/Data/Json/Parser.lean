import PageScript.Data.Document
import PageScript.Text.Cut

/-! Reading JSON. Tokens are folded over a stack of the lists and records that are still open. -/

namespace PageScript.Json

def hexDigit? (c : Char) : Option Nat :=
  if '0' ≤ c ∧ c ≤ '9' then some (c.toNat - '0'.toNat)
  else if 'a' ≤ c ∧ c ≤ 'f' then some (c.toNat - 'a'.toNat + 10)
  else if 'A' ≤ c ∧ c ≤ 'F' then some (c.toNat - 'A'.toNat + 10)
  else none

def hexUnit? (a b c d : Char) : Option Nat := do
  let a ← hexDigit? a
  let b ← hexDigit? b
  let c ← hexDigit? c
  let d ← hexDigit? d
  return ((a * 16 + b) * 16 + c) * 16 + d

def shortEscape? (c : Char) : Option Char :=
  if c = '\x22' ∨ c = '\\' ∨ c = '/' then some c
  else if c = 'b' then some '\x08'
  else if c = 'f' then some '\x0c'
  else if c = 'n' then some '\n'
  else if c = 'r' then some '\r'
  else if c = 't' then some '\t'
  else none

/-- The rest of a string literal: its content and the text after the closing quote. A pair of escaped
surrogates is one character; with a lone surrogate there is no content. A raw control character is
refused. -/
def stringTail? : Text → Option (Option Text × Text)
  | [] => none
  | '\\' :: 'u' :: a :: b :: c :: d :: rest =>
      match hexUnit? a b c d with
      | none => none
      | some unit =>
          if 0xdc00 ≤ unit ∧ unit < 0xe000 then
            (stringTail? rest).map fun (_, after) => (none, after)
          else if 0xd800 ≤ unit ∧ unit < 0xdc00 then
            match rest with
            | '\\' :: 'u' :: a :: b :: c :: d :: rest =>
                match hexUnit? a b c d with
                | none => none
                | some low =>
                    let code := 0x10000 + (unit - 0xd800) * 0x400 + (low - 0xdc00)
                    let paired := 0xdc00 ≤ low && low < 0xe000
                    (stringTail? rest).map fun (content, after) =>
                      (if paired then content.map (Char.ofNat code :: ·) else none, after)
            | rest => (stringTail? rest).map fun (_, after) => (none, after)
          else
            (stringTail? rest).map fun (content, after) =>
              (content.map (Char.ofNat unit :: ·), after)
  | '\\' :: c :: rest =>
      match shortEscape? c with
      | none => none
      | some c => (stringTail? rest).map fun (content, after) => (content.map (c :: ·), after)
  | c :: rest =>
      if c = '\x22' then some (some [], rest)
      else if c = '\\' ∨ c.toNat < 0x20 then none
      else (stringTail? rest).map fun (content, after) => (content.map (c :: ·), after)

def maxWhole : Nat := Nat.pow 2 64 - 1

/-- The digits that fit into 64 bits together with those before them, and how many do not. -/
def takeDigits : Nat → List Char → Nat × Nat
  | value, [] => (value, 0)
  | value, digit :: rest =>
      let next := value * 10 + (digit.toNat - '0'.toNat)
      if next ≤ maxWhole then takeDigits next rest else (value, (digit :: rest).length)

/-- Scales a double by a power of ten, in steps of at most `10 ^ 308`; nothing if the result is
infinite. -/
def scale? : Nat → Float → Int → Option Float
  | 0, value, _ => some value
  | steps + 1, value, exponent =>
      if exponent.natAbs ≤ 308 then
        let power := Float.ofScientific 1 false exponent.natAbs
        if 0 ≤ exponent then
          let product := value * power
          if product.isInf then none else some product
        else some (value / power)
      else if value == 0.0 then some value
      else if 0 ≤ exponent then none
      else scale? steps (value / Float.ofScientific 1 false 308) (exponent + 308)

def doubleOf? (negative : Bool) (significand : Nat) (exponent : Int) : Option Double :=
  let value := (UInt64.ofNat significand).toFloat
  (scale? 4 value (max exponent (-1200))).map fun value =>
    Double.ofFloat (if negative then -value else value)

def exponentPart? (text : Text) : Option (Bool × List Char × Text) :=
  match text with
  | 'e' :: rest | 'E' :: rest =>
      let (negative, rest) :=
        match rest with
        | '+' :: rest => (false, rest)
        | '-' :: rest => (true, rest)
        | rest => (false, rest)
      match Text.run1? Char.isDigit rest with
      | some (digits, rest) => some (negative, digits, rest)
      | none => none
  | rest => some (false, [], rest)

def fractionPart? (text : Text) : Option (List Char × Text) :=
  match text with
  | '.' :: rest => Text.run1? Char.isDigit rest
  | rest => some ([], rest)

def digitsValue (digits : List Char) : Nat :=
  digits.foldl (fun value digit => value * 10 + (digit.toNat - '0'.toNat)) 0

/-- The number of its parts. An exponent of more than 31 bits makes the number zero when it is
negative or the digits are zero, and is refused otherwise. -/
def numberOf? (negative : Bool) (whole fraction : List Char) (exponent : Option Int) :
    Option Number :=
  if fraction.isEmpty && exponent.isNone && digitsValue whole ≤ maxWhole then
    let value := digitsValue whole
    if negative then
      if value = 0 ∨ Nat.pow 2 63 < value then (doubleOf? true value 0).map .double
      else some (.int (-(value : Int)))
    else some (.int value)
  else
    let (significand, dropped) := takeDigits 0 whole
    let (significand, scale) : Nat × Int :=
      if dropped = 0 then
        let (joined, left) := takeDigits significand fraction
        (joined, (left : Int) - fraction.length)
      else
        let (joined, left) := takeDigits significand fraction
        (joined, (dropped : Int) + left - fraction.length)
    let exponent := exponent.getD 0
    if exponent.natAbs ≥ Nat.pow 2 31 then
      if exponent < 0 ∨ significand = 0 then
        some (.double (Double.ofFloat (if negative then -0.0 else 0.0)))
      else none
    else (doubleOf? negative significand (scale + exponent)).map .double

def number? (text : Text) : Option (Option Number × Text) := do
  let (negative, text) :=
    match text with
    | '-' :: rest => (true, rest)
    | rest => (false, rest)
  let (whole, text) ← Text.run1? Char.isDigit text
  if whole.length > 1 ∧ whole.head? = some '0' then none
  let (fraction, text) ← fractionPart? text
  let (lower, exponent, text) ← exponentPart? text
  let power : Option Int :=
    if exponent.isEmpty then none
    else if lower then some (-(digitsValue exponent : Int))
    else some (digitsValue exponent : Int)
  return (numberOf? negative whole fraction power, text)

inductive Token where
  | mark (c : Char)
  | text (content : Option String)
  | plain (value : Option Data)

def token : Recogniser Token
  | _, c :: rest =>
      if c = '[' ∨ c = ']' ∨ c = '{' ∨ c = '}' ∨ c = ',' ∨ c = ':' then some (.mark c, rest)
      else if c = '\x22' then
        (stringTail? rest).map fun (content, after) => (.text (content.map String.ofList), after)
      else if c = 't' then
        (Text.after? "true".toList (c :: rest)).map fun after => (.plain (some (.bool true)), after)
      else if c = 'f' then
        (Text.after? "false".toList (c :: rest)).map fun after => (.plain (some (.bool false)), after)
      else if c = 'n' then
        (Text.after? "null".toList (c :: rest)).map fun after => (.plain (some .null), after)
      else (number? (c :: rest)).map fun (value, after) => (.plain (value.map .number), after)
  | _, [] => none

def tokens? (text : Text) : Option (List Token) :=
  (Text.cut token text).foldr
    (fun piece rest =>
      match piece with
      | .found _ value => rest.map (value :: ·)
      | .plain c => if c = ' ' ∨ c = '\n' ∨ c = '\t' ∨ c = '\r' then rest else none)
    (some [])

def Token.document? : Token → Option Document
  | .mark _ => none
  | .text (some content) => some (.ofText content)
  | .plain (some value) => some (.ofData value)
  | .text none | .plain none => some (.scalar {})

/-- A list or record that is still open, with what it holds so far in reverse. -/
inductive Frame where
  | list (items : List Document)
  | record (fields : List (Document × Document)) (name : Document)

inductive State where
  | value (first : Bool) (outer : List Frame)
  | name (first : Bool) (fields : List (Document × Document)) (outer : List Frame)
  | colon (fields : List (Document × Document)) (name : Document) (outer : List Frame)
  | complete (value : Document) (outer : List Frame)

def State.step : State → Token → Option State
  | .value first outer, .mark c =>
      if c = '[' then some (.value true (.list [] :: outer))
      else if c = '{' then some (.name true [] outer)
      else if c = ']' then
        match first, outer with
        | true, .list items :: outer => some (.complete (.list items.reverse) outer)
        | _, _ => none
      else none
  | .value _ outer, token => token.document?.map fun item => .complete item outer
  | .name _ fields outer, .text content =>
      (Token.text content).document?.map fun field => .colon fields field outer
  | .name true fields outer, .mark '}' => some (.complete (.record fields.reverse) outer)
  | .colon fields field outer, .mark ':' => some (.value false (.record fields field :: outer))
  | .complete item (.list items :: outer), .mark c =>
      if c = ',' then some (.value false (.list (item :: items) :: outer))
      else if c = ']' then some (.complete (.list (item :: items).reverse) outer)
      else none
  | .complete item (.record fields field :: outer), .mark c =>
      if c = ',' then some (.name false ((field, item) :: fields) outer)
      else if c = '}' then some (.complete (.record ((field, item) :: fields).reverse) outer)
      else none
  | _, _ => none

def document? (text : Text) : Option Document := do
  let tokens ← tokens? text
  match ← tokens.foldlM State.step (.value false []) with
  | .complete value [] => some value
  | _ => none

end PageScript.Json
