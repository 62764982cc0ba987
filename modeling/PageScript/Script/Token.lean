import PageScript.Data.Json.Parser
import PageScript.Script.Word

/-! The tokens of a script, taken one by one: the phrase that is read tells what a slash opens. -/

namespace PageScript.Script

inductive TokenKind where
  | word (name : String)
  | hidden (name : String)
  | number (text : Text)
  | text (value : String)
  /-- The first part of a template literal, and whether it is the whole literal. -/
  | template (whole : Bool)
  | mark (text : String)
  | finish
  | broken
  deriving DecidableEq, Repr

def endsLine (c : Char) : Bool :=
  c == '\n' || c == '\r' || c == '\u2028' || c == '\u2029'

def isSpace (c : Char) : Bool :=
  (isBlank c && c != '\u0085') || c == '\ufeff'

/-- The operators and brackets, each before the ones it starts with. -/
def marks : List String :=
  [">>>=", "...", "===", "!==", "**=", "<<=", ">>=", ">>>", "&&=", "||=", "??=", "=>", "==", "!=", "<=",
    ">=", "&&", "||", "??", "?.", "++", "--", "+=", "-=", "*=", "/=", "%=", "&=", "|=", "^=", "<<", ">>",
    "**", "\x7b", "\x7d", "(", ")", "[", "]", ";", ",", "<", ">", "+", "-", "*", "/", "%", "&", "|", "^",
    "!", "~", "?", ":", "=", ".", "@"]

/-- The operator or bracket at the start of a text. A question mark before a decimal fraction stands
alone. -/
def mark? (text : Text) : Option (String × Text) :=
  match text with
  | '?' :: '.' :: c :: rest =>
      if c.isDigit then some ("?", '.' :: c :: rest) else some ("?.", c :: rest)
  | _ => marks.findSome? fun mark => (Text.after? mark.toList text).map fun rest => (mark, rest)

/-- A character given by its code, a lone surrogate replaced; nothing beyond the last code. -/
def charOf? (code : Nat) : Option Char :=
  if 0x110000 ≤ code then none
  else some (if code.isValidChar then Char.ofNat code else '\ufffd')

def hexValue? (digits : Text) : Option Nat :=
  if digits.isEmpty then none
  else digits.foldlM (fun value c => (Json.hexDigit? c).map fun digit => value * 16 + digit) 0

def octalValue (digits : Text) : Nat :=
  digits.foldl (fun value c => value * 8 + (c.toNat - '0'.toNat)) 0

def isOctal (c : Char) : Bool :=
  '0' ≤ c && c ≤ '7'

def escaped (c : Char) : Char :=
  if c = 'n' then '\n'
  else if c = 't' then '\t'
  else if c = 'r' then '\r'
  else if c = 'b' then '\x08'
  else if c = 'f' then '\x0c'
  else if c = 'v' then '\x0b'
  else c

/-- The escape after a backslash: what it stands for and the number of characters it takes. Two
escaped surrogates are one character; a line end stands for nothing. Up to three octal digits are a
code below 256. -/
def escape? (text : Text) : Option (Text × Nat) :=
  match text with
  | [] => none
  | 'x' :: a :: b :: _ => do return ([← charOf? (← hexValue? [a, b])], 3)
  | 'u' :: '{' :: rest =>
      let digits := rest.takeWhile (· != '}')
      if rest.length = digits.length then none
      else do return ([← charOf? (← hexValue? digits)], digits.length + 3)
  | 'u' :: a :: b :: c :: d :: rest =>
      match Json.hexUnit? a b c d with
      | none => none
      | some unit =>
          let low : Option Nat :=
            match rest with
            | '\\' :: 'u' :: a :: b :: c :: d :: _ => Json.hexUnit? a b c d
            | _ => none
          let paired := low.filter fun low =>
            0xd800 ≤ unit && unit < 0xdc00 && 0xdc00 ≤ low && low < 0xe000
          match paired with
          | some low => do return ([← charOf? (0x10000 + (unit - 0xd800) * 0x400 + (low - 0xdc00))], 11)
          | none => do return ([← charOf? unit], 5)
  | 'x' :: _ => none
  | 'u' :: _ => none
  | '\r' :: '\n' :: _ => some ([], 2)
  | c :: rest =>
      if endsLine c then some ([], 1)
      else if isOctal c then
        let more := (rest.take (if c ≤ '3' then 2 else 1)).takeWhile isOctal
        (charOf? (octalValue (c :: more))).map fun value => ([value], more.length + 1)
      else some ([escaped c], 1)

def stringTail? (quote : Char) : Nat → Text → Option (Text × Text)
  | _, [] => none
  | skip + 1, _ :: rest => stringTail? quote skip rest
  | 0, c :: rest =>
      if c = quote then some ([], rest)
      else if c = '\n' ∨ c = '\r' then none
      else if c = '\\' then
        match escape? rest with
        | none => none
        | some (value, length) =>
            (stringTail? quote length rest).map fun (tail, after) => (value ++ tail, after)
      else (stringTail? quote 0 rest).map fun (tail, after) => (c :: tail, after)

/-- The rest of a part of a template literal: whether the literal ends there, and the text after it. -/
def templateTail? : Text → Option (Bool × Text)
  | [] => none
  | '\\' :: _ :: rest => templateTail? rest
  | '$' :: '{' :: rest => some (false, rest)
  | c :: rest => if c = '\x60' then some (true, rest) else templateTail? rest

def areFlags (letters : Text) : Bool :=
  letters.all "dgimsyuv".toList.contains && decide letters.Nodup &&
    ! (letters.contains 'u' && letters.contains 'v')

def patternRest? : Bool → Text → Option Text
  | _, [] => none
  | inClass, '\\' :: c :: rest => if endsLine c then none else patternRest? inClass rest
  | inClass, c :: rest =>
      if endsLine c then none
      else if c = '/' ∧ ¬ inClass then
        if areFlags (rest.takeWhile continuesWord) then some (rest.dropWhile continuesWord) else none
      else if c = '[' then patternRest? true rest
      else if c = ']' then patternRest? false rest
      else patternRest? inClass rest

def areSeparated : Text → Bool
  | [] => true
  | ['_'] => false
  | '_' :: '_' :: _ => false
  | _ :: rest => areSeparated rest

def digits? (p : Char → Bool) (text : Text) : Option (Text × Text) :=
  let (digits, rest) := Text.run (fun c => p c || c == '_') text
  if digits.head? = some '_' ∨ ¬ areSeparated digits then none
  else some (digits.filter (· != '_'), rest)

def exponent? (text : Text) : Option (Text × Text) :=
  match text with
  | c :: rest =>
      if c = 'e' ∨ c = 'E' then do
        let (sign, rest) : Text × Text :=
          match rest with
          | '+' :: rest => ([], rest)
          | '-' :: rest => (['-'], rest)
          | _ => ([], rest)
        let (digits, rest) ← digits? Char.isDigit rest
        if digits.isEmpty then none else some ('e' :: sign ++ digits, rest)
      else some ([], text)
  | [] => some ([], text)

def afterLarge (text : Text) : Text :=
  match text with
  | 'n' :: rest => rest
  | _ => text

def decimal? (text : Text) : Option (Text × Text) := do
  let (whole, rest) ← digits? Char.isDigit text
  match rest with
  | '.' :: rest =>
      let (fraction, rest) ← digits? Char.isDigit rest
      if whole.isEmpty && fraction.isEmpty then none
      let (exponent, rest) ← exponent? rest
      return (whole ++ '.' :: fraction ++ exponent, rest)
  | _ =>
      if whole.isEmpty then none
      let (exponent, after) ← exponent? rest
      return (whole ++ exponent, if exponent.isEmpty then afterLarge after else after)

def radixDigit? (c : Char) : Option (Char → Bool) :=
  if c = 'x' ∨ c = 'X' then some fun c => (Json.hexDigit? c).isSome
  else if c = 'o' ∨ c = 'O' then some isOctal
  else if c = 'b' ∨ c = 'B' then some fun c => c == '0' || c == '1'
  else none

/-- A number at the start of a text; no word may follow it directly. Digits after a zero are octal if
they can be. -/
def number? (text : Text) : Option (Text × Text) := do
  let (number, rest) ←
    match text with
    | '0' :: c :: rest =>
        match radixDigit? c with
        | some digit => do
            let (digits, rest) ← digits? digit rest
            if digits.isEmpty then none else some ('0' :: c :: digits, afterLarge rest)
        | none =>
            if c = '_' then none
            else if c.isDigit then
              let (digits, rest) := Text.run Char.isDigit (c :: rest)
              if digits.all isOctal then some ('0' :: 'o' :: digits, rest)
              else decimal? (digits ++ rest)
            else decimal? text
    | _ => decimal? text
  match rest with
  | c :: _ => if continuesWord c then none else some (number, rest)
  | [] => some (number, rest)

/-- The rest of a word after `skip` more characters of the escape before: its characters and the text
after it. A character may be written as its code. -/
def wordTail? : Nat → Text → Option (Text × Text)
  | skip + 1, _ :: rest => wordTail? skip rest
  | 0, '\\' :: 'u' :: rest =>
      match escape? ('u' :: rest) with
      | some ([c], length + 1) =>
          if continuesWord c then (wordTail? length rest).map fun (tail, after) => (c :: tail, after)
          else none
      | _ => none
  | 0, c :: rest =>
      if continuesWord c then (wordTail? 0 rest).map fun (tail, after) => (c :: tail, after)
      else some ([], c :: rest)
  | _, [] => some ([], [])

def word? (text : Text) : Option (String × Text) := do
  let (name, rest) ← wordTail? 0 text
  if (name.head?.map startsWord).getD false then some (String.ofList name, rest) else none

/-- The token at the start of a text that starts with neither white space nor a comment, and the text
after it. A slash is taken for an operator. -/
def token? : Text → Option (TokenKind × Text)
  | [] => some (.finish, [])
  | c :: rest =>
      if startsWord c ∨ c = '\\' then
        (word? (c :: rest)).map fun (name, rest) => (.word name, rest)
      else if c = '#' then
        (word? rest).map fun (name, rest) => (.hidden name, rest)
      else if c.isDigit ∨ (c = '.' ∧ (rest.head?.map Char.isDigit).getD false) then
        (number? (c :: rest)).map fun (number, rest) => (.number number, rest)
      else if c = '\x27' ∨ c = '\x22' then
        (stringTail? c 0 rest).map fun (value, rest) => (.text (String.ofList value), rest)
      else if c = '\x60' then
        (templateTail? rest).map fun (whole, rest) => (.template whole, rest)
      else (mark? (c :: rest)).map fun (mark, rest) => (.mark mark, rest)

inductive Gap where
  | space
  | lineComment
  | blockComment
  deriving DecidableEq, Repr

/-- The text after white space and comments, and whether a line ended in them; nothing if a comment is
not closed. -/
def afterGap? : Gap → Bool → Text → Option (Bool × Text)
  | .space, newline, '/' :: '/' :: rest => afterGap? .lineComment newline rest
  | .space, newline, '/' :: '*' :: rest => afterGap? .blockComment newline rest
  | .space, newline, c :: rest =>
      if isSpace c then afterGap? .space (newline || endsLine c) rest else some (newline, c :: rest)
  | .lineComment, newline, c :: rest =>
      if endsLine c then afterGap? .space true rest else afterGap? .lineComment newline rest
  | .blockComment, newline, '*' :: '/' :: rest => afterGap? .space newline rest
  | .blockComment, newline, c :: rest => afterGap? .blockComment (newline || endsLine c) rest
  | .blockComment, _, [] => none
  | _, newline, [] => some (newline, [])

structure Cursor where
  token : TokenKind
  afterNewline : Bool
  text : Text
  rest : Text

namespace Cursor

def first (text : Text) : Cursor :=
  match afterGap? .space false text with
  | none => { token := .broken, afterNewline := false, text := [], rest := [] }
  | some (afterNewline, text) =>
      match token? text with
      | none => { token := .broken, afterNewline, text, rest := [] }
      | some (token, rest) => { token, afterNewline, text, rest }

def next (cursor : Cursor) : Cursor :=
  first cursor.rest

def afterPattern? (cursor : Cursor) : Option Cursor :=
  match cursor.text with
  | '/' :: rest => (patternRest? false rest).map first
  | _ => none

/-- The place after a part of a template literal whose expression ends here, and whether the literal ends
with it. -/
def afterPart? (cursor : Cursor) : Option (Bool × Cursor) :=
  match cursor.text with
  | '}' :: rest => (templateTail? rest).map fun (last, rest) => (last, first rest)
  | _ => none

end Cursor

end PageScript.Script
