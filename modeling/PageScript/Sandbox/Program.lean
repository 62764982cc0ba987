import PageScript.Script.Token

/-! Scripts for the sandbox as programs. -/

namespace PageScript.Sandbox

inductive Declaration where
  | variable
  | local
  | constant
  deriving DecidableEq, Repr

mutual

inductive Expr where
  | null
  | bool (value : Bool)
  | number (value : Double)
  | text (value : String)
  | list (items : List Expr)
  | record (fields : List (String × Expr))
  | name (name : String)
  | member (object : Expr) (name : String)
  | add (left right : Expr)
  | negate (operand : Expr)
  | newError (message : Option Expr)
  | emptyClass (name : String)
  | call (callee : Expr) (arguments : List Expr)
  | isolated (body : List Statement)
  | assignName (name : String) (value : Expr)
  | assignMember (object : Expr) (name : String) (value : Expr)

inductive Statement where
  | declare (how : Declaration) (name : String) (value : Option Expr)
  | evaluate (expression : Expr)
  | leave (value : Option Expr)
  | throw (value : Expr)

end

open Script (Cursor TokenKind)

def digitsIn (radix : Nat) (digits : Text) : Nat :=
  digits.foldl (fun value c => value * radix + (Json.hexDigit? c).getD 0) 0

def decimalValue (text : Text) : Double :=
  let mantissa := text.takeWhile (· != 'e')
  let exponentText := (text.dropWhile (· != 'e')).drop 1
  let (negative, exponentDigits) : Bool × Text :=
    match exponentText with
    | '-' :: digits => (true, digits)
    | digits => (false, digits)
  let size : Int := digitsIn 10 exponentDigits
  let fraction := (mantissa.dropWhile (· != '.')).drop 1
  let digits := digitsIn 10 (mantissa.filter (· != '.'))
  .ofDecimal false digits ((if negative then -size else size) - fraction.length)

def numberValue (text : Text) : Double :=
  match text with
  | '0' :: c :: digits =>
      if c = 'x' ∨ c = 'X' then .ofDecimal false (digitsIn 16 digits) 0
      else if c = 'o' ∨ c = 'O' then .ofDecimal false (digitsIn 8 digits) 0
      else if c = 'b' ∨ c = 'B' then .ofDecimal false (digitsIn 2 digits) 0
      else decimalValue text
  | _ => decimalValue text

/-- The layout of numbers in texts: a whole number has no fraction, and exponents from -6 to 20 are
written out. -/
def numberLayout : Numeral.Layout where
  lowest := -6
  highest := 20
  fraction := false

def numberText (x : Double) : Text :=
  if x.isNaN then "NaN".toList
  else if x.isZero then ['0']
  else
    let magnitude :=
      if x.isFinite then Numeral.write numberLayout (Numeral.shortest x) else "Infinity".toList
    if x.negative then '-' :: magnitude else magnitude

namespace Parser

abbrev Reader (α : Type) := Cursor → Option (α × Cursor)

def reserved : List String :=
  ["break", "case", "catch", "class", "const", "continue", "debugger", "default", "delete", "do", "else",
    "enum", "export", "extends", "false", "finally", "for", "function", "if", "import", "in", "instanceof",
    "new", "null", "return", "super", "switch", "this", "throw", "true", "try", "typeof", "var", "void",
    "while", "with"]

def atMark (text : String) (cursor : Cursor) : Bool :=
  cursor.token == .mark text

def atWord (name : String) (cursor : Cursor) : Bool :=
  cursor.token == .word name

def mark (text : String) (cursor : Cursor) : Option Cursor :=
  if atMark text cursor then some cursor.next else none

def word (name : String) (cursor : Cursor) : Option Cursor :=
  if atWord name cursor then some cursor.next else none

def sameLine (cursor : Cursor) : Bool :=
  ! cursor.afterNewline && cursor.token != .finish

def ending (cursor : Cursor) : Option Cursor :=
  match mark ";" cursor with
  | some cursor => some cursor
  | none => if ! sameLine cursor || atMark "\x7d" cursor then some cursor else none

def plainName : Reader String :=
  fun cursor =>
    match cursor.token with
    | .word found => if reserved.contains found then none else some (found, cursor.next)
    | _ => none

def memberName : Reader String :=
  fun cursor =>
    match cursor.token with
    | .word found => some (found, cursor.next)
    | _ => none

def fieldKey : Reader String :=
  fun cursor =>
    match cursor.token with
    | .word found => some (found, cursor.next)
    | .text value => some (value, cursor.next)
    | .number text => some (String.ofList (numberText (numberValue text)), cursor.next)
    | _ => none

/-- An expression whose value is put under a name: a class without a name takes it, unless the name is
that of what an object finds members in. -/
def named (name : String) : Expr → Expr
  | .emptyClass "" => .emptyClass (if name = "__proto__" then "" else name)
  | value => value

def target? : Expr → Option (Expr → Expr)
  | .name name => some fun value => .assignName name (named name value)
  | .member object name => some (.assignMember object name)
  | _ => none

def declaration? (word : String) : Option Declaration :=
  if word = "var" then some .variable
  else if word = "let" then some .local
  else if word = "const" then some .constant
  else none

def items {α : Type} (item : Reader α) (close : String) : Nat → Reader (List α)
  | 0, _ => none
  | fuel + 1, cursor =>
      match mark close cursor with
      | some rest => some ([], rest)
      | none => do
          let (first, rest) ← item cursor
          match mark close rest with
          | some rest => return ([first], rest)
          | none =>
              let rest ← mark "," rest
              let (others, rest) ← items item close fuel rest
              return (first :: others, rest)

def field (expression : Reader Expr) : Reader (String × Expr) :=
  fun cursor => do
    let (key, rest) ← fieldKey cursor
    let rest ← mark ":" rest
    let (value, rest) ← expression rest
    return ((key, named key value), rest)

def isolated (body : Reader (List Statement)) : Reader Expr :=
  fun cursor => do
    let rest ← word "function" cursor
    let rest ← mark "(" rest
    let rest ← mark ")" rest
    let rest ← mark "\x7b" rest
    let (statements, rest) ← body rest
    let rest ← mark "\x7d" rest
    let rest ← mark ")" rest
    let rest ← mark "(" rest
    let rest ← mark ")" rest
    return (.isolated statements, rest)

def grouped (expression : Reader Expr) : Reader Expr :=
  fun cursor => do
    let (value, rest) ← expression cursor
    let rest ← mark ")" rest
    return (value, rest)

def newError (expression : Reader Expr) : Reader Expr :=
  fun cursor => do
    let rest ← word "Error" cursor
    let rest ← mark "(" rest
    match mark ")" rest with
    | some rest => return (.newError none, rest)
    | none =>
        let (message, rest) ← grouped expression rest
        return (.newError (some message), rest)

def emptyClass : Reader Expr :=
  fun cursor => do
    let (name, rest) := (plainName cursor).getD ("", cursor)
    let rest ← mark "\x7b" rest
    let rest ← mark "\x7d" rest
    return (.emptyClass name, rest)

def wordOperand (expression : Reader Expr) (found : String) (cursor : Cursor) :
    Option (Expr × Cursor) :=
  match found with
  | "null" => some (.null, cursor.next)
  | "true" => some (.bool true, cursor.next)
  | "false" => some (.bool false, cursor.next)
  | "new" => newError expression cursor.next
  | "class" => emptyClass cursor.next
  | _ => (plainName cursor).map fun (name, rest) => (.name name, rest)

def primary (expression : Reader Expr) (body : Reader (List Statement)) : Reader Expr :=
  fun cursor =>
    let rest := cursor.next
    match cursor.token with
    | .number text => some (.number (numberValue text), rest)
    | .text value => some (.text value, rest)
    | .word found => wordOperand expression found cursor
    | .mark "[" =>
        (items expression "]" (rest.text.length + 1) rest).map fun (items, rest) => (.list items, rest)
    | .mark "\x7b" =>
        (items (field expression) "\x7d" (rest.text.length + 1) rest).map fun (fields, rest) =>
          (.record fields, rest)
    | .mark "(" => if atWord "function" rest then isolated body rest else grouped expression rest
    | _ => none

def suffixes (expression : Reader Expr) : Nat → Expr → Reader Expr
  | 0, value, cursor => some (value, cursor)
  | fuel + 1, value, cursor =>
      match mark "." cursor with
      | some rest => do
          let (name, rest) ← memberName rest
          suffixes expression fuel (.member value name) rest
      | none =>
          match mark "(" cursor with
          | some rest => do
              let (arguments, rest) ← items expression ")" (rest.text.length + 1) rest
              suffixes expression fuel (.call value arguments) rest
          | none => some (value, cursor)

def operand (expression : Reader Expr) (body : Reader (List Statement)) : Nat → Reader Expr
  | 0, _ => none
  | fuel + 1, cursor =>
      match mark "-" cursor with
      | some rest => do
          let (value, rest) ← operand expression body fuel rest
          return (.negate value, rest)
      | none => do
          let (value, rest) ← primary expression body cursor
          suffixes expression (rest.text.length + 1) value rest

def sum (next : Reader Expr) : Nat → Expr → Reader Expr
  | 0, value, cursor => some (value, cursor)
  | fuel + 1, value, cursor =>
      match mark "+" cursor with
      | some rest => do
          let (other, rest) ← next rest
          sum next fuel (.add value other) rest
      | none => some (value, cursor)

def expressionRule (expression : Reader Expr) (body : Reader (List Statement)) : Reader Expr :=
  fun cursor => do
    let next := operand expression body (cursor.text.length + 1)
    let (first, rest) ← next cursor
    let (value, rest) ← sum next (rest.text.length + 1) first rest
    match mark "=" rest with
    | none => return (value, rest)
    | some rest =>
        let assign ← target? value
        let (assigned, rest) ← expression rest
        return (assign assigned, rest)

def declarations (expression : Reader Expr) (how : Declaration) : Nat → Reader (List Statement)
  | 0, _ => none
  | fuel + 1, cursor => do
      let (name, rest) ← plainName cursor
      let (value, rest) : Option Expr × Cursor ←
        match mark "=" rest with
        | some rest => (expression rest).map fun (value, rest) => (some (named name value), rest)
        | none => if how = .constant then none else some (none, rest)
      match mark "," rest with
      | some rest =>
          let (others, rest) ← declarations expression how fuel rest
          return (.declare how name value :: others, rest)
      | none => return ([.declare how name value], rest)

def statement (expression : Reader Expr) : Reader (List Statement) :=
  fun cursor =>
    let rest := cursor.next
    let evaluated : Option (List Statement × Cursor) := do
      let (value, rest) ← expression cursor
      return ([.evaluate value], ← ending rest)
    match cursor.token with
    | .mark ";" => some ([], rest)
    | .mark "\x7b" => none
    | .word "return" =>
        match ending rest with
        | some rest => some ([.leave none], rest)
        | none => do
            let (value, rest) ← expression rest
            return ([.leave (some value)], ← ending rest)
    | .word "throw" =>
        if sameLine rest then do
          let (value, rest) ← expression rest
          return ([.throw value], ← ending rest)
        else none
    | .word found =>
        match declaration? found with
        | some how => do
            let (declared, rest) ← declarations expression how (rest.text.length + 1) rest
            return (declared, ← ending rest)
        | none => evaluated
    | _ => evaluated

def statements (expression : Reader Expr) : Nat → Reader (List Statement)
  | 0, _ => none
  | fuel + 1, cursor =>
      if cursor.token = .finish || atMark "\x7d" cursor then some ([], cursor)
      else do
        let (first, rest) ← statement expression cursor
        let (others, rest) ← statements expression fuel rest
        return (first ++ others, rest)

def expression : Nat → Reader Expr
  | 0, _ => none
  | fuel + 1, cursor =>
      expressionRule (expression fuel)
        (fun cursor => statements (expression fuel) (cursor.text.length + 1) cursor) cursor

end Parser

def declaredNames : List Statement → List (String × Declaration)
  | [] => []
  | .declare how name _ :: rest => (name, how) :: declaredNames rest
  | _ :: rest => declaredNames rest

/-- Whether names are declared in a way that they may be: a name that is declared once is declared
only once, and is no parameter. -/
def mayDeclare (parameters : List String) (statements : List Statement) : Bool :=
  let names := declaredNames statements
  let once := (names.filter fun (_, how) => how != .variable).map (·.1)
  let again := (names.filter fun (_, how) => how == .variable).map (·.1)
  once.Nodup && once.all fun name => ! again.contains name && ! parameters.contains name

mutual

/-- Whether all functions in an expression declare their names as they may, and no record names twice
what it finds members in. -/
def Expr.isSound : Expr → Bool
  | .list items => soundItems items
  | .record fields => (fields.filter (·.1 == "__proto__")).length ≤ 1 && soundFields fields
  | .member object _ => object.isSound
  | .add left right => left.isSound && right.isSound
  | .negate operand => operand.isSound
  | .newError none => true
  | .newError (some message) => message.isSound
  | .call callee arguments => callee.isSound && soundItems arguments
  | .isolated body => mayDeclare [] body && soundStatements body
  | .assignName _ value => value.isSound
  | .assignMember object _ value => object.isSound && value.isSound
  | _ => true

def soundItems : List Expr → Bool
  | [] => true
  | item :: rest => item.isSound && soundItems rest

def soundFields : List (String × Expr) → Bool
  | [] => true
  | (_, value) :: rest => value.isSound && soundFields rest

def Statement.isSound : Statement → Bool
  | .declare _ _ none => true
  | .declare _ _ (some value) => value.isSound
  | .evaluate value => value.isSound
  | .leave none => true
  | .leave (some value) => value.isSound
  | .throw value => value.isSound

def soundStatements : List Statement → Bool
  | [] => true
  | statement :: rest => statement.isSound && soundStatements rest

end

def parse? (parameters : List String) (script : Text) : Option (List Statement) := do
  let fuel := script.length + 2
  let (statements, rest) ← Parser.statements (Parser.expression fuel) fuel (.first script)
  if rest.token = .finish && mayDeclare parameters statements && soundStatements statements then
    return statements
  else none

end PageScript.Sandbox
