import PageScript.Script.Token

/-!
The plain errors of a script, found from one token to the next (`errors`): brackets that do not match and
operands that are missing. They stand in for a parser of the whole language.
-/

namespace PageScript.Script

/-- A bracket that is open, with the token before it. -/
structure Level where
  opening : String := ""
  before : TokenKind := .finish
  isObject : Bool := false
  /-- The expression in it has an operator, so nothing can be assigned to it. -/
  isMixed : Bool := false

structure Reading where
  previous : TokenKind := .finish
  /-- The token before begins the statement that declares a function or a class. -/
  declares : Bool := false
  level : Level := {}
  outer : List Level := []
  errors : List String := []

/-- Words that a head, an operand or a name has to follow. -/
def leadingWords : List String :=
  ["if", "for", "while", "switch", "with", "typeof", "void", "delete", "new", "throw", "case", "else", "do",
    "in", "instanceof", "var", "const"]

/-- Words that another word, a number or a text may follow. -/
def announcingWords : List String :=
  ["return", "yield", "await", "async", "get", "set", "static", "let", "of", "as", "from", "import", "export",
    "default", "function", "class", "extends", "break", "continue", "try", "finally", "catch"]

def assigningMarks : List String :=
  ["=", "+=", "-=", "*=", "/=", "%=", "**=", "<<=", ">>=", ">>>=", "&=", "|=", "^=", "&&=", "||=", "??="]

def binaryMarks : List String :=
  ["+", "-", "*", "/", "%", "**", "<<", ">>", ">>>", "&", "|", "^", "&&", "||", "??", "==", "!=", "===",
    "!==", "<", ">", "<=", ">="]

namespace TokenKind

def isWord (token : TokenKind) (words : List String) : Bool :=
  match token with
  | .word found => words.contains found
  | _ => false

def isMark (token : TokenKind) (marks : List String) : Bool :=
  match token with
  | .mark found => marks.contains found
  | _ => false

def startsOperand : TokenKind → Bool
  | .mark found => ["(", "[", "\x7b", "!", "~", "+", "-", "++", "--", "...", "/", "/="].contains found
  | .finish | .broken => false
  | _ => true

def endsOperand (token : TokenKind) : Bool :=
  match token with
  | .word found => ! leadingWords.contains found && ! ["return", "yield", "await"].contains found
  | .mark found => [")", "]", "\x7d", "++", "--"].contains found
  | .finish | .broken => false
  | _ => true

/-- An operand has to follow an operator. -/
def isOperator (token : TokenKind) : Bool :=
  token.isMark (binaryMarks ++ assigningMarks ++ ["!", "~", "...", "=>", "?", ".", "?."])

end TokenKind

namespace Level

def isHead (level : Level) : Bool :=
  level.opening == "(" && level.before.isWord ["if", "for", "while", "switch", "with", "await"]

/-- A brace opens an object where an operand is looked for. -/
def opensObject (level : Level) (previous : TokenKind) : Bool :=
  previous.isMark ["(", "[", ",", "?"] || previous.isOperator && previous != .mark "=>" ||
    previous == .word "return" || previous == .mark ":" && level.isObject

def closing (level : Level) : String :=
  if level.opening = "(" then ")" else if level.opening = "[" then "]" else "\x7d"

end Level

namespace Reading

def fail (message : String) (reading : Reading) : Reading :=
  { reading with errors := reading.errors ++ [message] }

/-- Whether two operands stand side by side. -/
def joins (token : TokenKind) (reading : Reading) : Bool :=
  let ended :=
    match reading.previous with
    | .word found => ! (leadingWords ++ announcingWords).contains found
    | .number _ | .text _ | .hidden _ | .mark "]" => true
    | _ => false
  let begins :=
    match token with
    | .word found => ! ["in", "instanceof", "of", "as", "from", "with", "extends"].contains found
    | .number _ | .text _ => true
    | _ => false
  ended && begins

/-- Whether something is missing between the token before and this one. -/
def misses (token : TokenKind) (reading : Reading) : Bool :=
  let level := reading.level
  let ends := token == .finish || token.isMark [")", "]", "\x7d"]
  let goesOn := token.isMark [",", ":"] || token.isOperator && ! token.startsOperand && token != .mark "*"
  match reading.previous with
  | .mark "." => ! (token matches .word _ | .hidden _)
  | .mark ":" => (level.opening != "\x7b" || level.isObject) && (ends || token.isMark [",", ";", ":"])
  | .mark "(" => goesOn || level.isHead && ends
  | .mark "," => goesOn && level.opening != "["
  | .mark "\x7b" | .mark ";" | .finish => goesOn
  | .word found =>
      if reading.declares then ! (token matches .word _ | .mark "*")
      else if ["if", "for", "while", "switch"].contains found then
        ! (token.isMark ["(", ":"] || token == .word "await")
      else
        leadingWords.contains found && (ends || token.isMark ("," :: assigningMarks) ||
          token == .mark ";" && ! ["else", "do"].contains found)
  | previous => previous.isOperator && ! token.startsOperand

def isMixedAfter (token : TokenKind) (newline : Bool) (reading : Reading) : Bool :=
  if token.isMark binaryMarks then reading.previous.endsOperand || reading.level.isMixed
  else reading.level.isMixed && ! token.isMark (assigningMarks ++ [",", ";", "?", ":", "=>"]) &&
    ! (newline && reading.previous.endsOperand)

/-- Reads a token after what stands between it and the one before has been judged. -/
def take (token : TokenKind) (newline : Bool) (reading : Reading) : Reading :=
  let reading :=
    if reading.misses token || ! newline && reading.joins token then reading.fail "something is missing"
    else reading
  let reading :=
    if token.isMark assigningMarks && reading.level.isMixed then reading.fail "nothing can be assigned here"
    else reading
  let level := { reading.level with isMixed := reading.isMixedAfter token newline }
  -- the name of a member is no keyword
  let previous :=
    match reading.previous, token with
    | .mark ".", .word found => .hidden found
    | _, _ => token
  let declares := token.isWord ["class", "function"] && ! level.isObject &&
    (reading.previous == .finish || reading.previous.isMark [";", "\x7b", "\x7d"])
  let next := { reading with previous, declares, level }
  match token with
  | .mark ";" =>
      if level.opening = "[" || level.opening = "(" && ! level.isHead then next.fail "a bracket is not closed"
      else next
  | .mark "@" => next.fail "a directive is left"
  | .mark text =>
      if ["(", "[", "\x7b"].contains text then
        let inner : Level :=
          { opening := text
            before := reading.previous
            isObject := text == "\x7b" && level.opensObject reading.previous }
        { next with level := inner, outer := level :: reading.outer }
      else if [")", "]", "\x7d"].contains text then
        match reading.outer with
        | [] => next.fail "a bracket is closed that is not open"
        | outer :: others =>
            let next := if level.closing = text then next else next.fail "brackets do not match"
            -- a statement has to follow the head of one, except at the end of a loop
            let previous :=
              if ! level.isHead then next.previous
              else if level.before = .word "while" then .mark ";"
              else .word "else"
            { next with previous, level := outer, outer := others }
      else next
  | _ => next

/-- The place after a token. A slash may open a pattern, and a brace may close an expression in a
template. -/
def after? (cursor : Cursor) (reading : Reading) : Option (Reading × Cursor) :=
  let newline := cursor.afterNewline
  let plain := reading.take cursor.token newline
  match cursor.token with
  | .broken => none
  | .template false =>
      some ({ plain with
        previous := .mark "("
        level := { opening := "\x60" }
        outer := plain.level :: plain.outer }, cursor.next)
  | .mark "\x7d" =>
      if reading.level.opening = "\x60" then
        cursor.afterPart?.map fun (last, next) =>
          (if last then plain else { plain with level := reading.level, outer := reading.outer }, next)
      else some (plain, cursor.next)
  | .mark "/" | .mark "/=" =>
      if reading.previous.endsOperand then some (plain, cursor.next)
      else cursor.afterPattern?.map fun next => (reading.take (.text "") newline, next)
  | _ => some (plain, cursor.next)

def readFrom : Nat → Reading → Cursor → List String
  | 0, reading, _ => reading.errors
  | fuel + 1, reading, cursor =>
      if cursor.token = .finish then
        let reading := reading.take .finish false
        if reading.outer.isEmpty then reading.errors else (reading.fail "a bracket is not closed").errors
      else
        match reading.after? cursor with
        | none => (reading.fail "a token is not closed").errors
        | some (reading, cursor) => readFrom fuel reading cursor

end Reading

def errors (code : Text) : List String :=
  Reading.readFrom (code.length + 1) {} (.first code)

end PageScript.Script
