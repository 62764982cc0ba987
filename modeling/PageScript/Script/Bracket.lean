import PageScript.Script.Literal
import PageScript.Text.Cut

/-! The bracket that closes another one, past literals and comments. -/

namespace PageScript.Script

def closerOf? (c : Char) : Option Char :=
  if c = '{' then some '}' else if c = '(' then some ')' else if c = '[' then some ']' else none

def isCloser (c : Char) : Bool :=
  c == '}' || c == ')' || c == ']'

def afterLineComment (text : Text) : Text :=
  text.dropWhile (· != '\n')

/-- The text after a block comment, given what follows its opening; an open comment runs to the end. -/
def afterBlockComment (body : Text) : Text :=
  match Text.cutAt? "*/".toList body with
  | some (_, rest) => rest
  | none => []

def passedOver : Recogniser Unit
  | _, '/' :: '/' :: rest => some ((), afterLineComment rest)
  | _, '/' :: '*' :: rest => some ((), afterBlockComment rest)
  | _, quote :: rest => if isQuote quote then some ((), afterLiteral (quote :: rest)) else none
  | _, [] => none

def closingFrom : List Char → Nat → List (Piece Unit) → Option Nat
  | _, _, [] => none
  | opened, position, .found lexeme _ :: rest =>
      closingFrom opened (position + lexeme.length) rest
  | opened, position, .plain c :: rest =>
      match closerOf? c with
      | some closer => closingFrom (closer :: opened) (position + 1) rest
      | none =>
          if isCloser c then
            match opened with
            | [] => none
            | closer :: outer =>
                if closer ≠ c then none
                else if outer.isEmpty then some position
                else closingFrom outer (position + 1) rest
          else closingFrom opened (position + 1) rest

/-- The number of characters before the bracket that closes the one at the start of the text. -/
def closing? (text : Text) : Option Nat :=
  match text with
  | [] => none
  | c :: _ => if (closerOf? c).isSome then closingFrom [] 0 (Text.cut passedOver text) else none

def enclosed? (text : Text) : Option (Text × Text) :=
  (closing? text).map fun close => ((text.take close).drop 1, text.drop (close + 1))

def matching? (text : Text) (start : Nat) : Option Nat := do
  let rest ← text.dropBytes? start
  let close ← closing? rest
  return start + Text.byteLength (rest.take close)

def literalOnly : Recogniser Unit
  | _, quote :: rest => if isQuote quote then some ((), afterLiteral (quote :: rest)) else none
  | _, [] => none

/-- The parts of a list, cut at `sep` where as many brackets were closed as opened. The current part is
held in reverse. -/
def partsFrom (sep : Char) : Text → Int → List (Piece Unit) → List Text
  | part, _, [] => [part.reverse]
  | part, depth, .found lexeme _ :: rest => partsFrom sep (lexeme.reverse ++ part) depth rest
  | part, depth, .plain c :: rest =>
      if (closerOf? c).isSome then partsFrom sep (c :: part) (depth + 1) rest
      else if isCloser c then partsFrom sep (c :: part) (depth - 1) rest
      else if c = sep ∧ depth = 0 then part.reverse :: partsFrom sep [] depth rest
      else partsFrom sep (c :: part) depth rest

/-- The nonempty parts of a list between separators outside brackets and literals, trimmed. -/
def topLevelParts (sep : Char) (text : Text) : List Text :=
  ((partsFrom sep [] 0 (Text.cut literalOnly text)).map Text.trim).filter (! ·.isEmpty)

end PageScript.Script
