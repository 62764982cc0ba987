import PageScript.Script.Bracket

/-! Scripts without their comments. -/

namespace PageScript.Script

/-- Whether a slash after these characters, nearest first, opens a regular expression: nothing but
white space comes before it, or the last other character cannot end an operand. -/
def opensPattern (before : Text) : Bool :=
  match before.find? (! isAsciiBlank ·) with
  | none => true
  | some c => "(,=:[!&|?\x7b\x7d;".toList.contains c

/-- The number of characters of a regular expression after its opening slash. A slash inside a
character class does not close it; a line end always does, and stays. -/
def patternTail : Bool → Text → Nat
  | _, [] => 0
  | _, ['\\'] => 1
  | inClass, '\\' :: _ :: rest => patternTail inClass rest + 2
  | inClass, c :: rest =>
      if c = '[' then patternTail true rest + 1
      else if c = ']' then patternTail false rest + 1
      else if c = '/' ∧ inClass = false then 1
      else if c = '\n' then 0
      else patternTail inClass rest + 1

inductive Lexeme where
  | literal
  | comment
  deriving DecidableEq, Repr

def lexeme : Recogniser Lexeme
  | before, '/' :: rest =>
      match before.head?, rest with
      | some ':', '/' :: _ => some (.literal, rest.drop (patternTail false rest))
      | _, '/' :: more => some (.comment, afterLineComment more)
      | _, '*' :: more => some (.comment, afterBlockComment more)
      | _, _ =>
          if opensPattern before then some (.literal, rest.drop (patternTail false rest)) else none
  | _, quote :: rest =>
      if isQuote quote then some (.literal, afterLiteral (quote :: rest)) else none
  | _, [] => none

/-- What is left of a lexeme: a literal stays, of a comment only the line ends do. -/
def Lexeme.kept (source : Text) : Lexeme → Text
  | .literal => source
  | .comment => List.replicate (Text.newlines source) '\n'

def stripComments (text : Text) : Text :=
  Text.writePieces (fun source kind => kind.kept source) (Text.cut lexeme text)

end PageScript.Script
