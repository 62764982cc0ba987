import PageScript.Text.Basic
import PageScript.Text.Class

/-! Where a literal ends. -/

namespace PageScript.Script

class Alphabet (α : Type) where
  escape : α
  newline : α
  multiline : α

instance : Alphabet Char := ⟨'\\', '\n', '\x60'⟩

instance : Alphabet UInt8 := ⟨92, 10, 96⟩

/-- The number of symbols of a literal after its opening quote. -/
def literalTail {α : Type} [DecidableEq α] [Alphabet α] (quote : α) : List α → Nat
  | [] => 0
  | c :: rest =>
      if c = Alphabet.escape then
        match rest with
        | [] => 1
        | _ :: rest => literalTail quote rest + 2
      else if c = quote then 1
      else if c = Alphabet.newline ∧ quote ≠ Alphabet.multiline then 0
      else literalTail quote rest + 1

/-- The end of the literal that starts at byte `start`, whatever byte stands there; nothing if the
text has no such byte. -/
def literalEnd? (text : Text) (start : Nat) : Option Nat :=
  match text.utf8.drop start with
  | [] => none
  | quote :: rest => some (start + 1 + literalTail quote rest)

def isQuote (c : Char) : Bool :=
  c == '\x27' || c == '\x22' || c == '\x60'

def afterLiteral : Text → Text
  | [] => []
  | quote :: rest => rest.drop (literalTail quote rest)

/-- The value without white space around it and without one pair of equal quotes. -/
def unquote (value : Text) : Text :=
  let inner := Text.trim value
  match inner with
  | first :: second :: rest =>
      if isQuote first && (second :: rest).getLast? == some first then (second :: rest).dropLast
      else inner
  | _ => inner

end PageScript.Script
