import PageScript.Data.Basic

/-! Data written as JSON, on one line or indented. -/

namespace PageScript.Json

def escaped (c : Char) : Text :=
  if c = '\x22' then ['\\', '\x22']
  else if c = '\\' then ['\\', '\\']
  else if c = '\n' then ['\\', 'n']
  else if c = '\r' then ['\\', 'r']
  else if c = '\t' then ['\\', 't']
  else if c = '\x08' then ['\\', 'b']
  else if c = '\x0c' then ['\\', 'f']
  else if c.toNat < 0x20 then
    ['\\', 'u', '0', '0', Nat.digitChar (c.toNat / 16), Nat.digitChar (c.toNat % 16)]
  else [c]

def quoted (text : Text) : Text :=
  '\x22' :: text.flatMap escaped ++ ['\x22']

/-- Numbers between `0.00001` and `10 ^ 16` are written without an exponent, and a whole double keeps
its `.0`. -/
def layout : Numeral.Layout :=
  { lowest := -5, highest := 15, fraction := true }

/-- The text of a double; one that is not finite has no text of its own and is null. -/
def doubleText (x : Double) : Text :=
  if ! x.isFinite then "null".toList
  else
    (if x.negative then ['-'] else []) ++
      (if x.isZero then "0.0".toList else (Numeral.shortest x).write layout)

def intText (value : Int) : Text :=
  (if value < 0 then ['-'] else []) ++ Nat.toDigits 10 value.natAbs

def numberText : Number → Text
  | .int value => intText value
  | .double value => doubleText value

mutual

def compact : Data → Text
  | .null => "null".toList
  | .bool true => "true".toList
  | .bool false => "false".toList
  | .number value => numberText value
  | .text value => quoted value.toList
  | .list items => '[' :: compactItems items ++ [']']
  | .record fields => '{' :: compactFields fields ++ ['}']

def compactItems : List Data → Text
  | [] => []
  | [item] => compact item
  | item :: rest => compact item ++ ',' :: compactItems rest

def compactFields : List (String × Data) → Text
  | [] => []
  | [(name, value)] => quoted name.toList ++ ':' :: compact value
  | (name, value) :: rest =>
      quoted name.toList ++ ':' :: compact value ++ ',' :: compactFields rest

end

def lineStart (level : Nat) : Text :=
  '\n' :: List.replicate (2 * level) ' '

mutual

/-- Indented text, one item or field a line; an empty list or record stays on its line. -/
def indented (level : Nat) : Data → Text
  | .list [] => "[]".toList
  | .list items => '[' :: indentedItems (level + 1) items ++ lineStart level ++ [']']
  | .record [] => ['{', '}']
  | .record fields => '{' :: indentedFields (level + 1) fields ++ lineStart level ++ ['}']
  | .null => "null".toList
  | .bool true => "true".toList
  | .bool false => "false".toList
  | .number value => numberText value
  | .text value => quoted value.toList

def indentedItems (level : Nat) : List Data → Text
  | [] => []
  | [item] => lineStart level ++ indented level item
  | item :: rest => lineStart level ++ indented level item ++ ',' :: indentedItems level rest

def indentedFields (level : Nat) : List (String × Data) → Text
  | [] => []
  | [(name, value)] => lineStart level ++ quoted name.toList ++ ": ".toList ++ indented level value
  | (name, value) :: rest =>
      lineStart level ++ quoted name.toList ++ ": ".toList ++ indented level value ++
        ',' :: indentedFields level rest

end

end PageScript.Json
