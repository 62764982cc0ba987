/-!
Texts as lists of characters. Every reported offset counts bytes of the UTF-8 form.
-/

namespace PageScript

abbrev Text := List Char

namespace Text

def byteLength (text : Text) : Nat :=
  text.foldr (fun c size => c.utf8Size + size) 0

@[simp] theorem byteLength_nil : byteLength [] = 0 := rfl

@[simp] theorem byteLength_cons (c : Char) (text : Text) :
    byteLength (c :: text) = c.utf8Size + byteLength text := rfl

@[simp] theorem byteLength_append (left right : Text) :
    byteLength (left ++ right) = byteLength left + byteLength right := by
  induction left with
  | nil => rw [List.nil_append, byteLength_nil, Nat.zero_add]
  | cons c rest ih => rw [List.cons_append, byteLength_cons, byteLength_cons, ih, Nat.add_assoc]

def utf8 (text : Text) : List UInt8 :=
  text.flatMap String.utf8EncodeChar

def dropBytes? : Nat → Text → Option Text
  | 0, text => some text
  | _ + 1, [] => none
  | bytes + 1, c :: rest =>
      if c.utf8Size ≤ bytes + 1 then dropBytes? (bytes + 1 - c.utf8Size) rest else none

def charsAt? (bytes : Nat) (text : Text) : Option Nat :=
  (dropBytes? bytes text).map fun rest => text.length - rest.length

def after? : Text → Text → Option Text
  | [], text => some text
  | _ :: _, [] => none
  | s :: start, c :: text => if s = c then after? start text else none

/-- The longest start of `text` made of `p` characters, and the rest. -/
def run (p : Char → Bool) (text : Text) : Text × Text :=
  (text.takeWhile p, text.dropWhile p)

def run1? (p : Char → Bool) (text : Text) : Option (Text × Text) :=
  match text.takeWhile p with
  | [] => none
  | c :: cs => some (c :: cs, text.dropWhile p)

def splitOn (sep : Char) : Text → List Text
  | [] => [[]]
  | c :: rest =>
      match splitOn sep rest with
      | [] => [[]]
      | part :: parts => if c = sep then [] :: part :: parts else (c :: part) :: parts

def join (sep : Text) : List Text → Text
  | [] => []
  | [last] => last
  | part :: rest => part ++ sep ++ join sep rest

def newlines (text : Text) : Nat :=
  text.count '\n'

def cutAt? (marker : Text) : Text → Option (Text × Text)
  | [] => (after? marker []).map fun rest => ([], rest)
  | c :: text =>
      match after? marker (c :: text) with
      | some rest => some ([], rest)
      | none => (cutAt? marker text).map fun (before, rest) => (c :: before, rest)

def includes (part text : Text) : Bool :=
  (cutAt? part text).isSome

/-- The lines of a text: a line ends at a line feed, which is not part of it, and a carriage return
right before that is not either. Nothing after the last line feed is no line. -/
def lines (text : Text) : List Text :=
  let parts := splitOn '\n' text
  let ended := parts.dropLast.map fun line =>
    match line.getLast? with
    | some '\r' => line.dropLast
    | _ => line
  match parts.getLast? with
  | some [] | none => ended
  | some last => ended ++ [last]

/-- The whole number that a text writes with an optional plus sign, if it fits 64 bits. -/
def wholeNumber? (text : Text) : Option Nat :=
  let digits :=
    match text with
    | '+' :: rest => rest
    | rest => rest
  if digits.isEmpty || ! digits.all Char.isDigit then none
  else
    let value := digits.foldl (fun value digit => value * 10 + (digit.toNat - '0'.toNat)) 0
    if value < Nat.pow 2 64 then some value else none

def asciiUpper (text : Text) : Text :=
  text.map Char.toUpper

def sameUpToCase (left right : Text) : Bool :=
  asciiUpper left == asciiUpper right

end Text

end PageScript
