import PageScript.Text.Basic

/-! A place in a YAML text. -/

namespace PageScript.Yaml

def unifyLineEnds : Text → Text
  | '\r' :: '\n' :: rest => '\n' :: unifyLineEnds rest
  | '\r' :: rest => '\n' :: unifyLineEnds rest
  | '\x85' :: rest => '\n' :: unifyLineEnds rest
  | c :: rest => c :: unifyLineEnds rest
  | [] => []

def isAllowed (c : Char) : Bool :=
  let code := c.toNat
  code == 0x9 || code == 0xa || code == 0xd || (0x20 ≤ code && code ≤ 0x7e) || code == 0x85 ||
    (0xa0 ≤ code && code ≤ 0xfffd) || 0x10000 ≤ code

def isBreak (c : Char) : Bool :=
  c == '\n' || c == '\u2028' || c == '\u2029'

def isGap (c : Char) : Bool :=
  c == ' ' || c == '\t'

def isSpacing (c : Char) : Bool :=
  isGap c || isBreak c

def atSpacing (text : Text) : Bool :=
  match text with
  | c :: _ => isSpacing c
  | [] => true

/-- A place in a text. A column counts characters, the index bytes. -/
structure Cursor where
  rest : Text
  line : Nat := 0
  column : Nat := 0
  index : Nat := 0

namespace Cursor

def next? (cursor : Cursor) : Option Char :=
  cursor.rest.head?

def skip (cursor : Cursor) : Cursor :=
  match cursor.rest with
  | [] => cursor
  | c :: rest =>
      if isBreak c then
        { rest, line := cursor.line + 1, column := 0, index := cursor.index + c.utf8Size }
      else { cursor with rest, column := cursor.column + 1, index := cursor.index + c.utf8Size }

def skipMany : Nat → Cursor → Cursor
  | 0, cursor => cursor
  | count + 1, cursor => skipMany count cursor.skip

def skipWhile (p : Char → Bool) (cursor : Cursor) : Cursor :=
  let taken := cursor.rest.takeWhile p
  { cursor with
    rest := cursor.rest.drop taken.length
    column := cursor.column + taken.length
    index := cursor.index + Text.byteLength taken }

/-- Whether the next character comes after given ones at the start of a line, as a mark of a
document. -/
def atDocumentMark (cursor : Cursor) : Bool :=
  cursor.column == 0 &&
    match cursor.rest with
    | '-' :: '-' :: '-' :: rest | '.' :: '.' :: '.' :: rest => atSpacing rest
    | _ => false

end Cursor

end PageScript.Yaml
