import PageScript.Data.Yaml.Scalar

/-! The tokens of a YAML text, in which indentation opens and closes blocks. -/

namespace PageScript.Yaml

inductive Token where
  | documentStart
  | documentEnd
  | blockSequence
  | blockMapping
  | blockEnd
  | flowSequence
  | flowSequenceEnd
  | flowMapping
  | flowMappingEnd
  | blockEntry
  | flowEntry
  | key
  | value
  | alias (name : Text)
  | anchor (name : Text)
  | scalar (text : Text) (plain : Bool)
  deriving DecidableEq

/-- A place where a key may have started: its position among the tokens and in the text. A key that
the indentation demands must be completed. -/
structure PossibleKey where
  position : Nat
  demanded : Bool
  line : Nat
  column : Nat
  index : Nat

structure Scanner where
  cursor : Cursor
  tokens : List Token := []
  indent : Int := -1
  outer : List Int := []
  /-- The possible key of each flow collection, innermost first, and of the block around them. -/
  keys : List (Option PossibleKey) := [none]
  keyAllowed : Bool := true

namespace Scanner

def inFlow (scanner : Scanner) : Bool :=
  scanner.keys.length != 1

def push (scanner : Scanner) (token : Token) : Scanner :=
  { scanner with tokens := scanner.tokens ++ [token] }

def insertAt (scanner : Scanner) (position : Nat) (token : Token) : Scanner :=
  { scanner with
    tokens := scanner.tokens.take position ++ token :: scanner.tokens.drop position }

def take (scanner : Scanner) (count : Nat) (token : Token) : Scanner :=
  { scanner.push token with cursor := scanner.cursor.skipMany count }

def dropKey (scanner : Scanner) : Option Scanner :=
  match scanner.keys with
  | some key :: rest =>
      if key.demanded then none else some { scanner with keys := none :: rest }
  | _ => some scanner

def noteKey (scanner : Scanner) : Option Scanner :=
  if scanner.keyAllowed then do
    let cleared ← scanner.dropKey
    let cursor := scanner.cursor
    let key : PossibleKey := {
      position := scanner.tokens.length
      demanded := ! scanner.inFlow && scanner.indent == cursor.column
      line := cursor.line
      column := cursor.column
      index := cursor.index }
    return { cleared with keys := some key :: cleared.keys.drop 1 }
  else some scanner

def maxKey : Nat := 1024

def dropStale (scanner : Scanner) : Option Scanner := do
  let keys ← scanner.keys.mapM fun
    | none => some none
    | some key =>
        if key.line < scanner.cursor.line || key.index + maxKey < scanner.cursor.index then
          if key.demanded then none else some none
        else some (some key)
  return { scanner with keys }

def openBlock (scanner : Scanner) (column position : Nat) (token : Token) : Scanner :=
  if ! scanner.inFlow && scanner.indent < column then
    { scanner.insertAt position token with
      indent := column
      outer := scanner.indent :: scanner.outer }
  else scanner

def closable (column : Int) : Int → List Int → Nat × Int × List Int
  | indent, [] => (0, indent, [])
  | indent, next :: outer =>
      if column < indent then
        let (count, indent, outer) := closable column next outer
        (count + 1, indent, outer)
      else (0, indent, next :: outer)

def closeBlocks (scanner : Scanner) (column : Int) : Scanner :=
  if scanner.inFlow then scanner
  else
    let (count, indent, outer) := closable column scanner.indent scanner.outer
    { scanner with
      tokens := scanner.tokens ++ List.replicate count .blockEnd
      indent
      outer }

/-- Passes over white space and comments up to the next token. A tab does not count where a key may
start in a block; a byte order mark counts at the start of a line. -/
def skipSpacing : Nat → Scanner → Scanner
  | 0, scanner => scanner
  | fuel + 1, scanner =>
      let tabs := scanner.inFlow || ! scanner.keyAllowed
      let cursor := scanner.cursor
      let cursor :=
        if cursor.column = 0 ∧ cursor.next? = some '\ufeff' then cursor.skip else cursor
      let cursor := cursor.skipWhile fun c => c == ' ' || (tabs && c == '\t')
      let cursor := if cursor.next? = some '#' then cursor.skipWhile (! isBreak ·) else cursor
      match cursor.next? with
      | some c =>
          if isBreak c then
            skipSpacing fuel
              { scanner with cursor := cursor.skip, keyAllowed := scanner.keyAllowed || ! scanner.inFlow }
          else { scanner with cursor }
      | none => { scanner with cursor }

def blockEntry (scanner : Scanner) : Option Scanner := do
  if ! scanner.inFlow ∧ ! scanner.keyAllowed then none
  let opened := scanner.openBlock scanner.cursor.column scanner.tokens.length .blockSequence
  let cleared ← opened.dropKey
  return { cleared.take 1 .blockEntry with keyAllowed := true }

def explicitKey (scanner : Scanner) : Option Scanner := do
  if ! scanner.inFlow ∧ ! scanner.keyAllowed then none
  let opened := scanner.openBlock scanner.cursor.column scanner.tokens.length .blockMapping
  let cleared ← opened.dropKey
  return { cleared.take 1 .key with keyAllowed := ! scanner.inFlow }

/-- The colon before a value. The key before it, if one was possible, now becomes one. -/
def valueMark (scanner : Scanner) : Option Scanner :=
  match scanner.keys with
  | some key :: rest =>
      let keyed := scanner.insertAt key.position .key
      let opened := keyed.openBlock key.column key.position .blockMapping
      some { opened.take 1 .value with keys := none :: rest, keyAllowed := false }
  | _ => do
      if ! scanner.inFlow ∧ ! scanner.keyAllowed then none
      let opened := scanner.openBlock scanner.cursor.column scanner.tokens.length .blockMapping
      return { opened.take 1 .value with keyAllowed := ! scanner.inFlow }

def named (scanner : Scanner) (token : Text → Token) : Option Scanner := do
  let noted ← scanner.noteKey
  let cursor := scanner.cursor.skip
  let name := cursor.rest.takeWhile fun c => c.isAlphanum || c == '_' || c == '-'
  let after := cursor.rest.drop name.length
  if name.isEmpty then none
  if ! (atSpacing after || (after.head?.map "?:,]\x7d%@\x60".toList.contains).getD false) then none
  return { noted.push (token name) with cursor := cursor.skipMany name.length, keyAllowed := false }

def quoted (scanner : Scanner) (double : Bool) : Option Scanner := do
  let noted ← scanner.noteKey
  let cursor := scanner.cursor.skip
  let (text, cursor) ← quotedFrom double (cursor.rest.length + 1) [] .empty cursor
  return { noted.push (.scalar text false) with cursor, keyAllowed := false }

def block (scanner : Scanner) (literal : Bool) : Option Scanner := do
  let cleared ← scanner.dropKey
  let (text, cursor) ← blockScalar literal scanner.indent scanner.cursor.skip
  return { cleared.push (.scalar text false) with cursor, keyAllowed := true }

def plain (scanner : Scanner) : Option Scanner := do
  let noted ← scanner.noteKey
  let cursor := scanner.cursor
  let (text, cursor, broken) ←
    plainFrom scanner.inFlow (scanner.indent + 1) (cursor.rest.length + 1) [] .empty cursor
  return { noted.push (.scalar text true) with cursor, keyAllowed := broken }

def startsPlain (inFlow : Bool) (c : Char) (rest : Text) : Bool :=
  ! "-?:,[]\x7b\x7d#&*!|>\x27\x22%@\x60".toList.contains c ||
    (c == '-' && ! (rest.head?.map isGap).getD false) ||
    (! inFlow && (c == '?' || c == ':') && ! atSpacing rest)

def openFlow (scanner : Scanner) (token : Token) : Option Scanner := do
  let noted ← scanner.noteKey
  return { noted.take 1 token with keys := none :: noted.keys, keyAllowed := true }

def closeFlow (scanner : Scanner) (token : Token) : Option Scanner := do
  let cleared ← scanner.dropKey
  let keys := if cleared.inFlow then cleared.keys.drop 1 else cleared.keys
  return { cleared.take 1 token with keys, keyAllowed := false }

def documentMark (scanner : Scanner) (token : Token) : Option Scanner := do
  let cleared ← (scanner.closeBlocks (-1)).dropKey
  return { cleared.take 3 token with keyAllowed := false }

def token (scanner : Scanner) (c : Char) (rest : Text) : Option Scanner :=
  let spaced := scanner.inFlow || atSpacing rest
  if scanner.cursor.column = 0 ∧ c = '%' then none
  else if scanner.cursor.atDocumentMark then
    scanner.documentMark (if c = '-' then .documentStart else .documentEnd)
  else if c = '[' then scanner.openFlow .flowSequence
  else if c = '{' then scanner.openFlow .flowMapping
  else if c = ']' then scanner.closeFlow .flowSequenceEnd
  else if c = '}' then scanner.closeFlow .flowMappingEnd
  else if c = ',' then do
    let cleared ← scanner.dropKey
    return { cleared.take 1 .flowEntry with keyAllowed := true }
  else if c = '-' ∧ atSpacing rest then scanner.blockEntry
  else if c = '?' ∧ spaced then scanner.explicitKey
  else if c = ':' ∧ spaced then scanner.valueMark
  else if c = '*' then scanner.named .alias
  else if c = '&' then scanner.named .anchor
  else if c = '|' ∧ ! scanner.inFlow then scanner.block true
  else if c = '>' ∧ ! scanner.inFlow then scanner.block false
  else if c = '\x27' then scanner.quoted false
  else if c = '\x22' then scanner.quoted true
  else if ! isSpacing c && startsPlain scanner.inFlow c rest then scanner.plain
  else none

def run : Nat → Scanner → Option (List Token)
  | 0, _ => none
  | fuel + 1, scanner => do
      let scanner := skipSpacing (scanner.cursor.rest.length + 1) scanner
      let scanner ← scanner.dropStale
      match scanner.cursor.rest with
      | [] =>
          let closed ← (scanner.closeBlocks (-1)).dropKey
          return closed.tokens
      | c :: rest =>
          let next ← (scanner.closeBlocks scanner.cursor.column).token c rest
          run fuel next

end Scanner

def tokens? (text : Text) : Option (List Token) :=
  if text.all isAllowed then
    let unified := unifyLineEnds text
    Scanner.run (unified.length + 2) { cursor := { rest := unified } }
  else none

end PageScript.Yaml
