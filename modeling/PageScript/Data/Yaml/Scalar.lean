import PageScript.Data.Json.Parser
import PageScript.Data.Yaml.Cursor

/-! Scalars of YAML: plain, quoted and in blocks. -/

namespace PageScript.Yaml

/-- White space met inside a scalar: on one line, or with line ends, of which the first is kept apart. -/
inductive Spacing where
  | onLine (gap : Text)
  | broken (first : Char) (others : Text)

namespace Spacing

def empty : Spacing := .onLine []

def isBroken : Spacing → Bool
  | .onLine _ => false
  | .broken _ _ => true

def isEmpty : Spacing → Bool
  | .onLine [] => true
  | _ => false

def add (spacing : Spacing) (c : Char) : Spacing :=
  match spacing with
  | .onLine gap => if isBreak c then .broken c [] else .onLine (gap ++ [c])
  | .broken first others => if isBreak c then .broken first (others ++ [c]) else spacing

/-- What the white space folds to: one line end to a space, more to the others. -/
def folded : Spacing → Text
  | .onLine gap => gap
  | .broken '\n' [] => [' ']
  | .broken '\n' others => others
  | .broken first others => first :: others

end Spacing

/-- A plain scalar, which may run over several lines that are indented enough. The white space after
it is taken too; the last value says whether a line ended there. -/
def plainFrom (inFlow : Bool) (indent : Int) :
    Nat → Text → Spacing → Cursor → Option (Text × Cursor × Bool)
  | 0, _, _, _ => none
  | fuel + 1, done, spacing, cursor =>
      let stop := some (done, cursor, spacing.isBroken)
      match cursor.rest with
      | [] => stop
      | c :: rest =>
          if isSpacing c then
            if spacing.isBroken && (cursor.column : Int) < indent && c == '\t' then none
            else plainFrom inFlow indent fuel done (spacing.add c) cursor.skip
          else
            let resumed := ! spacing.isEmpty
            if resumed && ! inFlow && (cursor.column : Int) < indent then stop
            else if (resumed || done.isEmpty) && (cursor.atDocumentMark || c == '#') then stop
            else if inFlow && c == ':' && (rest.head?.map ",?[]\x7b\x7d".toList.contains).getD false
            then none
            else if (c == ':' && atSpacing rest) || (inFlow && ",[]\x7b\x7d".toList.contains c)
            then stop
            else plainFrom inFlow indent fuel (done ++ spacing.folded ++ [c]) .empty cursor.skip

def shortEscapes : List (Char × Char) :=
  [('0', '\x00'), ('a', '\x07'), ('b', '\x08'), ('t', '\t'), ('\t', '\t'), ('n', '\n'), ('v', '\x0b'),
   ('f', '\x0c'), ('r', '\r'), ('e', '\x1b'), (' ', ' '), ('\x22', '\x22'), ('/', '/'), ('\\', '\\'),
   ('N', '\x85'), ('_', '\xa0'), ('L', '\u2028'), ('P', '\u2029')]

def escapeWidth? (c : Char) : Option Nat :=
  if c = 'x' then some 2 else if c = 'u' then some 4 else if c = 'U' then some 8 else none

def hexChar? (digits : Text) : Option Char := do
  let code ← digits.foldlM (fun code digit => do return code * 16 + (← Json.hexDigit? digit)) 0
  if code.isValidChar then some (Char.ofNat code) else none

def escape? (text : Text) : Option (Char × Nat) :=
  match text with
  | [] => none
  | c :: rest =>
      match escapeWidth? c with
      | some width => do
          if (rest.take width).length < width then none
          let value ← hexChar? (rest.take width)
          return (value, width + 1)
      | none => (shortEscapes.lookup c).map fun value => (value, 1)

/-- A quoted scalar after its opening quote, folded like a plain one. Within double quotes a backslash
escapes; within single quotes a doubled quote is one. -/
def quotedFrom (double : Bool) : Nat → Text → Spacing → Cursor → Option (Text × Cursor)
  | 0, _, _, _ => none
  | fuel + 1, done, spacing, cursor =>
      let quote := if double then '\x22' else '\x27'
      match cursor.rest with
      | [] => none
      | c :: rest =>
          if cursor.atDocumentMark then none
          else if isSpacing c then quotedFrom double fuel done (spacing.add c) cursor.skip
          else
            let done := done ++ spacing.folded
            if ! double && c == quote && rest.head? == some quote then
              quotedFrom double fuel (done ++ [c]) .empty cursor.skip.skip
            else if c == quote then some (done, cursor.skip)
            else if double && c == '\\' then
              match rest with
              | b :: _ =>
                  if isBreak b then
                    let cursor := cursor.skip.skip.skipWhile isGap
                    let breaks := cursor.rest.takeWhile isSpacing
                    let cursor := cursor.skipMany breaks.length
                    quotedFrom double fuel (done ++ breaks.filter isBreak) .empty cursor
                  else
                    match escape? rest with
                    | some (value, width) =>
                        quotedFrom double fuel (done ++ [value]) .empty
                          (cursor.skipMany (width + 1))
                    | none => none
              | [] => none
            else quotedFrom double fuel (done ++ [c]) .empty cursor.skip

inductive Chomping where
  | strip
  | clip
  | keep
  deriving DecidableEq

/-- The header of a block scalar after its mark: chomping, an explicit indentation, and the place after
the line. -/
def blockHeader (cursor : Cursor) : Option (Chomping × Option Nat × Cursor) := do
  let chompingOf (c : Char) : Option Chomping :=
    if c = '+' then some .keep else if c = '-' then some .strip else none
  let indentOf (c : Char) : Option Nat :=
    if '1' ≤ c ∧ c ≤ '9' then some (c.toNat - '0'.toNat) else none
  let first := cursor.next?
  let (chomping, indent, cursor) : Option Chomping × Option Nat × Cursor :=
    match first.bind chompingOf, first.bind indentOf with
    | some chomping, _ =>
        match cursor.skip.next?.bind indentOf with
        | some indent => (some chomping, some indent, cursor.skip.skip)
        | none => (some chomping, none, cursor.skip)
    | none, some indent =>
        match cursor.skip.next?.bind chompingOf with
        | some chomping => (some chomping, some indent, cursor.skip.skip)
        | none => (none, some indent, cursor.skip)
    | none, none => (none, none, cursor)
  let cursor := cursor.skipWhile isGap
  let cursor :=
    if cursor.next? = some '#' then cursor.skipWhile (! isBreak ·) else cursor
  match cursor.next? with
  | some c => if isBreak c then pure () else none
  | none => pure ()
  return (chomping.getD .clip, indent, cursor.skip)

/-- The empty lines before the next content of a block scalar, and the indentation of the content,
which the deepest of these lines fixes when it is not known. A tab among the indentation is refused. -/
def blockBreaks (indent : Option Nat) : Nat → Text → Nat → Cursor → Option (Text × Nat × Cursor)
  | 0, _, _, _ => none
  | fuel + 1, breaks, deepest, cursor =>
      let room :=
        match indent with
        | some indent => indent - cursor.column
        | none => cursor.rest.length
      let count := min room (cursor.rest.takeWhile (· == ' ')).length
      let cursor := cursor.skipMany count
      let deepest := max deepest cursor.column
      let unfinished :=
        match indent with
        | some indent => cursor.column < indent
        | none => true
      match cursor.next? with
      | some c =>
          if unfinished && c == '\t' then none
          else if isBreak c then blockBreaks indent fuel (breaks ++ [c]) deepest cursor.skip
          else some (breaks, deepest, cursor)
      | none => some (breaks, deepest, cursor)

/-- The lines of a block scalar. `lead` is the line end before the next line, `blank` says whether the
line before started with white space. -/
def blockLines (literal : Bool) (indent : Nat) :
    Nat → Text → Option Char → Text → Bool → Cursor → Option (Text × Option Char × Text × Cursor)
  | 0, _, _, _, _, _ => none
  | fuel + 1, done, lead, trailing, blank, cursor =>
      match cursor.next? with
      | none => some (done, lead, trailing, cursor)
      | some c =>
          if cursor.column ≠ indent then some (done, lead, trailing, cursor)
          else
            let now := isGap c
            let joint : Text :=
              if ! literal && lead == some '\n' && ! blank && ! now then
                if trailing.isEmpty then [' '] else []
              else lead.toList
            let line := cursor.rest.takeWhile (! isBreak ·)
            let done := done ++ joint ++ trailing ++ line
            let cursor := cursor.skipMany line.length
            let lead := cursor.next?
            match blockBreaks (some indent) (cursor.rest.length + 1) [] 0 cursor.skip with
            | none => none
            | some (trailing, _, cursor) =>
                blockLines literal indent fuel done lead trailing now cursor

def blockScalar (literal : Bool) (outer : Int) (cursor : Cursor) : Option (Text × Cursor) := do
  let (chomping, explicit, cursor) ← blockHeader cursor
  let known := explicit.map fun extra => (max outer 0).toNat + extra
  let (breaks, deepest, cursor) ← blockBreaks known (cursor.rest.length + 1) [] 0 cursor
  let indent := known.getD (max (max deepest (outer + 1).toNat) 1)
  let (text, lead, trailing, cursor) ←
    blockLines literal indent (cursor.rest.length + 1) [] none breaks false cursor
  let ending : Text :=
    match chomping with
    | .strip => []
    | .clip => lead.toList
    | .keep => lead.toList ++ trailing
  return (text ++ ending, cursor)

def isPaddedDigits (text : Text) : Bool :=
  let unsigned :=
    match text with
    | '-' :: rest | '+' :: rest => rest
    | rest => rest
  match unsigned with
  | '0' :: d :: rest => (d :: rest).all Char.isDigit
  | _ => false

def digitsIn? (base : Nat) (digits : Text) : Option Nat :=
  if digits.isEmpty then none
  else
    digits.foldlM
      (fun value digit => do
        let d ← Json.hexDigit? digit
        if d < base then some (value * base + d) else none)
      0

def wholeNumber? (text : Text) : Option Int :=
  let (negative, unsigned) : Bool × Text :=
    match text with
    | '-' :: rest => (true, rest)
    | '+' :: rest => (false, rest)
    | rest => (false, rest)
  let magnitude : Option Nat :=
    match unsigned with
    | '0' :: 'x' :: digits => digitsIn? 16 digits
    | '0' :: 'o' :: digits => digitsIn? 8 digits
    | '0' :: 'b' :: digits => digitsIn? 2 digits
    | digits => if isPaddedDigits text then none else digitsIn? 10 digits
  magnitude.map fun value => if negative then -(value : Int) else (value : Int)

def double? (text : Text) : Option Double := do
  let (negative, unsigned) : Bool × Text :=
    match text with
    | '-' :: rest => (true, rest)
    | '+' :: rest => (false, rest)
    | rest => (false, rest)
  let (whole, rest) := Text.run Char.isDigit unsigned
  let (fraction, rest) : Text × Text :=
    match rest with
    | '.' :: rest => Text.run Char.isDigit rest
    | rest => ([], rest)
  if whole.isEmpty ∧ fraction.isEmpty then none
  let (lower, exponent, rest) ← Json.exponentPart? rest
  if ! rest.isEmpty then none
  let power : Int := Json.digitsValue exponent
  let scale := (if lower then -power else power) - fraction.length
  let value := Double.ofDecimal negative (Json.digitsValue (whole ++ fraction)) scale
  if value.isFinite then some value else none

def isNull (text : String) : Bool :=
  ["", "~", "null", "Null", "NULL"].contains text

/-- What a plain scalar stands for. A whole number has at most 64 bits; one of up to 128 bits is
refused, and a longer one is a double. -/
def plainValue? (text : String) : Option Data :=
  let chars := text.toList
  if isNull text then some .null
  else if ["true", "True", "TRUE"].contains text then some (.bool true)
  else if ["false", "False", "FALSE"].contains text then some (.bool false)
  else
    let decimal : Option Data :=
      if isPaddedDigits chars then some (.text text)
      else if [".inf", ".Inf", ".INF", "+.inf", "+.Inf", "+.INF", "-.inf", "-.Inf", "-.INF", ".nan",
          ".NaN", ".NAN"].contains text then some .null
      else
        match double? chars with
        | some value => some (.number (.double value))
        | none => some (.text text)
    match wholeNumber? chars with
    | none => decimal
    | some value =>
        if -(Int.pow 2 63) ≤ value ∧ value < Int.pow 2 64 then some (.number (.int value))
        else if -(Int.pow 2 127) ≤ value ∧ value < Int.pow 2 128 then none
        else decimal

end PageScript.Yaml
