import PageScript.Template.Line

/-! Reading a template. Lines deeper than a raw HTML line belong to it. -/

namespace PageScript.Template

structure SourceLine where
  number : Nat
  text : Text

def sourceLines (offset : Nat) (text : Text) : List SourceLine :=
  ((Text.lines text).zipIdx.filter fun (line, _) => ! Text.allBlank line).map fun (line, index) =>
    { number := offset + index + 1, text := Text.trimEnd line }

def indentOf (line : Text) : Nat :=
  Text.byteLength (line.takeWhile isBlank)

structure Reading where
  unit : Option Nat := none
  opened : List Node := []
  roots : List Node := []
  /-- Depth and indentation of the raw HTML line that deeper lines belong to. -/
  html : Option (Nat × Nat) := none
  last : Option Nat := none

def Node.addChild (parent : Node) : Option Node → Node
  | some child => { parent with children := parent.children ++ [child] }
  | none => parent

/-- Closes the innermost nodes down to a depth. The node closed last is still to be given to the next
one, or becomes a root. -/
def closeFrom (depth : Nat) : Option Node → List Node → List Node → List Node × List Node
  | closed, [], roots => ([], closed.toList ++ roots)
  | closed, node :: outer, roots =>
      if depth ≤ node.depth then closeFrom depth (some (node.addChild closed)) outer roots
      else (node.addChild closed :: outer, roots)

def closeTo (depth : Nat) (opened roots : List Node) : List Node × List Node :=
  closeFrom depth none opened roots

/-- The depth of an indentation beyond the base, with the unit it is measured in. -/
def depthOf (unit : Option Nat) (beyond : Nat) : Except Cause (Nat × Option Nat) :=
  if beyond = 0 then .ok (0, unit)
  else
    let shift := unit.getD beyond
    if beyond % shift = 0 then .ok (beyond / shift, some shift)
    else .error (.notMultiple beyond shift)

def acceptsChild (parent : Node) : Except Cause Unit :=
  match parent.kind with
  | .widget _ => if parent.html.isEmpty then .ok () else .error .htmlBesideWidgets
  | .block name true => .error (.childrenOfLink (String.ofList name))
  | _ => .ok ()

def acceptsHtml (owner : Node) : Except Cause Unit :=
  match owner.kind with
  | .widget _ => if owner.children.isEmpty then .ok () else .error .htmlBesideWidgets
  | .block _ _ => .error .htmlInBlock
  | .control _ => .ok ()

def lineViolation (file : String) (line : SourceLine) (context : Text) (cause : Cause) : Violation :=
  { cause, file, line := line.number, context := some (String.ofList context) }

def Reading.measure (base : Nat) (reading : Reading) (raw : Text) : Except Cause (Nat × Option Nat) :=
  if indentOf raw < base then .error .belowBase
  else depthOf reading.unit (indentOf raw - base)

/-- The reader after a line that is part of the raw HTML above it, when it is deeper than that. -/
def Reading.swallow? (reading : Reading) (depth : Nat) (raw : Text) : Option Reading :=
  match reading.html, reading.opened with
  | some (htmlDepth, htmlIndent), owner :: outer =>
      if htmlDepth < depth then
        let kept := (Text.dropBytes? htmlIndent raw).getD (Text.trimStart raw)
        some { reading with opened := { owner with html := owner.html ++ [kept] } :: outer }
      else none
  | _, _ => none

def Reading.allowed (reading : Reading) : Nat :=
  (reading.last.map (· + 1)).getD 0

/-- The reader after a line of its own: a node of a kind, or a first line of raw HTML. -/
def Reading.place (reading : Reading) (depth : Nat) (line : SourceLine) :
    Option Kind → Except Cause Reading
  | some kind =>
      let (opened, roots) := closeTo depth reading.opened reading.roots
      let placed : Reading :=
        { unit := reading.unit, opened := Node.leaf kind depth line.number :: opened, roots,
          last := some depth }
      match opened with
      | [] => .ok placed
      | parent :: _ => (acceptsChild parent).map fun _ => placed
  | none =>
      match closeTo depth reading.opened reading.roots with
      | ([], _) => .error .htmlOutside
      | (owner :: outer, roots) =>
          (acceptsHtml owner).map fun _ =>
            { unit := reading.unit,
              opened := { owner with html := owner.html ++ [Text.trim line.text] } :: outer, roots,
              html := some (depth, indentOf line.text), last := some depth }

def Reading.step (registry : Registry) (file : String) (base : Nat) (reading : Reading)
    (line : SourceLine) : Except Violation Reading := do
  let raw := line.text
  let (depth, unit) ← (reading.measure base raw).mapError (lineViolation file line raw)
  let reading := { reading with unit }
  match reading.swallow? depth raw with
  | some swallowed => return swallowed
  | none =>
      if reading.allowed < depth then
        throw (lineViolation file line raw (.tooDeep depth reading.allowed))
      else
        let content := Text.trim raw
        let kind ← (lineKind registry depth content).mapError (lineViolation file line content)
        (reading.place depth line kind).mapError (lineViolation file line raw)

/-- The forest of a template. Line numbers count from `offset`. -/
def read (registry : Registry) (file : String) (offset : Nat) (text : Text) :
    Except Violation (List Node) := do
  let lines := sourceLines offset text
  match lines with
  | [] => return []
  | first :: _ =>
      let reading ← lines.foldlM (Reading.step registry file (indentOf first.text)) {}
      return (closeTo 0 reading.opened reading.roots).2.reverse

end PageScript.Template
