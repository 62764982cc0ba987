import PageScript.Data.Json.Printer
import PageScript.Template.Line

/-!
The script of a template. Widgets are created in the order of their lines and numbered from 0.
-/

namespace PageScript.Template

/-- The upper bound after ` to `. It reaches the end of the text and holds no line end. -/
def upperBound? (text : Text) : Option Text := do
  let rest ← Text.blanks1 text
  let rest ← Text.expect "to" rest
  let _ ← Text.blanks1 rest
  match Text.blanks rest with
  | [] =>
      match rest.reverse with
      | c :: _ :: _ => if c = '\n' then none else some [c]
      | _ => none
  | bound => if bound.contains '\n' then none else some bound

/-- The shortest nonempty start of a line after which an upper bound stands. -/
def lowerBound? : Text → Option (Text × Text)
  | [] => none
  | c :: rest =>
      if c = '\n' then none
      else
        match upperBound? rest with
        | some upper => some ([c], upper)
        | none => (lowerBound? rest).map fun (lower, upper) => (c :: lower, upper)

/-- The suffixes of a text, shortest first, without the text itself. -/
def properSuffixes : Text → List Text
  | [] => []
  | _ :: rest => properSuffixes rest ++ [rest]

def range? (text : Text) : Option (Text × Text × Text) := do
  let (name, rest) ← Text.name text
  let rest ← Text.blanks1 rest
  let rest ← Text.expect "from" rest
  let (gap, rest) ← Text.run1? isBlank rest
  let (lower, upper) ← (properSuffixes gap).findSome? fun left => lowerBound? (left ++ rest)
  return (name, lower, upper)

def count? (text : Text) : Option (Text × Text) := do
  let (name, rest) ← Text.name text
  let upper ← upperBound? rest
  return (name, upper)

def loopHead (range : Text) : Text :=
  let opening := "for (let ".toList
  match range? range with
  | some (name, lower, upper) =>
      opening ++ name ++ " = ".toList ++ Text.trim lower ++ "; ".toList ++ name ++ " <= ".toList ++
        Text.trim upper ++ "; ".toList ++ name ++ "++) \x7b\n".toList
  | none =>
      match count? range with
      | some (name, upper) =>
          opening ++ name ++ " = 0; ".toList ++ name ++ " < ".toList ++ Text.trim upper ++
            "; ".toList ++ name ++ "++) \x7b\n".toList
      | none => "for (".toList ++ range ++ ") \x7b\n".toList

def geometryText (value : Text) : Text :=
  if isPlainNumber value then value else Json.quoted value

def bracketList (items : List Text) : Text :=
  '[' :: Text.join [','] items ++ [']']

/-- What a template is emitted with: the file it is in, the name that collects its widgets, and the
blocks it defines. -/
structure Emission where
  file : String
  output : Option Text := none
  blocks : List Text := []

def Emission.violation (emission : Emission) (line : Nat) (cause : Cause) : Violation :=
  { cause, file := emission.file, line }

def widgetVariable (number : Nat) : Text :=
  "__w".toList ++ Nat.toDigits 10 number

def labelled (label : String) : Option Text → List Text
  | some value => [label.toList ++ value]
  | none => []

def settings (parent : Option Text) (widget : Widget) (html : List Text) : List Text :=
  labelled "parent:" parent ++
  labelled "key:" (widget.key.map Json.quoted) ++
  (if widget.css.isEmpty then []
    else labelled "css:" (some (bracketList (widget.css.map Json.quoted)))) ++
  (match widget.geometry with
    | some values => labelled "geom:" (some (bracketList (values.map geometryText)))
    | none => if widget.volumetric then ["geom:true".toList] else []) ++
  labelled "field:" (widget.field.map Json.quoted) ++
  labelled "matrix:" (widget.matrix.map Json.quoted) ++
  labelled "text:" (widget.text.map Json.quoted) ++
  labelled "data:" widget.data ++
  labelled "" (widget.config.filter (! ·.isEmpty)) ++
  (if html.isEmpty then [] else labelled "html:" (some (Json.quoted (Text.join ['\n'] html))))

/-- The statements that create a widget: its constructor, its method calls, and its entry in the
collected output. -/
def creation (emission : Emission) (name : Text) (parent : Option Text) (widget : Widget)
    (html : List Text) : Text :=
  "const ".toList ++ name ++ " = new ".toList ++ widget.constructor ++ "(\x7b".toList ++
    Text.join ", ".toList (settings parent widget html) ++ "\x7d);\n".toList ++
    (widget.calls.flatMap fun call =>
      name ++ ['.'] ++ call.name ++ ['('] ++ call.args ++ ");\n".toList) ++
    (match emission.output, widget.key.or widget.field with
      | some _, some key => "_out(".toList ++ Json.quoted key ++ ", ".toList ++ name ++ ");\n".toList
      | _, _ => [])

def controlHead : Control → Text
  | .whenTrue condition => "if (".toList ++ condition ++ ") \x7b\n".toList
  | .elseWhen condition => "else if (".toList ++ condition ++ ") \x7b\n".toList
  | .otherwise => "else \x7b\n".toList
  | .loop range => loopHead range

def Kind.followsCondition : Kind → Bool
  | .control (.elseWhen _) | .control .otherwise => true
  | _ => false

def Kind.isCondition : Kind → Bool
  | .control (.whenTrue _) | .control (.elseWhen _) => true
  | _ => false

mutual

/-- The script of a list of siblings. `branch` says whether the node before was a condition, `next`
is the number of the next widget, and `top` holds outside every widget. -/
def siblings (emission : Emission) (parent : Option Text) (top branch : Bool) (next : Nat) :
    List Node → Except Violation (Text × Nat)
  | [] => .ok ([], next)
  | node :: rest =>
      if node.kind.followsCondition && ! branch then
        .error (emission.violation node.line .strayElse)
      else do
        let (code, next) ← single emission parent top next node
        let (others, next) ← siblings emission parent top node.kind.isCondition next rest
        return (code ++ others, next)

def single (emission : Emission) (parent : Option Text) (top : Bool) (next : Nat) :
    Node → Except Violation (Text × Nat)
  | ⟨.widget widget, _, line, children, html⟩ => do
      let name := widgetVariable next
      let created := creation emission name parent widget html
      if widget.isMatrix then
        let (item, next) ← matrixItem emission line children.length (next + 1) children
        return (created ++ name ++ ".setItemRender((__item) => \x7b\n".toList ++ item ++
          "\x7d);\n".toList, next)
      else if children.isEmpty then return (created, next + 1)
      else if top then
        let (code, next) ← siblings emission none false false (next + 1) children
        return (created ++ name ++ ".begin();\n".toList ++ code ++ name ++ ".end();\n".toList, next)
      else
        let (code, next) ← siblings emission (some name) false false (next + 1) children
        return (created ++ code, next)
  | ⟨.control control, _, _, children, html⟩ => do
      let (code, next) ← siblings emission parent top false next children
      let inserted : Text :=
        if html.isEmpty then []
        else
          parent.getD "lx".toList ++ ".insertHtml(".toList ++
            Json.quoted (Text.join ['\n'] html) ++ ");\n".toList
      return (controlHead control ++ code ++ inserted ++ "\x7d\n".toList, next)
  | ⟨.block name _, _, line, children, _⟩ =>
      if ! emission.blocks.contains name then
        .error (emission.violation line (.undefinedBlock (String.ofList name)))
      else if ! children.isEmpty then
        .error (emission.violation line (.linkWithChildren (String.ofList name)))
      else
        .ok ("__lxBlock_".toList ++ name ++ ['('] ++ parent.getD "null".toList ++ ");\n".toList, next)

/-- The script of the one widget that a matrix renders for each item. -/
def matrixItem (emission : Emission) (line count next : Nat) :
    List Node → Except Violation (Text × Nat)
  | [child] =>
      if child.isWidget then single emission (some "__item".toList) false next child
      else .error (emission.violation line (.matrixChildren count))
  | _ => .error (emission.violation line (.matrixChildren count))

end

def definedBlocks (emission : Emission) : List Text → List Node → Except Violation (List Text)
  | names, [] => .ok names
  | names, node :: rest =>
      match node.kind with
      | .block name false =>
          if names.contains name then
            .error (emission.violation node.line (.blockTwice (String.ofList name)))
          else definedBlocks emission (name :: names) rest
      | _ => definedBlocks emission names rest

def blockFunctions (emission : Emission) (next : Nat) : List Node → Except Violation (Text × Nat)
  | [] => .ok ([], next)
  | node :: rest =>
      match node.kind with
      | .block name false => do
          let (body, next) ← siblings emission (some "__parent".toList) false false next node.children
          let (others, next) ← blockFunctions emission next rest
          return ("function __lxBlock_".toList ++ name ++ "(__parent) \x7b\n".toList ++ body ++
            "\x7d\n".toList ++ others, next)
      | _ => blockFunctions emission next rest

/-- The script that creates a template's widgets. With an output name, that name gets the widgets that
have a key or a field. -/
def emit (file : String) (output : Option Text) (roots : List Node) : Except Violation Text := do
  let blank : Emission := { file, output }
  let blocks ← definedBlocks blank [] roots
  let emission := { blank with blocks }
  let (functions, next) ← blockFunctions emission 0 roots
  let (code, _) ← siblings emission none true false next (roots.filter (! ·.isDefinition))
  let body := functions ++ code
  match output with
  | some name =>
      return "const ".toList ++ name ++
        " = (function()\x7b\nconst __out = \x7b\x7d;\nfunction _out(k, w) \x7b __out[k] = w; \x7d\n".toList ++
        body ++ "return __out;\n\x7d)();".toList
  | none => return "(function()\x7b\n".toList ++ body ++ "\x7d)();".toList

end PageScript.Template
