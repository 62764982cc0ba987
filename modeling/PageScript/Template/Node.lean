import PageScript.Text.Basic

/-! Nodes of a template, and the widgets that tags stand for. -/

namespace PageScript.Template

structure Call where
  name : Text
  args : Text
  deriving DecidableEq, Repr

structure Widget where
  tag : Text
  constructor : Text
  key : Option Text := none
  css : List Text := []
  geometry : Option (List Text) := none
  volumetric : Bool := false
  field : Option Text := none
  matrix : Option Text := none
  config : Option Text := none
  calls : List Call := []
  data : Option Text := none
  text : Option Text := none
  deriving DecidableEq, Repr

/-- A matrix renders its child once for each item: by its tag, or because it is bound to one. -/
def Widget.isMatrix (widget : Widget) : Bool :=
  widget.tag == "Matrix".toList || widget.matrix.isSome

inductive Control where
  | whenTrue (condition : Text)
  | elseWhen (condition : Text)
  | otherwise
  | loop (range : Text)
  deriving DecidableEq, Repr

inductive Kind where
  | widget (widget : Widget)
  | control (control : Control)
  | block (name : Text) (link : Bool)
  deriving DecidableEq, Repr

structure Node where
  kind : Kind
  depth : Nat
  line : Nat
  children : List Node
  html : List Text

namespace Node

def leaf (kind : Kind) (depth line : Nat) : Node :=
  { kind, depth, line, children := [], html := [] }

instance : Inhabited Node := ⟨leaf (.control .otherwise) 0 0⟩

def isWidget (node : Node) : Bool :=
  match node.kind with
  | .widget _ => true
  | _ => false

def isDefinition (node : Node) : Bool :=
  match node.kind with
  | .block _ false => true
  | _ => false

end Node

/-- Which constructor a tag stands for; later registrations come first. -/
structure Registry where
  tags : List (String × String)

namespace Registry

def empty : Registry := ⟨[]⟩

def builtin : Registry :=
  ⟨["Box", "Rect", "TextBox", "Input", "Textarea", "Button", "Checkbox", "Radio", "Image", "Link",
    "Scroll", "Dropbox", "Table", "Matrix"].map fun tag => (tag, "lx." ++ tag)⟩

def register (registry : Registry) (tag constructor : String) : Registry :=
  ⟨(tag, constructor) :: registry.tags⟩

def extend (registry : Registry) (tags : List (String × String)) : Registry :=
  tags.foldl (fun registry (tag, constructor) => registry.register tag constructor) registry

def constructor? (registry : Registry) (tag : String) : Option String :=
  registry.tags.lookup tag

end Registry

end PageScript.Template
