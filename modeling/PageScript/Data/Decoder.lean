import PageScript.Data.Yaml.Parser
import PageScript.Failure
import PageScript.Keyed

/-! Taking typed values from documents. -/

namespace PageScript

inductive Format where
  | json
  | yaml
  deriving DecidableEq, Repr

namespace Format

def failure : Format → Failure
  | .json => .malformedJson
  | .yaml => .malformedYaml

end Format

structure Source where
  format : Format
  root : Document
  depth : Nat
  /-- The parts that aliases stand for; the first with a number counts. -/
  anchors : List (Nat × Document) := []
  hops : Nat := 0

/-- Taking a value from a document, which may fail. The state is how many more aliases may be
followed. -/
abbrev Decoding (α : Type) := ReaderT Source (StateT Nat Option) α

structure Part where
  document : Document
  depth : Nat

abbrev Decoder (α : Type) := Part → Decoding α

namespace Document

def followed : Document → Decoding Document
  | .alias anchor => do
      match ← get, (← read).anchors.lookup anchor with
      | left + 1, some target =>
          set left
          return target
      | _, _ => failure
  | document => return document

def text (document : Document) : Decoding String := do
  match ← document.followed with
  | .scalar { text := some text, .. } => return text
  | _ => failure

def dataWithin : Nat → Document → Decoding Data
  | 0, document => do
      match ← document.followed with
      | .scalar { value := some value, .. } => return value
      | _ => failure
  | depth + 1, document => do
      match ← document.followed with
      | .scalar { value := some value, .. } => return value
      | .list items => return .list (← items.mapM (dataWithin depth))
      | .record fields =>
          return .record (← fields.mapM fun (key, value) => do
            return (← key.text, ← dataWithin depth value))
      | _ => failure

end Document

/-- A part of a document as far as it matters where one of several forms may be written. -/
inductive Content where
  | null
  | text (value : String)
  /-- A whole number that is written without a sign that makes it negative. -/
  | whole (value : Nat)
  | record (fields : List (Content × Content))
  | other
  deriving Inhabited

namespace Content

def ofScalar? (scalar : Scalar) : Option Content :=
  match scalar.value with
  | none => none
  | some (.text value) => some (.text value)
  | some (.number (.int (.ofNat value))) =>
      some (if (scalar.text.map (·.startsWith "-")).getD false then .other else .whole value)
  | some _ => some (if scalar.isNull then .null else .other)

def ofScalar (scalar : Scalar) : Decoding Content :=
  match ofScalar? scalar with
  | some content => return content
  | none => failure

def within : Nat → Document → Decoding Content
  | 0, document => do
      match ← document.followed with
      | .scalar scalar => ofScalar scalar
      | _ => failure
  | depth + 1, document => do
      match ← document.followed with
      | .scalar scalar => ofScalar scalar
      | .list items => do
          let _ ← items.mapM (within depth)
          return .other
      | .record fields =>
          return .record (← fields.mapM fun (key, value) => do
            return (← within depth key, ← within depth value))
      | .alias _ => failure

def text? : Content → Option String
  | .text value => some value
  | _ => none

def optionalText? : Content → Option (Option String)
  | .null => some none
  | .text value => some (some value)
  | _ => none

/-- The field of a form that a key names, if it names one of them: by its name, or as a whole number by
its place. Other contents are no keys. -/
def field? (names : List String) : Content → Option (Option String)
  | .text name => some (names.find? (· == name))
  | .whole place => some names[place]?
  | _ => none

/-- The fields of a form, each given at most once. -/
def form? (names : List String) : Content → Option (List (String × Content))
  | .record fields => do
      let named ← fields.mapM fun (key, value) => do
        return (← field? names key).map fun name => (name, value)
      let known := named.filterMap id
      if (known.map (·.1)).Nodup then some known else none
  | _ => none

end Content

namespace Part

def followed (part : Part) : Decoding Part := do
  return { part with document := ← part.document.followed }

def inner (part : Part) : Decoding (Document → Part) :=
  match part.depth with
  | 0 => failure
  | depth + 1 => return fun document => ⟨document, depth⟩

def text (part : Part) : Decoding String :=
  part.document.text

def bool (part : Part) : Decoding Bool := do
  match ← part.document.followed with
  | .scalar { value := some (.bool value), .. } => return value
  | _ => failure

def data (part : Part) : Decoding Data :=
  part.document.dataWithin part.depth

def sortedData (part : Part) : Decoding Data := do
  return (← part.data).sorted

def content (part : Part) : Decoding Content :=
  Content.within part.depth part.document

def isNull (part : Part) : Bool :=
  match part.document with
  | .scalar scalar => scalar.isNull
  | _ => false

def optional {α : Type} (decode : Decoder α) (part : Part) : Decoding (Option α) := do
  let part ← part.followed
  if part.isNull then return none else return some (← decode part)

def list {α : Type} (decode : Decoder α) (part : Part) : Decoding (List α) := do
  match ← part.document.followed with
  | .list items => do
      let inner ← part.inner
      items.mapM fun item => decode (inner item)
  | .scalar { isBlank := true, .. } => return []
  | _ => failure

def keyed {α : Type} (decode : Decoder α) (part : Part) : Decoding (Keyed α) := do
  match ← part.document.followed with
  | .record fields => do
      let inner ← part.inner
      let pairs ← fields.mapM fun (key, value) => do return (← key.text, ← decode (inner value))
      return .ofList pairs
  | .scalar { isBlank := true, .. } => return []
  | _ => failure

def named {α : Type} (ofName? : String → Option α) (name : String) : Decoding α :=
  match ofName? name with
  | some value => return value
  | none => failure

/-- A name among several. In JSON it may also be the only field of a record, with nothing in it. -/
def choice {α : Type} (ofName? : String → Option α) (part : Part) : Decoding α := do
  match ← part.document.followed, (← read).format with
  | .scalar { text := some name, .. }, _ => named ofName? name
  | .record [(key, value)], .json => do
      let inner ← part.inner
      if (← (inner value).followed).isNull then named ofName? (← key.text) else failure
  | _, _ => failure

/-- The fields of a section with the given names, each at most once; other fields are passed over. In
JSON a section may also be a list of its fields in order. -/
def fields (names : List String) (part : Part) : Decoding (List (String × Part)) := do
  match ← part.document.followed, (← read).format with
  | .record fields, _ => do
      let inner ← part.inner
      let all ← fields.mapM fun (key, value) => do return (← key.text, inner value)
      let known := all.filter fun (name, _) => names.contains name
      if (known.map (·.1)).Nodup then return known else failure
  | .list items, .json => do
      let inner ← part.inner
      if items.length ≤ names.length then return names.zip (items.map inner) else failure
  | .scalar { isBlank := true, .. }, _ => return []
  | _, _ => failure

end Part

namespace Decoding

def required {α : Type} (fields : List (String × Part)) (name : String) (decode : Decoder α) :
    Decoding α :=
  match fields.lookup name with
  | some value => decode value
  | none => failure

def withDefault {α : Type} (fields : List (String × Part)) (name : String) (default : α)
    (decode : Decoder α) : Decoding α :=
  match fields.lookup name with
  | some value => decode value
  | none => return default

def textField (fields : List (String × Part)) (name : String) : Decoding (Option String) :=
  withDefault fields name none (Part.optional Part.text)

def textsField (fields : List (String × Part)) (name : String) : Decoding (List String) :=
  withDefault fields name [] (Part.list Part.text)

end Decoding

namespace Source

def ofJson (root : Document) : Source where
  format := .json
  root
  depth := 127

/-- A YAML document, which may be 128 deep. Of the anchors with one number the last counts, and for each
piece of the document a hundred aliases may be followed. -/
def ofYaml (root : Yaml.Node) : Source where
  format := .yaml
  root := root.document
  depth := 128
  anchors := root.anchors.reverse
  hops := 100 * root.size

def ofData (data : Data) : Source where
  format := .json
  root := .ofData data
  depth := data.depth

/-- Reads a document. A YAML text without any document counts as one in which nothing is written. -/
def parse? (format : Format) (text : Text) : Option Source :=
  match format with
  | .json => (Json.document? text).map ofJson
  | .yaml => (Yaml.parse? text).map fun root => ofYaml (root.getD Yaml.absent)

def decode? {α : Type} (source : Source) (decode : Decoder α) : Option α :=
  ((decode ⟨source.root, source.depth⟩).run source |>.run source.hops).map (·.1)

end Source

def Data.decode? {α : Type} (data : Data) (decode : Decoder α) : Option α :=
  (Source.ofData data).decode? decode

def Json.parse? (text : Text) : Option Data :=
  (Source.parse? .json text).bind (·.decode? Part.data)

def Tree.decode {α : Type} (tree : Tree) (path : Path) (format : Format) (decode : Decoder α) :
    Except Failure α := do
  let text ← tree.readSource path
  match (Source.parse? format text).bind (·.decode? decode) with
  | some value => return value
  | none => .error format.failure

end PageScript
