import PageScript.Tree
import PageScript.Violation

/-! How an operation fails, and what is reported of it. -/

namespace PageScript

inductive Failure where
  | structural (violation : Violation)
  | unresolved (reason : String)
  /-- Referenced data that does not have the form it must have. -/
  | badData (path : Path) (reason : String)
  | infrastructure (reason : String)
  | cacheMode (name : String)
  | io (path : Path) (fault : IoFault)
  | malformedJson
  | malformedYaml
  /-- A forced inclusion that never ends. -/
  | endless
  deriving DecidableEq, Repr

def Failure.message : Failure → String
  | .structural violation => violation.display
  | .unresolved reason => s!"resolution failed: {reason}"
  | .badData path reason => s!"data error in {path.text}: {reason}"
  | .infrastructure reason => s!"sandbox infrastructure failure: {reason}"
  | .cacheMode name => s!"plugin cache type '{name}' is not supported (only 'none' is implemented)"
  | .io path fault => s!"I/O error on {path.text}: {fault.message}"
  | .malformedJson => "malformed JSON"
  | .malformedYaml => "malformed YAML"
  | .endless => "a forced inclusion does not end"

inductive Topic where
  | structural
  | resolution
  | data
  | execution
  | syntactic
  deriving DecidableEq, Repr

def Topic.title : Topic → String
  | .structural => "Structural"
  | .resolution => "Resolution"
  | .data => "Data"
  | .execution => "Execution"
  | .syntactic => "Syntax"

structure Diagnostic where
  topic : Topic
  message : String
  file : Option String
  deriving DecidableEq, Repr

def Diagnostic.display (diagnostic : Diagnostic) : String :=
  match diagnostic.file with
  | some file => s!"{diagnostic.topic.title}: {diagnostic.message} ({file})"
  | none => s!"{diagnostic.topic.title}: {diagnostic.message}"

def Tree.readSource (tree : Tree) (path : Path) : Except Failure Text :=
  (tree.read path).mapError (.io path)

end PageScript
