import PageScript.Sandbox.Conversion

/-! Running a program. -/

namespace PageScript.Sandbox

namespace Frame

def bind (name : String) (binding : Binding) : Frame → Frame
  | [] => [(name, binding)]
  | (other, old) :: rest =>
      if other = name then (name, binding) :: rest else (other, old) :: bind name binding rest

/-- The frame of a function with its parameters and the names that its statements declare. Names that
are declared for the whole function are undefined at first. -/
def ofDeclared (parameters : Frame) (statements : List Statement) : Frame :=
  (declaredNames statements).foldl
    (fun frame (name, how) =>
      if how = .variable then
        if (frame.lookup name).isSome then frame else bind name { value := some .undefined } frame
      else
        bind name { value := none, mutability := if how = .constant then .constant else .free } frame)
    parameters

end Frame

def lookUp (name : String) : Run Value := do
  match (← get).frames.findSome? (·.lookup name) with
  | none => fail "ReferenceError" s!"{name} is not defined"
  | some binding =>
      match binding.value with
      | none => fail "ReferenceError" s!"{name} is not initialised"
      | some value => return value

def rebind (name : String) (binding : Binding) : List Frame → List Frame
  | [] => []
  | [frame] => [Frame.bind name binding frame]
  | frame :: rest =>
      if (frame.lookup name).isSome then Frame.bind name binding frame :: rest
      else frame :: rebind name binding rest

def assign (name : String) (value : Value) : Run Unit := do
  let machine ← get
  let found : Option Binding := machine.frames.findSome? (·.lookup name)
  match found with
  | some { value := none, .. } => fail "ReferenceError" s!"{name} is not initialised"
  | some { mutability := .constant, .. } => fail "TypeError" s!"{name} is constant"
  | some { mutability := .fixed, .. } => return ()
  | _ => set { machine with frames := rebind name { value := some value } machine.frames }

def start (name : String) (how : Declaration) (value : Value) : Run Unit :=
  modify fun machine =>
    { machine with
      frames :=
        rebind name { value := some value, mutability := if how = .constant then .constant else .free }
          machine.frames }

def allocateRecord (fields : List (String × Value)) : Run Value := do
  let value ← allocate { kind := .record }
  fields.forM fun (name, member) => setMember value name member
  return value

mutual

def Expr.run : Expr → Run Value
  | .null => pure .null
  | .bool value => pure (.bool value)
  | .number value => pure (.number value)
  | .text value => pure (.text value)
  | .list items => do
      let items ← runItems items
      allocate { kind := .list items 0 }
  | .record fields => do
      let fields ← runFields fields
      allocateRecord fields
  | .name name => lookUp name
  | .member object name => do
      let value ← object.run
      memberOf value name
  | .add left right => do
      let left ← left.run
      let right ← right.run
      sum left right
  | .negate operand => do
      let value ← operand.run
      return .number (.ofFloat (-(← numberOf value).toFloat))
  | .newError none => allocate (.error none)
  | .newError (some message) => do
      let value ← message.run
      if value = .undefined then allocate (.error none)
      else allocate (.error (some (String.ofList (← textOf value))))
  | .emptyClass name => allocateClass name
  | .call callee arguments => do
      let callee ← callee.run
      let arguments ← runItems arguments
      call callee arguments
  | .isolated body => do
      modify fun machine => { machine with frames := Frame.ofDeclared [] body :: machine.frames }
      let value ← runStatements body
      modify fun machine => { machine with frames := machine.frames.tail }
      return value.getD .undefined
  | .assignName name value => do
      let value ← value.run
      assign name value
      return value
  | .assignMember object name value => do
      let object ← object.run
      let value ← value.run
      setMember object name value
      return value

def runItems : List Expr → Run (List Value)
  | [] => pure []
  | item :: rest => do
      let value ← item.run
      let others ← runItems rest
      return value :: others

def runFields : List (String × Expr) → Run (List (String × Value))
  | [] => pure []
  | (name, value) :: rest => do
      let value ← value.run
      let others ← runFields rest
      return (name, value) :: others

def Statement.run : Statement → Run (Option Value)
  | .declare .variable _ none => pure none
  | .declare how name none => do
      start name how .undefined
      return none
  | .declare how name (some value) => do
      let value ← value.run
      start name how value
      return none
  | .evaluate expression => do
      let _ ← expression.run
      return none
  | .leave none => pure (some .undefined)
  | .leave (some value) => do
      let value ← value.run
      return some value
  | .throw value => do
      let value ← value.run
      throw (.value value)

def runStatements : List Statement → Run (Option Value)
  | [] => pure none
  | statement :: rest => do
      match ← statement.run with
      | some value => return some value
      | none => runStatements rest

end

/-- An object with functions as members, which stand at places from a first one on. -/
def holder (names : List String) (first : Nat) : Object where
  kind := .record
  fields := names.zipIdx.map fun (name, index) => (name, { value := .object (first + index) })

def startObjects : List Object :=
  [holder ["log", "error", "dump"] 2, holder ["log", "info", "debug", "warn", "error"] 5,
    .function (some (.note false)) "log" 2,
    .function (some (.note true)) "error" 2,
    .function (some .dump) "dump" 1,
    .function (some (.console false none)) "log" 0,
    .function (some (.console false none)) "info" 0,
    .function (some (.console false (some "debug"))) "debug" 0,
    .function (some (.console true (some "warning"))) "warn" 0,
    .function (some (.console true none)) "error" 0]

def globalFrame : Frame :=
  [("undefined", { value := some .undefined, mutability := .fixed }),
    ("NaN", { value := some (.number notNumber), mutability := .fixed }),
    ("Infinity", { value := some (.number (.ofFloat (1.0 / 0.0))), mutability := .fixed })]

def parameterFrame : Frame :=
  [("Sandbox", { value := some (.object sandboxPlace) }),
    ("console", { value := some (.object consolePlace) })]

def Machine.start (program : List Statement) : Machine where
  objects := startObjects
  frames := [Frame.ofDeclared parameterFrame program, globalFrame]

end PageScript.Sandbox
