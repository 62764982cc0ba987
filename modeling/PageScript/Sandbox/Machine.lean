import PageScript.Keyed
import PageScript.Sandbox.Program

/-! The machine that runs programs. Objects are shared, so a value refers to one by its place. -/

namespace PageScript.Sandbox

inductive Value where
  | undefined
  | null
  | bool (value : Bool)
  | number (value : Double)
  | text (value : String)
  | object (place : Nat)
  deriving DecidableEq, Repr

def Value.isTrue : Value → Bool
  | .undefined | .null => false
  | .bool value => value
  | .number x => ! x.isZero && ! x.isNaN
  | .text value => ! value.isEmpty
  | .object _ => true

inductive Native where
  | note (asError : Bool)
  | dump
  | console (asError : Bool) (category : Option String)
  deriving DecidableEq, Repr

inductive ObjectKind where
  | record
  /-- A list: its items, and how many places after them are empty. -/
  | list (items : List Value) (empty : Nat)
  | error
  | function (native : Option Native)
  deriving DecidableEq, Repr

structure Field where
  value : Value
  isListed : Bool := true
  isFree : Bool := true
  deriving DecidableEq, Repr

/-- Where an object finds the members that it was not given. -/
inductive Parent where
  | usual
  | object (place : Nat)
  | nothing
  deriving DecidableEq, Repr

structure Object where
  kind : ObjectKind
  fields : List (String × Field) := []
  parent : Parent := .usual
  deriving DecidableEq, Repr

inductive Mutability where
  | free
  | constant
  | fixed
  deriving DecidableEq, Repr

/-- What a name stands for: nothing before its declaration is reached. -/
structure Binding where
  value : Option Value
  mutability : Mutability := .free

abbrev Frame := List (String × Binding)

structure Machine where
  objects : List Object
  frames : List Frame
  log : Keyed (List Data) := []
  errors : Keyed (List Data) := []
  dumps : List Data := []

inductive Thrown where
  | value (value : Value)
  | fault (kind reason : String)

/-- A step of a run: what was noted before a throw stays. -/
abbrev Run (α : Type) := ExceptT Thrown (StateM Machine) α

def fail {α : Type} (kind reason : String) : Run α :=
  throw (.fault kind reason)

namespace Object

def function (native : Option Native) (name : String) (parameters : Nat) : Object where
  kind := .function native
  fields := [
    ("length", { value := .number (.ofDecimal false parameters 0), isListed := false, isFree := false }),
    ("name", { value := .text name, isListed := false, isFree := false })]

/-- An error with its message, which is not shown among its members. -/
def error (message : Option String) : Object where
  kind := .error
  fields := message.toList.map fun text => ("message", { value := .text text, isListed := false })

def put (object : Object) (name : String) (value : Value) : Object :=
  if object.fields.any (·.1 == name) then
    { object with
      fields := object.fields.map fun (other, field) =>
        (other, if other = name ∧ field.isFree then { field with value } else field) }
  else { object with fields := object.fields ++ [(name, { value })] }

def index? (name : String) : Option Nat :=
  match name.toList with
  | ['0'] => some 0
  | c :: rest =>
      if c ≠ '0' ∧ (c :: rest).all Char.isDigit then
        let index := digitsIn 10 (c :: rest)
        if index < Nat.pow 2 32 - 1 then some index else none
      else none
  | [] => none

/-- The members in the order in which they are shown: positions by size, then the others as they were
set. -/
def listed (object : Object) : List (String × Value) :=
  let shown := (object.fields.filter (·.2.isListed)).map fun (name, field) => (name, field.value)
  let position (field : String × Value) : Nat := (index? field.1).getD 0
  let (positions, others) := shown.partition fun (name, _) => (index? name).isSome
  positions.mergeSort (fun left right => position left ≤ position right) ++ others

end Object

namespace Machine

def object (machine : Machine) (place : Nat) : Object :=
  machine.objects.getD place { kind := .record }

/-- The place of an object and the places of those in which it finds members, one after the other. -/
def line (machine : Machine) : Nat → Nat → List Nat
  | 0, _ => []
  | fuel + 1, place =>
      match (machine.object place).parent with
      | .object parent => place :: machine.line fuel parent
      | _ => [place]

def places (machine : Machine) (place : Nat) : List Nat :=
  machine.line (machine.objects.length + 1) place

def lineOf (machine : Machine) (place : Nat) : List Object :=
  (machine.places place).map machine.object

def given? (machine : Machine) (place : Nat) (name : String) : Option Value :=
  (machine.lineOf place).findSome? fun object =>
    match object.kind, name with
    | .list items empty, "length" => some (.number (.ofDecimal false (items.length + empty) 0))
    | _, _ => (object.fields.lookup name).map (·.value)

/-- The kind whose usual members an object has, if it has any. -/
def usualKind? (machine : Machine) (place : Nat) : Option ObjectKind :=
  match (machine.lineOf place).getLast? with
  | some { kind, parent := .usual, .. } => some kind
  | _ => none

end Machine

def allocate (object : Object) : Run Value := do
  let machine ← get
  set { machine with objects := machine.objects ++ [object] }
  return .object machine.objects.length

def replace (place : Nat) (object : Object) : Run Unit :=
  modify fun machine => { machine with objects := machine.objects.set place object }

def allocateClass (name : String) : Run Value := do
  let place := (← get).objects.length
  let instances : Object := {
    kind := .record
    fields := [("constructor", { value := .object (place + 1), isListed := false })] }
  let _ ← allocate instances
  let object := Object.function none name 0
  allocate {
    object with
    fields := object.fields ++
      [("prototype", { value := .object place, isListed := false, isFree := false })] }

def commonMembers : List String :=
  ["constructor", "__defineGetter__", "__defineSetter__", "hasOwnProperty", "__lookupGetter__",
    "__lookupSetter__", "isPrototypeOf", "propertyIsEnumerable", "toString", "valueOf", "__proto__",
    "toLocaleString"]

def ObjectKind.maker : ObjectKind → String
  | .record => "Object"
  | .list _ _ => "Array"
  | .error => "Error"
  | .function _ => "Function"

def usualParent (maker : String) : Run Value :=
  match maker with
  | "Array" => allocate { kind := .list [] 0 }
  | "Error" => allocate (.error none)
  | "Function" => allocate (.function none "" 0)
  | "Number" => return .number (.ofDecimal false 0 0)
  | "String" => return .text ""
  | "Boolean" => return .bool false
  | _ => allocate { kind := .record }

def usualMember (maker name : String) : Run Value := do
  if name = "constructor" then allocate (.function none maker 1)
  else if name = "__proto__" then usualParent maker
  else if commonMembers.contains name then allocate (.function none name 0)
  else if maker = "Error" ∧ name = "name" then return .text "Error"
  else if maker = "Error" ∧ name = "message" then return .text ""
  else return .undefined

/-- The number of units of a text, where a character beyond the basic plane counts twice. -/
def unitLength (text : String) : Nat :=
  text.toList.foldr (fun c units => (if 0x10000 ≤ c.toNat then 2 else 1) + units) 0

def parentOf (object : Object) : Run Value :=
  match object.parent with
  | .object parent => return .object parent
  | .nothing => return .null
  | .usual => usualMember object.kind.maker "__proto__"

def memberOf (value : Value) (name : String) : Run Value := do
  match value with
  | .undefined | .null => fail "TypeError" s!"no member {name}"
  | .object place =>
      let machine ← get
      if name = "__proto__" then parentOf (machine.object place)
      else
        match machine.given? place name, machine.usualKind? place with
        | some found, _ => return found
        | none, some kind => usualMember kind.maker name
        | none, none => return .undefined
  | .text text =>
      if name = "length" then return .number (.ofDecimal false (unitLength text) 0)
      else usualMember "String" name
  | .number _ => usualMember "Number" name
  | .bool _ => usualMember "Boolean" name

def setParent (place : Nat) (value : Value) : Run Unit := do
  let machine ← get
  let object := machine.object place
  match value with
  | .object parent =>
      if (machine.places parent).contains place then fail "TypeError" "an object inside itself"
      else replace place { object with parent := .object parent }
  | .null => replace place { object with parent := .nothing }
  | _ => return ()

end PageScript.Sandbox
