import PageScript.Decimal.Shortest
import PageScript.Text.Basic

/-! Data values: what documents hold and what scripts hand back. -/

namespace PageScript

inductive Number where
  | int (value : Int)
  | double (value : Double)
  deriving DecidableEq, Repr

inductive Data where
  | null
  | bool (value : Bool)
  | number (value : Number)
  | text (value : String)
  | list (items : List Data)
  | record (fields : List (String × Data))
  deriving Repr, Inhabited

namespace Data

/-- Puts a field in its place by name; an equal name is replaced. -/
def putField (name : String) (value : Data) : List (String × Data) → List (String × Data)
  | [] => [(name, value)]
  | (other, old) :: rest =>
      if name < other then (name, value) :: (other, old) :: rest
      else if name = other then (name, value) :: rest
      else (other, old) :: putField name value rest

mutual

/-- The value with the fields of every record ordered by name, the last of equal names winning. -/
def sorted : Data → Data
  | .list items => .list (sortedItems items)
  | .record fields => .record (sortedFields [] fields)
  | .null => .null
  | .bool value => .bool value
  | .number value => .number value
  | .text value => .text value

def sortedItems : List Data → List Data
  | [] => []
  | item :: rest => sorted item :: sortedItems rest

def sortedFields (done : List (String × Data)) : List (String × Data) → List (String × Data)
  | [] => done
  | (name, value) :: rest => sortedFields (putField name (sorted value) done) rest

end

mutual

def depth : Data → Nat
  | .list items => depthOfItems items + 1
  | .record fields => depthOfFields fields + 1
  | .null | .bool _ | .number _ | .text _ => 0

def depthOfItems : List Data → Nat
  | [] => 0
  | item :: rest => max (depth item) (depthOfItems rest)

def depthOfFields : List (String × Data) → Nat
  | [] => 0
  | (_, value) :: rest => max (depth value) (depthOfFields rest)

end

def field? (name : String) : Data → Option Data
  | .record fields => (fields.find? (·.1 == name)).map (·.2)
  | _ => none

def text? : Data → Option String
  | .text value => some value
  | _ => none

def ofNat (value : Nat) : Data :=
  .number (.int value)

def ofText? : Option String → Data
  | some value => .text value
  | none => .null

end Data

end PageScript
