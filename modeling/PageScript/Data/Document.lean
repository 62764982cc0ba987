import PageScript.Data.Basic

/-! Documents as they are read, each scalar with what it may be taken for. -/

namespace PageScript

structure Scalar where
  text : Option String := none
  value : Option Data := none
  isNull : Bool := false
  isBlank : Bool := false

/-- A document. The keys of a record are documents, and an alias stands for the part with a
number. -/
inductive Document where
  | scalar (value : Scalar)
  | list (items : List Document)
  | record (fields : List (Document × Document))
  | alias (anchor : Nat)
  deriving Inhabited

namespace Document

def ofText (text : String) : Document :=
  .scalar { text := some text, value := some (.text text) }

mutual

def ofData : Data → Document
  | .list items => .list (ofItems items)
  | .record fields => .record (ofFields fields)
  | .text value => ofText value
  | .null => .scalar { value := some .null, isNull := true }
  | .bool value => .scalar { value := some (.bool value) }
  | .number value => .scalar { value := some (.number value) }

def ofItems : List Data → List Document
  | [] => []
  | item :: rest => ofData item :: ofItems rest

def ofFields : List (String × Data) → List (Document × Document)
  | [] => []
  | (name, value) :: rest => (ofText name, ofData value) :: ofFields rest

end

end Document

end PageScript
