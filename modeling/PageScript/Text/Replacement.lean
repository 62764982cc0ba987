import PageScript.Text.Cut

/-! References to groups in replacement texts. -/

namespace PageScript.Replacement

def isReferenceChar (c : Char) : Bool :=
  c.isAlphanum || c == '_'

/-- Recognises a reference, or an escaped dollar sign, which is nothing. -/
def reference : Recogniser (Option Text)
  | _, '$' :: '$' :: rest => some (none, rest)
  | _, '$' :: '{' :: rest =>
      match Text.cutAt? ['}'] rest with
      | some (name, rest) => some (some name, rest)
      | none => none
  | _, '$' :: rest =>
      match Text.run1? isReferenceChar rest with
      | some (name, rest) => some (some name, rest)
      | none => none
  | _, _ => none

def expand (template whole : Text) : Text :=
  Text.replace reference
    (fun
      | none => ['$']
      | some name => if Text.wholeNumber? name = some 0 then whole else [])
    template

end PageScript.Replacement
