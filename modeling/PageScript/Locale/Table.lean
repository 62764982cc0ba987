import PageScript.Data.Json.Printer
import PageScript.Keyed

/-! Localised texts by language and key. -/

namespace PageScript

structure LocaleTable where
  languages : Keyed (Keyed String) := []
  deriving DecidableEq, Repr

namespace LocaleTable

def get? (table : LocaleTable) (language key : String) : Option String :=
  (table.languages.get? language).bind (·.get? key)

def insert (table : LocaleTable) (language key text : String) : LocaleTable :=
  let entries := (table.languages.get? language).getD []
  ⟨table.languages.put language (entries.put key text)⟩

def isEmpty (table : LocaleTable) : Bool :=
  table.languages.all fun (_, entries) => entries.isEmpty

def qualified (space : Option String) (key : String) : String :=
  match space with
  | some space => space ++ "." ++ key
  | none => key

def mergeEntries (space : Option String) : Keyed String → Keyed String → Keyed String × List String
  | target, [] => (target, [])
  | target, (key, text) :: rest =>
      let key := qualified space key
      match target.get? key with
      | some existing =>
          let (merged, conflicts) := mergeEntries space target rest
          (merged, if existing = text then conflicts else key :: conflicts)
      | none => mergeEntries space (target.put key text) rest

def mergeLanguages (space : Option String) :
    Keyed (Keyed String) → Keyed (Keyed String) → Keyed (Keyed String) × List (String × String)
  | target, [] => (target, [])
  | target, (language, entries) :: rest =>
      let (entries, keys) := mergeEntries space ((target.get? language).getD []) entries
      let (merged, conflicts) := mergeLanguages space (target.put language entries) rest
      (merged, keys.map (fun key => (language, key)) ++ conflicts)

/-- Merges another table in, its keys under a namespace if there is one. Existing texts win; the
languages and keys on which the texts differ come second. -/
def merge (table : LocaleTable) (space : Option String) (other : LocaleTable) :
    LocaleTable × List (String × String) :=
  let (languages, conflicts) := mergeLanguages space table.languages other.languages
  (⟨languages⟩, conflicts)

mutual

/-- The texts of a value, under the dotted key of the records it is in. A null has none, and a value
that is no text has its JSON text. -/
def flatten (key : String) (done : Keyed String) : Data → Keyed String
  | .record fields => flattenFields key done fields
  | .text value => done.put key value
  | .null => done
  | .bool value => done.put key (String.ofList (Json.compact (.bool value)))
  | .number value => done.put key (String.ofList (Json.compact (.number value)))
  | .list items => done.put key (String.ofList (Json.compact (.list items)))

def flattenFields (key : String) (done : Keyed String) : List (String × Data) → Keyed String
  | [] => done
  | (name, value) :: rest =>
      let inner := if key.isEmpty then name else key ++ "." ++ name
      flattenFields key (flatten inner done value) rest

end

def ofData? : Data → Option LocaleTable
  | .record fields => some ⟨.ofList (fields.map fun (language, value) => (language, flatten "" [] value))⟩
  | _ => none

end LocaleTable

end PageScript
