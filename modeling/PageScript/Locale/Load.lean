import PageScript.Data.Decoder
import PageScript.Locale.Table

/-! Tables of localised texts from files. -/

namespace PageScript.LocaleTable

def formatOf (path : Path) : Format :=
  match path.extension? with
  | some "yaml" | some "yml" => .yaml
  | _ => .json

def load (tree : Tree) (path : Path) : Except Failure LocaleTable := do
  let data ← tree.decode path (formatOf path) Part.sortedData
  match ofData? data with
  | some table => return table
  | none => .error (.badData path "translation file root must be a map")

end PageScript.LocaleTable
