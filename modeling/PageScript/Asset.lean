/-! Scripts and styles that a page loads, each once and in the order they are asked for. -/

namespace PageScript

inductive AssetKind where
  | script
  | style
  | module
  deriving DecidableEq, Repr

structure Asset where
  path : String
  kind : AssetKind
  deriving DecidableEq, Repr

/-- Assets with distinct paths, and an index of the paths by which membership is decided. -/
structure AssetSet where
  items : List Asset := []
  seen : List String := []
  deriving DecidableEq, Repr

namespace AssetSet

def contains (assets : AssetSet) (path : String) : Bool :=
  assets.seen.contains path

def add (assets : AssetSet) (path : String) (kind : AssetKind) : AssetSet :=
  if assets.contains path then assets
  else { items := assets.items ++ [⟨path, kind⟩], seen := path :: assets.seen }

def addAll (assets : AssetSet) (others : List Asset) : AssetSet :=
  others.foldl (fun assets asset => assets.add asset.path asset.kind) assets

def merge (assets other : AssetSet) : AssetSet :=
  assets.addAll other.items

def ofKind (assets : AssetSet) (kind : AssetKind) : List String :=
  (assets.items.filter (·.kind == kind)).map (·.path)

end AssetSet

end PageScript
