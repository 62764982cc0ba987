import PageScript.Path

/-! A tree of files as a value. -/

namespace PageScript

inductive IoFault where
  | notFound
  | notFolder
  | isFolder
  | present
  | notText
  | tooManyLinks
  | nameTooLong
  | nulByte
  deriving DecidableEq, Repr

def IoFault.message : IoFault → String
  | .notFound => "No such file or directory (os error 2)"
  | .notFolder => "Not a directory (os error 20)"
  | .isFolder => "Is a directory (os error 21)"
  | .present => "File exists (os error 17)"
  | .notText => "stream did not contain valid UTF-8"
  | .tooManyLinks => "Too many levels of symbolic links (os error 40)"
  | .nameTooLong => "File name too long (os error 36)"
  | .nulByte => "file name contained an unexpected NUL byte"

abbrev Location := List String

inductive Entry where
  | file (text : Text)
  | binary
  | folder
  | link (target : Path)
  deriving DecidableEq, Repr

structure Tree where
  entries : List (Location × Entry)
  home : Location

namespace Tree

def entry? (tree : Tree) (place : Location) : Option Entry :=
  if place.isEmpty then some .folder else tree.entries.lookup place

def put (tree : Tree) (place : Location) (entry : Entry) : Tree :=
  { tree with entries := (place, entry) :: tree.entries.filter (·.1 != place) }

def pathOf (place : Location) : Path :=
  .ofComponents (.root :: place.map .normal)

def segments (path : Path) : List String :=
  (Text.splitOn '/' path.text.toList).map String.ofList

def maxName : Nat := 255

/-- Goes along the parts of a path. Every part starts from a folder. At a link, `follow` goes on from
the folder it is in, along its target and the parts that are left. -/
def goAlong (tree : Tree) (follow : Location → Path → List String → Except IoFault Location) :
    Location → List String → Except IoFault Location
  | place, [] => .ok place
  | place, part :: rest =>
      match tree.entry? place with
      | some .folder =>
          if part = "" ∨ part = "." then goAlong tree follow place rest
          else if part = ".." then goAlong tree follow place.dropLast rest
          else if maxName < part.utf8ByteSize then .error .nameTooLong
          else
            match tree.entry? (place ++ [part]) with
            | none => .error .notFound
            | some (.link target) => follow place target rest
            | some _ => goAlong tree follow (place ++ [part]) rest
      | _ => .error .notFolder

/-- Goes along the parts of a path from a place and follows at most the given number of links. -/
def walk (tree : Tree) : Nat → Location → List String → Except IoFault Location
  | 0 => goAlong tree fun _ _ _ => .error .tooManyLinks
  | links + 1 =>
      goAlong tree fun place target rest =>
        if target.text.isEmpty then .error .notFound
        else walk tree links (if target.isAbsolute then [] else place) (segments target ++ rest)

def maxLinks : Nat := 40

def startOf (tree : Tree) (path : Path) : List String :=
  if path.isAbsolute then [] else segments (pathOf tree.home)

def locate (tree : Tree) (path : Path) : Except IoFault Location :=
  if path.text.isEmpty then .error .notFound
  else tree.walk maxLinks [] (tree.startOf path ++ segments path)

def maxPath : Nat := 4095

def checkPath (path : Path) : Except IoFault Unit :=
  if path.text.toList.contains '\x00' then .error .nulByte
  else if path.text.isEmpty then .error .notFound
  else if maxPath < path.text.utf8ByteSize then .error .nameTooLong
  else .ok ()

def place? (tree : Tree) (path : Path) : Except IoFault Location := do
  checkPath path
  tree.locate path

def find? (tree : Tree) (path : Path) : Except IoFault Entry := do
  let place ← tree.place? path
  match tree.entry? place with
  | some entry => return entry
  | none => .error .notFound

def isFolder (tree : Tree) (path : Path) : Bool :=
  match tree.find? path with
  | .ok .folder => true
  | _ => false

def isFile (tree : Tree) (path : Path) : Bool :=
  match tree.find? path with
  | .ok (.file _) | .ok .binary => true
  | _ => false

def holds (tree : Tree) (path : Path) : Bool :=
  match tree.find? path with
  | .ok _ => true
  | .error _ => false

def read (tree : Tree) (path : Path) : Except IoFault Text := do
  match ← tree.find? path with
  | .file text => return text
  | .binary => .error .notText
  | .folder => .error .isFolder
  | .link _ => .error .tooManyLinks

/-- The path by which a file is known: its place if it is there, and otherwise the absolute path with
`.` and `..` resolved in writing. -/
def canonical (tree : Tree) (path : Path) : Path :=
  match tree.locate path with
  | .ok place => pathOf place
  | .error _ => (if path.isAbsolute then path else (pathOf tree.home).join path).normalize

def before : Location → Location → Bool
  | [], _ => true
  | _ :: _, [] => false
  | a :: left, b :: right => if a = b then before left right else a < b

/-- Everything below a folder by name, each folder before what is in it, as names from there on. -/
def below (tree : Tree) (place : Location) : List (Location × Entry) :=
  let inner := tree.entries.filterMap fun (other, entry) =>
    if place.isPrefixOf other && other.length != place.length then
      some (other.drop place.length, entry)
    else none
  inner.mergeSort fun left right => before left.1 right.1

/-- The place that a new entry would get: a folder that is there, and a name in it. -/
def newPlace? (tree : Tree) (path : Path) : Except IoFault Location := do
  checkPath path
  let parts := (segments path).reverse.dropWhile (· == "")
  match parts with
  | [] => .error .present
  | name :: outer =>
      let folder ← tree.walk maxLinks [] (tree.startOf path ++ outer.reverse)
      match tree.entry? folder with
      | some .folder =>
          if name = "." ∨ name = ".." then .error .present
          else if maxName < name.utf8ByteSize then .error .nameTooLong
          else return folder ++ [name]
      | _ => .error .notFolder

def makeFolder (tree : Tree) (path : Path) : Except IoFault Tree := do
  let place ← tree.newPlace? path
  match tree.entry? place with
  | some _ => .error .present
  | none => return tree.put place .folder

def withParents : Nat → Path → List Path
  | 0, path => [path]
  | steps + 1, path =>
      match path.parent? with
      | some parent => path :: withParents steps parent
      | none => [path]

/-- Makes the folders of a list of paths, innermost first: as long as the folder above is missing, it
is made before. -/
def makeMissing (tree : Tree) : List Path → Except IoFault Tree
  | [] => .error .notFound
  | path :: outer =>
      if path.text.isEmpty then .ok tree
      else
        match tree.makeFolder path with
        | .ok made => .ok made
        | .error .notFound => do
            let tree ← makeMissing tree outer
            match tree.makeFolder path with
            | .ok made => return made
            | .error fault => if tree.isFolder path then return tree else .error fault
        | .error fault => if tree.isFolder path then .ok tree else .error fault

def makeFolders (tree : Tree) (path : Path) : Except IoFault Tree :=
  makeMissing tree (withParents path.text.length path)

def write (tree : Tree) (path : Path) (text : Text) : Except IoFault Tree :=
  match tree.place? path with
  | .ok place =>
      match tree.entry? place with
      | some .folder => .error .isFolder
      | _ => .ok (tree.put place (.file text))
  | .error .notFound => do
      let place ← tree.newPlace? path
      if path.text.toList.getLast? = some '/' then .error .isFolder
      return tree.put place (.file text)
  | .error fault => .error fault

def makeLink (tree : Tree) (path target : Path) : Except IoFault Tree := do
  checkPath target
  let place ← tree.newPlace? path
  match tree.entry? place with
  | some _ => .error .present
  | none => return tree.put place (.link target)

def occupied (tree : Tree) (path : Path) : Bool :=
  match tree.newPlace? path with
  | .ok place => (tree.entry? place).isSome
  | .error _ => tree.holds path

end Tree

end PageScript
