import PageScript.Digest
import PageScript.Directive.Resource

/-! Public addresses of files. A file outside the internal root gets a link, named by its digest. -/

namespace PageScript

structure Linker where
  publicRoot : String
  internalRoot : Path
  linksFolder : String := "auto"

namespace Linker

def trimEnd (text : String) : String :=
  String.ofList (text.toList.reverse.dropWhile (· == '/')).reverse

def trimStart (text : String) : String :=
  String.ofList (text.toList.dropWhile (· == '/'))

def ofRoots (publicRoot : String) (internalRoot : Path) : Linker :=
  { publicRoot := trimEnd publicRoot, internalRoot }

def withLinksFolder (linker : Linker) (folder : String) : Linker :=
  { linker with linksFolder := trimEnd (trimStart folder) }

def address (linker : Linker) (path : String) : String :=
  linker.publicRoot ++ "/" ++ trimStart path

def linkName (source : Path) : String :=
  let digest := String.ofList ((Digest.ofText source.text.toList).take 32)
  match source.extension? with
  | some extension => digest ++ "." ++ extension
  | none => digest

/-- The address of a file; the link to it is made if it needs one. A tree that was changed before a
fault stays changed. -/
def link (linker : Linker) (tree : Tree) (path : String) : Except Failure String × Tree :=
  if Directive.isRemote path.toList then (.ok path, tree)
  else
    let source := tree.canonical ⟨path⟩
    let root := tree.canonical linker.internalRoot
    match root.after? source with
    | some inner => (.ok (linker.address (Path.ofComponents inner).text), tree)
    | none =>
        let name := linkName source
        let folder := root.join ⟨linker.linksFolder⟩
        let place := folder.join ⟨name⟩
        let found := linker.address (linker.linksFolder ++ "/" ++ name)
        if tree.occupied place then (.ok found, tree)
        else
          match tree.makeFolders folder with
          | .error fault => (.error (.io folder fault), tree)
          | .ok tree =>
              match tree.makeLink place source with
              | .error fault => (.error (.io place fault), tree)
              | .ok tree => (.ok found, tree)

def linkAll (linker : Linker) : Tree → List String → Except Failure (List String) × Tree
  | tree, [] => (.ok [], tree)
  | tree, path :: rest =>
      match linker.link tree path with
      | (.error failure, tree) => (.error failure, tree)
      | (.ok found, tree) =>
          match linker.linkAll tree rest with
          | (.error failure, tree) => (.error failure, tree)
          | (.ok others, tree) => (.ok (found :: others), tree)

end Linker

structure LinkedAssets where
  scripts : List String := []
  styles : List String := []
  modules : List String := []

def appendNew (items : List String) (item : String) : List String :=
  if items.contains item then items else items ++ [item]

namespace LinkedAssets

def linkInto (linker : Linker) :
    Tree → LinkedAssets → List Asset → LinkedAssets × List Diagnostic × Tree
  | tree, linked, [] => (linked, [], tree)
  | tree, linked, asset :: rest =>
      if asset.kind = .module then
        linkInto linker tree { linked with modules := linked.modules ++ [asset.path] } rest
      else
        match linker.link tree asset.path with
        | (.error failure, tree) =>
            let (linked, noted, tree) := linkInto linker tree linked rest
            let diagnostic : Diagnostic :=
              { topic := .resolution, message := failure.message, file := some asset.path }
            (linked, diagnostic :: noted, tree)
        | (.ok found, tree) =>
            let linked :=
              if asset.kind = .script then
                { linked with scripts := appendNew linked.scripts found }
              else { linked with styles := appendNew linked.styles found }
            linkInto linker tree linked rest

def ofAssets (linker : Linker) (tree : Tree) (assets : AssetSet) :
    LinkedAssets × List Diagnostic × Tree :=
  linkInto linker tree {} assets.items

def toData (linked : LinkedAssets) : Data :=
  let texts (items : List String) : Data := .list (items.map .text)
  .record [("scripts", texts linked.scripts), ("css", texts linked.styles),
    ("modules", texts linked.modules)]

end LinkedAssets

end PageScript
