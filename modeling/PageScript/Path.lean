import PageScript.Text.Basic
import PageScript.Text.Invisible

/-! Paths as texts, taken apart and joined without looking at files. -/

namespace PageScript

inductive Component where
  | root
  | current
  | parent
  | normal (name : String)
  deriving DecidableEq, Repr

def Component.text : Component → Text
  | .root => ['/']
  | .current => ['.']
  | .parent => ['.', '.']
  | .normal name => name.toList

structure Path where
  text : String
  deriving DecidableEq, Repr, Inhabited

namespace Path

def isAbsolute (path : Path) : Bool :=
  path.text.toList.head? == some '/'

def component? (part : Text) : Option Component :=
  if part = [] ∨ part = ['.'] then none
  else if part = ['.', '.'] then some .parent
  else some (.normal (String.ofList part))

def startsCurrent (chars : Text) : Bool :=
  chars.takeWhile (· != '/') == ['.']

def components (path : Path) : List Component :=
  let chars := path.text.toList
  let lead : List Component :=
    if path.isAbsolute then [.root] else if startsCurrent chars then [.current] else []
  lead ++ (Text.splitOn '/' chars).filterMap component?

def same (left right : Path) : Bool :=
  left.components == right.components

def join (base path : Path) : Path :=
  if path.isAbsolute then path
  else if base.text.isEmpty ∨ base.text.toList.getLast? = some '/' then ⟨base.text ++ path.text⟩
  else ⟨base.text ++ "/" ++ path.text⟩

def textOf : List Component → Text
  | [] => []
  | [part] => part.text
  | .root :: rest => '/' :: textOf rest
  | part :: rest => part.text ++ '/' :: textOf rest

def ofComponents (parts : List Component) : Path :=
  ⟨String.ofList (textOf parts)⟩

/-- One more component after those already resolved, which are held in reverse: `..` takes the last
one back, unless there is none or only the root. -/
def resolve : List Component → Component → List Component
  | done, .current => done
  | [], .parent => [.parent]
  | [.root], .parent => [.parent, .root]
  | _ :: done, .parent => done
  | done, part => part :: done

def normalize (path : Path) : Path :=
  ofComponents (path.components.foldl resolve []).reverse

/-- The number of characters before the body of a path: its root, or a written out current
directory. -/
def leadLength (path : Path) : Nat :=
  if path.isAbsolute || startsCurrent path.text.toList then 1 else 0

def trimBack : Text → Text
  | '/' :: rest => trimBack rest
  | ['.'] => []
  | '.' :: '/' :: rest => trimBack rest
  | rest => rest

def bodyBack (path : Path) : Text :=
  trimBack (path.text.toList.drop path.leadLength).reverse

def parent? (path : Path) : Option Path :=
  let lead := path.text.toList.take path.leadLength
  match path.bodyBack with
  | [] => if path.isAbsolute || lead.isEmpty then none else some ⟨""⟩
  | back =>
      let left := trimBack ((back.dropWhile (· != '/')).drop 1)
      some ⟨String.ofList (lead ++ left.reverse)⟩

def fileName? (path : Path) : Option String :=
  match (path.bodyBack.takeWhile (· != '/')).reverse with
  | [] => none
  | ['.', '.'] => none
  | name => some (String.ofList name)

def extensionOf? (name : String) : Option String :=
  let back := name.toList.reverse
  match back.dropWhile (· != '.') with
  | [] => none
  | [_] => none
  | _ => some (String.ofList (back.takeWhile (· != '.')).reverse)

def extension? (path : Path) : Option String :=
  path.fileName?.bind extensionOf?

def withDefaultExtension (extension : String) (path : Path) : Path :=
  if path.extension?.isSome || path.fileName?.isNone then path
  else
    let stem := String.ofList (path.text.toList.take path.leadLength ++ path.bodyBack.reverse)
    if extension.isEmpty then ⟨stem⟩ else ⟨stem ++ "." ++ extension⟩

def after? (base path : Path) : Option (List Component) :=
  let components := path.components
  if base.components.isPrefixOf components then some (components.drop base.components.length)
  else none

/-- The form of a character between double quotes. One that does not show is given by its code. -/
def quotedChar (c : Char) : Text :=
  if c = '\x22' then ['\\', '\x22']
  else if c = '\\' then ['\\', '\\']
  else if c = '\n' then ['\\', 'n']
  else if c = '\r' then ['\\', 'r']
  else if c = '\t' then ['\\', 't']
  else if c = '\x00' then ['\\', '0']
  else if isInvisible c then
    ['\\', 'u', '{'] ++ Nat.toDigits 16 c.toNat ++ ['}']
  else [c]

def quoted (path : Path) : String :=
  String.ofList ('\x22' :: path.text.toList.flatMap quotedChar ++ ['\x22'])

end Path

end PageScript
