import PageScript.Text.Cut
import PageScript.Text.Expect

/-! Fragments of markup, each right after the first opening tag of its parent that has its key. -/

namespace PageScript

/-- A fragment with the fragments placed in it, in the order in which they were placed. A place is the
number of characters before it. -/
structure Fragment where
  key : String
  html : Text
  children : List (Nat × Fragment) := []
  deriving Inhabited

namespace Markup

def isAttributeName (c : Char) : Bool :=
  ! isBlank c && ! ['=', '>', '/', '\x22', '\x27'].contains c

def isBareValue (c : Char) : Bool :=
  ! isBlank c && ! ['>', '\x22', '\x27'].contains c

def isTagName (c : Char) : Bool :=
  isWord c || c == ':' || c == '-'

def value (text : Text) : Option (Text × Text) :=
  match text with
  | '\x22' :: rest => Text.cutAt? ['\x22'] rest
  | '\x27' :: rest => Text.cutAt? ['\x27'] rest
  | _ => Text.run1? isBareValue text

def assignedValue (text : Text) : Option (Text × Text) := do
  let rest ← Text.expect "=" (Text.blanks text)
  value (Text.blanks rest)

def valuedAttribute : Recogniser Text
  | _, text => do
      let (_, rest) ← Text.run1? isAttributeName text
      assignedValue rest

/-- The rest after the attributes of a tag, each with white space before it. The fuel bounds their
number. -/
def attributes : Nat → Text → Option Text
  | 0, text => some text
  | fuel + 1, text =>
      match Text.run1? isAttributeName (Text.blanks text) with
      | none => some text
      | some (_, rest) =>
          if (Text.blanks1 text).isNone then some text
          else
            match Text.expect "=" (Text.blanks rest) with
            | none => attributes fuel rest
            | some given => (value (Text.blanks given)).bind fun (_, rest) => attributes fuel rest

def openingTag : Recogniser Unit
  | _, '<' :: first :: rest => do
      if first.isAlpha then
        let rest := rest.dropWhile isTagName
        let rest ← attributes rest.length rest
        let rest := Text.blanks rest
        let rest ← Text.expect ">" ((Text.expect "/" rest).getD rest)
        return ((), rest)
      else none
  | _, _ => none

def carries (key : String) (tag : Text) : Bool :=
  (Text.occurrences valuedAttribute tag).contains key.toList

/-- The place after the first opening tag that carries a key, in pieces that start at a place. -/
def anchorIn (key : String) : Nat → List (Piece Unit) → Option Nat
  | _, [] => none
  | place, .plain _ :: rest => anchorIn key (place + 1) rest
  | place, .found tag _ :: rest =>
      if carries key tag then some (place + tag.length)
      else anchorIn key (place + tag.length) rest

def anchor? (html : Text) (key : String) : Option Nat :=
  anchorIn key 0 (Text.cut openingTag html)

def anchorOffset? (html : Text) (key : String) : Option Nat :=
  (anchor? html key).map fun place => Text.byteLength (html.take place)

def splice {α : Type} (done : Nat) (html : List α) : List (Nat × List α) → List α
  | [] => html
  | (place, text) :: rest =>
      html.take (place - done) ++ text ++ splice place (html.drop (place - done)) rest

end Markup

namespace Fragment

def isAnchored (fragment child : Fragment) : Bool :=
  (Markup.anchor? fragment.html child.key).isSome

def insert (fragment child : Fragment) : Fragment :=
  let place := (Markup.anchor? fragment.html child.key).getD fragment.html.length
  { fragment with children := fragment.children ++ [(place, child)] }

mutual

/-- The markup of a fragment with everything in it. At one place, what was placed first comes
first. -/
def render : Fragment → Text
  | ⟨_, html, children⟩ =>
      Markup.splice 0 html ((renderAll children).mergeSort fun left right => left.1 ≤ right.1)

def renderAll : List (Nat × Fragment) → List (Nat × Text)
  | [] => []
  | (place, fragment) :: rest => (place, render fragment) :: renderAll rest

end

end Fragment

end PageScript
