import PageScript.Text.Cut
import PageScript.Text.Expect

/-! Directives that include files and modules. -/

namespace PageScript

structure InclusionFlags where
  recursive : Bool := false
  force : Bool := false
  unwrapped : Bool := false
  deriving DecidableEq, Repr

namespace InclusionFlags

def ofLetters (letters : Text) : InclusionFlags :=
  let has (c : Char) : Bool := letters.any (·.toUpper == c)
  { recursive := has 'R', force := has 'F', unwrapped := has 'U' }

def parse (cluster : Text) : InclusionFlags :=
  ofLetters (cluster.dropWhile (· == '-'))

def union (left right : InclusionFlags) : InclusionFlags where
  recursive := left.recursive || right.recursive
  force := left.force || right.force
  unwrapped := left.unwrapped || right.unwrapped

end InclusionFlags

namespace Directive

structure Require where
  flags : Option Text
  target : Text

def flagged (body : Text) : Option Require :=
  match body with
  | '-' :: rest => do
      let (letters, rest) ← Text.run1? Char.isAlpha rest
      let (gap, rest) ← Text.run1? isBlank rest
      match rest with
      | [] =>
          match gap.reverse with
          | last :: _ :: _ => some { flags := some ('-' :: letters), target := [last] }
          | _ => none
      | target => some { flags := some ('-' :: letters), target }
  | _ => none

/-- Recognises a `require` directive. White space alone can be a target, but not all of what separates
it from the word. -/
def require : Recogniser Require
  | _, text => do
      let rest ← Text.expect "@lx:require" text
      let (gap, rest) ← Text.run1? isBlank rest
      let (body, rest) ← Text.upToSemicolon rest
      match body with
      | [] =>
          match gap.reverse with
          | last :: _ :: _ => some ({ flags := none, target := [last] }, rest)
          | _ => none
      | body => some ((flagged body).getD { flags := none, target := body }, rest)

def use : Recogniser (List Text)
  | _, text => do
      let rest ← Text.expect "@lx:use" text
      let rest ← Text.blanks1 rest
      let (body, rest) ← Text.upToSemicolon rest
      let names := (Text.splitOn ',' body).map Text.trim
      if names.all fun name => ! name.isEmpty && name.all isLabel then some (names, rest) else none

def usedModules (code : Text) : List Text :=
  (Text.occurrences use code).flatten

def dropUses (code : Text) : Text :=
  Text.replace use (fun _ => []) code

end Directive

end PageScript
