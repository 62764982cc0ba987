import PageScript.Text.Basic
import PageScript.Text.Class

/-! Small recognisers that directives are put together from. -/

namespace PageScript.Text

def expect (start : String) (text : Text) : Option Text :=
  after? start.toList text

def blanks (text : Text) : Text :=
  text.dropWhile isBlank

def blanks1 (text : Text) : Option Text :=
  match text with
  | c :: rest => if isBlank c then some (blanks rest) else none
  | [] => none

def gaps (text : Text) : Text :=
  text.dropWhile isInlineBlank

def gaps1 (text : Text) : Option Text :=
  match text with
  | c :: rest => if isInlineBlank c then some (gaps rest) else none
  | [] => none

def nameOf (p : Char → Bool) (text : Text) : Option (Text × Text) :=
  match text with
  | c :: rest => if isNameStart c then some (c :: rest.takeWhile p, rest.dropWhile p) else none
  | [] => none

def name (text : Text) : Option (Text × Text) :=
  nameOf isNameRest text

def upToSemicolon (text : Text) : Option (Text × Text) :=
  match text.dropWhile (· != ';') with
  | _ :: rest => some (text.takeWhile (· != ';'), rest)
  | [] => none

/-- The part of a nonempty text after its leading white space. Of white space alone, the last
character remains. -/
def content (text : Text) : Option Text :=
  match text.dropWhile isBlank with
  | [] => text.getLast?.map ([·])
  | c :: rest => some (c :: rest)

end PageScript.Text
