import PageScript.Text.Basic

/-! Cutting a text at the occurrences of something, from left to right. -/

namespace PageScript

/-- A piece of a cut text: a character of its own, or an occurrence with its value. -/
inductive Piece (α : Type) where
  | plain (c : Char)
  | found (lexeme : Text) (value : α)

namespace Piece

variable {α : Type}

def source : Piece α → Text
  | .plain c => [c]
  | .found lexeme _ => lexeme

def value? : Piece α → Option α
  | .plain _ => none
  | .found _ value => some value

end Piece

/-- A recogniser sees the characters before a place, nearest first, and the text from there on. It
answers with what it found and with the text after the occurrence. -/
abbrev Recogniser (α : Type) := Text → Text → Option (α × Text)

namespace Text

variable {α σ : Type}

/-- Cuts the text after its next `skip` characters, which belong to the occurrence before it. -/
def cutFrom (recognise : Recogniser α) : Text → Nat → Text → List (Piece α)
  | _, _, [] => []
  | before, skip + 1, c :: rest => cutFrom recognise (c :: before) skip rest
  | before, 0, c :: rest =>
      match recognise before (c :: rest) with
      | some (value, after) =>
          .found (c :: rest.take (rest.length - after.length)) value ::
            cutFrom recognise (c :: before) (rest.length - after.length) rest
      | none => .plain c :: cutFrom recognise (c :: before) 0 rest

def cut (recognise : Recogniser α) (text : Text) : List (Piece α) :=
  cutFrom recognise [] 0 text

theorem flatMap_source_cutFrom (recognise : Recogniser α) (before text : Text) (skip : Nat) :
    (cutFrom recognise before skip text).flatMap Piece.source = text.drop skip := by
  induction text generalizing before skip with
  | nil => simp [cutFrom]
  | cons c rest ih =>
      cases skip with
      | succ skip => simp [cutFrom, ih]
      | zero =>
          simp only [cutFrom]
          split
          · simp [Piece.source, ih]
          · simp [Piece.source, ih]

theorem flatMap_source_cut (recognise : Recogniser α) (text : Text) :
    (cut recognise text).flatMap Piece.source = text := by
  simp [cut, flatMap_source_cutFrom]

def occurrences (recognise : Recogniser α) (text : Text) : List α :=
  (cut recognise text).filterMap Piece.value?

def writePieces (write : Text → α → Text) (pieces : List (Piece α)) : Text :=
  pieces.flatMap fun
    | .plain c => [c]
    | .found lexeme value => write lexeme value

def replace (recognise : Recogniser α) (write : α → Text) (text : Text) : Text :=
  writePieces (fun _ value => write value) (cut recognise text)

/-- Writes each piece anew while a state is carried from occurrence to occurrence. -/
def weave (step : σ → Text → α → Text × σ) : σ → List (Piece α) → Text × σ
  | state, [] => ([], state)
  | state, .plain c :: rest =>
      let (text, final) := weave step state rest
      (c :: text, final)
  | state, .found lexeme value :: rest =>
      let (written, next) := step state lexeme value
      let (text, final) := weave step next rest
      (written ++ text, final)

/-- The same with a step that may have no answer; then there is none at all. -/
def weave? (step : σ → Text → α → Option (Text × σ)) : σ → List (Piece α) → Option (Text × σ)
  | state, [] => some ([], state)
  | state, .plain c :: rest =>
      (weave? step state rest).map fun (text, final) => (c :: text, final)
  | state, .found lexeme value :: rest =>
      (step state lexeme value).bind fun (written, next) =>
        (weave? step next rest).map fun (text, final) => (written ++ text, final)

end Text

end PageScript
