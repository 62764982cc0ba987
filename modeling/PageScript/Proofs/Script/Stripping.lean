import PageScript.Proofs.Script.Lexeme

/-!
Comments taken out twice. Whether a slash opens a pattern is judged by the text before it, comments
included; where a second pass judges alike, it finds no comment (`stripComments_settled`).
-/

open List

namespace PageScript.Script

open Text (cut cutFrom writePieces newlines)

variable {inside : Inside} {rest tail : Text}

namespace Inside

theorem pass_eq_self (ended : inside.pass rest = rest) :
    rest = [] ∨ ∃ more, rest = '\n' :: more ∧ inside.move '\n' = .stop := by
  cases rest with
  | nil => exact .inl rfl
  | cons c more =>
    right
    rw [pass] at ended
    split at ended
    · rename_i stops
      have newline : c = '\n' := by
        unfold move at stops
        grind
      exact ⟨more, by rw [newline], newline ▸ stops⟩
    · exact absurd ended (cons_ne_self c more).symm
    · rename_i next _
      have shorter := (next.pass_suffix more).length_le
      rw [ended, length_cons] at shorter
      omega

theorem pass_cons_eq {c : Char} (ended : inside.pass (c :: tail ++ rest) = rest) :
    (inside.move c = .last ∧ tail = []) ∨
      ∃ next, inside.move c = .on next ∧ next.pass (tail ++ rest) = rest := by
  rw [cons_append, pass] at ended
  split at ended
  · have size := congrArg List.length ended
    simp at size
    omega
  · rename_i last
    exact .inl ⟨last, append_left_eq_self.mp ended⟩
  · rename_i next moved
    exact .inr ⟨next, moved, ended⟩

/-- Where a lexeme ends does not hang on what follows, unless that is the end of the line or of the text. -/
theorem pass_append {other : Text} (ended : inside.pass (tail ++ rest) = rest)
    (alike : rest.head? ≠ some '/' → other.head? = rest.head?) :
    inside.pass (tail ++ other) = other := by
  induction tail generalizing inside with
  | nil =>
    rcases pass_eq_self ended with rfl | ⟨more, rfl, stops⟩
    · rw [head?_eq_none_iff.mp (alike nofun)]
      rfl
    · obtain ⟨more, rfl⟩ := head?_eq_some_iff.mp (alike (by simp))
      rw [nil_append, pass, stops]
  | cons c tail ih =>
    rw [cons_append, pass]
    rcases pass_cons_eq ended with ⟨last, rfl⟩ | ⟨next, moved, ended⟩
    · rw [last]
      rfl
    · rw [moved]
      exact ih ended

def isComment : Inside → Bool
  | .literal _ _ | .pattern _ _ => false
  | .lineComment | .blockOpening | .blockComment _ => true

private theorem getLast?_of_isComment (comment : inside.isComment = true)
    (ended : inside.pass (tail ++ rest) = rest) (slash : rest.head? = some '/') :
    tail.getLast? = some '/' := by
  induction tail generalizing inside with
  | nil =>
    rcases pass_eq_self ended with rfl | ⟨more, rfl, _⟩
    · cases slash
    · simp at slash
  | cons c tail ih =>
    rcases pass_cons_eq ended with ⟨last, rfl⟩ | ⟨next, moved, ended⟩
    · unfold move isComment at *
      grind
    · have later : next.isComment = true := by
        unfold move isComment at *
        grind
      rw [getLast?_cons, ih later ended]
      rfl

end Inside

section

variable {before left : Text} {c : Char} {next : Option Char} {inside : Inside}

private theorem opens?_comment (opens : opens? before c next = some (.comment, inside)) :
    c = '/' ∧ inside.isComment = true := by
  unfold opens? at opens
  grind [Inside.isComment]

private theorem opens?_literal (opens : opens? before c next = some (.literal, inside))
    (judged : c = '/' → opensPattern before = opensPattern left)
    (colon : c = '/' → before.head? = some ':' → left.head? = some ':') :
    opens? left c next = some (.literal, inside) := by
  unfold opens? at *
  grind

private theorem opens?_none {other : Option Char} (opens : opens? before c next = none)
    (judged : c = '/' → opensPattern before = opensPattern left)
    (alike : next ≠ some '/' → other = next) : opens? left c other = none := by
  unfold opens? at *
  grind

end

def remains (pieces : List (Piece Lexeme)) : Text :=
  writePieces (fun source kind => kind.kept source) pieces

/-- At every slash that stays, what comes before it and what is left of that lead to the same judgement. -/
def settledFrom : Text → Text → List (Piece Lexeme) → Bool
  | _, _, [] => true
  | before, left, piece :: rest =>
      (piece.source.head? != some '/' || piece.value? == some .comment ||
        opensPattern before == opensPattern left) &&
        settledFrom (piece.source.reverse ++ before) ((remains [piece]).reverse ++ left) rest

def Settled (text : Text) : Prop :=
  settledFrom [] [] (cut lexeme text) = true

instance (text : Text) : Decidable (Settled text) :=
  inferInstanceAs (Decidable (_ = _))

def uncommented : Piece Lexeme → List (Piece Lexeme)
  | .plain c => [.plain c]
  | .found lexeme .literal => [.found lexeme .literal]
  | .found lexeme .comment => (List.replicate (newlines lexeme) '\n').map .plain

private theorem remains_uncommented (pieces : List (Piece Lexeme)) :
    remains (pieces.flatMap uncommented) = remains pieces := by
  induction pieces with
  | nil => rfl
  | cons piece rest ih =>
    have first : remains (uncommented piece) = remains [piece] := by
      cases piece with
      | plain c => rfl
      | found lexeme kind =>
        cases kind with
        | literal => rfl
        | comment => exact (Text.writePieces_plain _ _).trans (append_nil _).symm
    rw [flatMap_cons, ← singleton_append, remains, remains, Text.writePieces_append,
      Text.writePieces_append]
    exact congr (congrArg _ first) ih

private theorem head?_remains {before text : Text} (other : text.head? ≠ some '/') :
    (remains (cutFrom lexeme before 0 text)).head? = text.head? := by
  cases text with
  | nil => rfl
  | cons c rest =>
    rw [cutFrom, lexeme_eq]
    cases opens : opens? before c rest.head? with
    | none => rfl
    | some found =>
      obtain ⟨kind, inside⟩ := found
      cases kind with
      | literal => rfl
      | comment => exact absurd (congrArg some (opens?_comment opens).1) other

private theorem cutFrom_remains {before text left : Text} {pieces : List (Piece Lexeme)}
    (pieced : cutFrom lexeme before 0 text = pieces) (settled : settledFrom before left pieces = true)
    (colon : text.head? = some '/' → before.head? = some ':' → left.head? = some ':') :
    cutFrom lexeme left 0 (remains pieces) = pieces.flatMap uncommented := by
  induction pieces generalizing before text left with
  | nil => rfl
  | cons piece later ih =>
    rw [settledFrom, Bool.and_eq_true] at settled
    rcases lexeme_consumes.cons_inv pieced with
      ⟨c, rest, rfl, seen, rfl, rfl⟩ | ⟨c, tail, rest, kind, rfl, seen, rfl, rfl⟩
    · have judged : c = '/' → opensPattern before = opensPattern left := by
        rintro rfl
        simpa [Piece.source, Piece.value?] using settled.1
      have again : lexeme left (c :: remains (cutFrom lexeme (c :: before) 0 rest)) = none := by
        rw [lexeme_eq, Option.map_eq_none_iff] at seen ⊢
        exact opens?_none seen judged head?_remains
      change cutFrom lexeme left 0 (c :: remains (cutFrom lexeme (c :: before) 0 rest)) = _
      rw [cutFrom, again]
      exact congrArg (.plain c :: ·) (ih rfl settled.2 fun _ same => same)
    · obtain ⟨inside, opens, ended⟩ := lexeme_eq_some seen
      have alike := @head?_remains ((c :: tail).reverse ++ before) rest
      generalize sliced : cutFrom lexeme ((c :: tail).reverse ++ before) 0 rest = later at *
      cases kind with
      | literal =>
        have judged : c = '/' → opensPattern before = opensPattern left := by
          rintro rfl
          simpa [Piece.source, Piece.value?] using settled.1
        have next : (tail ++ remains later).head? = (tail ++ rest).head? := by
          cases tail with
          | nil => rcases Inside.pass_eq_self ended with rfl | ⟨more, rfl, _⟩ <;> exact alike (by simp)
          | cons d tail => rfl
        have again : lexeme left (c :: tail ++ remains later) = some (.literal, remains later) := by
          rw [cons_append, lexeme_eq, next,
            opens?_literal opens judged fun same => colon (congrArg some same), Option.map_some,
            Inside.pass_append ended alike]
        have kept : remains [.found (c :: tail) .literal] = c :: tail := append_nil _
        change cutFrom lexeme left 0 (c :: tail ++ remains later) = _
        rw [Text.cutFrom_found (cons_ne_nil c tail) again]
        rw [kept] at settled
        refine congrArg (.found (c :: tail) .literal :: ·) (ih sliced settled.2 fun _ same => ?_)
        rw [head?_append, head?_reverse, getLast?_cons] at same ⊢
        exact same
      | comment =>
        obtain ⟨rfl, comment⟩ := opens?_comment opens
        let ends := List.replicate (newlines ('/' :: tail)) '\n'
        have kept : remains [.found ('/' :: tail) .comment] = ends := append_nil _
        have silent : Text.Silent lexeme ends (remains later) := by
          intro before part more within
          obtain ⟨c, part, rfl⟩ := exists_cons_of_ne_nil more
          rw [eq_of_mem_replicate (within.subset mem_cons_self), cons_append,
            lexeme_eq]
          rfl
        rw [kept] at settled
        change cutFrom lexeme left 0 (ends ++ remains later) = _
        rw [Text.cutFrom_silent silent]
        refine congrArg (_ ++ ·) (ih sliced settled.2 fun slash same => ?_)
        have last := Inside.getLast?_of_isComment comment ended slash
        rw [head?_append, head?_reverse, getLast?_cons, last] at same
        cases same

/-- Judged alike, the second pass cuts what is left into what is left of the pieces of the first. -/
theorem stripComments_settled {text : Text} (settled : Settled text) :
    cut lexeme (stripComments text) = (cut lexeme text).flatMap uncommented ∧
      stripComments (stripComments text) = stripComments text := by
  have again := cutFrom_remains rfl settled fun _ same => same
  refine ⟨again, ?_⟩
  exact (congrArg remains again).trans (remains_uncommented _)

theorem stripComments_settled_halved :
    Settled "a = /[/*]/; // half\nb /* c */ / 2".toList ∧
      stripComments (stripComments "a = /[/*]/; // half\nb /* c */ / 2".toList) =
        stripComments "a = /[/*]/; // half\nb /* c */ / 2".toList := by
  have settled : Settled "a = /[/*]/; // half\nb /* c */ / 2".toList := by decide +kernel
  exact ⟨settled, (stripComments_settled settled).2⟩

end PageScript.Script
