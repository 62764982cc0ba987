import PageScript.Proofs.Script.Scan
import PageScript.Script.Comment

/-! Comments and literals as lexemes of a script (`lexeme_eq`). -/

namespace PageScript

open List

namespace Script

namespace Inside

private theorem pass_pattern (inClass : Bool) (text : Text) :
    (Inside.pattern inClass false).pass text = text.drop (patternTail inClass text) := by
  fun_induction patternTail inClass text with
  | case8 inClass c rest alone escaping opening closing slash newline ih =>
    have plain : c ≠ '\\' := by
      rintro rfl
      cases rest with
      | nil => exact alone rfl rfl
      | cons d rest => exact escaping d rest rfl rfl
    refine (pass_of_on ?_ rest).trans ih
    simp only [move, plain, opening, closing, slash, newline, if_false]
  | _ => simp_all [pass, move]

end Inside

/-- The lexeme that begins at a character, by what comes before it and by the next character. -/
def opens? (before : Text) (c : Char) (next : Option Char) : Option (Lexeme × Inside) :=
  if c = '/' then
    if next = some '/' then
      if before.head? = some ':' then some (.literal, .pattern false false)
      else some (.comment, .lineComment)
    else if next = some '*' then some (.comment, .blockOpening)
    else if opensPattern before then some (.literal, .pattern false false)
    else none
  else if quoted : isQuote c = true then some (.literal, .literal ⟨c, quoted⟩ false)
  else none

theorem lexeme_eq (before : Text) (c : Char) (rest : Text) :
    lexeme before (c :: rest) =
      (opens? before c rest.head?).map fun opened => (opened.1, opened.2.pass rest) := by
  have ended (text : Text) : Inside.blockOpening.pass ('*' :: text) = afterBlockComment text :=
    (Inside.pass_blockComment text).1
  have flat (text : Text) : Inside.lineComment.pass ('/' :: text) = afterLineComment text :=
    Inside.pass_lineComment text
  unfold opens?
  by_cases slash : c = '/'
  · subst slash
    rw [if_pos rfl]
    by_cases line : rest.head? = some '/'
    · obtain ⟨more, rfl⟩ := head?_eq_some_iff.mp line
      by_cases colon : before.head? = some ':' <;>
        simp [lexeme, colon, flat, Inside.pass_pattern]
    · by_cases block : rest.head? = some '*'
      · obtain ⟨more, rfl⟩ := head?_eq_some_iff.mp block
        simp [lexeme, ended]
      · rw [if_neg line, if_neg block, lexeme]
        · cases opensPattern before <;> simp [Inside.pass_pattern]
        all_goals grind
  · rw [if_neg slash, lexeme]
    · split <;> simp [Inside.pass_literal, afterLiteral]
    · exact slash

theorem lexeme_eq_some {before : Text} {c : Char} {tail rest : Text} {kind : Lexeme}
    (seen : lexeme before (c :: tail ++ rest) = some (kind, rest)) :
    ∃ inside, opens? before c (tail ++ rest).head? = some (kind, inside) ∧
      inside.pass (tail ++ rest) = rest := by
  rw [cons_append, lexeme_eq] at seen
  obtain ⟨⟨_, inside⟩, opens, same⟩ := Option.map_eq_some_iff.mp seen
  obtain ⟨rfl, ended⟩ := Prod.mk.inj same
  exact ⟨inside, opens, ended⟩

theorem lexeme_consumes : Text.Consumes lexeme := by
  intro before text kind rest found
  cases text with
  | nil => cases found
  | cons c text =>
    rw [lexeme_eq] at found
    obtain ⟨⟨_, inside⟩, _, same⟩ := Option.map_eq_some_iff.mp found
    cases same
    obtain ⟨tail, whole⟩ := inside.pass_suffix text
    exact ⟨c :: tail, cons_ne_nil c tail, congrArg (c :: ·) whole.symm⟩

end Script

end PageScript
