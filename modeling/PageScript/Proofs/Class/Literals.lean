import Mathlib.Data.List.Basic
import PageScript.Proofs.Class.Unbalanced
import PageScript.Proofs.Script.Lexeme
import PageScript.Proofs.Script.Matching
import PageScript.Proofs.Script.Solid

/-! Literals in the body of a class. Bracket matching knows no patterns (`desugar_of_legible`). -/

open List

namespace PageScript

open Text Option

namespace Script

private theorem opens?_eq_none {before : Text} {c : Char} {next : Option Char}
    (plain : opens? before c next = none) :
    isQuote c = false ∧ (c = '/' → ∀ d ∈ next, d ≠ '/' ∧ d ≠ '*') := by
  unfold opens? at plain
  grind [isQuote, mem_def]

theorem passedOver_quote {before rest : Text} {c : Char} (quoted : isQuote c = true) :
    passedOver before (c :: rest) = some ((), afterLiteral (c :: rest)) := by
  have apart : c ≠ '/' := by
    rintro rfl
    cases quoted
  rw [passedOver, if_pos quoted]
  · exact fun _ slash => absurd slash apart
  · exact fun _ slash => absurd slash apart

/-- Bracket matching passes over patterns without harm: each closes what it opens, and no comment begins
where it ends. There are no comments. -/
def legible : List (Piece Lexeme) → Bool
  | [] => true
  | .plain _ :: rest => legible rest
  | .found _ .comment :: _ => false
  | .found literal .literal :: rest =>
      (literal.head? != some '/' || decide (Closed literal) &&
        (rest.flatMap Piece.source).head?.all fun c => c != '/' && c != '*') && legible rest

private theorem closesAt_legible {base : List Char} (more : base ≠ []) {right : List (Piece Lexeme)}
    (next : ∀ c ∈ (right.flatMap Piece.source).head?, c ≠ '/' ∧ c ≠ '*')
    {inner : List (Piece Lexeme)} (legible : legible inner = true) {before text : Text}
    (pieces : cutFrom lexeme before 0 text = inner ++ right) {opened final : List Char}
    (ran : pending opened inner = some final) (position : Nat) :
    Scan.closesAt ⟨.code false, opened ++ base⟩ position text =
      Scan.closesAt ⟨.code false, final ++ base⟩ (position + (inner.flatMap Piece.source).length)
        (right.flatMap Piece.source) := by
  induction inner generalizing before text opened position with
  | nil =>
    cases ran
    have whole := flatMap_source_cutFrom lexeme before text 0
    rw [pieces] at whole
    exact congrArg _ whole.symm
  | cons piece inner ih =>
    rw [flatMap_cons, length_append, ← Nat.add_assoc]
    rw [cons_append] at pieces
    rcases lexeme_consumes.cons_inv pieces with
      ⟨c, rest, rfl, seen, rfl, others⟩ | ⟨c, tail, rest, kind, rfl, seen, rfl, others⟩
    · rw [pending_plain] at ran
      obtain ⟨between, taken, ran⟩ := bind_eq_some_iff.mp ran
      rw [lexeme_eq, map_eq_none_iff] at seen
      obtain ⟨unquoted, apart⟩ := opens?_eq_none seen
      have mode : Mode.next (.code false) c = .code (c == '/') := by simp [Mode.next, unquoted]
      have open_ : (between ++ base).isEmpty = false := by simp [more]
      rw [Scan.closesAt, Scan.step_code, bracket_append taken base, mode]
      dsimp only [map_some]
      rw [open_, if_neg Bool.false_ne_true, Scan.closesAt_slash fun slash => apart (beq_iff_eq.mp slash)]
      exact ih legible others ran (position + 1)
    · obtain ⟨inside, opens, ended⟩ := lexeme_eq_some seen
      cases kind with
      | comment => cases legible
      | literal =>
        rw [Script.legible, Bool.and_eq_true] at legible
        obtain ⟨harmless, later⟩ := legible
        refine Eq.trans ?_ (ih later others ran (position + (c :: tail).length))
        by_cases slash : c = '/'
        · subst slash
          have whole := flatMap_source_cutFrom lexeme (('/' :: tail).reverse ++ before) rest 0
          rw [others, flatMap_append, drop_zero] at whole
          simp only [head?_cons, bne_self_eq_false, Bool.false_or, Bool.and_eq_true,
            decide_eq_true_eq] at harmless
          obtain ⟨slash, ran⟩ := harmless.1.run opened
          rw [Scan.closesAt_append ran more]
          refine Scan.closesAt_slash (fun _ d first => ?_) _
          rw [← whole, head?_append] at first
          rcases or_eq_some_iff.mp first with own | ⟨_, behind⟩
          · rw [own] at harmless
            simpa using harmless.2
          · exact next d behind
        · have quoted : ∃ quoted : isQuote c = true, inside = .literal ⟨c, quoted⟩ false := by
            unfold opens? at opens
            rw [if_neg slash] at opens
            split at opens
            · rename_i quoted
              cases opens
              exact ⟨quoted, rfl⟩
            · cases opens
          obtain ⟨quoted, rfl⟩ := quoted
          rw [Inside.pass_literal] at ended
          have found := @passedOver_quote before (tail ++ rest) c quoted
          rw [afterLiteral, ended] at found
          have waiting : opened ++ base ≠ [] := append_ne_nil_of_right_ne_nil opened more
          have read := (Scan.passedOver_closesAt found waiting position).2
          rw [length_append, Nat.add_sub_cancel] at read
          rw [cons_append, read, length_cons, Nat.add_assoc position, Nat.add_comm 1]

end Script

namespace ClassSugar

open Script

/-- The brace at a place opens a body that is balanced apart from its literals, and these are legible. -/
def LegibleBody (code : Text) (brace : Nat) (inner : List (Piece Lexeme)) : Prop :=
  ∃ left right, cut lexeme code = left ++ .plain '{' :: (inner ++ .plain '}' :: right) ∧
    (left.flatMap Piece.source).length = brace ∧ Dyck (brackets inner) ∧ legible inner = true

theorem LegibleBody.closing? {code : Text} {brace : Nat} {inner : List (Piece Lexeme)}
    (body : LegibleBody code brace inner) :
    Script.closing? (code.drop brace) = some (1 + (inner.flatMap Piece.source).length) := by
  obtain ⟨left, right, pieces, rfl, balanced, legible⟩ := body
  have later := lexeme_consumes.split (pieces.trans (append_cons _ _ _))
  have whole := flatMap_source_cut lexeme code
  have passed := closesAt_legible (cons_ne_nil '}' []) (by simp [Piece.source]) legible later
    (dyck_iff.mp balanced) 1
  rw [pieces, flatMap_append, flatMap_cons] at whole
  rw [← whole, drop_left]
  exact (closing?_opening rfl _).trans passed

/-- A class with a legible body is closed by the brace after it, so that it is another one if one stops
the desugaring. -/
theorem desugar_of_legible {file : String} {code : Text} {brace : Nat} {inner : List (Piece Lexeme)}
    (body : LegibleBody code brace inner) :
    closing? (code.drop brace) = some (1 + (inner.flatMap Piece.source).length) ∧
      ∀ violation, desugar file code = .error violation →
        ∃ start other, .header start other ∈ marks code ∧ other ≠ brace ∧
          violation = unbalanced file code start (slice code start (other + 1))
            (ClassHeader.kind (slice code start (other + 1))) := by
  refine ⟨body.closing?, fun violation failed => ?_⟩
  obtain ⟨start, other, header, unclosed, _, same⟩ := desugarFrom_eq_error failed
  refine ⟨start, other, header, ?_, same⟩
  rintro rfl
  rw [body.closing?] at unclosed
  cases unclosed

def methodPieces : List (Piece Lexeme) :=
  " m() \x7b r = ".toList.map .plain ++ .found "/[a](b)/".toList .literal ::
    ("; s = ".toList.map .plain ++ .found "'\x7d'".toList .literal :: "; \x7d ".toList.map .plain)

theorem desugar_of_legible_method :
    LegibleBody "class A \x7b m() \x7b r = /[a](b)/; s = '\x7d'; \x7d \x7d".toList 8 methodPieces ∧
      closing? "\x7b m() \x7b r = /[a](b)/; s = '\x7d'; \x7d \x7d".toList = some 33 := by
  have body : LegibleBody "class A \x7b m() \x7b r = /[a](b)/; s = '\x7d'; \x7d \x7d".toList 8 methodPieces :=
    ⟨"class A ".toList.map .plain, [], by cbv, rfl, dyck_iff.mpr (by decide +kernel), by decide +kernel⟩
  exact ⟨body, (@desugar_of_legible "" _ _ _ body).1⟩

end ClassSugar

end PageScript
