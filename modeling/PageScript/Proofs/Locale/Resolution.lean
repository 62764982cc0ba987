import PageScript.Directive.Resource
import PageScript.Proofs.Locale.Qualification
import PageScript.Proofs.Locale.Table

/-! What becomes of a reference (`resolve_eq`). -/

open List

namespace PageScript

open Text Option

namespace Locale

theorem longest?_eq {lookup : String → Option String} {segments : List Text} {count bound : Nat}
    {text : String} (positive : 0 < count) (within : count ≤ bound)
    (found : lookup (dotted (segments.take count)) = some text)
    (longer : ∀ more, count < more → more ≤ bound → lookup (dotted (segments.take more)) = none) :
    longest? lookup segments bound = some (text, count) := by
  induction bound with
  | zero => omega
  | succ bound ih =>
    rw [longest?]
    rcases Nat.lt_or_ge bound count with last | earlier
    · rw [show bound + 1 = count by omega, found]
    · rw [longer (bound + 1) (by omega) (Nat.le_refl _)]
      exact ih earlier fun more above below => longer more above (Nat.le_succ_of_le below)

/-- A reference becomes the literal of the longest start of its key that has a text, and the segments
after that start. -/
theorem resolve_eq {language : String} {modules : LocaleTable} {plugin : Option LocaleTable}
    {reference : Reference} {count : Nat} {text : String} (positive : 0 < count)
    (within : count ≤ reference.segments.length)
    (found : lookup? language modules plugin reference.space
      (dotted (reference.segments.take count)) = some text)
    (longer : ∀ more, count < more → more ≤ reference.segments.length →
      lookup? language modules plugin reference.space
        (dotted (reference.segments.take more)) = none) :
    reference.resolve language modules plugin =
      literalWith text (reference.segments.drop count) := by
  unfold Reference.resolve
  dsimp only
  rw [longest?_eq positive within found longer]

theorem lookup?_of_module {language text : String} {modules : LocaleTable} {name : Text}
    {key : String} (has : modules.get? language (String.ofList name ++ "." ++ key) = some text)
    (plugin : Option LocaleTable) :
    lookup? language modules plugin (some name) key = some text := by
  unfold lookup?
  dsimp only
  rw [has]
  rfl

end Locale

namespace Directive

private theorem selfReference_blind : Blind selfReference :=
  fun _ _ _ => rfl

private theorem isBlank_quote : isBlank '\x22' = false := by decide

private theorem selfReference_stops : StopsAt '\x22' selfReference := by
  intro before text rest
  have begun : expect "lx.self(" (text ++ '\x22' :: rest) =
      (expect "lx.self(" text).map (· ++ '\x22' :: rest) :=
    after?_stop (by decide) text rest
  simp only [selfReference, begun, bind_eq_bind]
  cases expect "lx.self(" text with
  | none => rfl
  | some inner =>
    simp only [map_some, bind_some, blanks, dropWhile_stop isBlank_quote]
    rw [run1?_stop (by decide)]
    cases run1? (fun c => isNameRest c || c == '.') (inner.dropWhile isBlank) with
    | none => rfl
    | some found =>
      have closed : expect ")" (found.2.dropWhile isBlank ++ '\x22' :: rest) =
          (expect ")" (found.2.dropWhile isBlank)).map (· ++ '\x22' :: rest) :=
        after?_stop (by decide) _ rest
      simp only [map_some, bind_some, dropWhile_stop isBlank_quote, closed]
      cases expect ")" (found.2.dropWhile isBlank) <;> rfl

private theorem resolveSelf_quote (left right : Text) :
    resolveSelf (left ++ '\x22' :: right) = resolveSelf left ++ '\x22' :: resolveSelf right := by
  unfold resolveSelf
  rw [Text.replace, selfReference_stops.cut selfReference_blind rfl, writePieces_append]
  rfl

theorem resolveSelf_literal (left : Text) (text : String) (right : Text) :
    resolveSelf (left ++ Json.quoted text.toList ++ right) =
      resolveSelf left ++ resolveSelf (Json.quoted text.toList) ++ resolveSelf right := by
  have whole : ∀ before after, resolveSelf (before ++ Json.quoted text.toList ++ after) =
      resolveSelf before ++ '\x22' ::
        (resolveSelf (text.toList.flatMap Json.escaped) ++ '\x22' :: resolveSelf after) := by
    intro before after
    rw [← resolveSelf_quote, ← resolveSelf_quote]
    simp only [Json.quoted, cons_append, append_assoc, nil_append]
  have alone := whole [] []
  rw [nil_append, append_nil] at alone
  rw [whole left right, alone]
  simp only [show resolveSelf [] = [] from rfl, cons_append, append_assoc, nil_append]

end Directive

end PageScript
