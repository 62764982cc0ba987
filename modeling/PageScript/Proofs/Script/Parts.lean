import PageScript.Proofs.Script.Matching
import PageScript.Proofs.Script.Stripping
import PageScript.Proofs.Text.Lines

/-! Lists of parts between separators, read one character at a time (`topLevelParts_join`). -/

open List

namespace PageScript.Script

open Text (cutFrom join Trimmed)

variable {sep : Char} {depth : Int} {inside : Inside} {tail rest : Text}

/-- How far a list is read: the literal that is open, and how many more brackets were opened than
closed. -/
structure Gauge where
  inside : Option Inside
  depth : Int

namespace Gauge

def start : Gauge := ⟨none, 0⟩

/-- A character outside literals. A separator has no gauge after it. -/
def outside (sep : Char) (depth : Int) (c : Char) : Option Gauge :=
  if quoted : isQuote c = true then some ⟨some (.literal ⟨c, quoted⟩ false), depth⟩
  else if (closerOf? c).isSome then some ⟨none, depth + 1⟩
  else if isCloser c then some ⟨none, depth - 1⟩
  else if c = sep ∧ depth = 0 then none
  else some ⟨none, depth⟩

def step (sep : Char) (gauge : Gauge) (c : Char) : Option Gauge :=
  match gauge.inside with
  | none => outside sep gauge.depth c
  | some inside =>
      match inside.move c with
      | .stop => outside sep gauge.depth c
      | .last => some ⟨none, gauge.depth⟩
      | .on next => some ⟨some next, gauge.depth⟩

end Gauge

open Gauge

/-- A text that has no separator outside brackets and literals, closes as many brackets as it opens and
leaves no literal open. -/
def Whole (sep : Char) (text : Text) : Prop :=
  text.foldlM (step sep) start = some start

def splitFrom (sep : Char) : Gauge → Text → Text → List Text
  | _, part, [] => [part.reverse]
  | gauge, part, c :: rest =>
      match gauge.step sep c with
      | some next => splitFrom sep next (c :: part) rest
      | none => part.reverse :: splitFrom sep start [] rest

theorem splitFrom_step {gauge next : Gauge} {c : Char} (stepped : gauge.step sep c = some next)
    (part rest : Text) : splitFrom sep gauge part (c :: rest) = splitFrom sep next (c :: part) rest := by
  rw [splitFrom, stepped]

private theorem splitFrom_append {gauge next : Gauge} {text : Text}
    (ran : text.foldlM (step sep) gauge = some next) (part rest : Text) :
    splitFrom sep gauge part (text ++ rest) = splitFrom sep next (text.reverse ++ part) rest := by
  induction text generalizing gauge part with
  | nil =>
    cases ran
    rfl
  | cons c text ih =>
    rw [foldlM_cons] at ran
    obtain ⟨middle, stepped, ran⟩ := Option.bind_eq_some_iff.mp ran
    rw [cons_append, splitFrom_step stepped, ih ran, reverse_cons, append_assoc]
    rfl

/-- A literal is one stretch of its part. -/
theorem splitFrom_pass (ended : inside.pass (tail ++ rest) = rest) (part : Text) :
    splitFrom sep ⟨some inside, depth⟩ part (tail ++ rest) =
      splitFrom sep ⟨none, depth⟩ (tail.reverse ++ part) rest := by
  induction tail generalizing inside part with
  | nil =>
    rcases Inside.pass_eq_self ended with rfl | ⟨more, rfl, stops⟩
    · rfl
    · have alike : step sep ⟨some inside, depth⟩ '\n' = step sep ⟨none, depth⟩ '\n' := by
        simp only [step, stops]
      rw [nil_append, splitFrom, alike]
      rfl
  | cons c tail ih =>
    rw [reverse_cons, append_assoc]
    rcases Inside.pass_cons_eq ended with ⟨last, rfl⟩ | ⟨next, moved, ended⟩
    · exact splitFrom_step (by simp only [step, last]) part rest
    · have stepped : step sep ⟨some inside, depth⟩ c = some ⟨some next, depth⟩ := by
        simp only [step, moved]
      rw [cons_append, splitFrom_step stepped, ih ended]
      rfl

private theorem literalOnly_cons (before : Text) (c : Char) (rest : Text) :
    literalOnly before (c :: rest) =
      if quoted : isQuote c = true then some ((), (Inside.literal ⟨c, quoted⟩ false).pass rest)
      else none := by
  rw [literalOnly]
  split <;> simp [Inside.pass_literal, afterLiteral]

theorem literalOnly_consumes : Text.Consumes literalOnly := by
  intro before text _ rest found
  cases text with
  | nil => cases found
  | cons c text =>
    rw [literalOnly_cons] at found
    split at found
    · cases found
      obtain ⟨tail, whole⟩ := Inside.pass_suffix _ text
      exact ⟨c :: tail, cons_ne_nil c tail, congrArg (c :: ·) whole.symm⟩
    · cases found

private theorem partsFrom_cut (part : Text) (depth : Int) (before text : Text) :
    partsFrom sep part depth (cutFrom literalOnly before 0 text) =
      splitFrom sep ⟨none, depth⟩ part text := by
  generalize made : cutFrom literalOnly before 0 text = pieces
  induction pieces generalizing part depth before text with
  | nil =>
    cases text with
    | nil => rfl
    | cons c rest =>
      rw [cutFrom] at made
      split at made <;> cases made
  | cons piece pieces ih =>
    rcases literalOnly_consumes.cons_inv made with
      ⟨c, rest, rfl, unseen, rfl, others⟩ | ⟨c, tail, rest, _, rfl, seen, rfl, others⟩
    · have plain : ¬ isQuote c = true := by
        intro quoted
        rw [literalOnly_cons, dif_pos quoted] at unseen
        cases unseen
      have later (part : Text) (depth : Int) := ih part depth _ _ others
      rw [partsFrom, splitFrom, step, outside, dif_neg plain]
      dsimp only
      by_cases opens : (closerOf? c).isSome = true
      · rw [if_pos opens, if_pos opens, later]
      · rw [if_neg opens, if_neg opens]
        by_cases closes : isCloser c = true
        · rw [if_pos closes, if_pos closes, later]
        · rw [if_neg closes, if_neg closes]
          by_cases ends : c = sep ∧ depth = 0
          · rw [if_pos ends, if_pos ends, later, ends.2]
            rfl
          · rw [if_neg ends, if_neg ends, later]
    · rw [cons_append, literalOnly_cons] at seen
      split at seen
      · rename_i quoted
        have ended := (Prod.mk.inj (Option.some.inj seen)).2
        have opened : step sep ⟨none, depth⟩ c = some ⟨some (.literal ⟨c, quoted⟩ false), depth⟩ := by
          rw [step, outside, dif_pos quoted]
        rw [partsFrom, ih _ _ _ _ others, cons_append, splitFrom_step opened, splitFrom_pass ended,
          reverse_cons, append_assoc]
        rfl
      · cases seen

def isSeparator (c : Char) : Bool :=
  ! isBlank c && ! isQuote c && ! isBracket c

theorem step_separator (separates : isSeparator sep = true) : step sep start sep = none := by
  obtain ⟨⟨_, plain⟩, flat⟩ : (isBlank sep = false ∧ isQuote sep = false) ∧ isBracket sep = false := by
    simpa [isSeparator] using separates
  simp_all [isBracket, step, start, outside]

theorem splitFrom_join (separates : isSeparator sep = true) {texts : List Text} (more : texts ≠ [])
    (each : ∀ text ∈ texts, Whole sep text) : splitFrom sep start [] (join [sep] texts) = texts := by
  induction texts with
  | nil => exact absurd rfl more
  | cons first others ih =>
    have own (rest : Text) := splitFrom_append (each first mem_cons_self) [] rest
    cases others with
    | nil =>
      have alone := own []
      rw [append_nil, append_nil, splitFrom, reverse_reverse] at alone
      exact alone
    | cons second others =>
      rw [join, append_assoc, own, singleton_append, splitFrom, step_separator separates, append_nil,
        reverse_reverse]
      exact congrArg (first :: ·)
        (ih (cons_ne_nil second others) fun text member => each text (mem_cons_of_mem first member))
      exact cons_ne_nil second others

/-- A part as it is written, with white space around it. -/
structure Spaced (sep : Char) where
  before : Text
  part : Text
  after : Text
  leading : ∀ c ∈ before, isBlank c = true
  trimmed : Trimmed part
  whole : Whole sep part
  trailing : ∀ c ∈ after, isBlank c = true

namespace Spaced

def text (item : Spaced sep) : Text :=
  item.before ++ item.part ++ item.after

private theorem foldlM_blank (separates : isSeparator sep = true) {gap : Text}
    (blank : ∀ c ∈ gap, isBlank c = true) : gap.foldlM (step sep) start = some start := by
  induction gap with
  | nil => rfl
  | cons c gap ih =>
    have here := blank c mem_cons_self
    have other : c ≠ sep := by
      rintro rfl
      simp [isSeparator, here] at separates
    have ne {d : Char} (filled : isBlank d = false) : c ≠ d := by
      rintro rfl
      rw [here] at filled
      cases filled
    have unquoted : isQuote c = false := by
      simp [isQuote, ne (d := '\x27') rfl, ne (d := '\x22') rfl, ne (d := '\x60') rfl]
    have unopened : closerOf? c = none := by
      simp [closerOf?, ne (d := '{') rfl, ne (d := '(') rfl, ne (d := '[') rfl]
    have unclosed : isCloser c = false := by
      simp [isCloser, ne (d := '}') rfl, ne (d := ')') rfl, ne (d := ']') rfl]
    have stepped : step sep start c = some start := by
      simp [step, start, outside, other, unquoted, unopened, unclosed]
    rw [foldlM_cons, stepped]
    exact ih fun d member => blank d (mem_cons_of_mem c member)

theorem whole_text (separates : isSeparator sep = true) (item : Spaced sep) : Whole sep item.text := by
  rw [Whole, text, foldlM_append, foldlM_append, foldlM_blank separates item.leading]
  have own : item.part.foldlM (step sep) start = some start := item.whole
  rw [Option.bind_eq_bind, Option.bind_some, own]
  exact foldlM_blank separates item.trailing

end Spaced

/-- The parts of a list are what it was written from, whatever white space is around them. -/
theorem topLevelParts_join (separates : isSeparator sep = true) (items : List (Spaced sep)) :
    topLevelParts sep (join [sep] (items.map Spaced.text)) = items.map Spaced.part := by
  cases items with
  | nil => rfl
  | cons first others =>
    have each : ∀ text ∈ (first :: others).map Spaced.text, Whole sep text := by
      intro text member
      obtain ⟨item, _, rfl⟩ := mem_map.mp member
      exact item.whole_text separates
    have split := splitFrom_join separates (by simp) each
    have trimmed (item : Spaced sep) : Text.trim item.text = item.part :=
      item.trimmed.trim item.leading item.trailing
    rw [topLevelParts, Text.cut, partsFrom_cut]
    change (((splitFrom sep start [] _).map Text.trim).filter _) = _
    rw [split, map_map, filter_eq_self.mpr]
    · exact map_congr_left fun item _ => trimmed item
    · intro part member
      obtain ⟨item, _, rfl⟩ := mem_map.mp member
      simp [trimmed, item.trimmed.more]

theorem topLevelParts_join_nested :
    isSeparator ',' = true ∧
      topLevelParts ',' "f(a, b) ,\n'(,\\''".toList = ["f(a, b)".toList, "'(,\\''".toList] :=
  ⟨rfl, topLevelParts_join (rfl : isSeparator ',' = true) [
    { before := [], part := "f(a, b)".toList, after := [' '], leading := by decide
      trimmed := ⟨by decide, by simp; decide, by simp; decide⟩, whole := rfl, trailing := by decide },
    { before := ['\n'], part := "'(,\\''".toList, after := [], leading := by decide
      trimmed := ⟨by decide, by simp; decide, by simp; decide⟩, whole := rfl, trailing := by decide }]⟩

end PageScript.Script
