import PageScript.Proofs.Template.Faults

/-! Templates that are indented as a whole are read alike (`read_indented`). -/

open List

namespace PageScript

open Text

def Violation.unshown (violation : Violation) : Violation :=
  { violation with context := none }

namespace Text

variable {margin line : Text}

def indentLine (margin line : Text) : Text :=
  if allBlank line then line else margin ++ line

/-- The text with a margin before each line that is not blank. -/
def indented (margin text : Text) : Text :=
  join ['\n'] ((splitOn '\n' text).map (indentLine margin))

theorem indented_of_flat (flat : '\n' ∉ line) : indented margin line = indentLine margin line := by
  rw [indented, splitOn_of_not_mem flat]
  rfl

private theorem indented_append (flat : '\n' ∉ line) (rest : Text) :
    indented margin (line ++ '\n' :: rest) = indentLine margin line ++ '\n' :: indented margin rest := by
  have more := splitOn_ne_nil '\n' rest
  rw [indented, indented, splitOn_append flat]
  cases split : splitOn '\n' rest with
  | nil => exact absurd split more
  | cons part parts =>
    simp only [map_cons, join]
    simp

variable (blank : ∀ c ∈ margin, isBlank c = true)

include blank

private theorem trimStart_margin (text : Text) : trimStart (margin ++ text) = trimStart text :=
  dropWhile_append_of_pos blank

private theorem trim_margin (text : Text) : trim (margin ++ text) = trim text := by
  rw [trim, trimStart_margin blank, trim]

end Text

namespace Template

variable {margin : Text} {reading : Reading} {registry : Registry} {file : String} {base depth : Nat}
  {line : SourceLine} {lines : List SourceLine}

/-- Two outcomes match if the values do, or the violations up to what they show. -/
def Matches {α β : Type} (shift : α → β) (moved : Except Violation β) (plain : Except Violation α) : Prop :=
  moved.mapError Violation.unshown = (plain.mapError Violation.unshown).map shift

theorem Matches.bind {α β γ δ : Type} {shift : α → β} {change : γ → δ} {moved : Except Violation β}
    {plain : Except Violation α} {next : β → Except Violation δ} {step : α → Except Violation γ}
    (first : Matches shift moved plain) (second : ∀ value, Matches change (next (shift value)) (step value)) :
    Matches change (moved >>= next) (plain >>= step) := by
  cases plain with
  | ok value =>
    cases moved with
    | ok other =>
      cases first
      exact second value
    | error violation => cases first
  | error violation =>
    cases moved with
    | ok other => cases first
    | error other => exact congrArg Except.error (Except.error.inj first)

private theorem indentOf_margin (blank : ∀ c ∈ margin, isBlank c = true) (raw : Text) :
    indentOf (margin ++ raw) = byteLength margin + indentOf raw := by
  rw [indentOf, takeWhile_append_of_pos blank, byteLength_append, indentOf]

def SourceLine.indent (margin : Text) (line : SourceLine) : SourceLine :=
  { line with text := margin ++ line.text }

/-- The reader when the margin has moved the raw HTML line that deeper lines belong to. -/
def Reading.shift (margin : Text) (reading : Reading) : Reading :=
  { reading with html := reading.html.map fun (depth, indent) => (depth, byteLength margin + indent) }

private theorem lineAt_indentLine (number : Nat) (line : Text) :
    lineAt number (indentLine margin line) = (lineAt number line).map (·.indent margin) := by
  unfold indentLine
  cases shown : allBlank line with
  | true => rw [if_pos rfl, lineAt, if_pos shown, map_nil]
  | false =>
    obtain ⟨before, content, after, rfl, trimmed, leading, trailing⟩ := exists_trimmed shown
    have still := trimmed.not_allBlank (margin ++ before) after
    have ended := trimmed.trimEnd (margin ++ before) trailing
    rw [lineAt, lineAt, if_neg Bool.false_ne_true, shown, if_neg Bool.false_ne_true,
      trimmed.trimEnd before trailing]
    simp only [append_assoc] at still ended ⊢
    rw [still, ended]
    rfl

section

variable (blank : ∀ c ∈ margin, isBlank c = true)

include blank

omit blank in
private theorem sourceLines_indented (flat : '\n' ∉ margin) (offset : Nat) (text : Text) :
    sourceLines offset (indented margin text) = (sourceLines offset text).map (·.indent margin) := by
  have whole {line : Text} (single : '\n' ∉ line) : '\n' ∉ indentLine margin line := by
    unfold indentLine
    split
    · exact single
    · exact fun member => (mem_append.mp member).elim flat single
  induction text using lines_induct generalizing offset with
  | last line single =>
    rw [indented_of_flat single, sourceLines_of_flat (whole single), sourceLines_of_flat single,
      lineAt_indentLine]
  | cons line rest single ih =>
    rw [indented_append single, sourceLines_append (whole single), sourceLines_append single,
      lineAt_indentLine, ih, map_append]

theorem Reading.measure_shift (raw : Text) :
    (reading.shift margin).measure (byteLength margin + base) (margin ++ raw) =
      reading.measure base raw := by
  unfold Reading.measure
  rw [indentOf_margin blank, Nat.add_sub_add_left]
  simp only [Nat.add_lt_add_iff_left]
  rfl

theorem Reading.swallow?_shift (raw : Text) :
    (reading.shift margin).swallow? depth (margin ++ raw) =
      (reading.swallow? depth raw).map (·.shift margin) := by
  obtain ⟨unit, opened, roots, html, last⟩ := reading
  cases html with
  | none => rfl
  | some place =>
    cases opened with
    | nil => rfl
    | cons owner outer =>
      obtain ⟨htmlDepth, htmlIndent⟩ := place
      simp only [Reading.swallow?, Reading.shift, Option.map_some]
      rw [dropBytes?_add, trimStart_margin blank]
      split <;> rfl

theorem Reading.place_shift (kind : Option Kind) :
    (reading.shift margin).place depth (line.indent margin) kind =
      (reading.place depth line kind).map (·.shift margin) := by
  cases kind with
  | some kind =>
    simp only [Reading.place, Reading.shift]
    cases closeTo depth reading.opened reading.roots with
    | mk opened roots =>
      cases opened with
      | nil => rfl
      | cons parent outer =>
        dsimp only
        cases acceptsChild parent <;> rfl
  | none =>
    simp only [Reading.place, Reading.shift, SourceLine.indent]
    cases closeTo depth reading.opened reading.roots with
    | mk opened roots =>
      cases opened with
      | nil => rfl
      | cons owner outer =>
        dsimp only
        rw [trim_margin blank, indentOf_margin blank]
        cases acceptsHtml owner <;> rfl

omit blank in
theorem matches_of_map {α β : Type} {shift : α → β} {moved : Except Cause β} {plain : Except Cause α}
    (same : moved = plain.map shift) (shown other : Text) :
    Matches shift (moved.mapError (lineViolation file (line.indent margin) shown))
      (plain.mapError (lineViolation file line other)) := by
  subst same
  cases plain <;> rfl

omit blank in
theorem matches_of_eq {α : Type} {moved plain : Except Cause α} (same : moved = plain) (shown other : Text) :
    Matches id (moved.mapError (lineViolation file (line.indent margin) shown))
      (plain.mapError (lineViolation file line other)) :=
  matches_of_map (same.trans (congrFun Except.map_id plain).symm) shown other

theorem Reading.step_shift :
    Matches (Reading.shift margin)
      ((reading.shift margin).step registry file (byteLength margin + base) (line.indent margin))
      (reading.step registry file base line) := by
  refine Matches.bind (matches_of_eq (Reading.measure_shift blank line.text) _ _) ?_
  rintro ⟨depth, unit⟩
  have moved : ({ reading.shift margin with unit } : Reading) = ({ reading with unit } : Reading).shift margin :=
    rfl
  have raw : (line.indent margin).text = margin ++ line.text := rfl
  dsimp only [id]
  rw [moved, raw]
  generalize ({ reading with unit } : Reading) = own
  rw [Reading.swallow?_shift blank, trim_margin blank]
  cases own.swallow? depth line.text with
  | some next => rfl
  | none =>
    have allowed : (own.shift margin).allowed = own.allowed := rfl
    rw [allowed]
    dsimp only [Option.map_none]
    split
    · rfl
    · exact (matches_of_eq rfl _ _).bind fun kind => matches_of_map (Reading.place_shift blank kind) _ _

theorem Reading.foldlM_shift (lines : List SourceLine) (reading : Reading) :
    Matches (Reading.shift margin)
      ((lines.map (·.indent margin)).foldlM
        (Reading.step registry file (byteLength margin + base)) (reading.shift margin))
      (lines.foldlM (Reading.step registry file base) reading) := by
  induction lines generalizing reading with
  | nil => rfl
  | cons line rest ih =>
    rw [map_cons, foldlM_cons, foldlM_cons]
    exact (Reading.step_shift blank).bind ih

end

/-- White space before all lines that are not blank changes neither the forest nor, if there is none, the
cause, the file and the line of the violation. -/
theorem read_indented (registry : Registry) (file : String) (offset : Nat) (margin text : Text)
    (spaces : ∀ c ∈ margin, c = ' ' ∨ c = '\t') :
    (read registry file offset (Text.indented margin text)).mapError Violation.unshown =
      (read registry file offset text).mapError Violation.unshown := by
  have blank : ∀ c ∈ margin, isBlank c = true := by
    intro c member
    rcases spaces c member with rfl | rfl <;> decide
  have flat : '\n' ∉ margin := fun member => by simpa using spaces _ member
  have lines := sourceLines_indented flat offset text
  cases split : sourceLines offset text with
  | nil =>
    unfold read
    rw [lines, split]
    rfl
  | cons first others =>
    have head : (sourceLines offset text).head? = some first := by
      rw [split]
      rfl
    have moved : (sourceLines offset (Text.indented margin text)).head? = some (first.indent margin) := by
      rw [lines, split]
      rfl
    have base : indentOf (first.indent margin).text = Text.byteLength margin + indentOf first.text :=
      indentOf_margin blank first.text
    rw [read_of_head head, read_of_head moved, lines, base]
    refine Eq.trans ?_ (congrFun Except.map_id _)
    exact (Reading.foldlM_shift blank (sourceLines offset text) {}).bind fun _ => rfl

def nestedTemplate : Text := "<Box>\n\n  <p>\n    deep\n  </p>".toList

theorem read_indented_nested :
    (∀ c ∈ ['\t', ' '], c = ' ' ∨ c = '\t') ∧
      Text.indented ['\t', ' '] nestedTemplate =
        "\t <Box>\n\n\t   <p>\n\t     deep\n\t   </p>".toList ∧
      (read .builtin "page" 0 nestedTemplate).toOption.isSome = true ∧
      (read .builtin "page" 0 (Text.indented ['\t', ' '] nestedTemplate)).mapError Violation.unshown =
        (read .builtin "page" 0 nestedTemplate).mapError Violation.unshown :=
  ⟨by simp, by decide +kernel, by decide +kernel,
    read_indented .builtin "page" 0 ['\t', ' '] nestedTemplate (by simp)⟩

end Template

end PageScript
