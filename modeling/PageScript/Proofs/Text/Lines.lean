import PageScript.Proofs.Text
import PageScript.Proofs.Text.Rewriting

/-! Lines of a text and their indentation. -/

open List

namespace PageScript.Text

/-- A text that begins and ends with something else than white space. -/
structure Trimmed (text : Text) : Prop where
  more : text ≠ []
  first : ∀ c ∈ text.head?, isBlank c = false
  last : ∀ c ∈ text.getLast?, isBlank c = false

theorem head?_append_left {left : Text} (more : left ≠ []) (right : Text) :
    (left ++ right).head? = left.head? := by
  cases left with
  | nil => exact absurd rfl more
  | cons c rest => rfl

theorem allBlank_iff {text : Text} : allBlank text = true ↔ ∀ c ∈ text, isBlank c = true :=
  all_eq_true

theorem Trimmed.not_allBlank {text : Text} (trimmed : Trimmed text) (before after : Text) :
    allBlank (before ++ text ++ after) = false := by
  rw [← Bool.not_eq_true]
  intro blank
  cases text with
  | nil => exact trimmed.more rfl
  | cons c rest =>
    have here := allBlank_iff.mp blank c (by simp)
    rw [trimmed.first c rfl] at here
    cases here

private theorem trimStart_of_blank {before rest : Text} (blank : ∀ c ∈ before, isBlank c = true)
    (ended : ∀ c ∈ rest.head?, isBlank c = false) : trimStart (before ++ rest) = rest :=
  blanks_append blank ended

theorem Trimmed.trimEnd {text after : Text} (trimmed : Trimmed text) (before : Text)
    (blank : ∀ c ∈ after, isBlank c = true) : trimEnd (before ++ text ++ after) = before ++ text := by
  have ended : ∀ c ∈ (before ++ text).reverse.head?, isBlank c = false := by
    intro c last
    rw [reverse_append, head?_append_left (reverse_ne_nil_iff.mpr trimmed.more),
      head?_reverse] at last
    exact trimmed.last c last
  have turned := trimStart_of_blank (fun c member => blank c (mem_reverse.mp member)) ended
  rw [Text.trimEnd, reverse_append]
  exact (congrArg List.reverse turned).trans (reverse_reverse _)

theorem Trimmed.trim {text before after : Text} (trimmed : Trimmed text)
    (leading : ∀ c ∈ before, isBlank c = true) (trailing : ∀ c ∈ after, isBlank c = true) :
    trim (before ++ text ++ after) = text := by
  have first : ∀ c ∈ (text ++ after).head?, isBlank c = false := by
    intro c member
    rw [head?_append_left trimmed.more] at member
    exact trimmed.first c member
  rw [Text.trim, append_assoc, trimStart_of_blank leading first]
  exact trimmed.trimEnd [] trailing

theorem exists_gap (text : Text) :
    ∃ gap rest, text = gap ++ rest ∧ (∀ c ∈ gap, isBlank c = true) ∧
      ∀ c ∈ rest.head?, isBlank c = false := by
  obtain ⟨gap, whole, blank⟩ := blanks_eq text
  refine ⟨gap, blanks text, whole, blank, ?_⟩
  intro c first
  have ended := head?_dropWhile_not isBlank text
  rw [blanks] at first
  rw [Option.mem_def.mp first] at ended
  exact ended

theorem exists_trimmed {text : Text} (some : allBlank text = false) :
    ∃ before content after, text = before ++ content ++ after ∧ Trimmed content ∧
      (∀ c ∈ before, isBlank c = true) ∧ ∀ c ∈ after, isBlank c = true := by
  obtain ⟨before, rest, rfl, leading, first⟩ := exists_gap text
  obtain ⟨after, turned, back, trailing, last⟩ := exists_gap rest.reverse
  have whole : rest = turned.reverse ++ after.reverse := by
    rw [← reverse_append, ← back, reverse_reverse]
  have blank : ∀ c ∈ after.reverse, isBlank c = true := fun c member =>
    trailing c (mem_reverse.mp member)
  have more : turned.reverse ≠ [] := by
    intro empty
    rw [← Bool.not_eq_true] at some
    apply some
    rw [whole, empty, nil_append, allBlank_iff]
    intro c member
    rcases mem_append.mp member with front | behind
    · exact leading c front
    · exact blank c behind
  refine ⟨before, turned.reverse, after.reverse, ?_, ⟨more, ?_, ?_⟩, leading, blank⟩
  · rw [append_assoc, ← whole]
  · rw [whole, head?_append_left more] at first
    exact first
  · rw [getLast?_reverse]
    exact last

theorem lines_induct {holds : Text → Prop} (last : ∀ line, '\n' ∉ line → holds line)
    (cons : ∀ line rest, '\n' ∉ line → holds rest → holds (line ++ '\n' :: rest)) (text : Text) :
    holds text := by
  by_cases flat : '\n' ∈ text
  · obtain ⟨line, rest, rfl, before⟩ := eq_append_cons_of_mem flat
    exact cons line rest before (lines_induct last cons rest)
  · exact last text flat
termination_by text.length
decreasing_by
  subst_vars
  rw [List.length_append, List.length_cons]
  omega

def withoutReturn (line : Text) : Text :=
  match line.getLast? with
  | some '\r' => line.dropLast
  | _ => line

theorem lines_of_flat {line : Text} (flat : '\n' ∉ line) :
    lines line = if line = [] then [] else [line] := by
  rw [lines, splitOn_of_not_mem flat]
  cases line with
  | nil => rfl
  | cons c rest => rfl

theorem lines_append {line : Text} (flat : '\n' ∉ line) (rest : Text) :
    lines (line ++ '\n' :: rest) = withoutReturn line :: lines rest := by
  rw [lines, lines, splitOn_append flat]
  have more := splitOn_ne_nil '\n' rest
  cases split : splitOn '\n' rest with
  | nil => exact absurd split more
  | cons part parts =>
    rw [dropLast_cons_cons, map_cons, getLast?_cons_cons]
    split <;> rfl

end PageScript.Text
