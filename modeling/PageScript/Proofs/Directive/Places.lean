import PageScript.Proofs.Directive.Layout
import PageScript.Proofs.Text.Lines
import PageScript.Proofs.Text.Stretch

/-! Where directives stand in a text, and what is left of its lines without them. -/

open List

namespace PageScript

open Option

variable {text before rest : Text}

namespace Text

private theorem cutAt?_eq_some {marker : Text} (found : cutAt? marker text = some (before, rest)) :
    text = before ++ marker ++ rest := by
  induction text generalizing before with
  | nil =>
    obtain ⟨after, seen, same⟩ := map_eq_some_iff.mp found
    cases same
    exact after?_eq_some.mp seen
  | cons c text ih =>
    rw [cutAt?] at found
    split at found
    · rename_i after seen
      cases found
      exact after?_eq_some.mp seen
    · obtain ⟨⟨front, after⟩, seen, same⟩ := map_eq_some_iff.mp found
      cases same
      rw [ih seen]
      rfl

end Text

namespace Directive

open Text

private theorem commentedOut_eq_some (found : commentedOut before text = some ((), rest)) :
    ∃ gap more, text = "//".toList ++ (gap ++ ("@lx:".toList ++ more)) ∧
      (∀ c ∈ gap, isInlineBlank c = true) ∧ rest = more.dropWhile (· != '\n') := by
  unfold commentedOut at found
  simp only [bind_eq_bind, bind_eq_some_iff] at found
  obtain ⟨first, slashes, second, marker, same⟩ := found
  cases same
  refine ⟨first.takeWhile isInlineBlank, second, ?_, all_eq_true.mp all_takeWhile, rfl⟩
  rw [after?_eq_some.mp slashes, ← after?_eq_some.mp marker]
  exact congrArg ("//".toList ++ ·) takeWhile_append_dropWhile.symm

theorem commentedOut_flat (found : commentedOut before text = some ((), rest)) :
    ∃ lexeme, lexeme ≠ [] ∧ '\n' ∉ lexeme ∧ text = lexeme ++ rest := by
  obtain ⟨gap, more, whole, blank, rfl⟩ := commentedOut_eq_some found
  refine ⟨"//".toList ++ (gap ++ ("@lx:".toList ++ more.takeWhile (· != '\n'))), by simp, ?_, ?_⟩
  · simp only [mem_append, not_or]
    refine ⟨by decide, ?_, by decide, ?_⟩
    · exact fun member => absurd (blank '\n' member) (by decide)
    · exact fun member => absurd (all_eq_true.mp all_takeWhile '\n' member) (by decide)
  · rw [whole]
    simp only [append_assoc, takeWhile_append_dropWhile]

theorem commentedOut_consumes : Consumes commentedOut := by
  rintro before text ⟨⟩ rest found
  obtain ⟨lexeme, more, _, whole⟩ := commentedOut_flat found
  exact ⟨lexeme, more, whole⟩

theorem commentedOut_append (before gap more : Text) (blank : ∀ c ∈ gap, isInlineBlank c = true) :
    commentedOut before ("//".toList ++ (gap ++ ("@lx:".toList ++ more))) =
      some ((), more.dropWhile (· != '\n')) := by
  have next : gaps (gap ++ ("@lx:".toList ++ more)) = "@lx:".toList ++ more := by
    rw [gaps, dropWhile_append_of_pos blank]
    rfl
  unfold commentedOut
  simp only [bind_eq_bind, expect_append, bind_some, next]
  rfl

private theorem commentedOut_blind : Blind commentedOut := fun _ _ _ => rfl

private theorem commentedOut_stops : StopsAt '\n' commentedOut := by
  intro before text rest
  have begun : expect "//" (text ++ '\n' :: rest) = (expect "//" text).map (· ++ '\n' :: rest) :=
    after?_stop (by decide) text rest
  simp only [commentedOut, begun, bind_eq_bind]
  cases expect "//" text with
  | none => rfl
  | some inner =>
    have marked : expect "@lx:" (inner.dropWhile isInlineBlank ++ '\n' :: rest) =
        (expect "@lx:" (inner.dropWhile isInlineBlank)).map (· ++ '\n' :: rest) :=
      after?_stop (by decide) _ rest
    simp only [map_some, bind_some, gaps, dropWhile_stop (by decide :
      isInlineBlank '\n' = false), marked]
    cases expect "@lx:" (inner.dropWhile isInlineBlank) with
    | none => rfl
    | some more => simp [dropWhile_stop]

private theorem dropCommentedOut_newline (left right : Text) :
    dropCommentedOut (left ++ '\n' :: right) =
      dropCommentedOut left ++ '\n' :: dropCommentedOut right := by
  have splits : Splits (· == '\n') dropCommentedOut :=
    .replace (fun c same => beq_iff_eq.mp same ▸ commentedOut_stops) commentedOut_blind rfl _
  exact splits.cons '\n' rfl left right

theorem dropCommentedOut_cons (c : Char) (rest : Text) (none : commentedOut [] (c :: rest) = none) :
    dropCommentedOut (c :: rest) = c :: dropCommentedOut rest := by
  unfold dropCommentedOut Text.replace
  rw [cut, cutFrom, none]
  dsimp only
  rw [commentedOut_blind.cutFrom [c] []]
  rfl

/-- On one line, what is commented out is an end of it, and of what is before it everything stays. -/
theorem dropCommentedOut_of_flat {line : Text} (flat : '\n' ∉ line) :
    dropCommentedOut line <+: line ∧
      ∀ start, start <+: dropCommentedOut line → dropCommentedOut start = start := by
  induction line with
  | nil =>
    refine ⟨prefix_refl _, ?_⟩
    intro start begins
    rw [prefix_nil.mp begins]
    rfl
  | cons c rest ih =>
    obtain ⟨within, stays⟩ := ih (not_mem_of_not_mem_cons flat)
    cases seen : commentedOut [] (c :: rest) with
    | none =>
      rw [dropCommentedOut_cons c rest seen]
      refine ⟨(prefix_cons_inj c).mpr within, ?_⟩
      intro start begins
      rcases prefix_cons_iff.mp begins with rfl | ⟨tail, rfl, below⟩
      · rfl
      · rw [dropCommentedOut_cons c tail ?_, stays tail below]
        -- what would be commented out in the start would be so in the line
        rw [eq_none_iff_forall_ne_some]
        rintro ⟨⟨⟩, after⟩ found
        obtain ⟨gap, more, whole, blank, _⟩ := commentedOut_eq_some found
        obtain ⟨beyond, rfl⟩ := below.trans within
        rw [← cons_append, whole] at seen
        simp only [append_assoc] at seen
        rw [commentedOut_append [] gap _ blank] at seen
        cases seen
    | some found =>
      obtain ⟨⟨⟩, after⟩ := found
      obtain ⟨gap, more, whole, blank, rfl⟩ := commentedOut_eq_some seen
      have ended : more.dropWhile (· != '\n') = [] := by
        have every : ∀ d ∈ more, (d != '\n') = true := by
          intro d member
          rw [bne_iff_ne]
          rintro rfl
          apply flat
          rw [whole]
          simp [member]
        rw [← append_nil more, dropWhile_append_of_pos every]
        rfl
      rw [ended, ← append_nil (c :: rest)] at seen
      have nothing : dropCommentedOut (c :: rest) = [] := by
        unfold dropCommentedOut Text.replace
        rw [← append_nil (c :: rest), commentedOut_blind.cut_found (cons_ne_nil c rest) seen]
        rfl
      rw [nothing]
      refine ⟨List.nil_prefix, ?_⟩
      intro start begins
      rw [prefix_nil.mp begins]
      rfl

theorem newlines_dropCommentedOut (code : Text) : newlines (dropCommentedOut code) = newlines code := by
  induction code using lines_induct with
  | last line flat =>
    have within := (dropCommentedOut_of_flat flat).1
    rw [newlines_eq_zero flat, newlines_eq_zero fun member => flat (within.subset member)]
  | cons line rest flat ih =>
    have within := (dropCommentedOut_of_flat flat).1
    have front : newlines (dropCommentedOut line) = newlines line := by
      rw [newlines_eq_zero flat, newlines_eq_zero fun member => flat (within.subset member)]
    rw [dropCommentedOut_newline, newlines_append, newlines_append, front, newlines_newline,
      newlines_newline, ih]

theorem dropCommentedOut_place {code left right : Text}
    (cleaned : dropCommentedOut code = left ++ text ++ right) (flat : '\n' ∉ text) (more : text ≠ []) :
    ∃ ahead after, code = ahead ++ text ++ after ∧ dropCommentedOut ahead = left := by
  induction code using lines_induct generalizing left with
  | last line single =>
    obtain ⟨⟨rest, whole⟩, stays⟩ := dropCommentedOut_of_flat single
    refine ⟨left, right ++ rest, ?_, stays left ?_⟩
    · rw [← whole, cleaned, append_assoc]
    · rw [cleaned, append_assoc]
      exact prefix_append _ _
  | cons line rest single ih =>
    obtain ⟨⟨tail, whole⟩, stays⟩ := dropCommentedOut_of_flat single
    rw [dropCommentedOut_newline, append_assoc] at cleaned
    rcases append_eq_append_iff.mp cleaned with ⟨extra, rfl, later⟩ | ⟨extra, first, later⟩
    · -- the text is on a later line
      cases extra with
      | nil =>
        cases text with
        | nil => exact absurd rfl more
        | cons c text =>
          obtain ⟨rfl, _⟩ := List.cons.inj later
          exact absurd mem_cons_self flat
      | cons c extra =>
        obtain ⟨rfl, below⟩ := List.cons.inj later
        obtain ⟨ahead, after, rfl, cleanedAhead⟩ := ih (below.trans (append_assoc _ _ _).symm)
        refine ⟨line ++ '\n' :: ahead, after, ?_, ?_⟩
        · simp only [append_assoc, cons_append]
        · rw [dropCommentedOut_newline, cleanedAhead]
    · -- the text is on the first line, since it does not reach over a line end
      rcases append_eq_append_iff.mp later with ⟨beyond, rfl, _⟩ | ⟨beyond, same, _⟩
      · refine ⟨left, beyond ++ tail ++ '\n' :: rest, ?_, stays left ?_⟩
        · rw [← whole, first]
          simp only [append_assoc]
        · rw [first]
          exact prefix_append _ _
      · cases beyond with
        | nil =>
          rw [append_nil] at same
          subst same
          refine ⟨left, tail ++ '\n' :: rest, ?_, stays left ?_⟩
          · rw [← whole, first]
            simp only [append_assoc]
          · rw [first]
            exact prefix_append _ _
        | cons c beyond =>
          rename_i split
          obtain ⟨rfl, _⟩ := List.cons.inj split
          exact absurd (by rw [same]; simp) flat

theorem templateBlock_eq_some {block : TemplateBlock}
    (found : templateBlock before text = some (block, rest)) :
    ∃ opening, text = opening ++ block.body ++ "@lx:ml>".toList ++ rest ∧ opening ≠ [] ∧
      '\n' ∉ opening ∧ block.offset = newlines before := by
  unfold templateBlock at found
  simp only [bind_eq_bind] at found
  obtain ⟨first, start, found⟩ := bind_eq_some_iff.mp found
  have whole := after?_eq_some.mp start
  split at found
  · rename_i name inner named
    rw [bind_some] at found
    obtain ⟨⟨body, after⟩, closed, same⟩ := bind_eq_some_iff.mp found
    cases same
    simp only [bind_eq_some_iff] at named
    obtain ⟨second, colon, ⟨own, third⟩, read, fourth, closing, same⟩ := named
    cases same
    obtain ⟨split, chars⟩ := name_eq_some read
    have ended : inner = body ++ "@lx:ml>".toList ++ after := cutAt?_eq_some closed
    have beyond : third = ":".toList ++ inner := after?_eq_some.mp closing
    have flat : '\n' ∉ own := fun member => absurd (chars '\n' member) (by decide)
    refine ⟨"@lx:<ml".toList ++ (":".toList ++ (own ++ ":".toList)), ?_, by simp, ?_, rfl⟩
    · rw [whole, after?_eq_some.mp colon, split, beyond, ended]
      simp only [append_assoc]
    · simp only [mem_append, not_or]
      exact ⟨by decide, by decide, flat, by decide⟩
  · obtain ⟨⟨output, inner⟩, opened, found⟩ := bind_eq_some_iff.mp found
    obtain ⟨second, colon, same⟩ := map_eq_some_iff.mp opened
    cases same
    obtain ⟨⟨body, after⟩, closed, same⟩ := bind_eq_some_iff.mp found
    cases same
    have ended : inner = body ++ "@lx:ml>".toList ++ after := cutAt?_eq_some closed
    refine ⟨"@lx:<ml".toList ++ ":".toList, ?_, by decide, by decide, rfl⟩
    rw [whole, after?_eq_some.mp colon, ended]
    simp only [append_assoc]

theorem templateBlock_consumes : Consumes templateBlock := by
  intro before text block rest found
  obtain ⟨opening, whole, more, _⟩ := templateBlock_eq_some found
  refine ⟨opening ++ block.body ++ "@lx:ml>".toList, ?_, whole⟩
  intro empty
  exact more (append_eq_nil_iff.mp (append_eq_nil_iff.mp empty).1).1

private theorem labelledBlock_eq_some {word : String} {label body : Text}
    (found : labelledBlock word before text = some ((label, body), rest)) :
    ∃ start, text = start ++ body ++ closing word ++ rest := by
  unfold labelledBlock at found
  simp only [bind_eq_bind, bind_eq_some_iff] at found
  obtain ⟨first, opened, second, named, third, spaced, ⟨own, fourth⟩, labelled, fifth, colon,
    ⟨inner, after⟩, closed, same⟩ := found
  cases same
  obtain ⟨gap, split, _⟩ := blanks1_eq_some spaced
  obtain ⟨space, spread, _⟩ := blanks_eq fourth
  refine ⟨"@lx:<".toList ++ word.toList ++ gap ++ own ++ space ++ ":".toList, ?_⟩
  rw [after?_eq_some.mp opened, after?_eq_some.mp named, split, (run1?_eq_some labelled).1, spread,
    after?_eq_some.mp colon, cutAt?_eq_some closed, closing]
  simp only [append_assoc]

theorem labelledBlock_consumes (word : String) : Consumes (labelledBlock word) := by
  rintro before text ⟨label, body⟩ rest found
  obtain ⟨start, whole⟩ := labelledBlock_eq_some found
  refine ⟨start ++ body ++ closing word, ?_, whole⟩
  simp [closing]

theorem exists_of_mem_cut {word : String} {code lexeme label body : Text}
    (member : .found lexeme (label, body) ∈ cut (labelledBlock word) code) :
    ∃ start, lexeme = start ++ body ++ closing word := by
  obtain ⟨left, right, pieces⟩ := append_of_mem member
  obtain ⟨start, whole⟩ := labelledBlock_eq_some ((labelledBlock_consumes word).cut pieces)
  exact ⟨start, append_cancel_right whole⟩

end Directive

end PageScript
