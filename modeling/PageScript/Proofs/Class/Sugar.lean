import PageScript.Proofs.Class.Unbalanced
import PageScript.Proofs.Script.Scan

/-! Class sugar leaves a text without directives as it is (`desugar_code`). -/

open List

namespace PageScript

open Text Option

variable {code : Text} {file : String}

namespace Text

/-- Reading that does not go past the line end after a text. -/
def LineBound (read : Text → Option Text) : Prop :=
  ∀ text, read (text ++ ['\n']) = (read text).map (· ++ ['\n'])

theorem LineBound.bind {first second : Text → Option Text} (left : LineBound first)
    (right : LineBound second) : LineBound fun text => (first text).bind second := by
  intro text
  dsimp only
  rw [left text]
  cases first text with
  | none => rfl
  | some rest => exact right rest

private theorem gaps_newline (text : Text) : gaps (text ++ ['\n']) = gaps text ++ ['\n'] :=
  dropWhile_stop rfl text []

private theorem gaps1_lineBound : LineBound gaps1 := by
  intro text
  cases text with
  | nil => rfl
  | cons c rest =>
    rw [cons_append, gaps1, gaps1, gaps_newline]
    split <;> rfl

theorem expect_lineBound {start : String} (inLine : '\n' ∉ start.toList) : LineBound (expect start) :=
  fun text => after?_stop inLine text []

end Text

namespace ClassHeader

private theorem keywordToBrace_lineBound : LineBound keywordToBrace := by
  refine (expect_lineBound (by decide)).bind fun rest => ?_
  cases rest with
  | nil => rfl
  | cons c rest =>
    dsimp only [cons_append]
    rw [← cons_append, dropWhile_stop rfl]
    split
    · rfl
    · generalize (c :: rest).dropWhile _ = brace
      cases brace with
      | nil => rfl
      | cons d brace =>
        by_cases opening : d = '{'
        · rw [opening]
          rfl
        · simp [opening]

theorem exported_newline (text : Text) : exported (text ++ ['\n']) = exported text ++ ['\n'] := by
  have exports := (@Text.expect_lineBound "export" (by decide)).bind gaps1_lineBound text
  have defaults := (@Text.expect_lineBound "default" (by decide)).bind gaps1_lineBound
  unfold exported
  dsimp only at exports
  rw [exports]
  cases (expect "export" text).bind gaps1 with
  | none => rfl
  | some rest =>
    have defaulted := defaults rest
    dsimp only [map_some] at defaulted ⊢
    rw [defaulted]
    cases (expect "default" rest).bind gaps1 <;> rfl

theorem loose_eq_none {text : Text} (inLine : keywordToBrace (exported (gaps text)) = none)
    (operand : text.head?.any takesOperand = false)
    (returned : expect "return" text = none) (before : Text) : loose before text = none := by
  cases text with
  | nil => simp [loose, inLine, returned]
  | cons c rest =>
    have other : takesOperand c = false := operand
    simp [loose, inLine, returned, other]

private theorem loose_newline (before text : Text) :
    loose before (text ++ ['\n']) =
      (loose before text).map fun (start, rest) => (start, rest ++ ['\n']) := by
  cases text with
  | nil => rw [loose_eq_none rfl rfl rfl, loose_eq_none rfl rfl rfl, map_none]
  | cons c rest =>
    have inLine : keywordToBrace (exported (gaps (c :: rest ++ ['\n']))) =
        (keywordToBrace (exported (gaps (c :: rest)))).map (· ++ ['\n']) := by
      rw [gaps_newline, exported_newline, keywordToBrace_lineBound]
    have returned := ((@Text.expect_lineBound "return" (by decide)).bind
      gaps1_lineBound).bind keywordToBrace_lineBound (c :: rest)
    have chosen (p : Prop) [Decidable p] (found : Option Text) :
        (if p then found.map (· ++ ['\n']) else none) =
          (if p then found else none).map (· ++ ['\n']) := by
      split <;> rfl
    have spared (p : Prop) [Decidable p] (found : Option Text) :
        (if p then none else found.map (· ++ ['\n'])) =
          (if p then none else found).map (· ++ ['\n']) := by
      split <;> rfl
    unfold loose
    dsimp only [cons_append] at inLine returned ⊢
    rw [inLine, returned, gaps_newline, keywordToBrace_lineBound]
    simp only [chosen, spared, orElse_eq_orElse, orElse_eq_or, ← map_or,
      Option.map_map, Function.comp_def]

end ClassHeader

namespace Script

theorem Scan.closesAt_newline_end {scan : Scan} (more : scan.opened ≠ []) (position : Nat)
    (text : Text) : scan.closesAt position (text ++ ['\n']) = scan.closesAt position text := by
  induction text generalizing scan position with
  | nil =>
    have stays : ∃ mode, scan.step '\n' = some ⟨mode, scan.opened⟩ := by
      unfold Scan.step
      split
      · exact ⟨_, rfl⟩
      · exact ⟨_, rfl⟩
    obtain ⟨mode, stepped⟩ := stays
    simp [Scan.closesAt, stepped, more]
  | cons c rest ih =>
    rw [cons_append, Scan.closesAt, Scan.closesAt]
    cases scan.step c with
    | none => rfl
    | some next =>
      dsimp only
      split
      · rfl
      · rename_i opened
        exact ih (fun nothing => opened (isEmpty_iff.mpr nothing)) (position + 1)

private theorem closing?_newline (text : Text) : closing? (text ++ ['\n']) = closing? text := by
  cases text with
  | nil => rfl
  | cons c rest =>
    cases opens : closerOf? c with
    | none => simp [closing?, opens]
    | some closer =>
      rw [cons_append, closing?_opening opens, closing?_opening opens]
      exact Scan.closesAt_newline_end (cons_ne_nil _ _) 1 rest

end Script

namespace ClassSugar

private theorem namespaceMark_needs : Needs "@lx:".toList namespaceMark :=
  .of_expect "@lx:namespace" ⟨[], "namespace".toList, rfl⟩ fun _ _ missing => by
    simp [namespaceMark, missing]

def Mark.HeaderIn (code : Text) (mark : Mark) : Prop :=
  ∃ start brace, mark = .header start brace ∧ start ≤ brace + 1 ∧ brace < code.length

theorem marks_headerIn (absent : ¬ "@lx:".toList <:+: code) {mark : Mark} (member : mark ∈ marks code) :
    mark.HeaderIn code := by
  rcases mem_marks.mp member with ⟨_, among, _⟩ | ⟨_, _, _, rfl⟩
  · rw [namespaceMark_needs.occurrences absent] at among
    cases among
  · obtain ⟨before, front, after, rfl, _, start, brace, _⟩ := exists_of_mem_marks member
    refine ⟨_, _, rfl, by omega, ?_⟩
    rw [brace, length_append, length_append, length_cons]
    omega

theorem marks_newline (absent : ¬ "@lx:".toList <:+: code) : marks (code ++ ['\n']) = marks code := by
  have absent' : ¬ "@lx:".toList <:+: code ++ ['\n'] := not_infix_concat (by decide) absent
  have cut : cut ClassHeader.loose (code ++ ['\n']) =
      cut ClassHeader.loose code ++ [.plain '\n'] := by
    rw [Text.cut, cutFrom_append (fun before c part _ => ClassHeader.loose_newline before (c :: part))
      (Nat.zero_le _), cutFrom, ClassHeader.loose_eq_none rfl rfl rfl]
    rfl
  unfold marks
  rw [namespaceMark_needs.occurrences absent, namespaceMark_needs.occurrences absent', cut,
    filterMap_append]
  simp

theorem desugarFrom_newline {marks : List Mark} (headers : ∀ mark ∈ marks, mark.HeaderIn code)
    (cursor : Nat) (space : Option Text) :
    (∃ desugared, desugarFrom file (code ++ ['\n']) cursor space marks = .ok desugared) ↔
      ∃ desugared, desugarFrom file code cursor space marks = .ok desugared := by
  induction marks generalizing cursor with
  | nil => exact ⟨fun _ => ⟨_, rfl⟩, fun _ => ⟨_, rfl⟩⟩
  | cons mark rest ih =>
    obtain ⟨⟨start, brace, rfl, forward, inside⟩, others⟩ := forall_mem_cons.mp headers
    have header : slice (code ++ ['\n']) start (brace + 1) = slice code start (brace + 1) := by
      have short : brace + 1 - start ≤ (code.drop start).length := by
        rw [length_drop]
        omega
      rw [slice, drop_append_of_le_length (by omega), take_append_of_le_length short, slice]
    have closing : Script.closing? ((code ++ ['\n']).drop brace) =
        Script.closing? (code.drop brace) := by
      rw [drop_append_of_le_length (Nat.le_of_lt inside), Script.closing?_newline]
    rw [desugarFrom, desugarFrom]
    dsimp only
    rw [header, closing]
    split
    · exact ih others cursor
    · split
      · split
        · rw [exists_ok_bind_pure, exists_ok_bind_pure]
          exact ih others cursor
        · simp
      · rw [exists_ok_bind_pure, exists_ok_bind_pure]
        exact ih others _

theorem desugar_newline (absent : ¬ "@lx:".toList <:+: code) :
    (∃ desugared, desugar file (code ++ ['\n']) = .ok desugared) ↔
      ∃ desugared, desugar file code = .ok desugared := by
  unfold desugar
  rw [marks_newline absent]
  exact desugarFrom_newline (fun _ => marks_headerIn absent) 0 none

theorem desugar_code {desugared : Desugared} (absent : ¬ "@lx:".toList <:+: code)
    (done : desugar file code = .ok desugared) : desugared.code = code := by
  have constant : "@lx:".toList <:+: "@lx:const".toList := ⟨[], "const".toList, rfl⟩
  exact (desugar_plain (fun found => absent (constant.trans found)) done).2.2.2
    (namespaceMark_needs.occurrences absent)

end ClassSugar

end PageScript
