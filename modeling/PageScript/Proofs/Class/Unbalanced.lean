import PageScript.Proofs.Class.Parts
import PageScript.Proofs.Text.Lines

/-! Classes that are not closed (`desugar_eq_error`). -/

open List

namespace PageScript

open Text ClassHeader Option

variable {text rest code : Text} {start : Nat} {violation : Violation}

namespace ClassHeader

/-- What a header is made of before its name: blanks, keywords and the signs that take an operand. -/
structure Leads (kept : Char → Bool) : Prop where
  gap : ∀ c, isInlineBlank c = true → kept c = true
  sign : ∀ c, takesOperand c = true → kept c = true
  word : ∀ word ∈ ["export", "default", "return", "class"], ∀ c ∈ word.toList, kept c = true

section

variable {kept : Char → Bool} (leads : Leads kept)

include leads

theorem Leads.gaps (text : Text) : Past kept text (gaps text) :=
  .dropWhile leads.gap text

theorem Leads.keyword {word : String} (known : word ∈ ["export", "default", "return", "class"])
    (found : (expect word text).bind gaps1 = some rest) : Past kept text rest := by
  obtain ⟨after, begun, gap⟩ := bind_eq_some_iff.mp found
  refine (Past.after? (leads.word word known) begun).trans ?_
  cases after with
  | nil => cases gap
  | cons c after =>
    rw [gaps1] at gap
    split at gap
    · rename_i blank
      cases gap
      exact .trans ⟨[c], rfl, forall_mem_singleton.mpr (leads.gap c blank)⟩ (leads.gaps after)
    · cases gap

theorem Leads.exported (text : Text) : Past kept text (exported text) := by
  unfold ClassHeader.exported
  cases first : (expect "export" text).bind gaps1 with
  | none => exact .refl text
  | some rest =>
    refine (leads.keyword (by simp) first).trans ?_
    dsimp only
    cases second : (expect "default" rest).bind gaps1 with
    | none => exact .refl rest
    | some more => exact leads.keyword (by simp) second

private theorem keywordToBrace_past
    (inner : ∀ rest, "class".toList ++ rest <:+ text →
      ∀ c ∈ rest.takeWhile (fun c => c != '\n' && c != '{'), kept c = true)
    (found : keywordToBrace text = some rest) : Past kept text ('{' :: rest) := by
  unfold keywordToBrace at found
  obtain ⟨after, begun, found⟩ := bind_eq_some_iff.mp found
  refine (Past.after? (leads.word "class" (by simp)) begun).trans ?_
  have own := inner after (after?_eq_some.mp begun ▸ suffix_refl _)
  cases after with
  | nil => cases found
  | cons c after =>
    dsimp only at found
    split at found
    · cases found
    · split at found
      · rename_i brace stopped
        cases found
        refine ⟨_, ?_, own⟩
        rw [← stopped, takeWhile_append_dropWhile]
      · cases found

theorem loose_past {before : Text}
    (inner : ∀ rest, "class".toList ++ rest <:+ text →
      ∀ c ∈ rest.takeWhile (fun c => c != '\n' && c != '{'), kept c = true)
    (found : loose before text = some (start, rest)) : Past kept text ('{' :: rest) := by
  have ended {middle : Text} (lead : Past kept text middle) (brace : keywordToBrace middle = some rest) :
      Past kept text ('{' :: rest) :=
    lead.trans (keywordToBrace_past leads
      (fun rest within => inner rest (within.trans lead.suffix)) brace)
  unfold loose at found
  obtain ⟨after, either, same⟩ := map_eq_some_iff.mp found
  cases same
  simp only [orElse_eq_orElse, orElse_eq_or, or_eq_some_iff] at either
  rcases either with inLine | ⟨_, operand | ⟨_, returned⟩⟩
  · obtain ⟨_, inLine⟩ := ite_none_right_eq_some.mp inLine
    exact ended ((leads.gaps text).trans (leads.exported _)) inLine
  · cases text with
    | nil => cases operand
    | cons c text =>
      obtain ⟨takes, operand⟩ := ite_none_right_eq_some.mp operand
      have sign : Past kept (c :: text) text := ⟨[c], rfl, forall_mem_singleton.mpr (leads.sign c takes)⟩
      exact ended (sign.trans (leads.gaps text)) operand
  · obtain ⟨_, returned⟩ := ite_none_left_eq_some.mp returned
    obtain ⟨middle, keyword, brace⟩ := bind_eq_some_iff.mp returned
    exact ended (leads.keyword (by simp) keyword) brace

end

theorem loose_start {before : Text} (found : loose before text = some (start, rest)) :
    start = before.length := by
  obtain ⟨_, _, same⟩ := map_eq_some_iff.mp found
  cases same
  rfl

theorem loose_eq_some {before : Text} (found : loose before text = some (start, rest)) :
    ∃ front, text = front ++ '{' :: rest ∧ '\n' ∉ front := by
  have leads : Leads (· != '\n') := by
    refine ⟨fun c gap => ?_, fun c sign => ?_, by decide⟩
    · exact bne_iff_ne.mpr fun same => absurd (same ▸ gap) (by decide)
    · exact bne_iff_ne.mpr fun same => absurd (same ▸ sign) (by decide)
  obtain ⟨front, whole, smooth⟩ := loose_past leads (fun rest _ c member =>
    (Bool.and_eq_true_iff.mp (all_eq_true.mp all_takeWhile c member)).1) found
  exact ⟨front, whole, fun member => bne_iff_ne.mp (smooth _ member) rfl⟩

theorem loose_consumes : Consumes loose := by
  intro before text start rest found
  obtain ⟨front, whole, _⟩ := loose_eq_some found
  exact ⟨front ++ ['{'], by simp, by simpa using whole⟩

end ClassHeader

namespace ClassSugar

theorem desugarFrom_eq_error {file : String} (failed : desugar file code = .error violation) :
    ∃ start brace, .header start brace ∈ marks code ∧ Script.closing? (code.drop brace) = none ∧
      kind (slice code start (brace + 1)) ≠ .malformed ∧
      violation = unbalanced file code start (slice code start (brace + 1))
        (kind (slice code start (brace + 1))) := by
  have told := desugar_told file code
  rw [failed] at told
  obtain ⟨start, brace, _, mark, unclosed, read, same⟩ := told
  exact ⟨start, brace, mark, unclosed, read, same⟩

theorem exists_of_mem_marks {brace : Nat} (member : .header start brace ∈ marks code) :
    ∃ before front after, code = before ++ front ++ '{' :: after ∧ '\n' ∉ front ∧
      start = before.length ∧ brace = before.length + front.length ∧
      loose before.reverse (front ++ '{' :: after) = some (start, after) := by
  rcases mem_marks.mp member with ⟨_, _, impossible⟩ | ⟨header, own, among, same⟩
  · cases impossible
  · cases same
    obtain ⟨left, right, pieces⟩ := append_of_mem among
    have seen := loose_consumes.cut pieces
    have first := loose_start seen
    obtain ⟨front, whole, flat⟩ := loose_eq_some seen
    have split : header = front ++ ['{'] :=
      append_cancel_right (whole.trans (append_assoc front ['{'] _).symm)
    refine ⟨left.flatMap Piece.source, front, right.flatMap Piece.source, ?_, flat, ?_, ?_,
      whole ▸ seen⟩
    · have all := flatMap_source_cut loose code
      rw [pieces, flatMap_append, flatMap_cons, Piece.source, whole] at all
      rw [← all, append_assoc]
    · rw [first, length_reverse]
    · rw [first, length_reverse, split, length_append, length_singleton]
      omega

theorem desugar_eq_error {file : String} (failed : desugar file code = .error violation) :
    ∃ before content after name, code = before ++ content ++ after ∧ Trimmed content ∧
      '\n' ∉ content ∧ violation.context = some (String.ofList content) ∧
      violation.cause = .unbalancedClass name ∧ content.getLast? = some '{' ∧
      Script.closing? ('{' :: after) = none ∧ violation.line = newlines before + 1 := by
  obtain ⟨start, brace, member, unclosed, _, rfl⟩ := desugarFrom_eq_error failed
  obtain ⟨before, front, after, rfl, flat, rfl, rfl, _⟩ := exists_of_mem_marks member
  have header : slice (before ++ front ++ '{' :: after) before.length
      (before.length + front.length + 1) = front ++ ['{'] := by
    have size : before.length + front.length + 1 - before.length = (front ++ ['{']).length := by
      rw [length_append, length_singleton]
      omega
    rw [slice, size, append_assoc, drop_left, append_cons front '{' after,
      take_left]
  have opened : (before ++ front ++ '{' :: after).drop (before.length + front.length) =
      '{' :: after := by
    rw [← length_append, drop_left]
  rw [opened] at unclosed
  rw [header]
  obtain ⟨lead, rest, rfl, leading, first⟩ := exists_gap front
  have trimmed : Trimmed (rest ++ ['{']) := by
    refine ⟨by simp, ?_, ?_⟩
    · cases rest with
      | nil =>
        intro c same
        cases same
        decide
      | cons c rest => exact first
    · rw [getLast?_concat]
      intro c same
      cases same
      decide
  have shown : trim (lead ++ rest ++ ['{']) = rest ++ ['{'] := by
    have bare := trimmed.trim leading (forall_mem_nil _)
    rwa [append_nil, ← append_assoc] at bare
  rw [mem_append, not_or] at flat
  refine ⟨before ++ lead, rest ++ ['{'], after, _, ?_, trimmed, ?_, ?_, rfl, getLast?_concat,
    unclosed, ?_⟩
  · simp only [append_assoc, singleton_append]
  · rw [mem_append, not_or]
    exact ⟨flat.2, by decide⟩
  · exact congrArg (fun text => some (String.ofList text)) shown
  · change newlines (List.take before.length _) + 1 = _
    rw [append_assoc, take_left, newlines_append, newlines_eq_zero flat.1]

end ClassSugar

end PageScript
