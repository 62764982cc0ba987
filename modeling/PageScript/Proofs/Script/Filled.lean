import PageScript.Proofs.Script.Matching
import PageScript.Proofs.Script.Solid
import PageScript.Proofs.Text.Fill

/-! Brackets of a text with placeholders (`closing?_fill`). -/

open List

namespace PageScript.Script

open Text (isHole isOpening)

variable {text : Text} {c : Char} {opened : List Char}

private theorem isNeutral_of_isHole (hole : isHole c = true) : isNeutral c = true :=
  isNeutral_of_class isHole (by decide) hole

namespace Scan

/-- Up to where the last open bracket is closed, placeholders are met in code only. -/
def holesInCode : Scan → Text → Bool
  | _, [] => true
  | scan, c :: rest =>
      (! isHole c || scan.mode.isCode) &&
        match scan.step c with
        | none => true
        | some next => next.opened.isEmpty || holesInCode next rest

private theorem closesAt_hole (hole : isHole c = true) {slash : Bool}
    (more : opened ≠ []) (position : Nat) (rest : Text) :
    closesAt ⟨.code slash, opened⟩ position (c :: rest) =
      closesAt ⟨.code false, opened⟩ (position + 1) rest := by
  have neutral := isNeutral_of_isHole hole
  rw [closesAt_plain (bracket_of_neutral neutral opened) more, Mode.next_of_neutral neutral]
  rfl

variable {filling : Filling}

private theorem closesAt_filled (hole : isHole c = true) (solid : Solid (filling.text c))
    {slash : Bool} (more : opened ≠ []) (position : Nat) (rest : Text) :
    closesAt ⟨.code slash, opened⟩ position (filling.text c ++ rest) =
      closesAt ⟨.code false, opened⟩ (position + (filling.text c).length) rest := by
  obtain ⟨first, others, same, opening⟩ := filling.opens c hole
  have known : first ∈ ['{', '[', '\x22', '@'] := contains_iff_mem.mp opening
  have apart : ∀ d ∈ ['{', '[', '\x22', '@'], d ≠ '/' ∧ d ≠ '*' := by decide
  rw [closesAt_slash fun _ d starts => ?_]
  · exact closesAt_append solid more position rest
  · rw [same, cons_append, head?_cons] at starts
    cases starts
    exact apart first known

private theorem closesAt_fill (solid : ∀ c, isHole c = true → Solid (filling.text c)) {scan : Scan}
    (more : scan.opened ≠ []) (inCode : scan.holesInCode text = true)
    (position filled : Nat) :
    scan.closesAt filled (filling.fill text) =
      (scan.closesAt position text).map fun close =>
        filled + filling.place text (close - position) := by
  induction text generalizing scan position filled with
  | nil => rfl
  | cons c rest ih =>
    rw [holesInCode, Bool.and_eq_true] at inCode
    obtain ⟨here, later⟩ := inCode
    -- a position of the rest lies behind what the first character stands for
    have shift (size : Nat) (close : Nat) (after : position + 1 ≤ close)
        (first : (filling.text c).length = size) :
        filled + size + filling.place rest (close - (position + 1)) =
          filled + filling.place (c :: rest) (close - position) := by
      obtain ⟨extra, rfl⟩ := Nat.exists_eq_add_of_le after
      have far : position + 1 + extra - position = extra + 1 := by omega
      rw [far, Nat.add_sub_cancel_left, Filling.place, Filling.place, take_succ_cons,
        Filling.fill_cons, length_append, first, Nat.add_assoc]
    cases hole : isHole c with
    | true =>
      rw [hole, Bool.not_true, Bool.false_or] at here
      obtain ⟨mode, opened⟩ := scan
      cases mode with
      | code slash =>
        have neutral := isNeutral_of_isHole hole
        have stepped : step ⟨.code slash, opened⟩ c = some ⟨.code false, opened⟩ := by
          rw [step_code, bracket_of_neutral neutral, Mode.next_of_neutral neutral]
          rfl
        rw [stepped] at later
        dsimp only at later more
        rw [isEmpty_eq_false_iff.mpr more, Bool.false_or] at later
        rw [Filling.fill_cons, closesAt_filled hole (solid c hole) more, closesAt_hole hole more,
          ih more later (position + 1)]
        cases found : closesAt ⟨.code false, opened⟩ (position + 1) rest with
        | none => rfl
        | some close => exact congrArg some (shift _ close (le_of_closesAt found) rfl)
      | literal quote escaped => cases here
      | lineComment => cases here
      | blockComment star => cases here
    | false =>
      rw [filling.fill_plain hole, closesAt, closesAt]
      cases stepped : scan.step c with
      | none => rfl
      | some next =>
        rw [stepped] at later
        dsimp only at later ⊢
        cases ended : next.opened.isEmpty with
        | true => simp [Filling.place]
        | false =>
          rw [ended, Bool.false_or] at later
          rw [if_neg Bool.false_ne_true, if_neg Bool.false_ne_true,
            ih (isEmpty_eq_false_iff.mp ended) later (position + 1)]
          cases found : next.closesAt (position + 1) rest with
          | none => rfl
          | some close =>
            exact congrArg some (shift 1 close (le_of_closesAt found)
              (by rw [filling.same c hole]; rfl))

end Scan

/-- After an opening brace, every placeholder before its closing one is met in code. -/
def HolesInCode (text : Text) : Prop :=
  Scan.holesInCode ⟨.code false, ['}']⟩ text = true

instance (text : Text) : Decidable (HolesInCode text) :=
  instDecidableEqBool _ _

theorem closing?_fill {filling : Filling} (solid : ∀ c, isHole c = true → Solid (filling.text c))
    (inCode : HolesInCode text) :
    closing? (filling.fill ('{' :: text)) =
      (closing? ('{' :: text)).map (filling.place ('{' :: text)) := by
  rw [filling.fill_plain rfl, closing?_opening rfl, closing?_opening rfl,
    Scan.closesAt_fill solid (cons_ne_nil _ _) inCode 1 1]
  cases found : Scan.closesAt ⟨.code false, ['}']⟩ 1 text with
  | none => rfl
  | some close =>
    obtain ⟨extra, rfl⟩ := Nat.exists_eq_add_of_le (Scan.le_of_closesAt found)
    rw [Option.map_some, Option.map_some, Nat.add_sub_cancel_left, Nat.add_comm 1 extra,
      Filling.place, Filling.place, take_succ_cons, filling.fill_plain rfl, length_cons,
      Nat.add_comm]

theorem isHole_of_closing? {close : Nat} (closes : closing? ('{' :: text) = some close) :
    ∃ front c rest, '{' :: text = front ++ c :: rest ∧ isHole c = false ∧ close = front.length := by
  rw [closing?_eq rfl, closingFrom_eq_some (cons_ne_nil _ _)] at closes
  obtain ⟨early, c, later, whole, rfl, last⟩ := closes
  refine ⟨'{' :: early.flatMap Piece.source, c, later.flatMap Piece.source, ?_, ?_, Nat.add_comm 1 _⟩
  · have source := Text.flatMap_source_cut passedOver ('{' :: text)
    rw [cut_opening rfl, whole, flatMap_cons, flatMap_append] at source
    exact source.symm
  · rw [← Bool.not_eq_true]
    intro hole
    -- a placeholder is no bracket, so that all would be closed before it
    apply last.first early (prefix_refl early)
    have closed := last.closed
    rw [pending, brackets, flatMap_append, foldlM_append] at closed
    obtain ⟨opened, read, ended⟩ := Option.bind_eq_some_iff.mp closed
    have passed := (pending_plain opened c []).symm.trans ended
    rw [bracket_of_neutral (isNeutral_of_isHole hole)] at passed
    rw [pending, brackets, read]
    exact passed

end PageScript.Script
