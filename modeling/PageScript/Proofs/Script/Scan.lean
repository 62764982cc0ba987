import PageScript.Proofs.Text.Cut
import PageScript.Script.Bracket

/-! Scanning a script one character at a time (`Scan.run_append`). -/

open List

namespace PageScript

open Text Option

variable {c closer : Char} {opened : List Char} {text rest : Text}

namespace Script

/-- A text that bracket matching passes over as a whole when it stands in parentheses: it closes every
bracket that it opens and no other, and ends outside literals and comments. -/
def Closed (text : Text) : Prop :=
  closing? ('(' :: text ++ [')']) = some (text.length + 1)

instance (text : Text) : Decidable (Closed text) :=
  inferInstanceAs (Decidable (_ = _))

abbrev Quote := { c : Char // isQuote c = true }

inductive Mode where
  | code (slash : Bool)
  | literal (quote : Quote) (escaped : Bool)
  | lineComment
  | blockComment (star : Bool)

namespace Mode

def isCode : Mode → Bool
  | .code _ => true
  | _ => false

def next : Mode → Char → Mode
  | .code slash, c =>
      if slash = true ∧ c = '/' then .lineComment
      else if slash = true ∧ c = '*' then .blockComment false
      else if quoted : isQuote c = true then .literal ⟨c, quoted⟩ false
      else .code (c == '/')
  | .literal quote true, _ => .literal quote false
  | .literal quote false, c =>
      if c = '\\' then .literal quote true
      else if c = quote.val then .code false
      else if c = '\n' ∧ quote.val ≠ '\x60' then .code false
      else .literal quote false
  | .lineComment, c => if c = '\n' then .code false else .lineComment
  | .blockComment star, c =>
      if star = true ∧ c = '/' then .code false else .blockComment (c == '*')

end Mode

variable {mode after : Mode}

/-- The closing brackets that are to come after a character of code, innermost first. There are none
after a bracket that closes nothing. -/
def bracket (opened : List Char) (c : Char) : Option (List Char) :=
  match closerOf? c with
  | some closer => some (closer :: opened)
  | none =>
      if isCloser c then
        match opened with
        | [] => none
        | closer :: outer => if closer ≠ c then none else some outer
      else some opened

structure Scan where
  mode : Mode
  opened : List Char

namespace Scan

def start : Scan := ⟨.code false, []⟩

def step (scan : Scan) (c : Char) : Option Scan :=
  (if scan.mode.isCode then bracket scan.opened c else some scan.opened).map fun opened =>
    ⟨scan.mode.next c, opened⟩

def run (scan : Scan) (text : Text) : Option Scan :=
  text.foldlM step scan

theorem run_cons (scan : Scan) (c : Char) (rest : Text) :
    scan.run (c :: rest) = (scan.step c).bind fun next => next.run rest := rfl

theorem run_append (scan : Scan) (left right : Text) :
    scan.run (left ++ right) = (scan.run left).bind fun next => next.run right :=
  foldlM_append

theorem step_code (slash : Bool) (opened : List Char) (c : Char) :
    step ⟨.code slash, opened⟩ c =
      (bracket opened c).map fun opened => ⟨Mode.next (.code slash) c, opened⟩ := rfl

theorem step_other (other : mode.isCode = false) (opened : List Char) (c : Char) :
    step ⟨mode, opened⟩ c = some ⟨mode.next c, opened⟩ := by
  simp [step, other]

/-- The position at which the last open bracket is closed. -/
def closesAt : Scan → Nat → Text → Option Nat
  | _, _, [] => none
  | scan, position, c :: rest =>
      match scan.step c with
      | none => none
      | some next => if next.opened.isEmpty then some position else closesAt next (position + 1) rest

end Scan

/-! ### Brackets below those of a text -/

theorem bracket_plain (opens : closerOf? c = none) (closes : isCloser c = false) (opened : List Char) :
    bracket opened c = some opened := by
  simp [bracket, opens, closes]

private theorem bracket_newline (opened : List Char) : bracket opened '\n' = some opened := rfl

private theorem bracket_slash (opened : List Char) : bracket opened '/' = some opened := rfl

theorem bracket_append {next : List Char} (taken : bracket opened c = some next) (base : List Char) :
    bracket (opened ++ base) c = some (next ++ base) := by
  unfold bracket at taken ⊢
  split at taken
  · cases taken
    rfl
  · split at taken
    · rename_i closes
      rw [if_pos closes]
      cases opened with
      | nil => cases taken
      | cons closer outer =>
        dsimp only [cons_append] at taken ⊢
        split at taken
        · cases taken
        · rename_i same
          rw [if_neg same, some.inj taken]
    · rename_i other
      rw [if_neg other, some.inj taken]

theorem bracket_of_append {next : List Char} (taken : bracket (opened ++ [closer]) c = some next)
    (more : next ≠ []) : ∃ inner, bracket opened c = some inner ∧ next = inner ++ [closer] := by
  unfold bracket at taken ⊢
  split at taken
  · exact ⟨_, rfl, (some.inj taken).symm⟩
  · split at taken
    · rename_i closes
      rw [if_pos closes]
      cases opened with
      | nil =>
        dsimp only [nil_append] at taken
        split at taken
        · cases taken
        · exact absurd (some.inj taken).symm more
      | cons first outer =>
        dsimp only [cons_append] at taken ⊢
        split at taken
        · cases taken
        · rename_i same
          rw [if_neg same]
          exact ⟨outer, rfl, (some.inj taken).symm⟩
    · rename_i other
      rw [if_neg other]
      exact ⟨opened, rfl, (some.inj taken).symm⟩

private theorem bracket_last (taken : bracket (opened ++ [closer]) c = some []) : opened = [] := by
  unfold bracket at taken
  split at taken
  · cases taken
  · split at taken
    · cases opened with
      | nil => rfl
      | cons first outer =>
        dsimp only [cons_append] at taken
        split at taken
        · cases taken
        · simp at taken
    · simp at taken

namespace Scan

theorem step_append {next : List Char} (stepped : step ⟨mode, opened⟩ c = some ⟨after, next⟩)
    (base : List Char) : step ⟨mode, opened ++ base⟩ c = some ⟨after, next ++ base⟩ := by
  unfold step at stepped ⊢
  dsimp only at stepped ⊢
  split at stepped
  · rename_i inCode
    obtain ⟨inner, taken, same⟩ := map_eq_some_iff.mp stepped
    cases same
    rw [if_pos inCode, bracket_append taken]
    rfl
  · rename_i other
    cases stepped
    rw [if_neg other]
    rfl

theorem step_of_append {next : Scan} (stepped : step ⟨mode, opened ++ [closer]⟩ c = some next)
    (more : next.opened ≠ []) :
    ∃ inner, step ⟨mode, opened⟩ c = some ⟨next.mode, inner⟩ ∧ next.opened = inner ++ [closer] := by
  unfold step at stepped ⊢
  dsimp only at stepped ⊢
  split at stepped
  · rename_i inCode
    obtain ⟨outer, taken, rfl⟩ := map_eq_some_iff.mp stepped
    obtain ⟨inner, taken, same⟩ := bracket_of_append taken more
    rw [if_pos inCode, taken]
    exact ⟨inner, rfl, same⟩
  · rename_i other
    cases stepped
    rw [if_neg other]
    exact ⟨opened, rfl, rfl⟩

private theorem step_last {next : Scan} (stepped : step ⟨mode, opened ++ [closer]⟩ c = some next)
    (last : next.opened = []) : (∃ slash, mode = .code slash) ∧ opened = [] := by
  unfold step at stepped
  dsimp only at stepped
  split at stepped
  · rename_i inCode
    obtain ⟨outer, taken, rfl⟩ := map_eq_some_iff.mp stepped
    dsimp only at last
    rw [last] at taken
    refine ⟨?_, bracket_last taken⟩
    cases mode with
    | code slash => exact ⟨slash, rfl⟩
    | literal quote escaped => cases inCode
    | lineComment => cases inCode
    | blockComment star => cases inCode
  · cases stepped
    simp at last

theorem le_of_closesAt {scan : Scan} {position close : Nat}
    (closes : scan.closesAt position text = some close) : position ≤ close := by
  induction text generalizing scan position with
  | nil => cases closes
  | cons c rest ih =>
    rw [closesAt] at closes
    split at closes
    · cases closes
    · split at closes
      · exact Nat.le_of_eq (some.inj closes)
      · exact Nat.le_of_succ_le (ih closes)

theorem run_append_opened {next : List Char} (ran : run ⟨mode, opened⟩ text = some ⟨after, next⟩)
    (base : List Char) : run ⟨mode, opened ++ base⟩ text = some ⟨after, next ++ base⟩ := by
  induction text generalizing mode opened with
  | nil =>
    cases ran
    rfl
  | cons c rest ih =>
    obtain ⟨⟨middle, between⟩, stepped, ran⟩ := bind_eq_some_iff.mp ran
    rw [run_cons, step_append stepped base]
    exact ih ran

theorem closesAt_append {next base : List Char} (ran : run ⟨mode, opened⟩ text = some ⟨after, next⟩)
    (below : base ≠ []) (position : Nat) (rest : Text) :
    closesAt ⟨mode, opened ++ base⟩ position (text ++ rest) =
      closesAt ⟨after, next ++ base⟩ (position + text.length) rest := by
  induction text generalizing mode opened position with
  | nil =>
    cases ran
    rfl
  | cons c text ih =>
    obtain ⟨⟨middle, between⟩, stepped, ran⟩ := bind_eq_some_iff.mp ran
    have open_ : (between ++ base).isEmpty = false := by simp [below]
    rw [cons_append, closesAt, step_append stepped base]
    dsimp only
    rw [open_, if_neg Bool.false_ne_true, ih ran]
    congr 1
    rw [length_cons]
    omega

/-- If the bracket right after a text is the one that closes the last, the text was passed over. -/
theorem run_of_closesAt {position : Nat}
    (closes : closesAt ⟨mode, opened ++ [closer]⟩ position (text ++ closer :: rest) =
      some (position + text.length)) : ∃ slash, run ⟨mode, opened⟩ text = some ⟨.code slash, []⟩ := by
  induction text generalizing mode opened position with
  | nil =>
    rw [nil_append, closesAt] at closes
    cases stepped : step ⟨mode, opened ++ [closer]⟩ closer with
    | none =>
      rw [stepped] at closes
      cases closes
    | some next =>
      rw [stepped] at closes
      dsimp only at closes
      split at closes
      · rename_i last
        obtain ⟨⟨slash, rfl⟩, rfl⟩ := step_last stepped (isEmpty_iff.mp last)
        exact ⟨slash, rfl⟩
      · have later := le_of_closesAt closes
        rw [length_nil] at later
        omega
  | cons c text ih =>
    rw [cons_append, closesAt] at closes
    cases stepped : step ⟨mode, opened ++ [closer]⟩ c with
    | none =>
      rw [stepped] at closes
      cases closes
    | some next =>
      rw [stepped] at closes
      dsimp only at closes
      split at closes
      · have impossible := some.inj closes
        rw [length_cons] at impossible
        omega
      · rename_i more
        obtain ⟨inner, stepped, same⟩ := step_of_append stepped (by simpa using more)
        obtain ⟨after, between⟩ := next
        cases same
        rw [length_cons, Nat.add_comm text.length, ← Nat.add_assoc] at closes
        obtain ⟨slash, ran⟩ := ih closes
        exact ⟨slash, by rw [run_cons, stepped]; exact ran⟩

end Scan

/-! ### Literals and comments -/

private theorem afterBlockComment_cons (c : Char) (rest : Text) :
    afterBlockComment (c :: rest) =
      if c = '*' ∧ rest.head? = some '/' then rest.tail else afterBlockComment rest := by
  have ending : after? "*/".toList (c :: rest) =
      if c = '*' ∧ rest.head? = some '/' then some rest.tail else none := by
    change after? ['*', '/'] (c :: rest) = _
    cases rest with
    | nil => simp [after?]
    | cons d rest => grind [after?]
  unfold afterBlockComment
  rw [cutAt?, ending]
  by_cases ends : c = '*' ∧ rest.head? = some '/'
  · rw [if_pos ends, if_pos ends]
  · rw [if_neg ends, if_neg ends]
    cases cutAt? "*/".toList rest <;> rfl

/-- What a lexeme is, up to a character inside it. -/
inductive Inside where
  | literal (quote : Quote) (escaped : Bool)
  | pattern (inClass escaped : Bool)
  | lineComment
  | blockOpening
  | blockComment (star : Bool)

namespace Inside

inductive Move where
  | stop
  | last
  | on (next : Inside)

def move : Inside → Char → Move
  | .literal quote true, _ => .on (.literal quote false)
  | .literal quote false, c =>
      if c = '\\' then .on (.literal quote true)
      else if c = quote.val then .last
      else if c = '\n' ∧ quote.val ≠ '\x60' then .stop
      else .on (.literal quote false)
  | .pattern inClass true, _ => .on (.pattern inClass false)
  | .pattern inClass false, c =>
      if c = '\\' then .on (.pattern inClass true)
      else if c = '[' then .on (.pattern true false)
      else if c = ']' then .on (.pattern false false)
      else if c = '/' ∧ inClass = false then .last
      else if c = '\n' then .stop
      else .on (.pattern inClass false)
  | .lineComment, c => if c = '\n' then .stop else .on .lineComment
  | .blockOpening, _ => .on (.blockComment false)
  | .blockComment star, c => if star = true ∧ c = '/' then .last else .on (.blockComment (c == '*'))

def pass : Inside → Text → Text
  | _, [] => []
  | inside, c :: rest =>
      match inside.move c with
      | .stop => c :: rest
      | .last => rest
      | .on next => next.pass rest

theorem pass_of_on {inside next : Inside} {c : Char} (moved : inside.move c = .on next)
    (rest : Text) : inside.pass (c :: rest) = next.pass rest := by
  rw [pass, moved]

theorem pass_suffix (inside : Inside) (text : Text) : inside.pass text <:+ text := by
  induction text generalizing inside with
  | nil => exact suffix_refl []
  | cons c rest ih =>
    rw [pass]
    split
    · exact suffix_refl _
    · exact suffix_cons c rest
    · exact (ih _).trans (suffix_cons c rest)

theorem pass_literal (quote : Quote) (text : Text) :
    (Inside.literal quote false).pass text = text.drop (literalTail quote.val text) := by
  fun_induction literalTail quote.val text with
  | case6 c rest plain inside stays ih =>
    simp only [Alphabet.newline, Alphabet.escape, Alphabet.multiline] at plain stays
    refine (pass_of_on ?_ rest).trans ih
    simp only [move, plain, inside, stays, if_false]
  | _ => simp_all [pass, move, Alphabet.escape, Alphabet.newline, Alphabet.multiline]

theorem pass_lineComment (text : Text) : Inside.lineComment.pass text = afterLineComment text := by
  induction text with
  | nil => rfl
  | cons c rest ih => by_cases ends : c = '\n' <;> simp_all [pass, move, afterLineComment]

theorem pass_blockComment (text : Text) :
    (Inside.blockComment false).pass text = afterBlockComment text ∧
      (Inside.blockComment true).pass text =
        if text.head? = some '/' then text.tail else afterBlockComment text := by
  induction text with
  | nil => exact ⟨rfl, rfl⟩
  | cons c rest ih =>
    rw [afterBlockComment_cons]
    by_cases star : c = '*'
    · subst star
      simpa [pass, move] using ih.2
    · have plain : (c == '*') = false := beq_eq_false_iff_ne.mpr star
      by_cases slash : c = '/'
      · simpa [pass, move, star, slash] using ih.1
      · simpa [pass, move, star, slash, plain] using ih.1

end Inside

/-- What is passed over in a mode other than code. -/
def Mode.inside : Mode → Inside
  | .code _ => .blockOpening
  | .literal quote escaped => .literal quote escaped
  | .lineComment => .lineComment
  | .blockComment star => .blockComment star

theorem Mode.move_inside (other : mode.isCode = false) (c : Char) :
    mode.inside.move c = .on (mode.next c).inside ∧ (mode.next c).isCode = false ∨
      mode.next c = .code false ∧ (mode.inside.move c = .last ∨ mode.inside.move c = .stop ∧ c = '\n') := by
  unfold inside next Inside.move
  grind [Mode, isCode]

namespace Scan

theorem closesAt_other (other : mode.isCode = false) (more : opened ≠ []) (position : Nat) (c : Char)
    (rest : Text) :
    closesAt ⟨mode, opened⟩ position (c :: rest) =
      closesAt ⟨mode.next c, opened⟩ (position + 1) rest := by
  rw [closesAt, step_other other]
  simp [more]

theorem closesAt_plain {slash : Bool} (taken : bracket opened c = some opened) (more : opened ≠ [])
    (position : Nat) (rest : Text) :
    closesAt ⟨.code slash, opened⟩ position (c :: rest) =
      closesAt ⟨Mode.next (.code slash) c, opened⟩ (position + 1) rest := by
  rw [closesAt, step_code, taken]
  simp [more]

theorem literalTail_le (quote : Char) (text : Text) : literalTail quote text ≤ text.length := by
  fun_induction literalTail quote text <;> simp only [length_cons, length_nil] <;> omega

/-- Bracket matching goes on in code after what is passed over. -/
theorem closesAt_pass (other : mode.isCode = false) (more : opened ≠ []) (position : Nat) (text : Text) :
    closesAt ⟨mode, opened⟩ position text =
      closesAt ⟨.code false, opened⟩ (position + (text.length - (mode.inside.pass text).length))
        (mode.inside.pass text) := by
  induction text generalizing mode position with
  | nil => rfl
  | cons c rest ih =>
    rw [closesAt_other other more, Inside.pass]
    rcases Mode.move_inside other c with ⟨moved, still⟩ | ⟨ended, moved | ⟨moved, rfl⟩⟩
    all_goals
      rw [moved]
      dsimp only
    · have shorter := ((mode.next c).inside.pass_suffix rest).length_le
      rw [ih still, length_cons]
      congr 1
      omega
    · rw [ended, length_cons, Nat.add_sub_cancel_left]
    · -- the line end is read again as code, to which it does nothing
      rw [ended, Nat.sub_self, closesAt_plain (bracket_newline opened) more]
      rfl

/-! ### Cut texts -/

theorem passedOver_closesAt {before after : Text}
    (found : passedOver before (c :: rest) = some ((), after)) (more : opened ≠ []) (position : Nat) :
    after <:+ rest ∧
      closesAt ⟨.code false, opened⟩ position (c :: rest) =
        closesAt ⟨.code false, opened⟩ (position + 1 + (rest.length - after.length)) after := by
  unfold passedOver at found
  split at found
  · rename_i body same
    cases same
    cases found
    have shorter := Inside.lineComment.pass_suffix body
    rw [Inside.pass_lineComment] at shorter
    refine ⟨shorter.trans (suffix_cons _ _), ?_⟩
    have further := shorter.length_le
    rw [closesAt_plain (bracket_slash opened) more]
    change closesAt ⟨.code true, opened⟩ _ _ = _
    rw [closesAt_plain (bracket_slash opened) more]
    change closesAt ⟨.lineComment, opened⟩ _ _ = _
    rw [closesAt_pass rfl more, length_cons, Mode.inside, Inside.pass_lineComment]
    congr 1
    omega
  · rename_i body same
    cases same
    cases found
    have shorter := (Inside.blockComment false).pass_suffix body
    rw [(Inside.pass_blockComment body).1] at shorter
    refine ⟨shorter.trans (suffix_cons _ _), ?_⟩
    have further := shorter.length_le
    rw [closesAt_plain (bracket_slash opened) more]
    change closesAt ⟨.code true, opened⟩ _ _ = _
    rw [closesAt_plain rfl more]
    change closesAt ⟨.blockComment false, opened⟩ _ _ = _
    rw [closesAt_pass rfl more, length_cons, Mode.inside, (Inside.pass_blockComment body).1]
    congr 1
    omega
  · rename_i quote body _ _ same
    cases same
    split at found
    · rename_i quoted
      cases found
      have plain : bracket opened c = some opened := by
        apply bracket_plain <;> grind [isQuote, closerOf?, isCloser]
      have next : Mode.next (.code false) c = .literal ⟨c, quoted⟩ false := by
        simp [Mode.next, quoted]
      refine ⟨drop_suffix _ _, ?_⟩
      rw [closesAt_plain plain more, next, closesAt_pass rfl more, Mode.inside, Inside.pass_literal,
        afterLiteral]
    · cases found
  · cases found

theorem closesAt_slash {slash : Bool} (next : slash = true → ∀ c ∈ text.head?, c ≠ '/' ∧ c ≠ '*')
    (position : Nat) :
    closesAt ⟨.code slash, opened⟩ position text = closesAt ⟨.code false, opened⟩ position text := by
  cases text with
  | nil => rfl
  | cons c rest =>
    have same : Mode.next (.code slash) c = Mode.next (.code false) c := by
      cases slash <;> simp_all [Mode.next]
    rw [closesAt, closesAt, step_code, step_code, same]

private theorem passedOver_eq_none {before : Text} (plain : passedOver before (c :: rest) = none) :
    isQuote c = false ∧ (c = '/' → ∀ d ∈ rest.head?, d ≠ '/' ∧ d ≠ '*') := by
  unfold passedOver at plain
  split at plain
  · cases plain
  · cases plain
  · rename_i quote body noLine noBlock same
    cases same
    split at plain
    · cases plain
    · rename_i unquoted
      refine ⟨by simpa using unquoted, ?_⟩
      rintro rfl d first
      obtain ⟨more, rfl⟩ := head?_eq_some_iff.mp first
      refine ⟨?_, ?_⟩
      · rintro rfl
        exact noLine more rfl rfl
      · rintro rfl
        exact noBlock more rfl rfl
  · rename_i impossible
    cases impossible

theorem closingFrom_plain (more : opened ≠ []) (position : Nat) (c : Char) (rest : List (Piece Unit)) :
    closingFrom opened position (.plain c :: rest) =
      match bracket opened c with
      | none => none
      | some inner => if inner.isEmpty then some position else closingFrom inner (position + 1) rest := by
  rw [closingFrom.eq_def]
  unfold bracket
  dsimp only
  cases closerOf? c with
  | some closer => rfl
  | none =>
    cases isCloser c with
    | false => simp [more]
    | true =>
      cases opened with
      | nil => exact absurd rfl more
      | cons closer outer => by_cases same : closer = c <;> simp [same]

private theorem closingFrom_cut (more : opened ≠ []) (position : Nat) (before text : Text) :
    closingFrom opened position (cutFrom passedOver before 0 text) =
      closesAt ⟨.code false, opened⟩ position text := by
  induction size : text.length using Nat.strongRecOn generalizing opened position before text with
  | ind size ih =>
  subst size
  cases text with
  | nil => rfl
  | cons c rest =>
    rw [cutFrom]
    cases found : passedOver before (c :: rest) with
    | some answer =>
      obtain ⟨value, after⟩ := answer
      obtain ⟨shorter, read⟩ := passedOver_closesAt found more position
      have skipped : rest.drop (rest.length - after.length) = after :=
        (suffix_iff_eq_drop.mp shorter).symm
      have size := shorter.length_le
      dsimp only
      rw [closingFrom, cutFrom_skip, skipped, read,
        ih after.length (by rw [length_cons]; omega) more _ _ after rfl, length_cons,
        length_take]
      congr 1
      omega
    | none =>
      obtain ⟨unquoted, apart⟩ := passedOver_eq_none found
      have next : Mode.next (.code false) c = .code (c == '/') := by
        simp [Mode.next, unquoted]
      have later {inner : List Char} (open_ : inner ≠ []) :
          closingFrom inner (position + 1) (cutFrom passedOver (c :: before) 0 rest) =
            closesAt ⟨.code (c == '/'), inner⟩ (position + 1) rest := by
        rw [ih rest.length (by rw [length_cons]; omega) open_ _ _ rest rfl]
        exact (closesAt_slash (fun slash => apart (beq_iff_eq.mp slash)) _).symm
      dsimp only
      rw [closingFrom_plain more, closesAt, step_code, next]
      cases bracket opened c with
      | none => rfl
      | some inner =>
        cases inner with
        | nil => rfl
        | cons closer outer => exact later (cons_ne_nil closer outer)

end Scan

/-! ### Closed texts -/

theorem cut_opening (opens : closerOf? c = some closer) (rest : Text) :
    cut passedOver (c :: rest) = .plain c :: cutFrom passedOver [c] 0 rest := by
  have plain : passedOver [] (c :: rest) = none := by
    have bracket : c ≠ '/' ∧ isQuote c = false := by grind [isQuote, closerOf?]
    unfold passedOver
    split <;> simp_all
  rw [cut, cutFrom, plain]

theorem closing?_eq (opens : closerOf? c = some closer) (rest : Text) :
    closing? (c :: rest) = closingFrom [closer] 1 (cutFrom passedOver [c] 0 rest) := by
  unfold closing?
  dsimp only
  rw [opens, cut_opening opens, isSome_some, if_pos rfl, closingFrom.eq_def]
  dsimp only
  rw [opens]

theorem closing?_opening (opens : closerOf? c = some closer) (rest : Text) :
    closing? (c :: rest) = Scan.closesAt ⟨.code false, [closer]⟩ 1 rest :=
  (closing?_eq opens rest).trans
    (Scan.closingFrom_cut (cons_ne_nil closer []) 1 [c] rest)

theorem closing?_of_run {slash : Bool} (ran : Scan.start.run text = some ⟨.code slash, []⟩)
    (rest : Text) : closing? ('(' :: text ++ ')' :: rest) = some (text.length + 1) := by
  have passed := Scan.closesAt_append ran (cons_ne_nil ')' []) 1 (')' :: rest)
  rw [cons_append, closing?_opening rfl]
  refine passed.trans ?_
  rw [nil_append, Scan.closesAt, Scan.step_code, Nat.add_comm]
  rfl

theorem closed_iff : Closed text ↔ ∃ slash, Scan.start.run text = some ⟨.code slash, []⟩ := by
  constructor
  · intro closed
    rw [Closed, cons_append, closing?_opening rfl, Nat.add_comm] at closed
    exact @Scan.run_of_closesAt ')' [] text [] (.code false) 1 closed
  · rintro ⟨slash, ran⟩
    exact closing?_of_run ran []

end Script

end PageScript
