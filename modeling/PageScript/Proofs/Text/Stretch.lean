import PageScript.Proofs.Text.Cut

/-! Texts cut at characters that no occurrence has, and stretches that none reaches into. -/

open List

namespace PageScript.Text

variable {α σ : Type}
variable {recognise : Recogniser α} {text rest lexeme left right : Text} {value : α} {stop c : Char}
  {p : Char → Bool} {pieces : List (Piece α)}

/-- A recogniser does not look at the text before a place. -/
def Blind (recognise : Recogniser α) : Prop :=
  ∀ left right text, recognise left text = recognise right text

theorem Blind.cutFrom (blind : Blind recognise) (left right : Text) (skip : Nat) (text : Text) :
    cutFrom recognise left skip text = cutFrom recognise right skip text := by
  induction text generalizing left right skip with
  | nil => rw [Text.cutFrom, Text.cutFrom]
  | cons c rest ih =>
    cases skip with
    | succ skip => exact ih (c :: left) (c :: right) skip
    | zero =>
      rw [Text.cutFrom, Text.cutFrom, blind left right]
      split
      · rw [ih (c :: left) (c :: right)]
      · rw [ih (c :: left) (c :: right)]

theorem Blind.cut_silent (blind : Blind recognise)
    (silent : ∀ part, part ≠ [] → part <:+ text → recognise [] (part ++ rest) = none) :
    cut recognise (text ++ rest) = text.map Piece.plain ++ cut recognise rest := by
  have seen : Silent recognise text rest := fun before part more within =>
    (blind before [] _).trans (silent part more within)
  rw [cut, cutFrom_silent seen, blind.cutFrom _ []]
  rfl

theorem Blind.cut_found (blind : Blind recognise) (more : lexeme ≠ [])
    (found : recognise [] (lexeme ++ rest) = some (value, rest)) :
    cut recognise (lexeme ++ rest) = .found lexeme value :: cut recognise rest := by
  rw [cut, cutFrom_found more found, blind.cutFrom _ []]
  rfl

theorem cutFrom_append
    (same : ∀ before c part, c :: part <:+ text → recognise before (c :: part ++ rest) =
      (recognise before (c :: part)).map fun found => (found.1, found.2 ++ rest)) {skip : Nat}
    (within : skip ≤ text.length) (before : Text) :
    cutFrom recognise before skip (text ++ rest) =
      cutFrom recognise before skip text ++ cutFrom recognise (text.reverse ++ before) 0 rest := by
  induction text generalizing before skip with
  | nil =>
    rw [Nat.le_zero.mp within]
    rfl
  | cons c text ih =>
    have later := @ih fun before d part inside => same before d part (inside.trans (suffix_cons c text))
    rw [reverse_cons, append_assoc, singleton_append, cons_append]
    cases skip with
    | succ skip => exact later (Nat.le_of_succ_le_succ within) (c :: before)
    | zero =>
      have seen := same before c text (suffix_refl _)
      rw [cons_append] at seen
      rw [Text.cutFrom, Text.cutFrom, seen]
      cases recognise before (c :: text) with
      | none => exact congrArg (Piece.plain c :: ·) (later (Nat.zero_le _) (c :: before))
      | some found =>
        obtain ⟨value, after⟩ := found
        have size : (text ++ rest).length - (after ++ rest).length = text.length - after.length := by
          rw [length_append, length_append]
          omega
        have short : text.length - after.length ≤ text.length := Nat.sub_le _ _
        rw [Option.map_some]
        dsimp only
        rw [size, take_append_of_le_length short, later short, cons_append]

/-- What a recogniser finds before a character does not hang on what follows from there on. -/
def StopsAt (stop : Char) (recognise : Recogniser α) : Prop :=
  ∀ before text rest, recognise before (text ++ stop :: rest) =
    (recognise before text).map fun found => (found.1, found.2 ++ stop :: rest)

theorem StopsAt.cutFrom (stops : StopsAt stop recognise) {skip : Nat} (within : skip ≤ text.length)
    (before rest : Text) :
    cutFrom recognise before skip (text ++ stop :: rest) =
      cutFrom recognise before skip text ++
        cutFrom recognise (text.reverse ++ before) 0 (stop :: rest) :=
  cutFrom_append (fun before c part _ => stops before (c :: part) rest) within before

theorem StopsAt.cut (stops : StopsAt stop recognise) (blind : Blind recognise)
    (nothing : recognise [] [] = none) (left right : Text) :
    cut recognise (left ++ stop :: right) =
      Text.cut recognise left ++ .plain stop :: Text.cut recognise right := by
  have here : recognise (left.reverse ++ []) (stop :: right) = none := by
    have seen := stops [] [] right
    rw [nothing] at seen
    exact (blind _ [] _).trans seen
  rw [Text.cut, stops.cutFrom (Nat.zero_le _)]
  congr 1
  rw [Text.cutFrom, here, blind.cutFrom _ []]
  rfl

theorem after?_stop {start : Text} (apart : stop ∉ start) (text rest : Text) :
    after? start (text ++ stop :: rest) = (after? start text).map (· ++ stop :: rest) := by
  induction start generalizing text with
  | nil => rw [after?, after?, Option.map_some]
  | cons s start ih =>
    obtain ⟨differs, others⟩ := ne_and_not_mem_of_not_mem_cons apart
    cases text with
    | nil =>
      rw [nil_append, after?, after?, if_neg (Ne.symm differs)]
      rfl
    | cons c text =>
      rw [cons_append, after?, after?]
      split
      · exact ih others text
      · rfl

theorem takeWhile_stop (ends : p stop = false) (text rest : Text) :
    (text ++ stop :: rest).takeWhile p = text.takeWhile p := by
  induction text with
  | nil => rw [nil_append, takeWhile_cons, ends]; rfl
  | cons c text ih => rw [cons_append, takeWhile_cons, takeWhile_cons, ih]

theorem dropWhile_stop (ends : p stop = false) (text rest : Text) :
    (text ++ stop :: rest).dropWhile p = text.dropWhile p ++ stop :: rest := by
  induction text with
  | nil => rw [nil_append, dropWhile_cons, ends]; rfl
  | cons c text ih =>
    rw [cons_append, dropWhile_cons, dropWhile_cons, ih]
    split <;> rfl

theorem run1?_stop (ends : p stop = false) (text rest : Text) :
    run1? p (text ++ stop :: rest) =
      (run1? p text).map fun found => (found.1, found.2 ++ stop :: rest) := by
  unfold run1?
  rw [takeWhile_stop ends, dropWhile_stop ends]
  split <;> rfl

/-- A change that is made on its own on each side of certain characters. -/
structure Splits (stop : Char → Bool) (change : Text → Text) : Prop where
  nothing : change [] = []
  cons : ∀ c, stop c = true → ∀ left right,
    change (left ++ c :: right) = change left ++ c :: change right

theorem Splits.replace {stop : Char → Bool} (stops : ∀ c, stop c = true → StopsAt c recognise)
    (blind : Blind recognise) (nothing : recognise [] [] = none) (write : α → Text) :
    Splits stop (replace recognise write) where
  nothing := rfl
  cons c ends left right := by
    rw [Text.replace, (stops c ends).cut blind nothing, writePieces_append]
    rfl

namespace Splits

variable {stop : Char → Bool} {change : Text → Text} (splits : Splits stop change)
include splits

theorem append_of_left (ends : stop c = true) (last : left.getLast? = some c) (right : Text) :
    change (left ++ right) = change left ++ change right := by
  obtain ⟨front, rfl⟩ := getLast?_eq_some_iff.mp last
  rw [append_assoc, singleton_append, splits.cons c ends, splits.cons c ends,
    splits.nothing]
  simp only [append_assoc, singleton_append]

theorem append_of_right (ends : stop c = true) (first : right.head? = some c) (left : Text) :
    change (left ++ right) = change left ++ change right := by
  obtain ⟨rest, rfl⟩ := head?_eq_some_iff.mp first
  rw [splits.cons c ends, ← nil_append (c :: rest), splits.cons c ends, splits.nothing,
    nil_append]

theorem getLast? (ends : stop c = true) (last : text.getLast? = some c) :
    (change text).getLast? = some c := by
  obtain ⟨front, rfl⟩ := getLast?_eq_some_iff.mp last
  rw [splits.cons c ends, splits.nothing]
  exact getLast?_concat

end Splits

/-- No occurrence reaches into the stretch of a text. -/
def Clear (recognise : Recogniser α) (left stretch right : Text) : Prop :=
  ∃ before after, cut recognise (left ++ stretch ++ right) =
    before ++ stretch.map Piece.plain ++ after ∧ before.flatMap Piece.source = left

private theorem flatMap_source_plain (text : Text) :
    (text.map (Piece.plain : Char → Piece α)).flatMap Piece.source = text := by
  rw [flatMap_map]
  exact flatMap_singleton' text

private theorem eq_plain_of_no_value (none : pieces.filterMap Piece.value? = []) :
    pieces = (pieces.flatMap Piece.source).map Piece.plain := by
  induction pieces with
  | nil => rfl
  | cons piece rest ih =>
    cases piece with
    | plain c => exact congrArg (Piece.plain c :: ·) (ih none)
    | found lexeme value => cases none

theorem Clear.of_none {stretch : Text} (none : occurrences recognise (left ++ stretch ++ right) = []) :
    Clear recognise left stretch right := by
  refine ⟨left.map Piece.plain, right.map Piece.plain, ?_, flatMap_source_plain left⟩
  rw [eq_plain_of_no_value none, flatMap_source_cut, map_append, map_append]

theorem source_ne_nil_of_mem_cutFrom {before : Text} {skip : Nat} {piece : Piece α}
    (member : piece ∈ cutFrom recognise before skip text) : piece.source ≠ [] := by
  induction text generalizing before skip with
  | nil => rw [cutFrom] at member; cases member
  | cons c rest ih =>
    cases skip with
    | succ skip => exact ih member
    | zero =>
      rw [cutFrom] at member
      split at member
      · rcases mem_cons.mp member with rfl | later
        · exact cons_ne_nil _ _
        · exact ih later
      · rcases mem_cons.mp member with rfl | later
        · exact cons_ne_nil _ _
        · exact ih later

private theorem eq_nil_of_source (full : ∀ piece ∈ pieces, piece.source ≠ [])
    (nothing : pieces.flatMap Piece.source = []) : pieces = [] := by
  rw [eq_nil_iff_forall_not_mem]
  exact fun piece member => full piece member (flatMap_eq_nil_iff.mp nothing piece member)

/-- A stretch that no occurrence reaches into stands in the result as it is, first or last if it was so
before. -/
theorem Clear.weave? (step : σ → Text → α → Option (Text × σ)) {stretch : Text}
    (clear : Clear recognise left stretch right) {state final : σ}
    (woven : weave? step state (cut recognise (left ++ stretch ++ right)) = some (text, final)) :
    ∃ before after, text = before ++ stretch ++ after ∧ (left = [] → before = []) ∧
      (right = [] → after = []) := by
  obtain ⟨start, rest, pieces, sourceAt⟩ := clear
  have full : ∀ piece ∈ start ++ stretch.map Piece.plain ++ rest, piece.source ≠ [] := by
    rw [← pieces]
    exact fun _ member => source_ne_nil_of_mem_cutFrom member
  have whole := flatMap_source_cut recognise (left ++ stretch ++ right)
  rw [pieces, flatMap_append, flatMap_append, sourceAt, flatMap_source_plain,
    append_cancel_left_eq] at whole
  rw [pieces, append_assoc, weave?_append, Option.bind_eq_some_iff] at woven
  obtain ⟨⟨before, middle⟩, begun, woven⟩ := woven
  dsimp only at woven
  rw [weave?_append, weave?_of_no_value _ _ _ (filterMap_value?_plain stretch), Option.bind_some,
    Option.map_map, Option.map_eq_some_iff] at woven
  obtain ⟨⟨after, last⟩, ending, same⟩ := woven
  dsimp only [Function.comp_apply] at same
  rw [flatMap_source_plain] at same
  cases same
  refine ⟨before, after, (append_assoc _ _ _).symm, ?_, ?_⟩
  · intro nothing
    rw [eq_nil_of_source (fun piece member => full piece (by simp [member]))
      (sourceAt.trans nothing)] at begun
    cases begun
    rfl
  · intro nothing
    rw [eq_nil_of_source (fun piece member => full piece (by simp [member]))
      (whole.trans nothing)] at ending
    cases ending
    rfl

theorem weave?_writePieces (write : Text → α → Text) (pieces : List (Piece α)) :
    weave? (fun (_ : Unit) lexeme value => some (write lexeme value, ())) () pieces =
      some (writePieces write pieces, ()) := by
  induction pieces with
  | nil => rfl
  | cons piece rest ih =>
    cases piece with
    | plain c => rw [weave?_plain, ih]; rfl
    | found lexeme value =>
      rw [weave?_found, Option.bind_some]
      dsimp only
      rw [ih]
      rfl

theorem recognised_of_mem_occurrences (member : value ∈ occurrences recognise text) :
    ∃ front rest after, recognise front rest = some (value, after) := by
  obtain ⟨piece, within, has⟩ := mem_filterMap.mp member
  cases piece with
  | plain c => cases has
  | found lexeme other =>
    cases has
    exact recognised_of_mem_cutFrom within

/-- A text of whole lines, each with its line end. -/
def LineEnded (text : Text) : Prop :=
  text = [] ∨ text.getLast? = some '\n'

theorem LineEnded.append (first : LineEnded left) (second : LineEnded right) :
    LineEnded (left ++ right) := by
  rcases second with rfl | last
  · rwa [append_nil]
  · right
    rw [getLast?_append, last]
    rfl

theorem weave?_ended (step : σ → Text → α → Option (Text × σ))
    (ended : pieces = [] ∨ ∃ others, pieces = others ++ [.plain '\n']) {state final : σ}
    (woven : weave? step state pieces = some (text, final)) : LineEnded text := by
  rcases ended with rfl | ⟨others, rfl⟩
  · cases woven
    exact .inl rfl
  · rw [weave?_append, Option.bind_eq_some_iff] at woven
    obtain ⟨⟨lines, next⟩, _, woven⟩ := woven
    cases woven
    exact .inr getLast?_concat

/-- Each occurrence among the pieces is at the start of a line. -/
def startsLines : Bool → List (Piece α) → Bool
  | _, [] => true
  | _, .plain c :: rest => startsLines (c == '\n') rest
  | atStart, .found _ _ :: rest => atStart && startsLines false rest

theorem startsLines_split {atStart : Bool} {left right : List (Piece α)}
    (starts : startsLines atStart (left ++ .found lexeme value :: right) = true) :
    left = [] ∨ ∃ others, left = others ++ [.plain '\n'] := by
  induction left generalizing atStart with
  | nil => exact .inl rfl
  | cons piece left ih =>
    right
    have later : ∃ next, startsLines next (left ++ .found lexeme value :: right) = true ∧
        (next = true → piece = .plain '\n') := by
      cases piece with
      | plain c =>
        refine ⟨c == '\n', starts, fun same => ?_⟩
        rw [eq_of_beq same]
      | found _ _ =>
        rw [cons_append, startsLines, Bool.and_eq_true] at starts
        exact ⟨false, starts.2, fun none => by cases none⟩
    obtain ⟨next, rest, known⟩ := later
    rcases ih rest with rfl | ⟨others, rfl⟩
    · rw [nil_append, startsLines, Bool.and_eq_true] at rest
      exact ⟨[], by rw [known rest.1]; rfl⟩
    · exact ⟨piece :: others, rfl⟩

end PageScript.Text
