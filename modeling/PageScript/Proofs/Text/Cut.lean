import PageScript.Proofs.Text
import PageScript.Proofs.Text.Weave

/-! Cutting a text into what a recogniser finds and the rest. -/

open List

namespace PageScript.Text

variable {α σ : Type}
variable {recognise : Recogniser α} {text rest before lexeme marker : Text} {value : α}
  {left right : List (Piece α)} (write : Text → α → Text)

theorem cutFrom_skip (recognise : Recogniser α) (before text : Text) (skip : Nat) :
    cutFrom recognise before skip text =
      cutFrom recognise ((text.take skip).reverse ++ before) 0 (text.drop skip) := by
  induction text generalizing before skip with
  | nil => rw [drop_nil, cutFrom, cutFrom]
  | cons c rest ih =>
    cases skip with
    | zero => rfl
    | succ skip =>
      rw [cutFrom, ih, take_succ_cons, drop_succ_cons, reverse_cons,
        append_assoc, singleton_append]

theorem cutFrom_unseen {before rest : Text} (unseen : ∀ left right, text = left ++ right → right ≠ [] →
      recognise (left.reverse ++ before) (right ++ rest) = none) :
    cutFrom recognise before 0 (text ++ rest) =
      text.map Piece.plain ++ cutFrom recognise (text.reverse ++ before) 0 rest := by
  induction text generalizing before with
  | nil => rfl
  | cons c text ih =>
    have here := unseen [] (c :: text) rfl (cons_ne_nil c text)
    have later := @ih (c :: before) fun left right same more => by
      have seen := unseen (c :: left) right (by rw [same]; rfl) more
      rwa [reverse_cons, append_assoc, singleton_append] at seen
    rw [reverse_nil, nil_append, cons_append] at here
    rw [cons_append, cutFrom, here, map_cons, reverse_cons, append_assoc,
      cons_append]
    exact congrArg (Piece.plain c :: ·) later

/-- A recogniser sees nothing at the places of a text, whatever came before it. -/
def Silent (recognise : Recogniser α) (text rest : Text) : Prop :=
  ∀ before part, part ≠ [] → part <:+ text → recognise before (part ++ rest) = none

theorem cutFrom_silent (silent : Silent recognise text rest) (before : Text) :
    cutFrom recognise before 0 (text ++ rest) =
      text.map Piece.plain ++ cutFrom recognise (text.reverse ++ before) 0 rest :=
  cutFrom_unseen fun left right split more => silent _ right more ⟨left, split.symm⟩

theorem Silent.append {left right : Text} (first : Silent recognise left (right ++ rest))
    (second : Silent recognise right rest) : Silent recognise (left ++ right) rest := by
  rintro before part more ⟨ahead, whole⟩
  rcases append_eq_append_iff.mp whole with ⟨extra, split, same⟩ | ⟨extra, split, same⟩
  · cases extra with
    | nil =>
      rw [nil_append] at same
      exact second before part more (same ▸ suffix_refl part)
    | cons c extra =>
      rw [same, append_assoc]
      exact first before (c :: extra) (cons_ne_nil c extra) ⟨ahead, split.symm⟩
  · exact second before part more ⟨extra, same.symm⟩

theorem cutFrom_found (more : lexeme ≠ [])
    (found : recognise before (lexeme ++ rest) = some (value, rest)) :
    cutFrom recognise before 0 (lexeme ++ rest) =
      .found lexeme value :: cutFrom recognise (lexeme.reverse ++ before) 0 rest := by
  cases lexeme with
  | nil => exact absurd rfl more
  | cons c lexeme =>
    have size : (lexeme ++ rest).length - rest.length = lexeme.length := by
      rw [length_append, Nat.add_sub_cancel]
    rw [cons_append] at found ⊢
    rw [cutFrom, found]
    dsimp only
    rw [size, cutFrom_skip, take_left, drop_left, reverse_cons, append_assoc]
    rfl

/-- What a recogniser finds is a nonempty start of the text. -/
def Consumes (recognise : Recogniser α) : Prop :=
  ∀ before text value rest, recognise before text = some (value, rest) →
    ∃ lexeme, lexeme ≠ [] ∧ text = lexeme ++ rest

theorem Consumes.cons_inv (consumes : Consumes recognise) {piece : Piece α} {pieces : List (Piece α)}
    (cut : cutFrom recognise before 0 text = piece :: pieces) :
    (∃ c rest, text = c :: rest ∧ recognise before (c :: rest) = none ∧ piece = .plain c ∧
      cutFrom recognise (c :: before) 0 rest = pieces) ∨
    ∃ c tail rest value, text = c :: tail ++ rest ∧
      recognise before (c :: tail ++ rest) = some (value, rest) ∧ piece = .found (c :: tail) value ∧
      cutFrom recognise ((c :: tail).reverse ++ before) 0 rest = pieces := by
  cases text with
  | nil => cases cut
  | cons c rest =>
    cases seen : recognise before (c :: rest) with
    | none =>
      rw [Text.cutFrom, seen] at cut
      obtain ⟨same, others⟩ := List.cons.inj cut
      exact .inl ⟨c, rest, rfl, seen, same.symm, others⟩
    | some found =>
      obtain ⟨value, after⟩ := found
      obtain ⟨lexeme, more, whole⟩ := consumes before _ value after seen
      obtain ⟨d, tail, rfl⟩ := exists_cons_of_ne_nil more
      rw [whole] at seen cut ⊢
      rw [cutFrom_found more seen] at cut
      obtain ⟨same, others⟩ := List.cons.inj cut
      exact .inr ⟨d, tail, after, value, rfl, seen, same.symm, others⟩

theorem Consumes.split (consumes : Consumes recognise)
    (pieces : cutFrom recognise before 0 text = left ++ right) :
    Text.cutFrom recognise ((left.flatMap Piece.source).reverse ++ before) 0
      (right.flatMap Piece.source) = right := by
  induction left generalizing before text with
  | nil =>
    have whole := flatMap_source_cutFrom recognise before text 0
    rw [pieces] at whole
    exact (congrArg _ whole).trans pieces
  | cons piece left ih =>
    rw [flatMap_cons, reverse_append, append_assoc]
    rcases consumes.cons_inv pieces with ⟨_, _, _, _, rfl, others⟩ | ⟨_, _, _, _, _, _, rfl, others⟩
    · exact ih others
    · exact ih others

theorem Consumes.cutFrom (consumes : Consumes recognise)
    (pieces : cutFrom recognise before 0 text = left ++ .found lexeme value :: right) :
    recognise ((left.flatMap Piece.source).reverse ++ before)
        (lexeme ++ right.flatMap Piece.source) =
      some (value, right.flatMap Piece.source) := by
  rcases consumes.cons_inv (consumes.split pieces) with
    ⟨_, _, _, _, impossible, _⟩ | ⟨c, tail, rest, _, whole, seen, same, _⟩
  · cases impossible
  · cases same
    rw [flatMap_cons, Piece.source, append_cancel_left_eq] at whole
    rw [whole]
    exact seen

theorem Consumes.cut (consumes : Consumes recognise)
    (pieces : cut recognise text = left ++ .found lexeme value :: right) :
    recognise (left.flatMap Piece.source).reverse (lexeme ++ right.flatMap Piece.source) =
      some (value, right.flatMap Piece.source) := by
  rw [← append_nil (left.flatMap Piece.source).reverse]
  exact consumes.cutFrom pieces

theorem recognised_of_mem_cutFrom {before : Text} {skip : Nat}
    (member : .found lexeme value ∈ cutFrom recognise before skip text) :
    ∃ front rest after, recognise front rest = some (value, after) := by
  induction text generalizing before skip with
  | nil => rw [cutFrom] at member; cases member
  | cons c rest ih =>
    cases skip with
    | succ skip => exact ih member
    | zero =>
      rw [cutFrom] at member
      split at member
      · rename_i seen
        rcases mem_cons.mp member with same | later
        · cases same
          exact ⟨_, _, _, seen⟩
        · exact ih later
      · rcases mem_cons.mp member with same | later
        · cases same
        · exact ih later

/-- A recogniser sees nothing in a text that does not have the marker. -/
def Needs (marker : Text) (recognise : Recogniser α) : Prop :=
  ∀ before text found, recognise before text = some found → marker <:+: text

theorem Needs.of_expect (start : String) (inside : marker <:+: start.toList)
    (missing : ∀ before text, expect start text = none → recognise before text = none) :
    Needs marker recognise := by
  intro before text found seen
  cases begun : expect start text with
  | none =>
    rw [missing before text begun] at seen
    cases seen
  | some rest =>
    rw [after?_eq_some.mp begun]
    exact inside.trans (prefix_append _ rest).isInfix

theorem Needs.silent (needs : Needs marker recognise) (absent : ¬ marker <:+: text) :
    Silent recognise text [] := by
  intro before part _ within
  rw [append_nil, Option.eq_none_iff_forall_ne_some]
  intro found seen
  exact absent ((needs before part found seen).trans within.isInfix)

theorem Needs.cut (needs : Needs marker recognise) (absent : ¬ marker <:+: text) :
    cut recognise text = text.map Piece.plain := by
  have whole := cutFrom_silent (needs.silent absent) []
  rwa [append_nil, cutFrom, append_nil] at whole

theorem filterMap_value?_plain (text : Text) :
    (text.map (Piece.plain : Char → Piece α)).filterMap Piece.value? = [] := by
  rw [filterMap_map]
  exact filterMap_eq_nil_iff.mpr fun _ _ => rfl

theorem Needs.occurrences (needs : Needs marker recognise) (absent : ¬ marker <:+: text) :
    occurrences recognise text = [] := by
  rw [Text.occurrences, needs.cut absent, filterMap_value?_plain]

theorem writePieces_plain (text : Text) : writePieces write (text.map Piece.plain) = text := by
  rw [writePieces, flatMap_map]
  exact flatMap_singleton' text

theorem writePieces_append (left right : List (Piece α)) :
    writePieces write (left ++ right) = writePieces write left ++ writePieces write right :=
  flatMap_append

theorem writePieces_found (lexeme : Text) (value : α) (rest : List (Piece α)) :
    writePieces write (.found lexeme value :: rest) = write lexeme value ++ writePieces write rest :=
  rfl

theorem Needs.replace (needs : Needs marker recognise) (absent : ¬ marker <:+: text) (write : α → Text) :
    replace recognise write text = text := by
  rw [Text.replace, needs.cut absent, writePieces_plain]

theorem Needs.weave (needs : Needs marker recognise) (absent : ¬ marker <:+: text)
    (step : σ → Text → α → Text × σ) (state : σ) :
    weave step state (Text.cut recognise text) = (text, state) := by
  refine weave_cut_of_none step ?_ state
  rw [needs.occurrences absent]
  rfl

theorem Needs.weave? (needs : Needs marker recognise) (absent : ¬ marker <:+: text)
    (step : σ → Text → α → Option (Text × σ)) (state : σ) :
    weave? step state (Text.cut recognise text) = some (text, state) := by
  rw [weave?_of_no_value step state _ (needs.occurrences absent), flatMap_source_cut]

theorem not_infix_concat {c : Char} (other : c ∉ marker) (absent : ¬ marker <:+: text) :
    ¬ marker <:+: text ++ [c] := by
  intro within
  rcases infix_concat_iff.mp within with last | before
  · rcases suffix_concat_iff.mp last with rfl | ⟨start, rfl, _⟩
    · exact absent nil_infix
    · exact other (mem_append_right start mem_cons_self)
  · exact absent before

/-- No marker begins in a text without it and ends in a text that starts with its first character, since
that character does not come again in the marker. -/
theorem not_prefix_append {first : Char} {part : Text} (once : first ∉ marker)
    (absent : ¬ first :: marker <:+: text) (more : part ≠ []) (within : part <:+ text)
    (next : rest = [] ∨ rest.head? = some first) : ¬ first :: marker <+: part ++ rest := by
  rintro ⟨tail, same⟩
  rcases append_eq_append_iff.mp same with ⟨extra, inside, _⟩ | ⟨extra, split, beyond⟩
  · exact absent ((prefix_append _ extra).isInfix.trans (inside ▸ within.isInfix))
  · cases extra with
    | nil =>
      rw [append_nil] at split
      exact absent (split ▸ within.isInfix)
    | cons second extra =>
      rw [beyond] at next
      have again : second = first := by simpa using next
      cases part with
      | nil => exact more rfl
      | cons c part =>
        rw [cons_append, List.cons.injEq] at split
        apply once
        rw [split.2, again]
        exact mem_append_right part mem_cons_self

theorem cutAt?_append {first : Char} (once : first ∉ marker) (absent : ¬ first :: marker <:+: text)
    (rest : Text) : cutAt? (first :: marker) (text ++ first :: marker ++ rest) = some (text, rest) := by
  induction text with
  | nil =>
    have found : after? (first :: marker) (first :: marker ++ rest) = some rest :=
      after?_eq_some.mpr rfl
    rw [nil_append, cons_append, cutAt?, ← cons_append, found]
  | cons c text ih =>
    have missing : after? (first :: marker) (c :: text ++ (first :: marker ++ rest)) = none := by
      rw [Option.eq_none_iff_forall_ne_some]
      intro after found
      have start : first :: marker <+: c :: text ++ (first :: marker ++ rest) := by
        rw [after?_eq_some.mp found]
        exact prefix_append _ after
      exact not_prefix_append once absent (cons_ne_nil c text) (suffix_refl _) (.inr rfl)
        start
    have later := ih fun within => absent (within.trans (suffix_cons c text).isInfix)
    rw [append_assoc] at later ⊢
    rw [cons_append] at missing ⊢
    rw [cutAt?, missing, later]
    rfl

end PageScript.Text
