import PageScript.Text.Cut

/-! Replacing what was found in a text with a state carried along. -/

open List

namespace PageScript.Text

variable {α σ ω : Type}
variable {text : Text} {pieces : List (Piece α)} {state final : σ}

theorem weave_fst_congr (step : σ → Text → α → Text × σ)
    (same : ∀ left right lexeme value, (step left lexeme value).1 = (step right lexeme value).1)
    (left right : σ) (pieces : List (Piece α)) :
    (weave step left pieces).1 = (weave step right pieces).1 := by
  induction pieces generalizing left right with
  | nil => rfl
  | cons piece rest ih =>
    cases piece with
    | plain c =>
      change c :: (weave step left rest).1 = c :: (weave step right rest).1
      rw [ih left right]
    | found lexeme value =>
      change (step left lexeme value).1 ++ (weave step (step left lexeme value).2 rest).1 =
        (step right lexeme value).1 ++ (weave step (step right lexeme value).2 rest).1
      rw [same left right, ih (step left lexeme value).2 (step right lexeme value).2]

theorem weave_related (step : σ → Text → α → Text × σ) (related : σ → σ → Prop)
    (refl : ∀ state, related state state)
    (trans : ∀ {first second third}, related first second → related second third →
      related first third)
    (kept : ∀ state lexeme value, related state (step state lexeme value).2)
    (state : σ) (pieces : List (Piece α)) :
    related state (weave step state pieces).2 := by
  induction pieces generalizing state with
  | nil => exact refl state
  | cons piece rest ih =>
    cases piece with
    | plain c => exact ih state
    | found lexeme value => exact trans (kept state lexeme value) (ih _)

theorem weave_collects (step : σ → Text → α → Text × σ) (seen : σ → List ω) (adds : α → List ω)
    (each : ∀ state lexeme value, seen (step state lexeme value).2 = seen state ++ adds value)
    (state : σ) (pieces : List (Piece α)) :
    seen (weave step state pieces).2 =
      seen state ++ (pieces.filterMap Piece.value?).flatMap adds := by
  induction pieces generalizing state with
  | nil => exact (append_nil _).symm
  | cons piece rest ih =>
    cases piece with
    | plain c => exact ih state
    | found lexeme value =>
      refine (ih (step state lexeme value).2).trans ?_
      rw [each, append_assoc]
      rfl

theorem weave_cut_of_none (step : σ → Text → α → Text × σ) {recognise : Recogniser α}
    (none : (occurrences recognise text).isEmpty = true) (state : σ) :
    weave step state (cut recognise text) = (text, state) := by
  suffices walks : ∀ pieces : List (Piece α), pieces.filterMap Piece.value? = [] →
      weave step state pieces = (pieces.flatMap Piece.source, state) by
    rw [walks _ (isEmpty_iff.mp none), flatMap_source_cut]
  intro pieces
  induction pieces with
  | nil => exact fun _ => rfl
  | cons piece rest ih =>
    intro empty
    cases piece with
    | plain c =>
      rw [weave, ih empty]
      rfl
    | found lexeme value => cases empty

section

variable (step : σ → Text → α → Option (Text × σ)) {related : σ → σ → Prop}

theorem weave?_plain (state : σ) (c : Char) (rest : List (Piece α)) :
    weave? step state (.plain c :: rest) =
      (weave? step state rest).map fun (text, final) => (c :: text, final) := rfl

theorem weave?_found (state : σ) (lexeme : Text) (value : α) (rest : List (Piece α)) :
    weave? step state (.found lexeme value :: rest) =
      (step state lexeme value).bind fun (written, next) =>
        (weave? step next rest).map fun (text, final) => (written ++ text, final) := rfl

theorem weave?_exists (refl : ∀ state, related state state)
    (trans : ∀ {first second third}, related first second → related second third →
      related first third) {start : σ}
    (each : ∀ lexeme value, .found lexeme value ∈ pieces → ∀ state, related start state →
      ∃ written next, step state lexeme value = some (written, next) ∧ related state next) :
    ∃ text final, weave? step start pieces = some (text, final) ∧ related start final := by
  suffices walks : ∀ state, related start state →
      ∃ text final, weave? step state pieces = some (text, final) ∧ related state final from
    walks start (refl start)
  induction pieces with
  | nil => exact fun state _ => ⟨[], state, rfl, refl state⟩
  | cons piece rest ih =>
    intro state reached
    have later := ih fun lexeme value member =>
      each lexeme value (mem_cons_of_mem piece member)
    cases piece with
    | plain c =>
      obtain ⟨text, final, walked, kept⟩ := later state reached
      exact ⟨c :: text, final, by rw [weave?_plain, walked]; rfl, kept⟩
    | found lexeme value =>
      obtain ⟨written, next, stepped, onward⟩ := each lexeme value mem_cons_self state reached
      obtain ⟨text, final, walked, kept⟩ := later next (trans reached onward)
      refine ⟨written ++ text, final, ?_, trans onward kept⟩
      rw [weave?_found, stepped, Option.bind_some]
      dsimp only
      rw [walked]
      rfl

theorem weave?_related (refl : ∀ state, related state state)
    (trans : ∀ {first second third}, related first second → related second third →
      related first third)
    (kept : ∀ state lexeme value written next, step state lexeme value = some (written, next) →
      related state next) (woven : weave? step state pieces = some (text, final)) : related state final := by
  induction pieces generalizing state text with
  | nil =>
    cases woven
    exact refl _
  | cons piece rest ih =>
    cases piece with
    | plain c =>
      rw [weave?_plain] at woven
      obtain ⟨⟨others, last⟩, walked, same⟩ := Option.map_eq_some_iff.mp woven
      cases same
      exact ih walked
    | found lexeme value =>
      rw [weave?_found] at woven
      obtain ⟨⟨written, next⟩, stepped, woven⟩ := Option.bind_eq_some_iff.mp woven
      obtain ⟨⟨others, last⟩, walked, same⟩ := Option.map_eq_some_iff.mp woven
      cases same
      exact trans (kept state lexeme value written next stepped) (ih walked)

theorem weave?_append (state : σ) (left right : List (Piece α)) :
    weave? step state (left ++ right) =
      (weave? step state left).bind fun (first, middle) =>
        (weave? step middle right).map fun (second, final) => (first ++ second, final) := by
  induction left generalizing state with
  | nil =>
    change weave? step state right = (weave? step state right).map _
    cases weave? step state right <;> rfl
  | cons piece rest ih =>
    cases piece with
    | plain c =>
      rw [cons_append, weave?_plain, weave?_plain, ih]
      cases weave? step state rest with
      | none => rfl
      | some first =>
        cases reached : weave? step first.2 right with
        | none => simp [reached]
        | some second => simp [reached]
    | found lexeme value =>
      rw [cons_append, weave?_found, weave?_found]
      cases step state lexeme value with
      | none => rfl
      | some written =>
        simp only [Option.bind_some, ih]
        cases weave? step written.2 rest with
        | none => rfl
        | some first =>
          cases reached : weave? step first.2 right with
          | none => simp [reached]
          | some second => simp [reached, append_assoc]

theorem weave?_split {left right : List (Piece α)} {lexeme : Text} {value : α}
    (woven : weave? step state (left ++ .found lexeme value :: right) = some (text, final)) :
    ∃ before start written next after,
      weave? step state left = some (before, start) ∧
      step start lexeme value = some (written, next) ∧
      weave? step next right = some (after, final) ∧
      text = before ++ written ++ after := by
  rw [weave?_append, Option.bind_eq_some_iff] at woven
  obtain ⟨⟨before, start⟩, first, woven⟩ := woven
  rw [Option.map_eq_some_iff] at woven
  obtain ⟨⟨others, last⟩, woven, same⟩ := woven
  cases same
  rw [weave?_found, Option.bind_eq_some_iff] at woven
  obtain ⟨⟨written, next⟩, stepped, woven⟩ := woven
  rw [Option.map_eq_some_iff] at woven
  obtain ⟨⟨after, last⟩, rest, same⟩ := woven
  cases same
  exact ⟨before, start, written, next, after, first, stepped, rest,
    (append_assoc before written after).symm⟩

theorem weave?_of_no_value (state : σ) (pieces : List (Piece α))
    (none : pieces.filterMap Piece.value? = []) :
    weave? step state pieces = some (pieces.flatMap Piece.source, state) := by
  induction pieces with
  | nil => rfl
  | cons piece rest ih =>
    cases piece with
    | plain c =>
      rw [weave?_plain, ih none]
      rfl
    | found lexeme value => cases none

end

/-- A walk whose occurrences add to a record. -/
def weaveRecorded (step : σ → Text → α → Option (Text × σ × List ω)) :
    σ → List (Piece α) → Option (Text × σ × List ω)
  | state, [] => some ([], state, [])
  | state, .plain c :: rest =>
      (weaveRecorded step state rest).map fun (text, final, record) => (c :: text, final, record)
  | state, .found lexeme value :: rest =>
      (step state lexeme value).bind fun (written, next, record) =>
        (weaveRecorded step next rest).map fun (text, final, others) =>
          (written ++ text, final, record ++ others)

def withoutRecord {β : Type} (answer : Option (β × σ × List ω)) : Option (β × σ) :=
  answer.map fun (value, state, _) => (value, state)

theorem withoutRecord_weaveRecorded (recorded : σ → Text → α → Option (Text × σ × List ω))
    (step : σ → Text → α → Option (Text × σ))
    (same : ∀ state lexeme value,
      withoutRecord (recorded state lexeme value) = step state lexeme value)
    (state : σ) (pieces : List (Piece α)) :
    withoutRecord (weaveRecorded recorded state pieces) = weave? step state pieces := by
  induction pieces generalizing state with
  | nil => rfl
  | cons piece rest ih =>
    cases piece with
    | plain c =>
      rw [weave?_plain, ← ih state]
      simp only [withoutRecord, weaveRecorded, Option.map_map, Function.comp_def]
    | found lexeme value =>
      rw [weave?_found, ← same state lexeme value]
      simp only [withoutRecord, weaveRecorded]
      cases recorded state lexeme value with
      | none => rfl
      | some written =>
        simp only [Option.bind_some, Option.map_some, ← ih written.2.1, withoutRecord,
          Option.map_map, Function.comp_def]

theorem weaveRecorded_induct (step : σ → Text → α → Option (Text × σ × List ω))
    (holds : σ → σ → List ω → Prop) (none : ∀ state, holds state state [])
    (append : ∀ {first second third left right}, holds first second left →
      holds second third right → holds first third (left ++ right))
    (kept : ∀ state lexeme value written next record,
      step state lexeme value = some (written, next, record) → holds state next record)
    {record : List ω} (woven : weaveRecorded step state pieces = some (text, final, record)) :
    holds state final record := by
  induction pieces generalizing state text record with
  | nil =>
    cases woven
    exact none _
  | cons piece rest ih =>
    cases piece with
    | plain c =>
      simp only [weaveRecorded, Option.map_eq_some_iff] at woven
      obtain ⟨⟨others, last, noted⟩, reached, same⟩ := woven
      cases same
      exact ih reached
    | found lexeme value =>
      simp only [weaveRecorded, Option.bind_eq_some_iff, Option.map_eq_some_iff] at woven
      obtain ⟨⟨written, next, first⟩, stepped, ⟨others, last, noted⟩, reached, same⟩ := woven
      cases same
      exact append (kept state lexeme value written next first stepped) (ih reached)

theorem weaveRecorded_split (step : σ → Text → α → Option (Text × σ × List ω)) {record : List ω}
    {entry : ω} (woven : weaveRecorded step state pieces = some (text, final, record))
    (member : entry ∈ record) :
    ∃ left lexeme value right before start written next noted after,
      pieces = left ++ .found lexeme value :: right ∧
      weave? (fun state lexeme value => withoutRecord (step state lexeme value)) state left =
        some (before, start) ∧
      step start lexeme value = some (written, next, noted) ∧ entry ∈ noted ∧
      text = before ++ written ++ after := by
  induction pieces generalizing state text record with
  | nil =>
    cases woven
    cases member
  | cons piece rest ih =>
    cases piece with
    | plain c =>
      simp only [weaveRecorded, Option.map_eq_some_iff] at woven
      obtain ⟨⟨others, last, noted⟩, reached, same⟩ := woven
      cases same
      obtain ⟨left, lexeme, value, right, before, start, written, next, noted, after, rfl, walked,
        stepped, within, rfl⟩ := ih reached member
      refine ⟨.plain c :: left, lexeme, value, right, c :: before, start, written, next, noted,
        after, rfl, ?_, stepped, within, rfl⟩
      rw [weave?_plain, walked]
      rfl
    | found lexeme value =>
      simp only [weaveRecorded, Option.bind_eq_some_iff, Option.map_eq_some_iff] at woven
      obtain ⟨⟨written, next, first⟩, stepped, ⟨others, last, more⟩, reached, same⟩ := woven
      cases same
      rcases mem_append.mp member with here | later
      · exact ⟨[], lexeme, value, rest, [], state, written, next, first, others, rfl, rfl, stepped,
          here, rfl⟩
      · obtain ⟨left, lexeme', value', right, before, start, written', next', noted, after, rfl,
          walked, stepped', within, rfl⟩ := ih reached later
        refine ⟨.found lexeme value :: left, lexeme', value', right, written ++ before, start,
          written', next', noted, after, rfl, ?_, stepped', within, by
            simp only [append_assoc]⟩
        have kept : withoutRecord (step state lexeme value) = some (written, next) := by
          rw [stepped]
          rfl
        dsimp only at walked
        rw [weave?_found, kept, Option.bind_some]
        dsimp only
        rw [walked]
        rfl

end PageScript.Text
