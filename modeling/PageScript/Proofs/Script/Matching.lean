import PageScript.Proofs.Script.Scan

/-! The bracket that closes another is the first up to which brackets balance (`matching?_iff_dyck`). -/

open List

namespace PageScript.Script

variable {c closer : Char} {opened : List Char} {close : Nat} {text : Text}

inductive Dyck : List Char → Prop
  | nil : Dyck []
  | cons {c closer : Char} {inner rest : List Char} (opens : closerOf? c = some closer)
      (first : Dyck inner) (second : Dyck rest) : Dyck (c :: inner ++ closer :: rest)

def isBracket (c : Char) : Bool :=
  (closerOf? c).isSome || isCloser c

private theorem bracket_opening (opens : closerOf? c = some closer) (opened : List Char) :
    bracket opened c = some (closer :: opened) := by
  simp [bracket, opens]

private theorem bracket_closing (opens : closerOf? c = some closer) (opened : List Char) :
    bracket (closer :: opened) closer = some opened := by
  have known : closerOf? closer = none ∧ isCloser closer = true := by
    grind [closerOf?, isCloser]
  simp [bracket, known]

theorem Dyck.foldlM {word : List Char} (dyck : Dyck word) (opened : List Char) :
    word.foldlM bracket opened = some opened := by
  induction dyck generalizing opened with
  | nil => rfl
  | @cons c closer inner rest opens _ _ first second =>
    rw [cons_append, foldlM_cons, bracket_opening opens, Option.bind_eq_bind,
      Option.bind_some, foldlM_append, first, Option.bind_eq_bind, Option.bind_some,
      foldlM_cons, bracket_closing opens]
    exact second opened

/-- A word that closes the given brackets, with balanced words around them. -/
def Closes : List Char → List Char → Prop
  | [], word => Dyck word
  | closer :: opened, word =>
      ∃ inner rest, word = inner ++ closer :: rest ∧ Dyck inner ∧ Closes opened rest

theorem Closes.cons {inner rest : List Char} (opens : closerOf? c = some closer) (first : Dyck inner)
    (second : Closes opened rest) : Closes opened (c :: inner ++ closer :: rest) := by
  cases opened with
  | nil => exact Dyck.cons opens first second
  | cons next opened =>
    obtain ⟨middle, rest, rfl, dyck, others⟩ := second
    exact ⟨c :: inner ++ closer :: middle, rest, by simp, Dyck.cons opens first dyck, others⟩

private theorem closes_of_foldlM {word : List Char} (all : ∀ c ∈ word, isBracket c = true)
    (ran : word.foldlM bracket opened = some []) : Closes opened word := by
  induction word generalizing opened with
  | nil =>
    cases ran
    exact .nil
  | cons c word ih =>
    obtain ⟨here, later⟩ := forall_mem_cons.mp all
    obtain ⟨next, taken, ran⟩ := Option.bind_eq_some_iff.mp ran
    have closed := ih later ran
    cases opens : closerOf? c with
    | some closer =>
      rw [bracket_opening opens] at taken
      cases taken
      obtain ⟨inner, rest, rfl, first, second⟩ := closed
      exact Closes.cons opens first second
    | none =>
      have closes : isCloser c = true := by simpa [isBracket, opens] using here
      cases opened with
      | nil => simp [bracket, opens, closes] at taken
      | cons closer outer =>
        obtain ⟨rfl, rfl⟩ : closer = c ∧ outer = next := by
          simpa [bracket, opens, closes] using taken
        exact ⟨[], word, rfl, .nil, closed⟩

section

variable {α : Type}

def brackets (pieces : List (Piece α)) : List Char :=
  pieces.flatMap fun
    | .plain c => if isBracket c then [c] else []
    | .found _ _ => []

def pending (opened : List Char) (pieces : List (Piece α)) : Option (List Char) :=
  (brackets pieces).foldlM bracket opened

theorem pending_plain (opened : List Char) (c : Char) (rest : List (Piece α)) :
    pending opened (.plain c :: rest) = (bracket opened c).bind (pending · rest) := by
  unfold pending brackets
  by_cases known : isBracket c = true
  · rw [flatMap_cons]
    dsimp only
    rw [if_pos known]
    rfl
  · rw [flatMap_cons]
    dsimp only
    rw [if_neg known]
    simp only [isBracket, Bool.or_eq_true, not_or, Bool.not_eq_true, Option.isSome_eq_false_iff,
      Option.isNone_iff_eq_none] at known
    rw [bracket_plain known.1 known.2]
    rfl

theorem dyck_iff {pieces : List (Piece α)} :
    Dyck (brackets pieces) ↔ pending [] pieces = some [] := by
  refine ⟨fun dyck => dyck.foldlM [], fun ran => closes_of_foldlM ?_ ran⟩
  intro c member
  obtain ⟨piece, _, within⟩ := mem_flatMap.mp member
  cases piece with
  | plain d =>
    dsimp only at within
    split at within
    · rename_i known
      rwa [mem_singleton.mp within]
    · cases within
  | found lexeme value => cases within

/-- The first piece after which nothing is open is the bracket after `early`. -/
structure LastAfter (opened : List Char) (early : List (Piece α)) (c : Char) : Prop where
  closed : pending opened (early ++ [.plain c]) = some []
  first : ∀ part, part <+: early → pending opened part ≠ some []

theorem LastAfter.cons_iff {next : List Char} {piece : Piece α} (more : opened ≠ [])
    (passes : ∀ rest, pending opened (piece :: rest) = pending next rest) {early : List (Piece α)} :
    LastAfter opened (piece :: early) c ↔ LastAfter next early c := by
  constructor
  · rintro ⟨closed, first⟩
    refine ⟨(passes _).symm.trans closed, fun part within => ?_⟩
    rw [← passes]
    exact first _ ((prefix_cons_inj piece).mpr within)
  · rintro ⟨closed, first⟩
    refine ⟨(passes _).trans closed, fun part within => ?_⟩
    cases part with
    | nil => exact fun same => more (Option.some.inj same)
    | cons other part =>
      obtain ⟨rfl, inside⟩ := cons_prefix_cons.mp within
      rw [passes]
      exact first part inside

end

theorem closingFrom_eq_some (more : opened ≠ []) {position : Nat} {pieces : List (Piece Unit)} :
    closingFrom opened position pieces = some close ↔
      ∃ early c later, pieces = early ++ .plain c :: later ∧
        close = position + (early.flatMap Piece.source).length ∧ LastAfter opened early c := by
  induction pieces generalizing opened position with
  | nil => simp [closingFrom]
  | cons piece rest ih =>
    -- a piece that leaves something open is passed over on both sides
    have pass {next : List Char} (open_ : next ≠ [])
        (passes : ∀ rest, pending opened (piece :: rest) = pending next rest)
        (unclosed : pending opened [piece] ≠ some []) :
        closingFrom next (position + piece.source.length) rest = some close ↔
          ∃ early c later, piece :: rest = early ++ .plain c :: later ∧
            close = position + (early.flatMap Piece.source).length ∧ LastAfter opened early c := by
      rw [ih open_]
      constructor
      · rintro ⟨early, c, later, rfl, rfl, last⟩
        refine ⟨piece :: early, c, later, rfl, ?_, (LastAfter.cons_iff more passes).mpr last⟩
        rw [flatMap_cons, length_append, Nat.add_assoc]
      · rintro ⟨early, c, later, whole, rfl, last⟩
        cases early with
        | nil =>
          obtain ⟨same, _⟩ := List.cons.inj whole
          exact absurd (same ▸ last.closed) unclosed
        | cons first early =>
          obtain ⟨rfl, others⟩ := List.cons.inj whole
          refine ⟨early, c, later, others, ?_, (LastAfter.cons_iff more passes).mp last⟩
          rw [flatMap_cons, length_append, Nat.add_assoc]
    cases piece with
    | found lexeme value =>
      exact pass more (fun _ => rfl) fun closed => more (Option.some.inj closed)
    | plain d =>
      have read (rest : List (Piece Unit)) := pending_plain opened d rest
      rw [Scan.closingFrom_plain more]
      cases taken : bracket opened d with
      | none =>
        refine ⟨fun impossible => absurd impossible.symm (Option.some_ne_none close), ?_⟩
        rintro ⟨early, c, later, whole, _, last⟩
        obtain ⟨others, same⟩ : ∃ others, early ++ [.plain c] = .plain d :: others := by
          cases early <;> cases whole <;> exact ⟨_, rfl⟩
        have closed := last.closed
        rw [same, read, taken] at closed
        cases closed
      | some next =>
        rw [taken] at read
        cases next with
        | cons closer next =>
          exact pass (cons_ne_nil closer next) read fun closed =>
            cons_ne_nil closer next (Option.some.inj ((read []).symm.trans closed))
        | nil =>
          refine ⟨fun here => ⟨[], d, rest, rfl, (Option.some.inj here).symm, read [], ?_⟩, ?_⟩
          · intro part within closed
            rw [prefix_nil.mp within] at closed
            exact more (Option.some.inj closed)
          · rintro ⟨early, c, later, whole, rfl, last⟩
            cases early with
            | nil => rfl
            | cons first early =>
              obtain ⟨rfl, _⟩ := List.cons.inj whole
              exact absurd (read []) (last.first _ (by simp))

theorem closing?_eq_some :
    closing? text = some close ↔
      ∃ opener rest early c later, text = opener :: rest ∧ (closerOf? opener).isSome = true ∧
        Text.cut passedOver text = early ++ .plain c :: later ∧
        close = (early.flatMap Piece.source).length ∧ Dyck (brackets (early ++ [.plain c])) ∧
        ∀ part, part <+: early → part ≠ [] → ¬ Dyck (brackets part) := by
  cases text with
  | nil => simp [closing?]
  | cons opener rest =>
    cases opens : closerOf? opener with
    | none => simp [closing?, opens]
    | some closer =>
      have passes (pieces : List (Piece Unit)) :
          pending [] (.plain opener :: pieces) = pending [closer] pieces := by
        rw [pending_plain, bracket_opening opens, Option.bind_some]
      rw [closing?_eq opens, closingFrom_eq_some (cons_ne_nil closer []), cut_opening opens]
      constructor
      · rintro ⟨early, c, later, whole, rfl, last⟩
        refine ⟨opener, rest, .plain opener :: early, c, later, rfl, by rw [opens]; rfl,
          congrArg (_ :: ·) whole, ?_, dyck_iff.mpr ((passes _).trans last.closed), ?_⟩
        · rw [flatMap_cons, length_append]
          rfl
        · intro part within more dyck
          cases part with
          | nil => exact more rfl
          | cons first part =>
            obtain ⟨rfl, inside⟩ := cons_prefix_cons.mp within
            exact last.first part inside ((passes part).symm.trans (dyck_iff.mp dyck))
      · rintro ⟨_, _, early, c, later, _, _, whole, rfl, dyck, first⟩
        cases early with
        | nil =>
          obtain ⟨same, _⟩ := List.cons.inj whole
          rw [nil_append, ← same, dyck_iff, passes] at dyck
          cases dyck
        | cons piece early =>
          obtain ⟨rfl, others⟩ := List.cons.inj whole
          refine ⟨early, c, later, others, ?_, (passes _).symm.trans (dyck_iff.mp dyck), ?_⟩
          · rw [flatMap_cons, length_append]
            rfl
          · intro part within closed
            exact first _ ((prefix_cons_inj _).mpr within) (cons_ne_nil _ part)
              (dyck_iff.mpr ((passes part).trans closed))

theorem Scan.closesAt_take {scan : Scan} {position : Nat}
    (closes : scan.closesAt position text = some close) (more : Text) :
    scan.closesAt position (text.take (close + 1 - position) ++ more) = some close := by
  induction text generalizing scan position with
  | nil => cases closes
  | cons c rest ih =>
    have behind := le_of_closesAt closes
    have size : close + 1 - position = close + 1 - (position + 1) + 1 := by omega
    rw [size, take_succ_cons, cons_append]
    rw [closesAt] at closes ⊢
    split at closes
    · cases closes
    · split at closes
      · rename_i last
        rwa [if_pos last]
      · rename_i open_
        rw [if_neg open_]
        exact ih closes

theorem closing?_take (found : closing? text = some close) (more : Text) :
    closing? (text.take (close + 1) ++ more) = some close := by
  obtain ⟨opener, rest, _, _, _, rfl, opens, _⟩ := closing?_eq_some.mp found
  obtain ⟨closer, opens⟩ := Option.isSome_iff_exists.mp opens
  rw [closing?_opening opens] at found
  rw [take_succ_cons, cons_append, closing?_opening opens]
  exact Scan.closesAt_take found more

private theorem matching?_eq_some {start stop : Nat} :
    matching? text start = some stop ↔
      ∃ before rest close, text = before ++ rest ∧ Text.byteLength before = start ∧
        closing? rest = some close ∧ stop = start + Text.byteLength (rest.take close) := by
  unfold matching?
  rw [Option.bind_eq_bind, Option.bind_eq_some_iff]
  constructor
  · rintro ⟨rest, found, closed⟩
    obtain ⟨before, whole, size⟩ := Text.dropBytes?_eq_some.mp found
    obtain ⟨close, closed, same⟩ := Option.bind_eq_some_iff.mp closed
    exact ⟨before, rest, close, whole, size, closed, (Option.some.inj same).symm⟩
  · rintro ⟨before, rest, close, whole, size, closed, rfl⟩
    refine ⟨rest, Text.dropBytes?_eq_some.mpr ⟨before, whole, size⟩, ?_⟩
    rw [closed]
    rfl

/-- A bracket is closed where a balanced word ends for the first time; texts before it only move the
place, and what follows does not count. -/
theorem matching?_iff_dyck (text : Text) (start : Nat) :
    (∀ stop, matching? text start = some stop ↔
      ∃ before opener rest early closer later, text = before ++ opener :: rest ∧
        Text.byteLength before = start ∧ (closerOf? opener).isSome = true ∧
        Text.cut passedOver (opener :: rest) = early ++ .plain closer :: later ∧
        stop = start + Text.byteLength (early.flatMap Piece.source) ∧
        Dyck (brackets (early ++ [.plain closer])) ∧
        ∀ part, part <+: early → part ≠ [] → ¬ Dyck (brackets part)) ∧
    (∀ left, matching? (left ++ text) (Text.byteLength left + start) =
      (matching? text start).map (Text.byteLength left + ·)) ∧
    ∀ stop, matching? text start = some stop →
      (∀ right, matching? (text ++ right) start = some stop) ∧
      ∃ before inner closer after, text = before ++ inner ++ closer :: after ∧
        Text.byteLength before = start ∧ Text.byteLength (before ++ inner) = stop ∧
        ∀ left right, matching? (left ++ inner ++ closer :: right) (Text.byteLength left) =
          some (Text.byteLength (left ++ inner)) := by
  have front {rest : Text} {early later : List (Piece Unit)} {c : Char}
      (cut : Text.cut passedOver rest = early ++ .plain c :: later) :
      rest = early.flatMap Piece.source ++ c :: later.flatMap Piece.source := by
    rw [← Text.flatMap_source_cut passedOver rest, cut, List.flatMap_append, List.flatMap_cons]
    rfl
  refine ⟨fun stop => ?_, fun left => ?_, fun stop found => ?_⟩
  · rw [matching?_eq_some]
    constructor
    · rintro ⟨before, _, _, rfl, size, closed, rfl⟩
      obtain ⟨opener, rest, early, c, later, rfl, opens, cut, rfl, dyck, first⟩ :=
        closing?_eq_some.mp closed
      refine ⟨before, opener, rest, early, c, later, rfl, size, opens, cut, ?_, dyck, first⟩
      rw [front cut, List.take_left]
    · rintro ⟨before, opener, rest, early, c, later, rfl, size, opens, cut, rfl, dyck, first⟩
      refine ⟨before, _, _, rfl, size, closing?_eq_some.mpr
        ⟨opener, rest, early, c, later, rfl, opens, cut, rfl, dyck, first⟩, ?_⟩
      rw [front cut, List.take_left]
  · unfold matching?
    rw [Text.dropBytes?_add]
    cases text.dropBytes? start with
    | none => rfl
    | some rest =>
        cases closed : closing? rest with
        | none => simp [closed]
        | some close => simp [closed, Nat.add_assoc]
  · obtain ⟨before, rest, close, rfl, rfl, closed, rfl⟩ := matching?_eq_some.mp found
    obtain ⟨_, _, early, c, later, _, _, cut, rfl, _⟩ := closing?_eq_some.mp closed
    have whole := front cut
    generalize early.flatMap Piece.source = inner at closed whole
    have slice : rest.take (inner.length + 1) = inner ++ [c] := by
      rw [whole, List.take_append, List.take_of_length_le (Nat.le_succ _)]
      simp
    have alone (left right : Text) :
        matching? (left ++ inner ++ c :: right) (Text.byteLength left) =
          some (Text.byteLength (left ++ inner)) := by
      have again := closing?_take closed right
      rw [slice, List.append_assoc] at again
      refine matching?_eq_some.mpr ⟨left, _, _, List.append_assoc left inner _, rfl, again, ?_⟩
      rw [List.take_left, Text.byteLength_append]
    rw [whole, List.take_left, ← Text.byteLength_append, ← List.append_assoc]
    refine ⟨fun right => ?_, before, inner, c, _, rfl, rfl, rfl, alone⟩
    rw [List.append_assoc (before ++ inner), List.cons_append]
    exact alone before _

/-- The parenthesis of a call is closed past a literal with another one, also behind other texts. -/
theorem matching?_iff_dyck_call :
    matching? "f(a[0], ')');".toList 1 = some 11 ∧
      matching? "é = f(a[0], ')');".toList 6 = some 16 := by
  have found : matching? "f(a[0], ')');".toList 1 = some 11 := by decide +kernel
  have moved := (matching?_iff_dyck "f(a[0], ')');".toList 1).2.1 "é = ".toList
  rw [found] at moved
  exact ⟨found, moved⟩

end PageScript.Script
