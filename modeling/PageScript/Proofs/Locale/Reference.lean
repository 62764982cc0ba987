import PageScript.Locale.Reference
import PageScript.Proofs.Text.Stretch

/-! References to localised texts: a start and a dotted key (`reference_eq_some`). -/

open List

namespace PageScript

open Text Option Bool

variable {text after : Text} {segments : List Text}

namespace Text

private theorem join_splitOn (sep : Char) (text : Text) : join [sep] (splitOn sep text) = text := by
  induction text with
  | nil => rfl
  | cons c rest ih =>
    rw [splitOn]
    cases parts : splitOn sep rest with
    | nil => exact absurd parts (splitOn_ne_nil sep rest)
    | cons part others =>
      rw [parts] at ih
      dsimp only
      split
      · rename_i same
        rw [join, ih, same]
        · rfl
        · exact cons_ne_nil part others
      · rw [← ih]
        cases others <;> rfl

theorem join_append (sep : Text) {left right : List Text} (some : left ≠ []) (more : right ≠ []) :
    join sep (left ++ right) = join sep left ++ sep ++ join sep right := by
  induction left with
  | nil => exact absurd rfl some
  | cons part rest ih =>
    cases rest with
    | nil =>
      rw [singleton_append, join, join]
      exact more
    | cons next rest =>
      rw [cons_append, join, join, ih (cons_ne_nil _ _)]
      · simp only [append_assoc]
      · exact cons_ne_nil _ _
      · exact cons_ne_nil _ _

end Text

namespace Locale

def isKeyChar (c : Char) : Bool :=
  isNameRest c || c == '.'

/-- The segments of the longest key at the start of a run of key characters. -/
def keySegments (written : Text) : List Text :=
  (Text.splitOn '.' written).takeWhile isSegment

private theorem dottedKey_eq_some :
    dottedKey text = some (segments, after) ↔
      segments = keySegments (text.takeWhile isKeyChar) ∧ segments ≠ [] ∧
        after = text.drop (join ['.'] segments).length := by
  unfold dottedKey keySegments isKeyChar
  dsimp only
  cases (Text.splitOn '.' (text.takeWhile fun c => isNameRest c || c == '.')).takeWhile isSegment with
  | nil =>
    constructor
    · intro none
      cases none
    · rintro ⟨rfl, some, _⟩
      exact absurd rfl some
  | cons first rest =>
    constructor
    · intro found
      cases found
      exact ⟨rfl, cons_ne_nil _ _, rfl⟩
    · rintro ⟨rfl, _, rfl⟩
      rfl

theorem dottedKey_eq_none : dottedKey text = none ↔ keySegments (text.takeWhile isKeyChar) = [] := by
  rw [eq_none_iff_forall_ne_some, Prod.forall]
  constructor
  · intro never
    refine Classical.byContradiction fun some => ?_
    exact never _ _ (dottedKey_eq_some.mpr ⟨rfl, some, rfl⟩)
  · rintro none segments after found
    obtain ⟨same, some, _⟩ := dottedKey_eq_some.mp found
    exact some (same.trans none)

private theorem join_keySegments {written : Text} (full : keySegments written ≠ []) :
    join ['.'] (keySegments written) ≠ [] ∧
      ∃ rest, written = join ['.'] (keySegments written) ++ rest ∧
        (rest = [] ∨ rest.head? = some '.') := by
  constructor
  · cases taken : keySegments written with
    | nil => exact absurd taken full
    | cons first others =>
      have named : isSegment first = true :=
        all_eq_true.mp all_takeWhile first (taken ▸ mem_cons_self)
      cases first with
      | nil => cases named
      | cons c first => cases others <;> exact cons_ne_nil _ _
  · have whole := join_splitOn '.' written
    have parts : keySegments written ++ (Text.splitOn '.' written).dropWhile isSegment =
        Text.splitOn '.' written := takeWhile_append_dropWhile
    rw [← parts] at whole
    cases left : (Text.splitOn '.' written).dropWhile isSegment with
    | nil =>
      rw [left, append_nil] at whole
      exact ⟨[], by rw [append_nil]; exact whole.symm, .inl rfl⟩
    | cons part others =>
      rw [left, join_append _ full (cons_ne_nil _ _), append_assoc] at whole
      exact ⟨_, whole.symm, .inr rfl⟩

theorem dottedKey_split (found : dottedKey text = some (segments, after)) :
    text = join ['.'] segments ++ after ∧ join ['.'] segments ≠ [] ∧
      (∀ c ∈ join ['.'] segments, isKeyChar c = true) ∧
      ∀ c ∈ after.head?, isNameRest c = false := by
  obtain ⟨rfl, full, rfl⟩ := dottedKey_eq_some.mp found
  obtain ⟨more, rest, whole, next⟩ := join_keySegments full
  have split : text = join ['.'] (keySegments (text.takeWhile isKeyChar)) ++
      (rest ++ text.dropWhile isKeyChar) := by
    rw [← append_assoc, ← whole, takeWhile_append_dropWhile]
  have after : text.drop (join ['.'] (keySegments (text.takeWhile isKeyChar))).length =
      rest ++ text.dropWhile isKeyChar :=
    (congrArg (List.drop _) split).trans drop_left
  refine ⟨by rw [after]; exact split, more, fun c member => ?_, fun c member => ?_⟩
  · have within : c ∈ text.takeWhile isKeyChar := by
      rw [whole]
      exact mem_append_left rest member
    exact all_eq_true.mp all_takeWhile c within
  · rw [after] at member
    rcases next with rfl | dot
    · have ends := head?_dropWhile_not isKeyChar text
      rw [nil_append, mem_def] at member
      rw [member] at ends
      exact (or_eq_false_iff.mp ends).1
    · rw [head?_append, dot] at member
      cases member
      decide

theorem dottedKey_congr {other : Text}
    (found : dottedKey (join ['.'] segments ++ after) = some (segments, after))
    (same : (join ['.'] segments ++ other).takeWhile isKeyChar =
      (join ['.'] segments ++ after).takeWhile isKeyChar) :
    dottedKey (join ['.'] segments ++ other) = some (segments, other) := by
  obtain ⟨taken, full, _⟩ := dottedKey_eq_some.mp found
  rw [← same] at taken
  exact dottedKey_eq_some.mpr ⟨taken, full, drop_left.symm⟩

def startOf : Option Text → Text
  | none => plainStart
  | some space => "lx(i18n:".toList ++ space ++ ").".toList

def Labelled (space : Option Text) : Prop :=
  ∀ name ∈ space, name ≠ [] ∧ ∀ c ∈ name, isLabel c = true

theorem reference_blind : Blind reference :=
  fun _ _ _ => rfl

def spaceOf (rest : Text) : Option Text × Text :=
  match rest with
  | ':' :: label =>
      match run1? isLabel label with
      | some (space, rest) => (some space, rest)
      | none => (none, rest)
  | rest => (none, rest)

theorem reference_eq (before text : Text) :
    reference before text = (expect "lx(i18n" text).bind fun rest =>
      (expect ")." (spaceOf rest).2).bind fun key =>
        (dottedKey key).bind fun found =>
          some ({ space := (spaceOf rest).1, segments := found.1, called := found.2.head? == some '(' },
            found.2) :=
  rfl

theorem startOf_some (space : Text) :
    startOf (some space) = "lx(i18n".toList ++ ':' :: (space ++ ").".toList) := by
  have start : "lx(i18n:".toList = "lx(i18n".toList ++ [':'] := by decide
  change "lx(i18n:".toList ++ space ++ ").".toList = _
  rw [start, append_assoc, append_assoc, singleton_append]

theorem startOf_of_closed {rest key : Text} (closed : expect ")." (spaceOf rest).2 = some key) :
    "lx(i18n".toList ++ rest = startOf (spaceOf rest).1 ++ key ∧ Labelled (spaceOf rest).1 := by
  have ended := after?_eq_some.mp closed
  unfold spaceOf at ended ⊢
  split at ended
  · rename_i label
    split at ended
    · rename_i space remaining named
      obtain ⟨rfl, labels⟩ := run1?_eq_some named
      dsimp only at ended ⊢
      rw [ended]
      refine ⟨?_, ?_⟩
      · rw [startOf_some, append_assoc, cons_append, append_assoc]
      rintro name ⟨⟩
      refine ⟨?_, labels⟩
      rintro rfl
      rw [nil_append] at named
      unfold run1? at named
      split at named <;> cases named
    · cases ended
  · exact ⟨by rw [show rest = ").".toList ++ key from ended]; rfl, by rintro name ⟨⟩⟩

theorem reference_startOf {space : Option Text} (labelled : Labelled space) (before key : Text) :
    reference before (startOf space ++ key) = (dottedKey key).bind fun found =>
      some ({ space, segments := found.1, called := found.2.head? == some '(' }, found.2) := by
  rw [reference_eq]
  cases space with
  | none =>
    have begun : expect "lx(i18n" (startOf none ++ key) = some (").".toList ++ key) :=
      expect_append "lx(i18n" (").".toList ++ key)
    have unnamed : spaceOf (").".toList ++ key) = (none, ").".toList ++ key) := rfl
    rw [begun, bind_some, unnamed]
    dsimp only
    rw [expect_append, bind_some]
  | some space =>
    obtain ⟨full, labels⟩ := labelled space rfl
    have begun : expect "lx(i18n" (startOf (some space) ++ key) =
        some (':' :: (space ++ (").".toList ++ key))) := by
      rw [startOf_some, append_assoc, expect_append, cons_append,
        append_assoc]
    have run : run1? isLabel (space ++ (").".toList ++ key)) =
        some (space, ").".toList ++ key) := by
      refine run1?_append full labels fun c next => ?_
      rw [← some.inj (show some ')' = some c from next)]
      decide
    have named : spaceOf (':' :: (space ++ (").".toList ++ key))) =
        (some space, ").".toList ++ key) := by
      rw [spaceOf, run]
    rw [begun, bind_some, named]
    dsimp only
    rw [expect_append, bind_some]

theorem reference_eq_some {before : Text} {found : Reference} :
    reference before text = some (found, after) ↔
      ∃ key, text = startOf found.space ++ key ∧ Labelled found.space ∧
        dottedKey key = some (found.segments, after) ∧
        found.called = (after.head? == some '(') := by
  constructor
  · intro seen
    rw [reference_eq] at seen
    simp only [bind_eq_some_iff] at seen
    obtain ⟨rest, begun, key, closed, ⟨segments, last⟩, dotted, same⟩ := seen
    cases same
    obtain ⟨written, labelled⟩ := startOf_of_closed closed
    exact ⟨key, (after?_eq_some.mp begun).trans written, labelled, dotted, rfl⟩
  · rintro ⟨key, rfl, labelled, dotted, called⟩
    rw [reference_startOf labelled, dotted, bind_some]
    dsimp only
    rw [← called]

def isStop (c : Char) : Bool :=
  ! (isLabel c || c == '$' || "(:)".toList.contains c)

section

variable {stop : Char} (stops : isStop stop = true)
include stops

theorem stop_not_mem (reference : (text.all fun c => ! isStop c) = true) : stop ∉ text := by
  intro member
  have inside := all_eq_true.mp reference stop member
  rw [stops] at inside
  cases inside

private theorem isLabel_stop : isLabel stop = false := by
  simp only [isStop, not_eq_true', or_eq_false_iff] at stops
  exact stops.1.1

private theorem isKeyChar_stop : isKeyChar stop = false := by
  have label := isLabel_stop stops
  simp only [isStop, not_eq_true', or_eq_false_iff] at stops
  simp only [isLabel, or_eq_false_iff] at label
  simp only [isKeyChar, isNameRest, label, stops, Bool.or_false]

private theorem spaceOf_stop (text rest : Text) :
    spaceOf (text ++ stop :: rest) = ((spaceOf text).1, (spaceOf text).2 ++ stop :: rest) := by
  have noColon : stop ≠ ':' := fun same => by
    rw [same] at stops
    revert stops
    decide
  cases text with
  | nil =>
    rw [nil_append]
    unfold spaceOf
    split
    · rename_i same
      exact absurd (List.cons.inj same).1 noColon
    · rfl
  | cons c text =>
    by_cases colon : c = ':'
    · subst colon
      rw [cons_append, spaceOf, spaceOf, run1?_stop (isLabel_stop stops)]
      cases run1? isLabel text <;> rfl
    · rw [cons_append]
      unfold spaceOf
      split
      · rename_i same
        exact absurd (List.cons.inj same).1 colon
      · split
        · rename_i same
          exact absurd (List.cons.inj same).1 colon
        · rfl

private theorem dottedKey_stop (text rest : Text) :
    dottedKey (text ++ stop :: rest) =
      (dottedKey text).map fun found => (found.1, found.2 ++ stop :: rest) := by
  have same : (text ++ stop :: rest).takeWhile isKeyChar = text.takeWhile isKeyChar :=
    takeWhile_stop (isKeyChar_stop stops) text rest
  cases key : dottedKey text with
  | none =>
    rw [dottedKey_eq_none, ← same] at key
    exact dottedKey_eq_none.mpr key
  | some found =>
    obtain ⟨segments, after⟩ := found
    obtain ⟨rfl, _⟩ := dottedKey_split key
    rw [append_assoc] at same ⊢
    exact dottedKey_congr key same

private theorem reference_stops : StopsAt stop reference := by
  intro before text rest
  have begun : expect "lx(i18n" (text ++ stop :: rest) =
      (expect "lx(i18n" text).map (· ++ stop :: rest) :=
    after?_stop (stop_not_mem stops (by decide)) text rest
  have noBracket : (stop == '(') = false := beq_eq_false_iff_ne.mpr fun same => by
    rw [same] at stops
    revert stops
    decide
  rw [reference_eq, reference_eq, begun]
  cases expect "lx(i18n" text with
  | none => rfl
  | some inner =>
    have closed : expect ")." ((spaceOf inner).2 ++ stop :: rest) =
        (expect ")." (spaceOf inner).2).map (· ++ stop :: rest) :=
      after?_stop (stop_not_mem stops (by decide)) _ rest
    rw [map_some, bind_some, bind_some, spaceOf_stop stops]
    dsimp only
    rw [closed]
    cases expect ")." (spaceOf inner).2 with
    | none => rfl
    | some key =>
      rw [map_some, bind_some, bind_some, dottedKey_stop stops]
      cases dottedKey key with
      | none => rfl
      | some found =>
        obtain ⟨segments, after⟩ := found
        cases after with
        | nil => simp [noBracket]
        | cons c after => rfl

end

theorem substitute_splits (language : String) (modules : LocaleTable)
    (plugin : Option LocaleTable) : Splits isStop (substitute language modules plugin) :=
  .replace (fun _ stops => reference_stops stops) reference_blind rfl _

end Locale

end PageScript
