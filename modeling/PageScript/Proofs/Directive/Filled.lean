import PageScript.Directive.Inclusion
import PageScript.Directive.Resource
import PageScript.Proofs.Directive.Places
import PageScript.Proofs.Locale.Reference
import PageScript.Proofs.Text.FilledPieces

/-! Directives in a text with placeholders. -/

open List

namespace PageScript

open Text Filling Option Prod

variable {text : Text} {word : String}

namespace Directive

variable {filling : Filling}

private theorem asset_head {first second third gap : Text} (begun : expect "@lx:" text = some first)
    (kind : expect "js" first = some second ∨ expect "css" first = some second)
    (gaps : run1? isBlank second = some (gap, third)) : Past isCalm text third := by
  refine (Past.after? (by decide) begun).trans (.trans ?_ (.run1? isCalm_of_isBlank gaps))
  rcases kind with script | style
  · exact .after? (by decide) script
  · exact .after? (by decide) style

private theorem kinds_fill (text : Text) :
    ((expect "js" (filling.fill text)).map (fun rest => (AssetKind.script, rest)) <|>
        (expect "css" (filling.fill text)).map fun rest => (AssetKind.style, rest)) =
      ((expect "js" text).map (fun rest => (AssetKind.script, rest)) <|>
          (expect "css" text).map fun rest => (AssetKind.style, rest)).map
        fun found => (found.1, filling.fill found.2) := by
  rw [filling.expect_fill (by decide), filling.expect_fill (by decide)]
  cases expect "js" text with
  | some rest => rfl
  | none => cases expect "css" text <;> rfl

private theorem kinds_eq_some {rest : Text} {kind : AssetKind}
    (found : ((expect "js" text).map (fun rest => (AssetKind.script, rest)) <|>
      (expect "css" text).map fun rest => (AssetKind.style, rest)) = some (kind, rest)) :
    expect "js" text = some rest ∨ expect "css" text = some rest := by
  cases script : expect "js" text with
  | some after =>
    rw [script] at found
    cases found
    exact .inl rfl
  | none =>
    rw [script] at found
    obtain ⟨after, style, same⟩ := map_eq_some_iff.mp found
    cases same
    exact .inr style

variable (filling) in
private theorem path_fill (free : Free (text.takeWhile (· != ';'))) :
    (filling.fill text).takeWhile (fun c => c != ';' && c != '\n') =
        text.takeWhile (fun c => c != ';' && c != '\n') ∧
      (filling.fill text).dropWhile (fun c => c != ';' && c != '\n') =
        filling.fill (text.dropWhile fun c => c != ';' && c != '\n') := by
  refine filling.run_free (free.takeWhile fun c kept => ?_) fun c hole => ?_
  · exact (Bool.and_eq_true_iff.mp kept).1
  · simp [ne_of_isHole hole (d := ';') (by decide), ne_of_isHole hole (d := '\n') (by decide)]

theorem asset_follows (scripts : Unreached "@lx:js" text) (styles : Unreached "@lx:css" text) :
    filling.Follows asset id text := by
  intro left c right whole plain
  unfold asset
  simp only [bind_eq_bind]
  rw [filling.expect_fill_cons (by decide) plain]
  refine bind_carry fun first begun => ?_
  rw [kinds_fill]
  refine bind_carry fun found kinds => ?_
  obtain ⟨kind, second⟩ := found
  dsimp only
  rw [filling.run1?_fill isBlank_stops]
  refine bind_carry fun found gaps => ?_
  obtain ⟨gap, third⟩ := found
  have past := asset_head begun (kinds_eq_some kinds) gaps
  have free : Free (third.takeWhile (· != ';')) := by
    have within : c :: right <:+ text := ⟨left, whole.symm⟩
    have start := after?_eq_some.mp begun
    rcases kinds_eq_some kinds with script | style
    · refine scripts.free within ⟨second, ?_⟩ past
      rw [start, after?_eq_some.mp script]
      rfl
    · refine styles.free within ⟨second, ?_⟩ past
      rw [start, after?_eq_some.mp style]
      rfl
  dsimp only [both, run]
  obtain ⟨taken, left⟩ := path_fill filling free
  rw [taken, left, filling.fill_eq_self (isBlank_stops.free gaps), filling.expect_fill (by decide)]
  refine bind_carry fun last ended => ?_
  split
  · split <;> rfl
  · rfl
  · rfl

theorem asset_terminated : Terminated ["@lx:js", "@lx:css"] asset := by
  intro before text value rest found
  unfold asset at found
  simp only [bind_eq_bind, bind_eq_some_iff] at found
  obtain ⟨first, begun, ⟨kind, second⟩, kinds, ⟨gap, third⟩, gaps, last, ended, same⟩ := found
  have after : last = rest := by
    split at same
    · split at same
      · cases same
      · exact congrArg snd (some.inj same)
    · cases same
    · exact congrArg snd (some.inj same)
  have start := after?_eq_some.mp begun
  refine ⟨?_, third, third.takeWhile fun c => c != ';' && c != '\n',
    asset_head begun (kinds_eq_some kinds) gaps, ?_⟩
  · rcases kinds_eq_some kinds with script | style
    · refine ⟨"@lx:js", by simp, second, ?_⟩
      rw [start, after?_eq_some.mp script]
      rfl
    · refine ⟨"@lx:css", by simp, second, ?_⟩
      rw [start, after?_eq_some.mp style]
      rfl
  · have stops : third.dropWhile (fun c => c != ';' && c != '\n') = ';' :: rest := by
      rw [← after]
      exact after?_eq_some.mp ended
    have whole : third = third.takeWhile (fun c => c != ';' && c != '\n') ++ ';' :: rest := by
      rw [← stops, takeWhile_append_dropWhile]
    exact upToSemicolon_append whole fun c member =>
      (Bool.and_eq_true_iff.mp (all_eq_true.mp all_takeWhile c member)).1

theorem asset_begins : Begins "@lx:".toList asset :=
  .of_expect "@lx:" fun _ _ missing => by simp [asset, missing]

theorem require_follows (unreached : Unreached "@lx:require" text) :
    filling.Follows require id text := by
  intro left c right whole plain
  unfold require
  simp only [bind_eq_bind]
  rw [filling.expect_fill_cons (by decide) plain]
  refine bind_carry fun first begun => ?_
  rw [filling.run1?_fill isBlank_stops]
  refine bind_carry fun found gaps => ?_
  obtain ⟨gap, second⟩ := found
  have past : Past isCalm (c :: right) second :=
    (Past.after? (by decide) begun).trans (.run1? isCalm_of_isBlank gaps)
  have free := unreached.free ⟨left, whole.symm⟩ ⟨first, (after?_eq_some.mp begun).symm⟩ past
  dsimp only [both]
  rw [filling.upToSemicolon_free free, filling.fill_eq_self (isBlank_stops.free gaps)]
  refine bind_carry fun found ended => ?_
  obtain ⟨body, rest⟩ := found
  cases body with
  | nil =>
    dsimp only
    split <;> rfl
  | cons d body => rfl

theorem require_terminated : Terminated ["@lx:require"] require := by
  intro before text value rest found
  unfold require at found
  simp only [bind_eq_bind, bind_eq_some_iff] at found
  obtain ⟨first, begun, ⟨gap, second⟩, gaps, ⟨body, last⟩, ended, same⟩ := found
  have after : last = rest := by
    split at same
    · split at same
      · exact congrArg snd (some.inj same)
      · cases same
    · exact congrArg snd (some.inj same)
  refine ⟨⟨_, mem_singleton_self _, first, (after?_eq_some.mp begun).symm⟩, second, body, ?_,
    after ▸ ended⟩
  exact (Past.after? (by decide) begun).trans (.run1? isCalm_of_isBlank gaps)

theorem require_begins : Begins "@lx:require".toList require :=
  .of_expect "@lx:require" fun _ _ missing => by simp [require, missing]

theorem use_follows (unreached : Unreached "@lx:use" text) : filling.Follows use id text := by
  intro left c right whole plain
  unfold use
  simp only [bind_eq_bind]
  rw [filling.expect_fill_cons (by decide) plain]
  refine bind_carry fun first begun => ?_
  rw [filling.blanks1_fill]
  refine bind_carry fun second spaced => ?_
  have past : Past isCalm (c :: right) second :=
    (Past.after? (by decide) begun).trans (.blanks1 isCalm_of_isBlank spaced)
  have free := unreached.free ⟨left, whole.symm⟩ ⟨first, (after?_eq_some.mp begun).symm⟩ past
  rw [filling.upToSemicolon_free free]
  refine bind_carry fun found ended => ?_
  split <;> rfl

theorem use_terminated : Terminated ["@lx:use"] use := by
  intro before text value rest found
  unfold use at found
  simp only [bind_eq_bind, bind_eq_some_iff] at found
  obtain ⟨first, begun, second, spaced, ⟨body, last⟩, ended, same⟩ := found
  have after : last = rest := by
    split at same
    · exact congrArg snd (some.inj same)
    · cases same
  refine ⟨⟨_, mem_singleton_self _, first, (after?_eq_some.mp begun).symm⟩, second, body, ?_,
    after ▸ ended⟩
  exact (Past.after? (by decide) begun).trans (.blanks1 isCalm_of_isBlank spaced)

theorem use_begins : Begins "@lx:use".toList use :=
  .of_expect "@lx:use" fun _ _ missing => by simp [use, missing]

def fillBody (filling : Filling) (block : Text × Text) : Text × Text :=
  (block.1, filling.fill block.2)

private theorem labelledBlock_follows
    (known : ∀ s ∈ word.toList, isHole s = false ∧ isOpening s = false ∧ isEnding s = false)
    (absent : ∀ c, isHole c = true → ¬ closing word <:+: filling.text c) (text : Text) :
    filling.Follows (labelledBlock word) (fillBody filling) text := by
  intro left c right whole plain
  unfold labelledBlock
  simp only [bind_eq_bind]
  rw [filling.expect_fill_cons (by decide) plain]
  refine bind_carry fun first begun => ?_
  rw [filling.expect_fill fun s member => ⟨(known s member).1, (known s member).2.1⟩]
  refine bind_carry fun second named => ?_
  rw [filling.blanks1_fill]
  refine bind_carry fun third spaced => ?_
  rw [filling.run1?_fill isWord_stops]
  refine bind_carry fun found labelled => ?_
  obtain ⟨label, fourth⟩ := found
  dsimp only [both]
  rw [filling.blanks_fill, filling.expect_fill (by decide),
    filling.fill_eq_self (isWord_stops.free labelled)]
  refine bind_carry fun fifth colon => ?_
  have marker : closing word = '@' :: ("lx:".toList ++ word.toList ++ ['>']) := by simp [closing]
  have start : ∀ s ∈ "@lx:".toList, isEnding s = false := by decide
  have later : ∀ s ∈ "lx:".toList ++ ['>'], isHole s = false ∧ isOpening s = false := by decide
  change (cutAt? (closing word) (filling.fill fifth)).bind _ =
    ((cutAt? (closing word) fifth).bind _).map _
  rw [marker] at absent ⊢
  rw [filling.cutAt?_fill (fun s member => ?_) (fun s member => ?_) (by decide) absent]
  · exact bind_carry fun _ _ => rfl
  · simp only [mem_append] at member later
    rcases member with (front | inside) | last
    · exact later s (.inl front)
    · exact ⟨(known s inside).1, (known s inside).2.1⟩
    · exact later s (.inr last)
  · rw [← cons_append, dropLast_concat, ← cons_append] at member
    rcases mem_append.mp member with front | inside
    · exact start s front
    · exact (known s inside).2.2

theorem labelledBlock_begins (word : String) : Begins (opening word) (labelledBlock word) := by
  intro before text found seen
  unfold labelledBlock at seen
  simp only [bind_eq_bind, bind_eq_some_iff] at seen
  obtain ⟨first, begun, second, named, _⟩ := seen
  refine ⟨second, ?_⟩
  rw [after?_eq_some.mp begun, after?_eq_some.mp named, opening, String.toList_append,
    append_assoc]

private theorem labelledBlock_reads (known : ∀ s ∈ word.toList, isEnding s = false)
    (absent : ∀ c, isHole c = true → ¬ opening word <:+: filling.text c) :
    filling.Reads (labelledBlock word) filling.chars := by
  have marker : opening word = '@' :: ("lx:<".toList ++ word.toList) := by simp [opening]
  have begins := labelledBlock_begins word
  have start : ∀ s ∈ "@lx:<".toList, isEnding s = false := by decide
  rw [marker] at absent begins
  refine .of_begins filling begins (by decide) (fun s member => ?_) absent
  rw [← cons_append] at member
  rcases mem_append.mp (mem_of_mem_dropLast member) with front | inside
  · exact start s front
  · exact known s inside

theorem filterBlocks_fill
    (known : ∀ s ∈ word.toList, isHole s = false ∧ isOpening s = false ∧ isEnding s = false)
    (opens : ∀ c, isHole c = true → ¬ opening word <:+: filling.text c)
    (closes : ∀ c, isHole c = true → ¬ closing word <:+: filling.text c) (active text : Text) :
    filterBlocks word active (filling.fill text) = filling.fill (filterBlocks word active text) := by
  refine replace_fill (labelledBlock_consumes word)
    (labelledBlock_reads (fun s member => (known s member).2.2) opens)
    (labelledBlock_follows known closes text) fun block => ?_
  dsimp only [fillBody]
  split <;> rfl

private theorem isKeyChar_stops : Stops fun c => isNameRest c || c == '.' :=
  isNameRest_stops.or_eq (by decide) (by decide)

theorem selfReference_follows (text : Text) : filling.Follows selfReference id text := by
  intro left c right _ _
  unfold selfReference
  simp only [bind_eq_bind]
  rw [filling.expect_fill (by decide)]
  refine bind_carry fun first begun => ?_
  rw [filling.blanks_fill, filling.run1?_fill isKeyChar_stops]
  refine bind_carry fun found named => ?_
  obtain ⟨name, second⟩ := found
  dsimp only [both]
  rw [filling.blanks_fill, filling.expect_fill (by decide),
    filling.fill_eq_self (isKeyChar_stops.free named)]
  exact bind_carry fun _ _ => rfl

theorem selfReference_findsFree : FindsFree selfReference := by
  intro before text name rest found
  unfold selfReference at found
  simp only [bind_eq_bind, bind_eq_some_iff] at found
  obtain ⟨first, begun, ⟨own, second⟩, named, last, closed, same⟩ := found
  cases same
  obtain ⟨gap, spaced, blank⟩ := blanks_eq first
  obtain ⟨space, spread, white⟩ := blanks_eq second
  refine ⟨"lx.self(".toList ++ (gap ++ (own ++ (space ++ ")".toList))), by simp, ?_, ?_⟩
  · rw [after?_eq_some.mp begun, spaced, (run1?_eq_some named).1, spread,
      after?_eq_some.mp closed]
    simp only [append_assoc]
  · refine .append (by decide) (.append ?_ (.append (isKeyChar_stops.free named) (.append ?_ (by decide))))
    · exact fun c member => isBlank_stops.isHole (blank c member)
    · exact fun c member => isBlank_stops.isHole (white c member)

theorem selfReference_begins : Begins "lx.self(".toList selfReference :=
  .of_expect "lx.self(" fun _ _ missing => by simp [selfReference, missing]

end Directive

namespace Locale

variable {filling : Filling}

private theorem spaceOf_cons_of_ne {c : Char} (other : c ≠ ':') (rest : Text) :
    spaceOf (c :: rest) = (none, c :: rest) := by
  unfold spaceOf
  split
  · rename_i same
    exact absurd (List.cons.inj same).1 other
  · rfl

private theorem spaceOf_fill (text : Text) :
    spaceOf (filling.fill text) = ((spaceOf text).1, filling.fill (spaceOf text).2) := by
  cases text with
  | nil => rfl
  | cons c rest =>
    rcases filling.fill_cons_cases (eq_stops (d := ':') (by decide) (by decide)) c rest with
      ⟨colon, filled⟩ | ⟨out, d, more, filled, other⟩
    · obtain rfl : c = ':' := beq_iff_eq.mp colon
      rw [filled, spaceOf, spaceOf, filling.run1?_fill isLabel_stops]
      cases named : run1? isLabel rest with
      | none => exact congrArg (Prod.mk none) filled.symm
      | some found =>
        dsimp only [map_some, both]
        rw [filling.fill_eq_self (isLabel_stops.free named)]
    · rw [filled, spaceOf_cons_of_ne (beq_eq_false_iff_ne.mp other),
        spaceOf_cons_of_ne (beq_eq_false_iff_ne.mp out)]
      exact congrArg (Prod.mk none) filled.symm

private theorem dottedKey_fill (text : Text) :
    dottedKey (filling.fill text) = (dottedKey text).map fun found => (found.1, filling.fill found.2) := by
  have stops : Stops isKeyChar := Directive.isKeyChar_stops
  have same : (filling.fill text).takeWhile isKeyChar = text.takeWhile isKeyChar := by
    rw [(filling.run_stops stops text).1, filling.fill_eq_self]
    exact fun c member => stops.isHole (all_eq_true.mp all_takeWhile c member)
  cases key : dottedKey text with
  | none =>
    rw [dottedKey_eq_none, ← same] at key
    exact dottedKey_eq_none.mpr key
  | some found =>
    obtain ⟨segments, after⟩ := found
    obtain ⟨rfl, _, inside, _⟩ := dottedKey_split key
    have plain : Free (join ['.'] segments) := fun c member => stops.isHole (inside c member)
    rw [filling.fill_append, filling.fill_eq_self plain] at same ⊢
    exact dottedKey_congr key same

theorem reference_follows (text : Text) : filling.Follows reference id text := by
  intro left c right _ _
  rw [reference_eq, reference_eq, filling.expect_fill (by decide)]
  refine bind_carry fun first begun => ?_
  rw [spaceOf_fill, filling.expect_fill (by decide)]
  refine bind_carry fun second closed => ?_
  rw [dottedKey_fill]
  refine bind_carry fun found key => ?_
  rw [filling.head?_fill (by decide) (by decide)]
  rfl

theorem startOf_free {space : Option Text} (labelled : Labelled space) : Free (startOf space) := by
  cases space with
  | none => decide
  | some name =>
    refine .append (.append (by decide) ?_) (by decide)
    exact fun c member => isLabel_stops.isHole ((labelled name rfl).2 c member)

theorem reference_findsFree : FindsFree reference := by
  intro before text value rest found
  obtain ⟨key, rfl, labelled, dotted, _⟩ := reference_eq_some.mp found
  obtain ⟨whole, more, inside, _⟩ := dottedKey_split dotted
  refine ⟨startOf value.space ++ join ['.'] value.segments, by simp [more], ?_, ?_⟩
  · rw [append_assoc, ← whole]
  · exact (startOf_free labelled).append fun c member =>
      Directive.isKeyChar_stops.isHole (inside c member)

theorem reference_begins : Begins "lx(i18n".toList reference :=
  .of_expect "lx(i18n" fun _ _ missing => by simp [reference, missing]

end Locale

end PageScript
