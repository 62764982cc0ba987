import PageScript.Proofs.Locale.Reference

/-! References that are made to name a module (`occurrences_qualify`). -/

open List

namespace PageScript

open Text Option

variable {c : Char} {rest text code after space : Text} {found : Reference × Text}

theorem Replacement.expand_of_plain {template : Text} (plain : '$' ∉ template) (whole : Text) :
    Replacement.expand template whole = template := by
  have needs : Needs ['$'] Replacement.reference := by
    intro before text found seen
    cases text with
    | nil => cases seen
    | cons c rest =>
      by_cases dollar : c = '$'
      · rw [dollar]
        exact (prefix_append ['$'] rest).isInfix
      · unfold Replacement.reference at seen
        split at seen
        case h_4 => cases seen
        all_goals
          rename_i same
          exact absurd (List.cons.inj same).1 dollar
  exact needs.replace (fun within => plain (within.subset mem_cons_self)) _

namespace Locale

def plainReference : Recogniser Unit :=
  fun _ text => (after? plainStart text).map fun rest => ((), rest)

private theorem plainReference_blind : Blind plainReference :=
  fun _ _ _ => rfl

private theorem plainStart_eq : plainStart = 'l' :: 'x' :: '(' :: "i18n).".toList := by
  decide

private theorem startOf_eq (space : Text) :
    startOf (some space) = 'l' :: 'x' :: '(' :: ("i18n:".toList ++ (space ++ ").".toList)) := by
  have start : "lx(i18n:".toList = 'l' :: 'x' :: '(' :: "i18n:".toList := by decide
  change "lx(i18n:".toList ++ space ++ ").".toList = _
  rw [start, append_assoc]
  rfl

section

variable {name : Text} (labels : ∀ c ∈ name, isLabel c = true)
include labels

private theorem not_mem_startOf (apart : c ∉ "lx(i18n:).".toList) (other : isLabel c = false) :
    c ∉ startOf (some name) := by
  have parts : "lx(i18n:).".toList = "lx(i18n".toList ++ ':' :: ").".toList := by decide
  rw [parts, mem_append, mem_cons, not_or, not_or] at apart
  rw [startOf_some, mem_append, mem_cons, mem_append, not_or, not_or, not_or]
  refine ⟨apart.1, apart.2.1, fun within => ?_, apart.2.2⟩
  rw [labels c within] at other
  cases other

private theorem qualifyReferences_eq (code : Text) :
    qualifyReferences name code =
      Text.replace plainReference (fun _ => startOf (some name)) code := by
  have plain := not_mem_startOf labels (by decide : '$' ∉ "lx(i18n:).".toList) (by decide)
  have written := Replacement.expand_of_plain plain plainStart
  unfold qualifyReferences
  dsimp only
  change Text.replace plainReference
    (fun _ => Replacement.expand (startOf (some name)) plainStart) code = _
  rw [written]

private theorem qualify_nil : qualifyReferences name [] = [] := by
  rw [qualifyReferences_eq labels]
  rfl

private theorem qualify_start (rest : Text) :
    qualifyReferences name (plainStart ++ rest) =
      startOf (some name) ++ qualifyReferences name rest := by
  have found : plainReference [] (plainStart ++ rest) = some ((), rest) := by
    rw [plainReference, after?_eq_some.mpr rfl]
    rfl
  rw [qualifyReferences_eq labels, qualifyReferences_eq labels, Text.replace,
    plainReference_blind.cut_found (by decide : plainStart ≠ []) found, writePieces_found]
  rfl

private theorem qualify_cons (other : ¬ plainStart <+: c :: rest) :
    qualifyReferences name (c :: rest) = c :: qualifyReferences name rest := by
  have silent : ∀ part, part ≠ [] → part <:+ [c] → plainReference [] (part ++ rest) = none := by
    intro part more within
    rcases suffix_cons_iff.mp within with rfl | none
    · rw [plainReference, map_eq_none_iff, eq_none_iff_forall_ne_some]
      intro after found
      exact other ⟨after, (after?_eq_some.mp found).symm⟩
    · exact absurd (suffix_nil.mp none) more
  rw [qualifyReferences_eq labels, qualifyReferences_eq labels, Text.replace]
  have pieces := plainReference_blind.cut_silent silent
  rw [singleton_append] at pieces
  rw [pieces, writePieces_append, writePieces_plain]
  rfl

theorem qualify_splits : Splits isStop (qualifyReferences name) := by
  have stopsAt : ∀ c, isStop c = true → StopsAt c plainReference := by
    intro c stops before text rest
    rw [plainReference, plainReference, after?_stop (stop_not_mem stops (by decide))]
    cases after? plainStart text <;> rfl
  rw [show qualifyReferences name = Text.replace plainReference fun _ => startOf (some name) from
    funext (qualifyReferences_eq labels)]
  exact .replace stopsAt plainReference_blind rfl _

private theorem takeWhile_qualify {p : Char → Bool} (ends : p '(' = false) (code : Text) :
    (qualifyReferences name code).takeWhile p = code.takeWhile p := by
  induction code with
  | nil => rw [qualify_nil labels]
  | cons c rest ih =>
    by_cases start : plainStart <+: c :: rest
    · obtain ⟨after, same⟩ := start
      rw [← same, qualify_start labels, plainStart_eq, startOf_eq]
      simp only [cons_append, takeWhile_cons, ends, Bool.false_eq_true, if_false]
    · rw [qualify_cons labels start, takeWhile_cons, takeWhile_cons, ih]

private theorem qualify_append (absent : 'l' ∉ text) (rest : Text) :
    qualifyReferences name (text ++ rest) = text ++ qualifyReferences name rest := by
  induction text with
  | nil => rfl
  | cons c text ih =>
    obtain ⟨differs, others⟩ := ne_and_not_mem_of_not_mem_cons absent
    have other : ¬ plainStart <+: c :: (text ++ rest) := by
      rw [plainStart_eq, cons_prefix_cons]
      exact fun start => differs start.1
    rw [cons_append, qualify_cons labels other, ih others, cons_append]

theorem append_of_qualify (absent : 'l' ∉ text) (written : qualifyReferences name code = text ++ after) :
    ∃ rest, code = text ++ rest ∧ after = qualifyReferences name rest := by
  induction text generalizing code with
  | nil => exact ⟨code, rfl, written.symm⟩
  | cons c text ih =>
    obtain ⟨differs, others⟩ := ne_and_not_mem_of_not_mem_cons absent
    cases code with
    | nil =>
      rw [qualify_nil labels] at written
      cases written
    | cons d code =>
      by_cases start : plainStart <+: d :: code
      · obtain ⟨more, same⟩ := start
        rw [← same, qualify_start labels, startOf_eq, cons_append] at written
        exact absurd (List.cons.inj written).1 differs
      · rw [qualify_cons labels start, cons_append, List.cons.injEq] at written
        obtain ⟨rest, rfl, last⟩ := ih others written.2
        exact ⟨rest, by rw [written.1]; rfl, last⟩

/-- A text without a bracket is as it was, and so is what follows, unless a start reaches from the one
into the other. -/
theorem qualify_split (absent : '(' ∉ text) (next : rest.head? ≠ some 'x') :
    qualifyReferences name (text ++ rest) = text ++ qualifyReferences name rest ∨
      ∃ more, rest = '(' :: ("i18n).".toList ++ more) ∧
        qualifyReferences name (text ++ rest) =
          text ++ '(' :: ("i18n:".toList ++ (name ++ ").".toList) ++ qualifyReferences name more) := by
  induction text with
  | nil => exact .inl rfl
  | cons c text ih =>
    have others : '(' ∉ text := fun member => absent (mem_cons_of_mem c member)
    by_cases start : plainStart <+: c :: (text ++ rest)
    · obtain ⟨more, same⟩ := start
      rw [cons_append, ← same, qualify_start labels, startOf_eq]
      rw [plainStart_eq] at same
      cases text with
      | nil =>
        simp only [cons_append, nil_append, List.cons.injEq] at same
        rw [← same.2] at next
        exact absurd rfl next
      | cons d text =>
        cases text with
        | nil =>
          simp only [cons_append, nil_append, List.cons.injEq] at same
          obtain ⟨rfl, rfl, rfl⟩ := same
          exact .inr ⟨more, rfl, rfl⟩
        | cons e text =>
          simp only [cons_append, List.cons.injEq] at same
          obtain ⟨_, _, rfl, _⟩ := same
          exact absurd (by simp) absent
    · rw [cons_append, qualify_cons labels start]
      rcases ih others with same | ⟨more, rfl, same⟩
      · exact .inl (by rw [same]; rfl)
      · exact .inr ⟨more, rfl, by rw [same]; rfl⟩

theorem head?_qualify (code : Text) : (qualifyReferences name code).head? = code.head? := by
  cases code with
  | nil => rw [qualify_nil labels]
  | cons c rest =>
    by_cases start : plainStart <+: c :: rest
    · obtain ⟨after, same⟩ := start
      rw [← same, qualify_start labels, plainStart_eq, startOf_eq]
      rfl
    · rw [qualify_cons labels start]
      rfl

/-- A key stays a key. After it, either all goes on as it was, or the key ends in the first letters of a
start. -/
theorem dottedKey_qualify {segments : List Text} (found : dottedKey text = some (segments, after)) :
    ∃ other, dottedKey (qualifyReferences name text) = some (segments, other) ∧
      other.head? = after.head? ∧
      (other = qualifyReferences name after ∨
        ∃ more, after = '(' :: ("i18n).".toList ++ more) ∧
          other = '(' :: ("i18n:".toList ++ (name ++ ").".toList) ++ qualifyReferences name more)) := by
  obtain ⟨rfl, _, chars, ended⟩ := dottedKey_split found
  have closed : '(' ∉ join ['.'] segments := fun member =>
    absurd (chars '(' member) (by decide)
  have next : after.head? ≠ some 'x' := fun same => absurd (ended 'x' same) (by decide)
  have same := takeWhile_qualify labels (by decide : isKeyChar '(' = false)
    (join ['.'] segments ++ after)
  rcases qualify_split labels closed next with written | ⟨more, rest, written⟩
  · rw [written] at same ⊢
    exact ⟨_, dottedKey_congr found same, head?_qualify labels after, .inl rfl⟩
  · rw [written] at same ⊢
    exact ⟨_, dottedKey_congr found same, by rw [rest]; rfl, .inr ⟨more, rest, rfl⟩⟩

end

def Reference.inModule (name : Text) (reference : Reference) : Reference :=
  { reference with space := some (reference.space.getD name) }

private theorem reference_start {before : Text}
    (seen : reference before text = some found) : ∃ rest, text = 'l' :: 'x' :: '(' :: rest := by
  obtain ⟨key, same, _⟩ := reference_eq_some.mp seen
  cases space : found.1.space with
  | none =>
    rw [space] at same
    change text = plainStart ++ key at same
    rw [plainStart_eq] at same
    exact ⟨_, same⟩
  | some name =>
    rw [space, startOf_eq] at same
    exact ⟨_, same⟩

private theorem occurrences_cons (unseen : reference [] (c :: rest) = none) :
    occurrences reference (c :: rest) = occurrences reference rest := by
  have silent : ∀ part, part ≠ [] → part <:+ [c] → reference [] (part ++ rest) = none := by
    intro part more within
    rcases suffix_cons_iff.mp within with rfl | none
    · exact unseen
    · exact absurd (suffix_nil.mp none) more
  have pieces := reference_blind.cut_silent silent
  rw [singleton_append] at pieces
  rw [occurrences, pieces]
  rfl

private theorem occurrences_found {lexeme : Text} {found : Reference} (more : lexeme ≠ [])
    (seen : reference [] (lexeme ++ after) = some (found, after)) :
    occurrences reference (lexeme ++ after) = found :: occurrences reference after := by
  rw [occurrences, reference_blind.cut_found more seen]
  rfl

private theorem occurrences_of_no_letter (absent : 'l' ∉ text) (rest : Text) :
    occurrences reference (text ++ rest) = occurrences reference rest := by
  induction text with
  | nil => rfl
  | cons c text ih =>
    obtain ⟨differs, others⟩ := ne_and_not_mem_of_not_mem_cons absent
    rw [cons_append, occurrences_cons, ih others]
    rw [eq_none_iff_forall_ne_some]
    intro found seen
    obtain ⟨_, same⟩ := reference_start seen
    exact differs (List.cons.inj same).1.symm

private theorem occurrences_of_no_bracket (absent : '(' ∉ text) (letter : rest.head? ≠ some 'x')
    (bracket : rest.head? ≠ some '(') :
    occurrences reference (text ++ rest) = occurrences reference rest := by
  induction text with
  | nil => rfl
  | cons c text ih =>
    have others : '(' ∉ text := fun member => absent (mem_cons_of_mem c member)
    rw [cons_append, occurrences_cons, ih others]
    rw [eq_none_iff_forall_ne_some]
    intro found seen
    obtain ⟨_, same⟩ := reference_start seen
    rcases text with _ | ⟨d, _ | ⟨e, text⟩⟩
    · rw [nil_append, List.cons.injEq] at same
      exact letter (by rw [same.2]; rfl)
    · rw [singleton_append, List.cons.injEq, List.cons.injEq] at same
      exact bracket (by rw [same.2.2]; rfl)
    · simp only [cons_append, List.cons.injEq] at same
      obtain ⟨_, _, rfl, _⟩ := same
      exact absurd (by simp) absent

private theorem occurrences_closed (labelled : ∀ c ∈ space, isLabel c = true) (rest : Text) :
    occurrences reference (space ++ (").".toList ++ rest)) =
      occurrences reference rest := by
  have open_ : '(' ∉ space := fun member => absurd (labelled '(' member) (by decide)
  have next : (").".toList ++ rest).head? = some ')' := rfl
  rw [occurrences_of_no_bracket open_ (by rw [next]; decide) (by rw [next]; decide),
    occurrences_of_no_letter (by decide)]

private theorem startOf_ne_nil (space : Option Text) : startOf space ≠ [] := by
  cases space with
  | none =>
    change plainStart ≠ []
    decide
  | some name =>
    rw [startOf_eq]
    exact cons_ne_nil _ _

private theorem startOf_append (space rest : Text) :
    startOf (some space) ++ rest =
      'l' :: ("x(i18n:".toList ++ (space ++ (").".toList ++ rest))) := by
  have start : "x(i18n:".toList = 'x' :: '(' :: "i18n:".toList := by decide
  rw [startOf_eq, start]
  simp only [cons_append, append_assoc]

private theorem plainStart_append (rest : Text) :
    plainStart ++ rest = 'l' :: ("x(i18n).".toList ++ rest) := by
  have start : "x(i18n).".toList = 'x' :: '(' :: "i18n).".toList := by decide
  rw [plainStart_eq, start]
  rfl

theorem not_plainStart_prefix (space rest : Text) : ¬ plainStart <+: startOf (some space) ++ rest := by
  rintro ⟨after, same⟩
  rw [plainStart_append, startOf_append, List.cons.injEq] at same
  have eighth := congrArg (List.take 7) same.2
  rw [take_append_of_le_length (by decide), take_append_of_le_length (by decide)] at eighth
  exact absurd eighth (by decide)

section

variable {name : Text} (labels : ∀ c ∈ name, isLabel c = true)
include labels

private theorem qualify_closed (labelled : ∀ c ∈ space, isLabel c = true) (rest : Text) :
    qualifyReferences name (space ++ (").".toList ++ rest)) =
      space ++ (").".toList ++ qualifyReferences name rest) := by
  have open_ : '(' ∉ space := fun member => absurd (labelled '(' member) (by decide)
  have next : (").".toList ++ rest).head? = some ')' := rfl
  rcases qualify_split labels open_ (by rw [next]; decide) with written | ⟨more, same, _⟩
  · rw [written, qualify_append labels (by decide)]
  · rw [same] at next
    cases next

private theorem closed_of_qualify {key : Text} (labelled : ∀ c ∈ space, isLabel c = true)
    (written : qualifyReferences name code = space ++ (").".toList ++ key)) :
    ∃ rest, code = space ++ (").".toList ++ rest) ∧ key = qualifyReferences name rest := by
  have open_ : '(' ∉ space := fun member => absurd (labelled '(' member) (by decide)
  have taken : code.takeWhile isLabel = space := by
    rw [← takeWhile_qualify labels (by decide), written, takeWhile_append_of_pos labelled]
    exact append_nil space
  have split : space ++ code.dropWhile isLabel = code := by
    rw [← taken, takeWhile_append_dropWhile]
  have next : (code.dropWhile isLabel).head? ≠ some 'x' := by
    intro same
    have ends := head?_dropWhile_not isLabel code
    rw [same] at ends
    exact absurd ends (by decide)
  rcases qualify_split labels open_ next with same | ⟨more, _, same⟩
  · rw [split, written, append_cancel_left_eq] at same
    obtain ⟨rest, last, keyAt⟩ := append_of_qualify labels (by decide) same.symm
    exact ⟨rest, by rw [← last, split], keyAt⟩
  · rw [split, written, append_cancel_left_eq] at same
    exact absurd (List.cons.inj (show ')' :: _ = '(' :: _ from same)).1 (by decide)

private theorem qualify_startOf {space : Option Text} (labelled : Labelled space) (rest : Text) :
    qualifyReferences name (startOf space ++ rest) =
      startOf (some (space.getD name)) ++ qualifyReferences name rest := by
  cases space with
  | none => exact qualify_start labels rest
  | some other =>
    have differs := not_plainStart_prefix other rest
    rw [startOf_append] at differs ⊢
    rw [qualify_cons labels differs, qualify_append labels (by decide),
      qualify_closed labels (labelled other rfl).2]
    exact (startOf_append other _).symm

private theorem reference_qualify_none (other : ¬ plainStart <+: c :: rest)
    (unseen : reference [] (c :: rest) = none) :
    reference [] (c :: qualifyReferences name rest) = none := by
  rw [eq_none_iff_forall_ne_some]
  rintro ⟨⟨space, segments, called⟩, after⟩ seen
  obtain ⟨key, same, labelled, dotted, _⟩ := reference_eq_some.mp seen
  dsimp only at same labelled dotted
  cases space with
  | none =>
    change c :: qualifyReferences name rest = plainStart ++ key at same
    rw [plainStart_append, List.cons.injEq] at same
    obtain ⟨more, rfl, _⟩ := append_of_qualify labels (by decide) same.2
    rw [same.1, ← plainStart_append] at other
    exact other (prefix_append _ _)
  | some space =>
    have chars := (labelled space rfl).2
    rw [startOf_append, List.cons.injEq] at same
    obtain ⟨inner, rfl, inside⟩ := append_of_qualify labels (by decide) same.2
    obtain ⟨last, rfl, rfl⟩ := closed_of_qualify labels chars inside.symm
    cases key : dottedKey last with
    | none =>
      rw [dottedKey_eq_none, ← takeWhile_qualify labels (by decide), ← dottedKey_eq_none] at key
      rw [key] at dotted
      cases dotted
    | some found =>
      rw [same.1, ← startOf_append, eq_none_iff_forall_ne_some] at unseen
      exact unseen ({ space := some space, segments := found.1, called := _ }, found.2)
        (reference_eq_some.mpr ⟨last, rfl, labelled, key, rfl⟩)

private theorem occurrences_qualify_found (full : name ≠ [])
    (seen : reference [] code = some found) (shorter : ∀ text : Text, text.length < code.length →
      occurrences reference (qualifyReferences name text) =
        (occurrences reference text).map (Reference.inModule name)) :
    occurrences reference (qualifyReferences name code) =
      (occurrences reference code).map (Reference.inModule name) := by
  obtain ⟨⟨space, segments, called⟩, after⟩ := found
  obtain ⟨key, same, labelled, dotted, call⟩ := reference_eq_some.mp seen
  dsimp only at same labelled dotted call
  obtain ⟨other, again, head, goesOn⟩ := dottedKey_qualify labels dotted
  have keyAt := (dottedKey_split dotted).1
  have otherAt := (dottedKey_split again).1
  have both : Labelled (some (space.getD name)) := by
    rintro given ⟨⟩
    cases space with
    | none => exact ⟨full, labels⟩
    | some given => exact labelled given rfl
  have now : reference [] (startOf (some (space.getD name)) ++ qualifyReferences name key) =
      some ({ space := some (space.getD name), segments, called }, other) := by
    rw [reference_startOf both, again, call, ← head]
    rfl
  have later : occurrences reference other =
      (occurrences reference after).map (Reference.inModule name) := by
    have size : after.length < code.length := by
      have some := length_pos_iff.mpr (startOf_ne_nil space)
      rw [same, keyAt, length_append, length_append]
      omega
    rcases goesOn with rfl | ⟨more, rfl, rfl⟩
    · exact shorter after size
    · have fewer : more.length < code.length := by
        rw [length_cons, length_append] at size
        omega
      have opened : '(' :: ("i18n:".toList ++ (name ++ ").".toList) ++ qualifyReferences name more) =
          '(' :: "i18n:".toList ++ (name ++ (").".toList ++ qualifyReferences name more)) := by
        simp only [cons_append, append_assoc]
      rw [opened, occurrences_of_no_letter (by decide), occurrences_closed labels, ← cons_append,
        occurrences_of_no_letter (by decide)]
      exact shorter more fewer
  have before : occurrences reference (startOf space ++ key) =
      { space, segments, called } :: occurrences reference after := by
    rw [keyAt, ← append_assoc]
    apply occurrences_found (append_ne_nil_of_left_ne_nil (startOf_ne_nil space) _)
    rw [append_assoc, ← keyAt, ← same]
    exact seen
  rw [same, qualify_startOf labels labelled, before, map_cons, ← later]
  rw [otherAt, ← append_assoc]
  apply occurrences_found (append_ne_nil_of_left_ne_nil (startOf_ne_nil _) _)
  rw [append_assoc, ← otherAt]
  exact now

private theorem occurrences_qualify_start (full : name ≠ []) (start : plainStart <+: code)
    (unseen : reference [] code = none) (shorter : ∀ text : Text, text.length < code.length →
      occurrences reference (qualifyReferences name text) =
        (occurrences reference text).map (Reference.inModule name)) :
    occurrences reference (qualifyReferences name code) =
      (occurrences reference code).map (Reference.inModule name) := by
  obtain ⟨key, rfl⟩ := start
  have noKey : dottedKey key = none := by
    have plain : Labelled none := by rintro given ⟨⟩
    have computed := reference_startOf plain [] key
    rw [show startOf none = plainStart from rfl, unseen] at computed
    cases dotted : dottedKey key with
    | none => rfl
    | some found =>
      rw [dotted] at computed
      cases computed
  have still : dottedKey (qualifyReferences name key) = none := by
    rw [dottedKey_eq_none, takeWhile_qualify labels (by decide)]
    exact dottedKey_eq_none.mp noKey
  have both : Labelled (some name) := by
    rintro given ⟨⟩
    exact ⟨full, labels⟩
  have now : reference [] (startOf (some name) ++ qualifyReferences name key) = none := by
    rw [reference_startOf both, still]
    rfl
  rw [qualify_start labels]
  rw [startOf_append] at now ⊢
  rw [plainStart_append] at unseen ⊢
  rw [occurrences_cons now, occurrences_cons unseen, occurrences_of_no_letter (by decide),
    occurrences_closed labels, occurrences_of_no_letter (by decide)]
  apply shorter
  have some : 0 < plainStart.length := by decide
  rw [length_append]
  omega

theorem occurrences_qualify (full : name ≠ []) (code : Text) :
    occurrences reference (qualifyReferences name code) =
      (occurrences reference code).map (Reference.inModule name) := by
  -- The induction is on the length, as a reference is taken as a whole.
  induction size : code.length using Nat.strongRecOn generalizing code with
  | ind length ih =>
    have shorter : ∀ text : Text, text.length < code.length →
        occurrences reference (qualifyReferences name text) =
          (occurrences reference text).map (Reference.inModule name) :=
      fun text less => ih text.length (size ▸ less) text rfl
    cases code with
    | nil =>
      rw [qualify_nil labels]
      rfl
    | cons c rest =>
      cases seen : reference [] (c :: rest) with
      | some found => exact occurrences_qualify_found labels full seen shorter
      | none =>
        by_cases start : plainStart <+: c :: rest
        · exact occurrences_qualify_start labels full start seen shorter
        · rw [qualify_cons labels start, occurrences_cons seen,
            occurrences_cons (reference_qualify_none labels start seen)]
          exact shorter rest (Nat.lt_succ_self _)

end

end Locale

end PageScript
