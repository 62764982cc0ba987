import PageScript.Proofs.Script.Solid
import PageScript.Template.Emitter

/-! Heads of loops. Neither bound has to be closed for itself (`loopHead_opens`). -/

open List

namespace PageScript.Template

open Script

theorem blank_neutral {gap : Text} (blank : ∀ c ∈ gap, isBlank c = true) (flat : '\n' ∉ gap) :
    Neutral gap := by
  intro c member
  have inline : (isBlank c && c != '\n') = true := by
    rw [blank c member, Bool.true_and, bne_iff_ne]
    rintro rfl
    exact flat member
  exact isNeutral_of_class (fun c => isBlank c && c != '\n') (by decide) inline

theorem name_neutral {found : Text} (named : ∀ c ∈ found, (isNameStart c || isNameRest c) = true) :
    Neutral found :=
  fun c member => isNeutral_of_class (fun c => isNameStart c || isNameRest c) (by decide)
    (named c member)

/-- Neutral text of at least one character, which ends the effect of a slash before it. -/
def Filler (text : Text) : Prop :=
  Neutral text ∧ text ≠ []

theorem filler_append {before word : Text} (neutral : Neutral before) (filler : Filler word) :
    Filler (before ++ word) :=
  ⟨neutral.append filler.1, append_ne_nil_of_right_ne_nil before filler.2⟩

theorem Filler.append {word after : Text} (filler : Filler word) (neutral : Neutral after) :
    Filler (word ++ after) :=
  ⟨filler.1.append neutral, append_ne_nil_of_left_ne_nil filler.2 after⟩

private theorem upperBound?_eq_some {text upper : Text} (found : upperBound? text = some upper)
    (flat : '\n' ∉ text) : ∃ word, text = word ++ upper ∧ Filler word := by
  unfold upperBound? at found
  obtain ⟨afterGap, gapFound, found⟩ := Option.bind_eq_some_iff.mp found
  obtain ⟨afterTo, toFound, found⟩ := Option.bind_eq_some_iff.mp found
  obtain ⟨_, _, found⟩ := Option.bind_eq_some_iff.mp found
  obtain ⟨gap, whole, blank⟩ := Text.blanks1_eq_some gapFound
  have after := Text.after?_eq_some.mp toFound
  obtain ⟨gap', rest, blank'⟩ := Text.blanks_eq afterTo
  rw [after] at whole
  rw [whole, mem_append, mem_append, not_or, not_or] at flat
  obtain ⟨flatGap, _, flatRest⟩ := flat
  -- What was recognised before the bound, if the white space before the bound is `space`.
  have assembled {space : Text} (split : afterTo = space ++ upper)
      (blanks : ∀ c ∈ space, isBlank c = true) :
      ∃ word, text = word ++ upper ∧ Filler word := by
    have flatSpace : '\n' ∉ space := by
      intro member
      rw [split] at flatRest
      exact flatRest (mem_append_left _ member)
    refine ⟨gap ++ "to".toList ++ space, ?_, ?_⟩
    · rw [whole, split, append_assoc, append_assoc]
    · have word : Filler "to".toList := ⟨by decide, by decide⟩
      exact (filler_append (blank_neutral blank flatGap) word).append (blank_neutral blanks flatSpace)
  split at found
  · rename_i empty
    rw [empty, append_nil] at rest
    split at found
    · rename_i c d turned last
      split at found
      · cases found
      · cases found
        have split : afterTo = (d :: turned).reverse ++ [c] := by
          rw [← reverse_cons, ← last, reverse_reverse]
        refine assembled split fun e member => blank' e ?_
        rw [← rest, split]
        exact mem_append_left _ member
    · cases found
  · split at found
    · cases found
    · cases found
      exact assembled rest blank'

theorem lowerBound?_eq_some {text lower upper : Text} (found : lowerBound? text = some (lower, upper))
    (flat : '\n' ∉ text) :
    ∃ word, text = lower ++ word ++ upper ∧ Filler word := by
  induction text generalizing lower with
  | nil => cases found
  | cons c rest ih =>
    have flatRest : '\n' ∉ rest := fun member => flat (mem_cons_of_mem c member)
    rw [lowerBound?] at found
    split at found
    · cases found
    split at found
    · rename_i bound upperFound
      cases found
      obtain ⟨word, whole, filler⟩ := upperBound?_eq_some upperFound flatRest
      exact ⟨word, by rw [whole, singleton_append, cons_append], filler⟩
    · obtain ⟨⟨inner, bound⟩, later, same⟩ := Option.map_eq_some_iff.mp found
      cases same
      obtain ⟨word, whole, filler⟩ := ih later flatRest
      exact ⟨word, by rw [whole, cons_append, cons_append], filler⟩

theorem eq_append_of_mem_properSuffixes {gap left : Text} (member : left ∈ properSuffixes gap) :
    ∃ before, gap = before ++ left := by
  induction gap with
  | nil => cases member
  | cons c rest ih =>
    rw [properSuffixes, mem_append, mem_singleton] at member
    rcases member with inner | rfl
    · obtain ⟨before, whole⟩ := ih inner
      exact ⟨c :: before, by rw [whole, cons_append]⟩
    · exact ⟨[c], rfl⟩

theorem range?_eq_some {text name lower upper : Text} (found : range? text = some (name, lower, upper))
    (flat : '\n' ∉ text) : Neutral name ∧ ∃ head word, text = head ++ lower ++ word ++ upper ∧
      Filler head ∧ Filler word := by
  unfold range? at found
  obtain ⟨⟨name, afterName⟩, nameFound, found⟩ := Option.bind_eq_some_iff.mp found
  obtain ⟨afterGap, gapFound, found⟩ := Option.bind_eq_some_iff.mp found
  obtain ⟨afterFrom, fromFound, found⟩ := Option.bind_eq_some_iff.mp found
  obtain ⟨⟨space, rest⟩, spaceFound, found⟩ := Option.bind_eq_some_iff.mp found
  obtain ⟨⟨lower, upper⟩, boundsFound, found⟩ := Option.bind_eq_some_iff.mp found
  cases found
  obtain ⟨left, suffix, boundsFound⟩ := exists_of_findSome?_eq_some boundsFound
  obtain ⟨whole, named⟩ := Text.name_eq_some nameFound
  obtain ⟨gap, afterName_eq, blank⟩ := Text.blanks1_eq_some gapFound
  have from_eq := Text.after?_eq_some.mp fromFound
  obtain ⟨space_eq, blanks⟩ := Text.run1?_eq_some spaceFound
  obtain ⟨before, before_eq⟩ := eq_append_of_mem_properSuffixes suffix
  have taken : text = name ++ gap ++ "from".toList ++ before ++ (left ++ rest) := by
    rw [whole, afterName_eq, from_eq, space_eq, before_eq]
    simp only [append_assoc]
  have flats := flat
  rw [taken] at flats
  simp only [mem_append, not_or] at flats
  obtain ⟨⟨⟨⟨_, flatGap⟩, _⟩, flatBefore⟩, flatBounds⟩ := flats
  obtain ⟨word, bounds, filler⟩ := lowerBound?_eq_some boundsFound
    (by rw [mem_append, not_or]; exact flatBounds)
  refine ⟨name_neutral named, name ++ gap ++ "from".toList ++ before, word, ?_, ?_, filler⟩
  · rw [taken, bounds]
    simp only [append_assoc]
  · have blankBefore : ∀ c ∈ before, isBlank c = true := fun c member =>
      blanks c (by rw [before_eq]; exact mem_append_left _ member)
    have from_filler : Filler "from".toList := ⟨by decide, by decide⟩
    have opening := (name_neutral named).append (blank_neutral blank flatGap)
    exact (filler_append opening from_filler).append (blank_neutral blankBefore flatBefore)

private theorem count?_eq_some {text name upper : Text} (found : count? text = some (name, upper))
    (flat : '\n' ∉ text) :
    Neutral name ∧ ∃ head, text = head ++ upper ∧ Filler head := by
  unfold count? at found
  obtain ⟨⟨name, afterName⟩, nameFound, found⟩ := Option.bind_eq_some_iff.mp found
  obtain ⟨upper, boundFound, found⟩ := Option.bind_eq_some_iff.mp found
  cases found
  obtain ⟨whole, named⟩ := Text.name_eq_some nameFound
  rw [whole, mem_append, not_or] at flat
  obtain ⟨word, bound, filler⟩ := upperBound?_eq_some boundFound flat.2
  refine ⟨name_neutral named, name ++ word, ?_, filler_append (name_neutral named) filler⟩
  rw [whole, bound, append_assoc]

theorem run_exchange {left right : Text} (first : Filler left) (second : Filler right) (scan : Scan) :
    scan.run left = scan.run right := by
  rw [Scan.run_neutral first.1 first.2, Scan.run_neutral second.1 second.2]

private theorem run_trim {before before' bound after after' : Text} (opening : Filler before)
    (opening' : Filler before') (closing : Filler after) (closing' : Filler after')
    (flat : '\n' ∉ bound) (scan : Scan) :
    scan.run (before ++ bound ++ after) = scan.run (before' ++ Text.trim bound ++ after') := by
  obtain ⟨leading, trailing, whole, front, back⟩ := Text.trim_eq bound
  have flats := flat
  rw [whole, mem_append, mem_append, not_or, not_or] at flats
  obtain ⟨⟨flatLeading, _⟩, flatTrailing⟩ := flats
  have regrouped : before ++ bound ++ after =
      (before ++ leading) ++ Text.trim bound ++ (trailing ++ after) := by
    conv => lhs; rw [whole]
    simp only [append_assoc]
  have widened := opening.append (blank_neutral front flatLeading)
  have widened' := filler_append (blank_neutral back flatTrailing) closing
  calc scan.run (before ++ bound ++ after)
      = ((scan.run (before ++ leading)).bind fun next => next.run (Text.trim bound)).bind
          fun next => next.run (trailing ++ after) := by
        rw [regrouped, Scan.run_append, Scan.run_append]
    _ = ((scan.run before').bind fun next => next.run (Text.trim bound)).bind
          fun next => next.run after' := by
        rw [run_exchange widened opening', funext (run_exchange widened' closing')]
    _ = scan.run (before' ++ Text.trim bound ++ after') := by
        rw [Scan.run_append, Scan.run_append]

theorem run_trim_both {head head' lower word word' upper tail : Text} (opening : Filler head)
    (opening' : Filler head') (between : Filler word) (between' : Filler word')
    (closing : Filler tail) (flatLower : '\n' ∉ lower) (flatUpper : '\n' ∉ upper) (scan : Scan) :
    scan.run (head ++ lower ++ word ++ upper ++ tail) =
      scan.run (head' ++ Text.trim lower ++ word' ++ Text.trim upper ++ tail) := by
  calc scan.run (head ++ lower ++ word ++ upper ++ tail)
      = (scan.run (head ++ lower ++ word)).bind fun next => next.run (upper ++ tail) := by
        rw [← Scan.run_append, append_assoc _ upper]
    _ = (scan.run (head' ++ Text.trim lower ++ word)).bind fun next => next.run (upper ++ tail) := by
        rw [run_trim opening opening' between between flatLower]
    _ = (scan.run (head' ++ Text.trim lower)).bind fun next => next.run (word ++ upper ++ tail) := by
        rw [← Scan.run_append, ← Scan.run_append]
        simp only [append_assoc]
    _ = (scan.run (head' ++ Text.trim lower)).bind
          fun next => next.run (word' ++ Text.trim upper ++ tail) := by
        rw [funext (run_trim between between' closing closing flatUpper)]
    _ = scan.run (head' ++ Text.trim lower ++ word' ++ Text.trim upper ++ tail) := by
        rw [← Scan.run_append]
        simp only [append_assoc]

private theorem run_loop {inner : Text}
    (ran : Scan.run ⟨.code false, [')']⟩ inner = some ⟨.code false, [')']⟩) :
    Scan.start.run ("for (".toList ++ inner ++ ") \x7b\n".toList) = some ⟨.code false, ['}']⟩ :=
  Scan.run_trans (Scan.run_trans rfl ran) rfl

theorem loopHead_opens {range : Text} (closed : Closed range) (flat : '\n' ∉ range) :
    Scan.start.run (loopHead range) = some ⟨.code false, ['}']⟩ := by
  obtain ⟨slash, ran⟩ := closed.run [')']
  have followed {after : Text} (filler : Filler after) :
      Scan.run ⟨.code false, [')']⟩ (range ++ after) = some ⟨.code false, [')']⟩ :=
    Scan.run_trans ran (Scan.run_neutral filler.1 filler.2 _)
  have naming {name : Text} (named : Neutral name) (before after : Text) (first : Neutral before)
      (second : Filler after) : Filler (before ++ name ++ after) :=
    filler_append (first.append named) second
  have opening : "for (let ".toList = "for (".toList ++ "let ".toList := rfl
  have closing : "++) \x7b\n".toList = "++".toList ++ ") \x7b\n".toList := rfl
  unfold loopHead
  dsimp only
  rw [opening, closing]
  split
  · rename_i name lower upper found
    obtain ⟨named, head, word, whole, headFiller, wordFiller⟩ := range?_eq_some found flat
    have flats := flat
    rw [whole] at flats
    simp only [mem_append, not_or] at flats
    obtain ⟨⟨⟨_, flatLower⟩, _⟩, flatUpper⟩ := flats
    have setting := naming named "let ".toList " = ".toList (by decide) ⟨by decide, by decide⟩
    have testing := naming named "; ".toList " <= ".toList (by decide) ⟨by decide, by decide⟩
    have counting := naming named "; ".toList "++".toList (by decide) ⟨by decide, by decide⟩
    have inner := followed counting
    rw [whole, run_trim_both headFiller setting wordFiller testing counting flatLower flatUpper]
      at inner
    simpa only [append_assoc] using run_loop inner
  · split
    · rename_i name upper found
      obtain ⟨named, head, whole, headFiller⟩ := count?_eq_some found flat
      have flats := flat
      rw [whole, mem_append, not_or] at flats
      have setting := naming named "let ".toList " = 0; ".toList (by decide) ⟨by decide, by decide⟩
      have testing := naming named ("let ".toList ++ name ++ " = 0; ".toList) " < ".toList setting.1
        ⟨by decide, by decide⟩
      have counting := naming named "; ".toList "++".toList (by decide) ⟨by decide, by decide⟩
      have inner := followed counting
      rw [whole, run_trim headFiller testing counting counting flats.2] at inner
      simpa only [append_assoc] using run_loop inner
    · refine Scan.run_trans (Scan.run_trans rfl ran) ?_
      cases slash <;> rfl

end PageScript.Template
