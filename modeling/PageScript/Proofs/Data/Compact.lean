import PageScript.Proofs.Script.Solid

/-! Compact texts of data values stand on one line and are closed (`compact_sturdy`). -/

open List

namespace PageScript

open Script

namespace Json

/-- A text on one line that leaves a scan as it was. -/
structure Sturdy (text : Text) : Prop where
  solid : Solid text
  flat : '\n' ∉ text

namespace Sturdy

private theorem append {left right : Text} (first : Sturdy left) (second : Sturdy right) :
    Sturdy (left ++ right) where
  solid := first.solid.append second.solid
  flat := by
    rw [mem_append, not_or]
    exact ⟨first.flat, second.flat⟩

private theorem of_neutral {text : Text} (neutral : Neutral text) : Sturdy text where
  solid := neutral.solid
  flat member := by
    have absent := neutral '\n' member
    revert absent
    decide

private theorem bracketed {text : Text} (inner : Sturdy text) : Sturdy ('[' :: text ++ [']']) where
  solid := by
    change Solid (['['] ++ text ++ [']'])
    exact inner.solid.closed.between rfl fun slash => by cases slash <;> rfl
  flat := by simpa using inner.flat

private theorem braced {text : Text} (inner : Sturdy text) : Sturdy ('{' :: text ++ ['}']) where
  solid := by
    change Solid (['{'] ++ text ++ ['}'])
    exact inner.solid.closed.between rfl fun slash => by cases slash <;> rfl
  flat := by simpa using inner.flat

end Sturdy

private theorem newline_not_mem_escaped (c : Char) : '\n' ∉ escaped c := by
  unfold escaped
  repeat' split
  · decide
  · decide
  · decide
  · decide
  · decide
  · decide
  · decide
  · rename_i control
    have high := digitChar_isNeutral (c.toNat / 16) (by omega)
    have low := digitChar_isNeutral (c.toNat % 16) (by omega)
    have apart := fun d neutral => ne_of_isNeutral (d := '\n') (c := d) neutral rfl
    simp [(apart _ high).symm, (apart _ low).symm]
  · rename_i newline _ _ _ _ _
    rw [mem_singleton]
    exact fun same => newline same.symm

private theorem quoted_sturdy (text : Text) : Sturdy (quoted text) where
  solid := quoted_solid text
  flat := by
    unfold quoted
    simp only [cons_append, mem_cons, mem_append, mem_flatMap, not_or]
    refine ⟨by decide, ?_, by decide⟩
    rintro ⟨c, _, member⟩
    exact newline_not_mem_escaped c member

private theorem toDigits_neutral (value : Nat) : Neutral (Nat.toDigits 10 value) := by
  intro c member
  have digit : c.isDigit = true := Nat.isDigit_of_mem_toDigits (by decide) (by decide) member
  exact isNeutral_of_class Char.isDigit (by decide) digit

private theorem replicate_neutral (count : Nat) : Neutral (List.replicate count '0') := by
  intro c member
  rw [eq_of_mem_replicate member]
  decide

private theorem positional_neutral {numeral : Numeral} (digits : Neutral numeral.digits)
    (layout : Numeral.Layout) : Neutral (numeral.positional layout) := by
  unfold Numeral.positional
  dsimp only
  split
  · exact ((by decide : Neutral "0.".toList).append (replicate_neutral _)).append digits
  · split
    · refine (digits.append (replicate_neutral _)).append ?_
      split <;> decide
    · have front : Neutral (numeral.digits.take (numeral.exponent + 1).toNat) :=
        fun c member => digits c (mem_of_mem_take member)
      have back : Neutral (numeral.digits.drop (numeral.exponent + 1).toNat) :=
        fun c member => digits c (mem_of_mem_drop member)
      exact (front.append (by decide)).append back

private theorem scientific_neutral {numeral : Numeral} (digits : Neutral numeral.digits) :
    Neutral numeral.scientific := by
  unfold Numeral.scientific
  dsimp only
  refine .append (.append ?_ ?_) (toDigits_neutral _)
  · split
    · decide
    · rename_i same
      rwa [same] at digits
    · rename_i digit more _ same
      rw [same] at digits
      obtain ⟨first, others⟩ := forall_mem_cons.mp digits
      exact forall_mem_cons.mpr ⟨first, forall_mem_cons.mpr ⟨by decide, others⟩⟩
  · split <;> decide

private theorem shortest_neutral (value : Double) : Neutral (Numeral.shortest value).digits := by
  intro c member
  unfold Numeral.shortest at member
  dsimp only at member
  rw [mem_reverse] at member
  have kept := (dropWhile_sublist _).mem member
  exact toDigits_neutral _ c (mem_reverse.mp kept)

private theorem numberText_neutral (value : Number) : Neutral (numberText value) := by
  cases value with
  | int value =>
    refine .append ?_ (toDigits_neutral _)
    split <;> decide
  | double value =>
    change Neutral (doubleText value)
    unfold doubleText
    split
    · decide
    · refine .append (by split <;> decide) ?_
      split
      · decide
      · unfold Numeral.write
        split
        · exact positional_neutral (shortest_neutral value) layout
        · exact scientific_neutral (shortest_neutral value)

private theorem comma_sturdy : Sturdy [','] :=
  .of_neutral (by decide)

private theorem colon_sturdy : Sturdy [':'] :=
  .of_neutral (by decide)

mutual

theorem compact_sturdy : (data : Data) → Sturdy (compact data)
  | .null => .of_neutral (by decide)
  | .bool true => .of_neutral (by decide)
  | .bool false => .of_neutral (by decide)
  | .number value => .of_neutral (numberText_neutral value)
  | .text value => quoted_sturdy value.toList
  | .list items => (compactItems_sturdy items).bracketed
  | .record fields => (compactFields_sturdy fields).braced

theorem compactItems_sturdy : (items : List Data) → Sturdy (compactItems items)
  | [] => .of_neutral (by decide)
  | [item] => compact_sturdy item
  | item :: next :: rest =>
    (compact_sturdy item).append (comma_sturdy.append (compactItems_sturdy (next :: rest)))

theorem compactFields_sturdy : (fields : List (String × Data)) → Sturdy (compactFields fields)
  | [] => .of_neutral (by decide)
  | [(name, value)] => (quoted_sturdy name.toList).append (colon_sturdy.append (compact_sturdy value))
  | (name, value) :: next :: rest =>
    ((quoted_sturdy name.toList).append (colon_sturdy.append (compact_sturdy value))).append
      (comma_sturdy.append (compactFields_sturdy (next :: rest)))

end

end Json

end PageScript
