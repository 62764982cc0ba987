import PageScript.Proofs.Class.Literals
import PageScript.Proofs.Lists
import PageScript.Proofs.Script.Bytes
import PageScript.Proofs.Script.Parts

/-!
Quoted values in code. A scan that comes to a quoted value passes over it as one literal, whatever it
holds (`quoted_scans`).
-/

open List

namespace PageScript.Script

open Text (cut cutFrom utf8 byteLength raw)

variable {α : Type} {recognise : Recogniser α} {kind : α} {left right : Text}
  {front back : List (Piece α)}

namespace Inside

private theorem pass_escaped (c : Char) (rest : Text) :
    (literal doubleQuote false).pass (Json.escaped c ++ rest) = (literal doubleQuote false).pass rest := by
  unfold Json.escaped
  repeat' split
  · rfl
  · rfl
  · rfl
  · rfl
  · rfl
  · rfl
  · rfl
  · rename_i control
    exact pass_neutral (cons_ne_nil _ _) (digits_neutral control) (literal doubleQuote false) rest
  · rename_i quote escape newline _ _ _ _ _
    exact pass_of_on (by simp [move, doubleQuote, quote, escape, newline]) rest

private theorem pass_quoted (value rest : Text) :
    (literal doubleQuote false).pass (value.flatMap Json.escaped ++ '\x22' :: rest) = rest := by
  induction value with
  | nil => rfl
  | cons c value ih => rw [flatMap_cons, append_assoc, pass_escaped, ih]

end Inside

/-! ### Bytes -/

private theorem literalTail_raw (quote : UInt8) (bytes : List UInt8) :
    literalTail (Char.ofUInt8 quote) (bytes.map Char.ofUInt8) = literalTail quote bytes := by
  have same (left right : UInt8) : Char.ofUInt8 left = Char.ofUInt8 right ↔ left = right := by
    rw [Char.ext_iff, ← UInt32.toNat_inj, ← UInt8.toNat_inj]
    rfl
  have escape (byte : UInt8) : Char.ofUInt8 byte = Alphabet.escape ↔ byte = Alphabet.escape :=
    same byte 92
  have newline (byte : UInt8) : Char.ofUInt8 byte = Alphabet.newline ↔ byte = Alphabet.newline :=
    same byte 10
  have multiline : Char.ofUInt8 quote = Alphabet.multiline ↔ quote = Alphabet.multiline := same quote 96
  fun_induction literalTail quote bytes with
  | case1 => rfl
  | _ =>
    rw [map_cons, literalTail.eq_def]
    simp_all

/-- A literal takes the bytes of the characters that it takes. -/
theorem literalTail_utf8 (text : Text) :
    literalTail (34 : UInt8) (utf8 text) + byteLength ((Inside.literal doubleQuote false).pass text) =
      byteLength text := by
  have counted : literalTail doubleQuote.val (raw text) = literalTail (34 : UInt8) (utf8 text) :=
    literalTail_raw 34 (utf8 text)
  have bound := Scan.literalTail_le doubleQuote.val (raw text)
  rw [← Text.length_raw, ← Inside.pass_raw, Inside.pass_literal, length_drop, ← counted,
    Nat.add_sub_cancel' bound, Text.length_raw]

private theorem literalEnd?_quoted (value rest : Text) :
    literalEnd? (Json.quoted value ++ rest) 0 = some (byteLength (Json.quoted value)) := by
  have size := literalTail_utf8 (value.flatMap Json.escaped ++ '\x22' :: rest)
  have single : Char.utf8Size '\x22' = 1 := rfl
  rw [Inside.pass_quoted, Text.byteLength_append, Text.byteLength_cons] at size
  rw [Json.quoted, cons_append, cons_append, append_assoc]
  change some (0 + 1 + literalTail 34 (utf8 (value.flatMap Json.escaped ++ '\x22' :: rest))) = _
  rw [Text.byteLength_cons, Text.byteLength_append, Text.byteLength_cons, Text.byteLength_nil]
  refine congrArg some ?_
  omega

/-! ### Pieces -/

private theorem passedOver_consumes : Text.Consumes passedOver := by
  intro before text _ rest found
  cases text with
  | nil => cases found
  | cons c text =>
    obtain ⟨tail, whole⟩ := (Scan.passedOver_closesAt found (cons_ne_nil ')' []) 0).1
    exact ⟨c :: tail, cons_ne_nil c tail, congrArg (c :: ·) whole.symm⟩

theorem afterLiteral_quoted (value rest : Text) : afterLiteral (Json.quoted value ++ rest) = rest := by
  rw [Json.quoted, cons_append, cons_append, append_assoc, afterLiteral]
  exact (Inside.pass_literal doubleQuote _).symm.trans (Inside.pass_quoted value rest)

/-- A scan of the text comes to the end of its first part, so no literal and no comment is open there. -/
structure Reaches (recognise : Recogniser α) (left right : Text) (front back : List (Piece α)) :
    Prop where
  pieces : cut recognise (left ++ right) = front ++ back
  before : front.flatMap Piece.source = left

theorem Reaches.quoted {value : Text}
    (reaches : Reaches recognise left (Json.quoted value ++ right) front back)
    (consumes : Text.Consumes recognise)
    (seen : ∀ before rest, recognise before (Json.quoted value ++ rest) =
      some (kind, afterLiteral (Json.quoted value ++ rest))) :
    ∃ rest, back = .found (Json.quoted value) kind :: rest ∧ rest.flatMap Piece.source = right := by
  have whole := Text.flatMap_source_cut recognise (left ++ (Json.quoted value ++ right))
  rw [reaches.pieces, flatMap_append, reaches.before, append_cancel_left_eq] at whole
  have split := consumes.split reaches.pieces
  have more : Json.quoted value ≠ [] := cons_ne_nil _ _
  simp only [afterLiteral_quoted] at seen
  rw [whole, Text.cutFrom_found more (seen _ right)] at split
  exact ⟨_, split.symm, Text.flatMap_source_cutFrom ..⟩

/-- No bracket inside a value closes another one. -/
theorem matching?_outside {value outer : Text} {front rest : List (Piece Unit)} {stop : Nat}
    (reaches : Reaches passedOver left (Json.quoted value ++ right) front
      (.found (Json.quoted value) () :: rest))
    (found : matching? (outer ++ (left ++ (Json.quoted value ++ right))) (byteLength outer) = some stop) :
    stop < byteLength (outer ++ left) ∨ byteLength (outer ++ (left ++ Json.quoted value)) ≤ stop := by
  rw [matching?, Text.dropBytes?_append, Option.bind_eq_bind, Option.bind_some] at found
  obtain ⟨close, closed, same⟩ := Option.bind_eq_some_iff.mp found
  obtain ⟨_, _, early, c, later, _, _, pieces, rfl, _⟩ := closing?_eq_some.mp closed
  have whole := Text.flatMap_source_cut passedOver (left ++ (Json.quoted value ++ right))
  rw [pieces, flatMap_append] at whole
  rw [← whole, take_left] at same
  rw [← Option.some.inj same, Text.byteLength_append, Text.byteLength_append]
  rcases append_eq_append_cons (reaches.pieces.symm.trans pieces) with ⟨more, rfl⟩ | ⟨more, rfl, others⟩
  · have positive := c.utf8Size_pos
    rw [← reaches.before, flatMap_append, Text.byteLength_append, flatMap_cons, Piece.source,
      Text.byteLength_append, Text.byteLength_cons]
    omega
  · cases more with
    | nil => cases others
    | cons piece more =>
      cases others
      rw [flatMap_append, reaches.before, flatMap_cons, Piece.source]
      simp only [Text.byteLength_append]
      omega

theorem partsFrom_head (sep : Char) (part : Text) (depth : Int) (pieces : List (Piece Unit)) :
    ∃ after late, partsFrom sep part depth pieces = (part.reverse ++ after) :: late ∧
      after <+: pieces.flatMap Piece.source := by
  fun_induction partsFrom sep part depth pieces with
  | case1 part => exact ⟨[], [], by rw [append_nil], nil_prefix⟩
  | case5 part _ c rest => exact ⟨[], partsFrom sep [] 0 rest, by simp_all, nil_prefix⟩
  | case2 part _ lexeme _ rest ih =>
    obtain ⟨after, late, same, starts⟩ := ih
    exact ⟨lexeme ++ after, late, by simp [same], (prefix_append_right_inj lexeme).mpr starts⟩
  | case3 part _ c rest _ ih | case4 part _ c rest _ _ ih | case6 part _ c rest _ _ _ ih =>
    obtain ⟨after, late, same, starts⟩ := ih
    exact ⟨c :: after, late, by simp [same], (prefix_append_right_inj [c]).mpr starts⟩

/-- A literal is within one of the parts. -/
theorem partsFrom_found (sep : Char) (lexeme part : Text) (depth : Int) (front rest : List (Piece Unit)) :
    ∃ early before after late, partsFrom sep part depth (front ++ .found lexeme () :: rest) =
        early ++ (before ++ lexeme ++ after) :: late ∧
      before <:+ part.reverse ++ front.flatMap Piece.source ∧ after <+: rest.flatMap Piece.source := by
  induction front generalizing part depth with
  | nil =>
    obtain ⟨after, late, same, starts⟩ := partsFrom_head sep (lexeme.reverse ++ part) depth rest
    exact ⟨[], part.reverse, after, late, by simp [partsFrom, same], by simp, starts⟩
  | cons piece front ih =>
    cases piece with
    | found other _ => simpa [partsFrom, Piece.source] using ih (other.reverse ++ part) depth
    | plain c =>
      have onward (depth : Int) := ih (c :: part) depth
      rw [reverse_cons, append_assoc] at onward
      simp only [cons_append, partsFrom]
      split
      · exact onward (depth + 1)
      · split
        · exact onward (depth - 1)
        · split
          · obtain ⟨early, before, after, late, same, ends, starts⟩ := ih [] depth
            refine ⟨part.reverse :: early, before, after, late, by rw [same]; rfl, ?_, starts⟩
            exact (ends.trans (suffix_cons c _)).trans (suffix_append _ _)
          · exact onward depth

private theorem topLevelParts_found {value : Text} {front rest : List (Piece Unit)} (sep : Char)
    (pieces : cut literalOnly left = front ++ .found (Json.quoted value) () :: rest) :
    ∃ early before after late, topLevelParts sep left =
        early ++ Text.trim (before ++ Json.quoted value ++ after) :: late ∧
      before <:+ front.flatMap Piece.source ∧ after <+: rest.flatMap Piece.source := by
  obtain ⟨early, before, after, late, same, ends, starts⟩ :=
    partsFrom_found sep (Json.quoted value) [] 0 front rest
  refine ⟨(early.map Text.trim).filter (! ·.isEmpty), before, after,
    (late.map Text.trim).filter (! ·.isEmpty), ?_, ends, starts⟩
  have kept : (Text.trim (before ++ Json.quoted value ++ after)).isEmpty = false := by
    rw [isEmpty_eq_false_iff]
    intro nothing
    obtain ⟨leading, trailing, whole, first, last⟩ := Text.trim_eq (before ++ Json.quoted value ++ after)
    rw [nothing, append_nil] at whole
    have member : '\x22' ∈ leading ++ trailing := by
      rw [← whole]
      simp [Json.quoted]
    rcases mem_append.mp member with early | late
    · exact absurd (first _ early) (by decide)
    · exact absurd (last _ late) (by decide)
  rw [topLevelParts, pieces, same, map_append, map_cons, filter_append, filter_cons, kept]
  rfl

/-- A quoted value ends where a scan that starts at it ends. Where a scan for brackets, for the parts of a
list or for comments comes to such a value, it passes over the value as one literal: no bracket is closed
inside, the value is within one part, and it is left as it is. -/
theorem quoted_scans (value left right : Text) :
    (∀ rest, literalEnd? (Json.quoted value ++ rest) 0 = some (byteLength (Json.quoted value))) ∧
    (∀ front back, Reaches passedOver left (Json.quoted value ++ right) front back →
      (∃ rest, back = .found (Json.quoted value) () :: rest ∧ rest.flatMap Piece.source = right) ∧
      ∀ outer stop, matching? (outer ++ (left ++ (Json.quoted value ++ right))) (byteLength outer) = some stop →
        stop < byteLength (outer ++ left) ∨ byteLength (outer ++ (left ++ Json.quoted value)) ≤ stop) ∧
    (∀ front back, Reaches literalOnly left (Json.quoted value ++ right) front back →
      (∃ rest, back = .found (Json.quoted value) () :: rest ∧ rest.flatMap Piece.source = right) ∧
      ∀ sep, ∃ early before after late, topLevelParts sep (left ++ (Json.quoted value ++ right)) =
          early ++ Text.trim (before ++ Json.quoted value ++ after) :: late ∧
        before <:+ left ∧ after <+: right) ∧
    ∀ front back, Reaches lexeme left (Json.quoted value ++ right) front back →
      ∃ rest, back = .found (Json.quoted value) .literal :: rest ∧ rest.flatMap Piece.source = right ∧
        stripComments (left ++ (Json.quoted value ++ right)) =
          remains front ++ Json.quoted value ++ remains rest := by
  refine ⟨literalEnd?_quoted value, ?_, ?_, ?_⟩
  · intro front back reaches
    obtain ⟨rest, rfl, after⟩ := reaches.quoted passedOver_consumes fun _ _ => passedOver_quote rfl
    exact ⟨⟨rest, rfl, after⟩, fun outer stop => matching?_outside reaches⟩
  · intro front back reaches
    obtain ⟨rest, rfl, after⟩ := reaches.quoted literalOnly_consumes fun _ _ => rfl
    refine ⟨⟨rest, rfl, after⟩, fun sep => ?_⟩
    have parts := topLevelParts_found sep reaches.pieces
    rwa [reaches.before, after] at parts
  · intro front back reaches
    obtain ⟨rest, rfl, after⟩ := reaches.quoted lexeme_consumes fun _ _ => rfl
    refine ⟨rest, rfl, after, ?_⟩
    rw [stripComments, reaches.pieces, Text.writePieces_append, Text.writePieces_found, append_assoc]
    rfl

/-- A list whose second item is a value that holds a quote, a bracket, a separator and a comment. -/
theorem quoted_scans_item :
    let value := ['\x22', ')', ',', '/', '/']
    let text := ['(', 'k', ','] ++ (Json.quoted value ++ [',', 'a', ')'])
    matching? text 0 = some 13 ∧
      (13 < byteLength ['(', 'k', ','] ∨ byteLength (['(', 'k', ','] ++ Json.quoted value) ≤ 13) ∧
      (∃ early before after late,
        topLevelParts ',' text = early ++ Text.trim (before ++ Json.quoted value ++ after) :: late ∧
          before <:+ ['(', 'k', ','] ∧ after <+: [',', 'a', ')']) ∧
      ∃ after, stripComments text = ['(', 'k', ','] ++ Json.quoted value ++ after := by
  have scans := quoted_scans ['\x22', ')', ',', '/', '/'] ['(', 'k', ','] [',', 'a', ')']
  refine ⟨by decide, (scans.2.1 [.plain '(', .plain 'k', .plain ','] _ ⟨rfl, rfl⟩).2 [] 13 (by decide),
    (scans.2.2.1 [.plain '(', .plain 'k', .plain ','] _ ⟨rfl, rfl⟩).2 ',', ?_⟩
  obtain ⟨rest, _, _, stripped⟩ := scans.2.2.2 [.plain '(', .plain 'k', .plain ','] _ ⟨rfl, rfl⟩
  exact ⟨remains rest, stripped⟩

end PageScript.Script
