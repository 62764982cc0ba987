import PageScript.Data.Json.Parser
import PageScript.Data.Json.Printer
import PageScript.Proofs.Data.Order
import PageScript.Proofs.Text.Cut

/-! JSON text that is written can be read, doubles left out (`document?_indented`). -/

open List

namespace PageScript

open Text Option Nat

variable {rest lexeme text right : Text} {value : Json.Token} {c : Char} {tokens : List Json.Token}
  {first second : List Token}

def Number.Whole : Number → Prop
  | .int value => -(Nat.pow 2 63 : Int) ≤ value ∧ value ≤ Json.maxWhole
  | .double _ => False

namespace Json

/-! ### Strings -/

private theorem hexDigit?_digitChar : ∀ digit < 16, hexDigit? (digitChar digit) = some digit := by
  decide

private theorem hexUnit?_control {code : Nat} (control : code < 0x20) :
    hexUnit? '0' '0' (digitChar (code / 16)) (digitChar (code % 16)) = some code := by
  have zero : hexDigit? '0' = some 0 := by decide
  have high := hexDigit?_digitChar (code / 16) (by omega)
  have low := hexDigit?_digitChar (code % 16) (by omega)
  rw [hexUnit?, zero, high, low]
  refine congrArg some ?_
  omega

private theorem stringTail?_escaped (c : Char) (rest : Text) :
    stringTail? (escaped c ++ rest) =
      (stringTail? rest).map fun (content, after) => (content.map (c :: ·), after) := by
  by_cases short : c ∈ ['\x22', '\\', '\n', '\r', '\t', '\x08', '\x0c']
  · simp only [mem_cons, not_mem_nil, or_false] at short
    rcases short with rfl | rfl | rfl | rfl | rfl | rfl | rfl <;> rfl
  · simp only [mem_cons, not_mem_nil, or_false, not_or] at short
    obtain ⟨quote, slash, feed, back, tab, erase, form⟩ := short
    rw [escaped, if_neg quote, if_neg slash, if_neg feed, if_neg back, if_neg tab, if_neg erase,
      if_neg form]
    split
    · rename_i control
      simp only [cons_append, nil_append]
      rw [stringTail?, hexUnit?_control control]
      dsimp only
      rw [if_neg (by omega), if_neg (by omega), Char.ofNat_toNat]
    · rename_i visible
      rw [singleton_append, stringTail?.eq_def]
      split
      · rename_i same
        cases same
      · rename_i same
        cases same
        exact absurd rfl slash
      · rename_i same
        cases same
        exact absurd rfl slash
      · rename_i same
        cases same
        rw [if_neg quote, if_neg (not_or.mpr ⟨slash, visible⟩)]

private theorem stringTail?_quoted (text rest : Text) :
    stringTail? (text.flatMap escaped ++ '\x22' :: rest) = some (some text, rest) := by
  induction text with
  | nil => rfl
  | cons c text ih =>
    rw [flatMap_cons, append_assoc, stringTail?_escaped, ih]
    rfl

/-! ### Numbers -/

/-- Nothing here can be taken for more of a number. -/
def Stops (rest : Text) : Prop :=
  ∀ c ∈ rest.head?, c.isDigit = false ∧ c ≠ '.' ∧ c ≠ 'e' ∧ c ≠ 'E'

theorem digitsValue_toDigits (value : Nat) : digitsValue (Nat.toDigits 10 value) = value := by
  have read : ofDigitChars 10 (Nat.toDigits 10 value) 0 = value :=
    ofDigitChars_toDigits (by omega) (by omega)
  rw [ofDigitChars_eq_foldl] at read
  simpa only [digitsValue, Nat.mul_comm 10] using read

private theorem head?_toDigits {value : Nat} (positive : 0 < value) :
    (Nat.toDigits 10 value).head? ≠ some '0' := by
  induction value using Nat.strongRecOn with
  | ind value ih =>
    rw [toDigits_eq_if (by omega)]
    split
    · rename_i small
      have apart : ∀ digit < 10, 0 < digit → digitChar digit ≠ '0' := by decide
      intro same
      exact apart value small positive (some.inj same)
    · have lead := ih (value / 10) (by omega) (by omega)
      have some : Nat.toDigits 10 (value / 10) ≠ [] :=
        ne_nil_of_length_pos length_toDigits_pos
      obtain ⟨first, others, same⟩ := exists_cons_of_ne_nil some
      rw [same] at lead ⊢
      exact lead

private theorem run1?_toDigits (value : Nat) (stops : Stops rest) :
    run1? Char.isDigit (Nat.toDigits 10 value ++ rest) = some (Nat.toDigits 10 value, rest) := by
  have digits : ∀ c ∈ Nat.toDigits 10 value, c.isDigit = true :=
    fun c member => isDigit_of_mem_toDigits (by omega) (by omega) member
  have taken : rest.takeWhile Char.isDigit = [] := by
    cases rest with
    | nil => rfl
    | cons c rest => simp [(stops c rfl).1]
  have left : rest.dropWhile Char.isDigit = rest := by
    cases rest with
    | nil => rfl
    | cons c rest => simp [(stops c rfl).1]
  rw [run1?, takeWhile_append_of_pos digits, dropWhile_append_of_pos digits, taken,
    append_nil, left]
  have some : Nat.toDigits 10 value ≠ [] := ne_nil_of_length_pos length_toDigits_pos
  split
  · contradiction
  · rename_i same
    rw [same]

private theorem numberOf?_whole {value : Int} (whole : Number.Whole (.int value)) :
    numberOf? (decide (value < 0)) (Nat.toDigits 10 value.natAbs) [] none = some (.int value) := by
  obtain ⟨low, high⟩ := whole
  have size : value.natAbs ≤ maxWhole := by
    have least : (Nat.pow 2 63 : Int) ≤ maxWhole := by decide
    omega
  rw [numberOf?, digitsValue_toDigits]
  simp only [isEmpty_nil, isNone_none, Bool.and_self, Bool.true_and, decide_eq_true_eq]
  rw [if_pos size]
  by_cases negative : value < 0
  · rw [if_pos negative, if_neg (by omega)]
    congr 2
    omega
  · rw [if_neg negative]
    congr 2
    omega

theorem fractionPart?_stops (stops : Stops rest) : fractionPart? rest = some ([], rest) := by
  unfold fractionPart?
  split
  · exact absurd rfl (stops '.' rfl).2.1
  · rfl

theorem exponentPart?_stops (stops : Stops rest) : exponentPart? rest = some (false, [], rest) := by
  unfold exponentPart?
  split
  · exact absurd rfl (stops 'e' rfl).2.2.1
  · exact absurd rfl (stops 'E' rfl).2.2.2
  · rfl

theorem number?_intText {value : Int} (whole : Number.Whole (.int value)) (stops : Stops rest) :
    number? (intText value ++ rest) = some (some (.int value), rest) := by
  have lead : ¬ ((Nat.toDigits 10 value.natAbs).length > 1 ∧
      (Nat.toDigits 10 value.natAbs).head? = some '0') := by
    rintro ⟨long, zero⟩
    by_cases positive : 0 < value.natAbs
    · exact head?_toDigits positive zero
    · rw [Nat.eq_zero_of_not_pos positive] at long
      exact absurd long (by decide)
  unfold number?
  split
  rename_i sign digits same
  have parts : sign = decide (value < 0) ∧ digits = Nat.toDigits 10 value.natAbs ++ rest := by
    unfold intText at same
    by_cases negative : value < 0
    · rw [if_pos negative] at same
      cases same
      exact ⟨(decide_eq_true negative).symm, rfl⟩
    · rw [if_neg negative, nil_append] at same
      split at same
      · rename_i other dash
        have run := run1?_toDigits value.natAbs stops
        rw [dash] at run
        cases run
      · cases same
        exact ⟨(decide_eq_false negative).symm, rfl⟩
  obtain ⟨rfl, rfl⟩ := parts
  rw [run1?_toDigits value.natAbs stops]
  simp only [bind_eq_bind, bind_some]
  rw [if_neg lead, fractionPart?_stops stops]
  simp only [bind_some]
  rw [exponentPart?_stops stops]
  simp [numberOf?_whole whole]

/-! ### Tokens -/

private theorem cutFrom_token (before : Text) (skip : Nat) (text : Text) :
    cutFrom token before skip text = cutFrom token [] skip text := by
  induction text generalizing before skip with
  | nil => rw [cutFrom, cutFrom]
  | cons c rest ih =>
    cases skip with
    | succ skip => rw [cutFrom, cutFrom, ih, ih [c]]
    | zero =>
      have blind : token before (c :: rest) = token [] (c :: rest) := rfl
      rw [cutFrom, cutFrom, blind]
      split
      · rw [ih, ih [c]]
      · rw [ih, ih [c]]

theorem tokens?_found (more : lexeme ≠ []) (found : token [] (lexeme ++ rest) = some (value, rest)) :
    tokens? (lexeme ++ rest) = (tokens? rest).map (value :: ·) := by
  rw [tokens?, cut, cutFrom_found more found, cutFrom_token]
  rfl

private theorem tokens?_blank (blank : c = ' ' ∨ c = '\n') (rest : Text) :
    tokens? (c :: rest) = tokens? rest := by
  have nothing : token [] (c :: rest) = none := by
    rcases blank with rfl | rfl <;> rfl
  have white : c = ' ' ∨ c = '\n' ∨ c = '\t' ∨ c = '\r' := blank.imp_right .inl
  rw [tokens?, cut, cutFrom, nothing]
  dsimp only
  rw [cutFrom_token, foldr_cons]
  exact if_pos white

theorem tokens?_lineStart (level : Nat) (rest : Text) : tokens? (lineStart level ++ rest) = tokens? rest := by
  rw [lineStart, cons_append, tokens?_blank (.inr rfl)]
  induction 2 * level with
  | zero => rfl
  | succ count ih => rw [replicate_succ, cons_append, tokens?_blank (.inl rfl), ih]

def Firm (text : Text) (tokens : List Token) : Prop :=
  ∀ rest, tokens? (text ++ rest) = (tokens? rest).map (tokens ++ ·)

/-- A text spells tokens where a number would end. -/
def Spells (text : Text) (tokens : List Token) : Prop :=
  ∀ rest, Stops rest → tokens? (text ++ rest) = (tokens? rest).map (tokens ++ ·)

theorem Firm.of_token (more : lexeme ≠ [])
    (found : ∀ rest, token [] (lexeme ++ rest) = some (value, rest)) : Firm lexeme [value] :=
  fun rest => tokens?_found more (found rest)

theorem Spells.of_token (more : lexeme ≠ [])
    (found : ∀ rest, Stops rest → token [] (lexeme ++ rest) = some (value, rest)) :
    Spells lexeme [value] :=
  fun rest stops => tokens?_found more (found rest stops)

theorem Firm.spells (firm : Firm text tokens) : Spells text tokens :=
  fun rest _ => firm rest

theorem Firm.append {left : Text} (firm : Firm left first)
    (spells : Spells right second) : Spells (left ++ right) (first ++ second) := by
  intro rest stops
  rw [append_assoc, firm, spells rest stops, Option.map_map]
  simp only [Function.comp_def, append_assoc]

theorem Stops.append (stops : Stops right) (later : Stops rest) : Stops (right ++ rest) := by
  cases right with
  | nil => exact later
  | cons c right => exact stops

theorem Spells.append {left : Text} (early : Spells left first)
    (late : Spells right second) (stops : Stops right) : Spells (left ++ right) (first ++ second) := by
  intro rest later
  rw [append_assoc, early _ (stops.append later), late rest later, Option.map_map]
  simp only [Function.comp_def, append_assoc]

private theorem mark_firm (mark : c = '[' ∨ c = ']' ∨ c = '{' ∨ c = '}' ∨ c = ',' ∨ c = ':') :
    Firm [c] [.mark c] := by
  refine .of_token (cons_ne_nil _ _) fun rest => ?_
  rw [singleton_append, token, if_pos mark]

private theorem quoted_firm (value : String) : Firm (quoted value.toList) [.text (some value)] := by
  refine .of_token (cons_ne_nil _ _) fun rest => ?_
  have tail : quoted value.toList ++ rest =
      '\x22' :: (value.toList.flatMap escaped ++ '\x22' :: rest) := by
    simp [quoted]
  rw [tail, token, if_neg (by decide), if_pos rfl, stringTail?_quoted]
  simp

private theorem colon_firm : Firm ": ".toList [.mark ':'] := by
  intro rest
  have mark := mark_firm (c := ':') (by decide) (' ' :: rest)
  rwa [tokens?_blank (.inl rfl)] at mark

private theorem lineStart_firm (level : Nat) : Firm (lineStart level) [] := by
  intro rest
  rw [tokens?_lineStart]
  exact Option.map_id'.symm

private theorem word_spells (word : String) {value : Data} (more : word.toList ≠ [])
    (found : ∀ rest, token [] (word.toList ++ rest) = some (.plain (some value), rest)) :
    Spells word.toList [.plain (some value)] :=
  .of_token more fun rest _ => found rest

private theorem intText_spells {value : Int} (whole : Number.Whole (.int value)) :
    Spells (intText value) [.plain (some (.number (.int value)))] := by
  have more : intText value ≠ [] := by
    unfold intText
    exact append_ne_nil_of_right_ne_nil _ (ne_nil_of_length_pos length_toDigits_pos)
  refine .of_token more fun rest stops => ?_
  have read := number?_intText whole stops
  obtain ⟨c, others, same⟩ := exists_cons_of_ne_nil more
  have lead : c = '-' ∨ c.isDigit = true := by
    have member : c ∈ intText value := same ▸ mem_cons_self
    rcases mem_append.mp member with sign | digit
    · split at sign
      · exact .inl (mem_singleton.mp sign)
      · cases sign
    · exact .inr (isDigit_of_mem_toDigits (by omega) (by omega) digit)
  have apart : ∀ d : Char, d ≠ '-' → d.isDigit = false → c ≠ d := by
    rintro d dash plain rfl
    rcases lead with sign | digit
    · exact dash sign
    · rw [plain] at digit
      cases digit
  rw [same, cons_append] at read ⊢
  rw [token, if_neg, if_neg (apart _ (by decide) (by decide)), if_neg (apart _ (by decide) (by decide)),
    if_neg (apart _ (by decide) (by decide)), if_neg (apart _ (by decide) (by decide)), read]
  · rfl
  · simp only [not_or]
    refine ⟨?_, ?_, ?_, ?_, ?_, ?_⟩ <;> exact apart _ (by decide) (by decide)

end Json

/-! ### Values -/

def Data.Whole : Data → Prop
  | .number value => value.Whole
  | _ => True

namespace Json

mutual

def tokensOf : Data → List Token
  | .list items => .mark '[' :: itemTokens items ++ [.mark ']']
  | .record fields => .mark '{' :: fieldTokens fields ++ [.mark '}']
  | .text value => [.text (some value)]
  | .null => [.plain (some .null)]
  | .bool value => [.plain (some (.bool value))]
  | .number value => [.plain (some (.number value))]

def itemTokens : List Data → List Token
  | [] => []
  | [item] => tokensOf item
  | item :: rest => tokensOf item ++ .mark ',' :: itemTokens rest

def fieldTokens : List (String × Data) → List Token
  | [] => []
  | [(name, value)] => .text (some name) :: .mark ':' :: tokensOf value
  | (name, value) :: rest =>
      .text (some name) :: .mark ':' :: tokensOf value ++ .mark ',' :: fieldTokens rest

end

private theorem newline_stops (text : Text) : Stops ('\n' :: text) := by
  intro c first
  cases first
  decide

private theorem comma_stops (text : Text) : Stops (',' :: text) := by
  intro c first
  cases first
  decide

private theorem closing_spells (mark : c = ']' ∨ c = '}') (level : Nat) :
    Spells (lineStart level ++ [c]) [.mark c] :=
  (lineStart_firm level).append (mark_firm (by rcases mark with rfl | rfl <;> decide)).spells

private theorem nil_stops : Stops [] := by
  intro c first
  cases first

private theorem field_spells (value : Spells text tokens) (level : Nat) (name : String) :
    Spells (lineStart level ++ quoted name.toList ++ ": ".toList ++ text)
      (.text (some name) :: .mark ':' :: tokens) := by
  rw [append_assoc, append_assoc]
  exact (lineStart_firm level).append ((quoted_firm name).append (colon_firm.append value))

theorem comma_spells (more : Spells text tokens) : Spells (',' :: text) (.mark ',' :: tokens) :=
  (mark_firm (by decide)).append more

mutual

theorem indented_spells : (data : Data) → data.Every Data.Whole → (level : Nat) →
    Spells (indented level data) (tokensOf data)
  | .null, _, _ => word_spells "null" (by decide) fun _ => rfl
  | .bool true, _, _ => word_spells "true" (by decide) fun _ => rfl
  | .bool false, _, _ => word_spells "false" (by decide) fun _ => rfl
  | .number (.int value), whole, _ => intText_spells whole
  | .text value, _, _ => (quoted_firm value).spells
  | .list [], _, _ => (mark_firm (by decide)).append (mark_firm (by decide)).spells
  | .record [], _, _ => (mark_firm (by decide)).append (mark_firm (by decide)).spells
  | .list (item :: rest), whole, level => by
      have inside := indentedItems_spells (item :: rest) whole.2 (level + 1)
      have closed := inside.append (closing_spells (.inl rfl) level) (newline_stops _)
      change Spells ('[' :: indentedItems (level + 1) (item :: rest) ++ lineStart level ++ [']']) _
      rw [append_assoc]
      exact (mark_firm (by decide)).append closed
  | .record (field :: rest), whole, level => by
      have inside := indentedFields_spells (field :: rest) whole.2 (level + 1)
      have closed := inside.append (closing_spells (.inr rfl) level) (newline_stops _)
      change Spells ('{' :: indentedFields (level + 1) (field :: rest) ++ lineStart level ++ ['}']) _
      rw [append_assoc]
      exact (mark_firm (by decide)).append closed

theorem indentedItems_spells : (items : List Data) → Data.EveryItem Data.Whole items →
    (level : Nat) → Spells (indentedItems level items) (itemTokens items)
  | [], _, _ => fun _ _ => Option.map_id'.symm
  | [item], whole, level => (lineStart_firm level).append (indented_spells item whole.1 level)
  | item :: next :: rest, whole, level => by
      have first := (lineStart_firm level).append (indented_spells item whole.1 level)
      have others := indentedItems_spells (next :: rest) whole.2 level
      exact first.append (comma_spells others) (comma_stops _)

theorem indentedFields_spells : (fields : List (String × Data)) →
    Data.EveryField Data.Whole fields → (level : Nat) →
    Spells (indentedFields level fields) (fieldTokens fields)
  | [], _, _ => fun _ _ => Option.map_id'.symm
  | [(name, value)], whole, level => field_spells (indented_spells value whole.1 level) level name
  | (name, value) :: next :: rest, whole, level => by
      have first := field_spells (indented_spells value whole.1 level) level name
      have others := indentedFields_spells (next :: rest) whole.2 level
      exact first.append (comma_spells others) (comma_stops _)

end

private theorem tokens?_indented {data : Data} (whole : data.Every Data.Whole) (level : Nat) :
    tokens? (indented level data) = some (tokensOf data) := by
  have read := indented_spells data whole level [] nil_stops
  rw [append_nil] at read
  rw [read]
  exact congrArg some (append_nil _)

/-! ### Documents -/

open Document (ofData ofItems ofFields ofText)

mutual

theorem foldlM_tokensOf : (data : Data) → (first : Bool) → (outer : List Frame) →
    (tokensOf data).foldlM State.step (.value first outer) = some (.complete (ofData data) outer)
  | .null, _, _ => rfl
  | .bool _, _, _ => rfl
  | .number _, _, _ => rfl
  | .text _, _, _ => rfl
  | .list [], _, _ => rfl
  | .record [], _, _ => rfl
  | .list (item :: rest), _, outer =>
    foldlM_itemTokens (item :: rest) (cons_ne_nil _ _) true [] outer
  | .record (field :: rest), _, outer =>
    foldlM_fieldTokens (field :: rest) (cons_ne_nil _ _) true [] outer

theorem foldlM_itemTokens : (items : List Data) → items ≠ [] → (first : Bool) →
    (done : List Document) → (outer : List Frame) →
    (itemTokens items ++ [Token.mark ']']).foldlM State.step (.value first (.list done :: outer)) =
      some (.complete (.list (done.reverse ++ ofItems items)) outer)
  | [], more, _, _, _ => absurd rfl more
  | [item], _, first, done, outer => by
      rw [itemTokens, foldlM_append, foldlM_tokensOf item first]
      exact congrArg (fun items => some (State.complete (.list items) outer)) reverse_cons
  | item :: next :: rest, _, first, done, outer => by
      have others := foldlM_itemTokens (next :: rest) (cons_ne_nil _ _) false
        (ofData item :: done) outer
      rw [reverse_cons, append_assoc] at others
      change (tokensOf item ++ .mark ',' :: itemTokens (next :: rest) ++
        [Token.mark ']']).foldlM State.step _ = _
      rw [append_assoc, foldlM_append, foldlM_tokensOf item first]
      exact others

theorem foldlM_fieldTokens : (fields : List (String × Data)) → fields ≠ [] → (first : Bool) →
    (done : List (Document × Document)) → (outer : List Frame) →
    (fieldTokens fields ++ [Token.mark '}']).foldlM State.step (.name first done outer) =
      some (.complete (.record (done.reverse ++ ofFields fields)) outer)
  | [], more, _, _, _ => absurd rfl more
  | [(name, value)], _, first, done, outer => by
      have held := foldlM_tokensOf value false (.record done (ofText name) :: outer)
      change (tokensOf value ++ [Token.mark '}']).foldlM State.step _ = _
      rw [foldlM_append, held]
      exact congrArg (fun fields => some (State.complete (.record fields) outer)) reverse_cons
  | (name, value) :: next :: rest, _, first, done, outer => by
      have held := foldlM_tokensOf value false (.record done (ofText name) :: outer)
      have others := foldlM_fieldTokens (next :: rest) (cons_ne_nil _ _) false
        ((ofText name, ofData value) :: done) outer
      rw [reverse_cons, append_assoc] at others
      change (tokensOf value ++ .mark ',' :: fieldTokens (next :: rest) ++
        [Token.mark '}']).foldlM State.step _ = _
      rw [append_assoc, foldlM_append, held]
      exact others

end

theorem document?_indented {data : Data} (whole : data.Every Data.Whole) (level : Nat) :
    document? (indented level data) = some (ofData data) := by
  rw [document?, tokens?_indented whole]
  simp only [bind_eq_bind, bind_some]
  rw [foldlM_tokensOf]
  rfl

end Json

end PageScript
