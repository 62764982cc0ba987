import PageScript.Proofs.Script.Matching
import PageScript.Proofs.Template.Faults
import PageScript.Proofs.Text.Fill

/-! The tokens of a widget line, whose order makes no difference (`lineKind_rearranged`). -/

open List

namespace PageScript.Template

variable {text source rest tail name : Text} {token : LineToken}
  {make : Text → Except Cause LineToken} {parts : List (Text × Written)}

/-- An identifier that may have hyphens after its first character. -/
def Hyphenated (name : Text) : Prop :=
  ∃ c rest, name = c :: rest ∧ isNameStart c = true ∧ ∀ d ∈ rest, (isNameRest d || d == '-') = true

theorem lineName_eq_some (named : lineName text = some (name, rest)) :
    text = name ++ rest ∧ Hyphenated name := by
  cases text with
  | nil => cases named
  | cons c text =>
    obtain ⟨starts, same⟩ := Option.ite_none_right_eq_some.mp named
    cases same
    exact ⟨congrArg (c :: ·) takeWhile_append_dropWhile.symm, c, _, rfl, starts,
      all_eq_true.mp all_takeWhile⟩

theorem Hyphenated.lineName (hyphenated : Hyphenated name)
    (ended : ∀ c ∈ rest.head?, (isNameRest c || c == '-') = false) :
    lineName (name ++ rest) = some (name, rest) := by
  obtain ⟨c, others, rfl, starts, inside⟩ := hyphenated
  obtain ⟨first, last⟩ := Text.run_ended ended
  refine Option.ite_none_right_eq_some.mpr ⟨starts, ?_⟩
  rw [append_eq, takeWhile_append_of_pos inside, dropWhile_append_of_pos inside, first, last, append_nil]

private theorem enclosed?_eq_some {inner : Text} (more : tail ≠ [])
    (found : Script.enclosed? text = some (inner, tail)) :
    ∃ source, text = source ++ tail ∧ ∀ rest, Script.enclosed? (source ++ rest) = some (inner, rest) := by
  obtain ⟨close, closed, same⟩ := Option.map_eq_some_iff.mp found
  cases same
  refine ⟨text.take (close + 1), (take_append_drop _ _).symm, fun rest => ?_⟩
  have length : (text.take (close + 1)).length = close + 1 := by
    have within := length_pos_iff.mpr more
    rw [length_drop] at within
    rw [length_take]
    omega
  have shorter : (text.take (close + 1) ++ rest).take close = text.take close := by
    rw [take_append_of_le_length (by omega), take_take, Nat.min_eq_left (Nat.le_succ close)]
  have after : (text.take (close + 1) ++ rest).drop (close + 1) = rest := by
    conv => lhs; arg 1; rw [← length]
    exact drop_left
  rw [Script.enclosed?, Script.closing?_take closed, Option.map_some, shorter, after]

theorem bracketed_eq_ok (more : tail ≠ []) (found : bracketed text make = (.ok token, tail)) :
    ∃ source, text = source ++ tail ∧ ∀ rest, bracketed (source ++ rest) make = (.ok token, rest) := by
  unfold bracketed at found
  split at found
  · rename_i enclosed
    obtain ⟨made, rfl⟩ := Prod.mk.inj found
    obtain ⟨source, whole, again⟩ := enclosed?_eq_some more enclosed
    refine ⟨source, whole, fun rest => ?_⟩
    rw [bracketed, again]
    exact congrArg (·, rest) made
  · cases found

private theorem literalTail_append {quote : Char} (body : Text)
    (ends : Script.literalTail quote (body ++ ['>']) = body.length) (rest : Text) :
    Script.literalTail quote (body ++ rest) = body.length := by
  -- The induction is on the length, since an escape takes two characters.
  match body with
  | [] => simp [Script.literalTail, Script.Alphabet.escape, Script.Alphabet.newline] at ends
  | c :: body =>
    rw [cons_append, Script.literalTail.eq_def] at ends ⊢
    dsimp only at ends ⊢
    split at ends
    · rename_i escape
      rw [if_pos escape]
      cases body with
      | nil => cases ends
      | cons d body =>
        have shorter : Script.literalTail quote (body ++ ['>']) = body.length := Nat.add_right_cancel ends
        exact congrArg (· + 2) (literalTail_append body shorter rest)
    · rename_i plain
      rw [if_neg plain]
      split at ends
      · rename_i closes
        rw [if_pos closes]
        exact ends
      · rename_i inside
        rw [if_neg inside]
        split at ends
        · cases ends
        · rename_i stays
          rw [if_neg stays]
          exact congrArg (· + 1) (literalTail_append body (Nat.add_right_cancel ends) rest)
termination_by body.length

private theorem textLiteral_append {quote : Char}
    (found : textLiteral quote (source ++ ['>']) = (.ok token, ['>'])) (rest : Text) :
    textLiteral quote (source ++ rest) = (.ok token, rest) := by
  obtain ⟨read, after⟩ := Prod.mk.inj found
  have ends : Script.literalTail quote (source ++ ['>']) = source.length := by
    have bound := Script.Scan.literalTail_le quote (source ++ ['>'])
    have left := congrArg List.length after
    rw [length_drop, length_take, Nat.min_eq_left bound, length_append, length_singleton] at left
    rw [length_append, length_singleton] at bound
    omega
  rw [ends, take_left] at read
  rw [textLiteral, literalTail_append source ends, take_left, drop_left]
  exact congrArg (·, rest) read

theorem ne_of_blank {c d : Char} (blank : isBlank c = true) (visible : isBlank d = false) : c ≠ d :=
  fun same => Bool.noConfusion (blank.symm.trans (same ▸ visible))

theorem isWord_of_isTagChar {c : Char} (inside : isTagChar c = true) : isWord c = true := by
  have ascii : c.toNat < 128 := by
    rcases Bool.or_eq_true_iff.mp inside with either | bar
    · rcases Bool.or_eq_true_iff.mp either with letter | digit
      · exact Text.toNat_of_isAlpha letter
      · have high := (Bool.and_eq_true_iff.mp digit).2
        exact Nat.lt_of_le_of_lt (UInt32.le_iff_toNat_le.mp (of_decide_eq_true high)) (by decide)
    · rw [eq_of_beq bar]
      decide
  rw [isWord, if_pos ascii]
  exact inside

/-- What may follow a token: white space or the end of the tag. -/
def Ended (rest : Text) : Prop :=
  ∀ c ∈ rest.head?, isBlank c = true ∨ c = '>'

theorem Ended.outside (ended : Ended rest) : ∀ c ∈ rest.head?, (isNameRest c || c == '-') = false := by
  intro c member
  rcases ended c member with blank | rfl
  · have dollar := beq_false_of_ne (ne_of_blank blank (d := '$') rfl)
    have hyphen := beq_false_of_ne (ne_of_blank blank (d := '-') rfl)
    rw [isNameRest, isWord_of_isBlank blank, dollar, hyphen]
    rfl
  · decide

theorem Ended.isTagChar (ended : Ended rest) : ∀ c ∈ rest.head?, isTagChar c = false := by
  refine fun c member => Bool.eq_false_iff.mpr fun inside => ?_
  have word := isWord_of_isTagChar inside
  rcases ended c member with blank | rfl
  · exact Bool.noConfusion (word.symm.trans (isWord_of_isBlank blank))
  · cases inside

private theorem nameToken_append {make : Text → LineToken} (ended : Ended rest)
    (found : nameToken (source ++ ['>']) make = (.ok token, ['>'])) :
    nameToken (source ++ rest) make = (.ok token, rest) := by
  unfold nameToken at found
  split at found
  · rename_i named
    cases found
    obtain ⟨whole, hyphenated⟩ := lineName_eq_some named
    rw [append_cancel_right whole, nameToken, hyphenated.lineName ended.outside]
  · cases found

theorem callToken_append (found : callToken (source ++ ['>']) = (.ok token, ['>'])) (rest : Text) :
    callToken (source ++ rest) = (.ok token, rest) := by
  unfold callToken at found
  split at found
  · cases found
  · rename_i name after named
    split at found
    · rename_i opens
      obtain ⟨whole, hyphenated⟩ := lineName_eq_some named
      obtain ⟨args, rfl, again⟩ := bracketed_eq_ok (cons_ne_nil _ _) found
      obtain rfl : source = name ++ args := append_cancel_right (whole.trans (append_assoc _ _ _).symm)
      cases args with
      | nil => cases opens
      | cons c args =>
        cases opens
        have ended : ∀ c ∈ ('(' :: args ++ rest).head?, (isNameRest c || c == '-') = false := by
          rintro c ⟨⟩
          decide
        rw [append_assoc, callToken, hyphenated.lineName ended]
        exact again rest
    · cases found

private theorem lineToken_append (alone : lineToken [] (source ++ ['>']) = some (.ok token, ['>']))
    (ended : Ended rest) (before : Text) :
    lineToken before (source ++ rest) = some (.ok token, rest) := by
  cases source with
  | nil => cases alone
  | cons c source =>
    have enclosed {make : Text → Except Cause LineToken}
        (found : some (bracketed (c :: source ++ ['>']) make) = some (.ok token, ['>'])) :
        some (bracketed (c :: source ++ rest) make) = some (.ok token, rest) := by
      obtain ⟨_, whole, again⟩ := bracketed_eq_ok (cons_ne_nil _ _) (Option.some.inj found)
      rw [append_cancel_right whole, again]
    -- The first character chooses the recogniser, so it is the same one for both texts.
    revert alone
    rw [cons_append, cons_append, lineToken, lineToken]
    split
    · rintro ⟨⟩
    split
    · intro alone
      cases (Prod.mk.inj (Option.some.inj alone)).2
    split
    · exact fun alone => congrArg some (nameToken_append ended (Option.some.inj alone))
    split
    · exact fun alone => congrArg some (nameToken_append ended (Option.some.inj alone))
    split
    · exact fun alone => congrArg some (callToken_append (Option.some.inj alone) rest)
    split
    · exact enclosed
    split
    · exact enclosed
    split
    · exact enclosed
    split
    · exact fun alone => congrArg some (textLiteral_append (Option.some.inj alone) rest)
    · rintro ⟨⟩

/-- What a token says of the text it is read from: a call has the name of a method, and behind the end
of the tag nothing is left. -/
def LineToken.Proper (rest : Text) : LineToken → Prop
  | .call made => Hyphenated made.name
  | .close => rest = []
  | _ => True

theorem nameToken_proper {make : Text → LineToken} (found : nameToken text make = (.ok token, rest))
    (proper : ∀ name, (make name).Proper rest) : token.Proper rest := by
  unfold nameToken at found
  split at found
  · cases found
    exact proper _
  · cases found

theorem bracketed_proper (proper : ∀ inner token, make inner = .ok token → token.Proper rest)
    (found : bracketed text make = (.ok token, rest)) : token.Proper rest := by
  unfold bracketed at found
  split at found
  · obtain ⟨made, rfl⟩ := Prod.mk.inj found
    exact proper _ _ made
  · cases found

private theorem bracketToken_proper {inner : Text} (made : bracketToken inner = .ok token) :
    token.Proper rest := by
  unfold bracketToken at made
  split at made
  · cases made
    trivial
  · split at made
    · cases made
      trivial
    · cases made
      trivial
    · dsimp only at made
      split at made <;> cases made
      trivial

theorem callToken_proper (found : callToken text = (.ok token, rest)) : token.Proper rest := by
  unfold callToken at found
  split at found
  · cases found
  · rename_i named
    split at found
    · refine bracketed_proper ?_ found
      rintro _ _ ⟨⟩
      exact (lineName_eq_some named).2
    · cases found

theorem lineToken_proper {before : Text} (found : lineToken before text = some (.ok token, rest)) :
    token.Proper rest := by
  cases text with
  | nil => cases found
  | cons c text =>
    rw [lineToken] at found
    split at found
    · cases found
    split at found
    · split at found <;> cases found
      rfl
    split at found
    · exact nameToken_proper (Option.some.inj found) fun _ => trivial
    split at found
    · exact nameToken_proper (Option.some.inj found) fun _ => trivial
    split at found
    · exact callToken_proper (Option.some.inj found)
    split at found
    · exact bracketed_proper (fun _ _ => bracketToken_proper) (Option.some.inj found)
    split at found
    · exact bracketed_proper (by rintro _ _ ⟨⟩; trivial) (Option.some.inj found)
    split at found
    · exact bracketed_proper (by rintro _ _ ⟨⟩; trivial) (Option.some.inj found)
    split at found
    · obtain ⟨read, _⟩ := Prod.mk.inj (Option.some.inj found)
      split at read <;> cases read
      trivial
    · cases found

theorem Widget.apply_comm (widget : Widget) (first second : LineToken)
    (differ : first.ctorIdx ≠ second.ctorIdx) :
    (widget.apply first).apply second = (widget.apply second).apply first := by
  cases first <;> cases second <;> first | rfl | exact absurd rfl differ

/-- A token as it is written. Alone in a tag it is read up to the end of the tag. -/
structure Written where
  source : Text
  token : LineToken
  alone : lineToken [] (source ++ ['>']) = some (.ok token, ['>'])

def widgetLine (tag : Text) (gaps : List Text) (tokens : List Written) : Text :=
  '<' :: tag ++ ((gaps.zip tokens).flatMap fun part => part.1 ++ part.2.source) ++ ['>']

def described (tag constructor : Text) (tokens : List Written) : Widget :=
  tokens.foldl (fun widget written => widget.apply written.token) { tag, constructor }

/-- The same tokens in another order, which is kept among tokens of one kind. -/
def Rearranged (tokens other : List Written) : Prop :=
  other.Perm tokens ∧ ∀ kind, other.filter (·.token.ctorIdx == kind) = tokens.filter (·.token.ctorIdx == kind)

private theorem foldl_before {α β : Type} {kind : α → Nat} {step : β → α → β}
    (comm : ∀ state first second, kind first ≠ kind second →
      step (step state first) second = step (step state second) first)
    {before : List α} {item : α} (others : ∀ other ∈ before, kind other ≠ kind item) (state : β) :
    step (before.foldl step state) item = before.foldl step (step state item) := by
  induction before generalizing state with
  | nil => rfl
  | cons other before ih =>
    obtain ⟨here, later⟩ := forall_mem_cons.mp others
    rw [foldl_cons, ih later, comm state other item here, foldl_cons]

/-- Steps of different kinds may be taken in any order. -/
theorem foldl_rearranged {α β : Type} {kind : α → Nat} {step : β → α → β}
    (comm : ∀ state first second, kind first ≠ kind second →
      step (step state first) second = step (step state second) first)
    (left right : List α) (same : ∀ k, left.filter (kind · == k) = right.filter (kind · == k))
    (state : β) : left.foldl step state = right.foldl step state := by
  induction left generalizing right state with
  | nil =>
    cases right with
    | nil => rfl
    | cons item right =>
      have own := same (kind item)
      rw [filter_nil, filter_cons_of_pos (p := (kind · == kind item)) (beq_self_eq_true _)] at own
      cases own
  | cons item left ih =>
    have own := same (kind item)
    rw [filter_cons_of_pos (p := (kind · == kind item)) (beq_self_eq_true _)] at own
    -- On the right the item comes after items of other kinds only, so it can be taken first there too.
    obtain ⟨before, after, rfl, others, _, rest⟩ := filter_eq_cons_iff.mp own.symm
    have differ : ∀ other ∈ before, kind other ≠ kind item := fun other member same =>
      others other member (beq_iff_eq.mpr same)
    rw [foldl_cons, foldl_append, foldl_cons, foldl_before comm differ, ← foldl_append]
    refine ih (before ++ after) (fun k => ?_) (step state item)
    have whole := same k
    rw [filter_append] at whole ⊢
    by_cases here : kind item = k
    · have none : before.filter (kind · == k) = [] :=
        filter_eq_nil_iff.mpr fun other member => here ▸ others other member
      rw [← here] at none ⊢
      rw [none, nil_append, rest]
    · have missed : ¬ (kind item == k) = true := fun same => here (beq_iff_eq.mp same)
      rwa [filter_cons_of_neg (p := (kind · == k)) missed, filter_cons_of_neg (p := (kind · == k)) missed]
        at whole

variable {tag : Text} {gap : Text} {gaps : List Text} {tokens other : List Written}

theorem lineToken_blank {c : Char} (blank : isBlank c = true) (foreign : isAsciiBlank c = false)
    (before rest : Text) :
    lineToken before (c :: rest) = some (.error (.unexpectedCharacter c), rest) := by
  have differs {d : Char} (visible : isBlank d = false) : c ≠ d := ne_of_blank blank visible
  have quoted : ¬ (c = '\x22' ∨ c = '\x27') := fun quote => quote.elim (differs rfl) (differs rfl)
  rw [lineToken, foreign, if_neg Bool.false_ne_true, if_neg (differs rfl), if_neg (differs rfl),
    if_neg (differs rfl), if_neg (differs rfl), if_neg (differs rfl), if_neg (differs rfl),
    if_neg (differs rfl), if_neg quoted]

/-- The outcome of a line with the given gaps: white space outside ASCII is a fault. -/
def spaced {α : Type} (gap : Text) (result : Except Cause α) : Except Cause α :=
  (gap.find? (! isAsciiBlank ·)).elim result fun c => .error (.unexpectedCharacter c)

private theorem spaced_append {α : Type} (left right : Text) (result : Except Cause α) :
    spaced (left ++ right) result = spaced left (spaced right result) := by
  rw [spaced, spaced, find?_append]
  cases left.find? (! isAsciiBlank ·) <;> rfl

private theorem spaced_map {α β : Type} (gap : Text) (result : Except Cause α) (change : α → β) :
    (spaced gap result).map change = spaced gap (result.map change) := by
  unfold spaced
  cases gap.find? (! isAsciiBlank ·) <;> rfl

private theorem spaced_of_ascii {α : Type} (ascii : ∀ c ∈ gap, isAsciiBlank c = true)
    (result : Except Cause α) : spaced gap result = result := by
  have none : gap.find? (! isAsciiBlank ·) = none :=
    find?_eq_none.mpr fun c member => by simp [ascii c member]
  rw [spaced, none]
  rfl

theorem applyAll_gap (blank : ∀ c ∈ gap, isBlank c = true) (widget : Widget) (before rest : Text) :
    widget.applyAll (Text.cutFrom lineToken before 0 (gap ++ rest)) =
      spaced gap (widget.applyAll (Text.cutFrom lineToken (gap.reverse ++ before) 0 rest)) := by
  induction gap generalizing before with
  | nil => rfl
  | cons c gap ih =>
    obtain ⟨here, later⟩ := forall_mem_cons.mp blank
    cases plain : isAsciiBlank c with
    | true =>
      have silent : lineToken before (c :: (gap ++ rest)) = none := if_pos plain
      rw [cons_append, Text.cutFrom, silent, spaced, find?_cons_of_neg (by simp [plain]), reverse_cons,
        append_assoc]
      exact ih later (c :: before)
    | false =>
      rw [cons_append, Text.cutFrom, lineToken_blank here plain, spaced,
        find?_cons_of_pos (by simp [plain])]
      rfl

theorem Written.ne_nil (written : Written) : written.source ≠ [] := by
  obtain ⟨source, token, alone⟩ := written
  rintro rfl
  cases alone

theorem Written.applyAll (written : Written) (widget : Widget) (lexeme : Text)
    (pieces : List (Piece (Except Cause LineToken))) :
    widget.applyAll (.found lexeme (.ok written.token) :: pieces) =
      (widget.apply written.token).applyAll pieces := by
  obtain ⟨source, token, alone⟩ := written
  cases token with
  | close => exact absurd (lineToken_proper alone) (cons_ne_nil _ _)
  | _ => rfl

private theorem ended_parts (blank : ∀ part ∈ parts, part.1 ≠ [] ∧ ∀ c ∈ part.1, isBlank c = true) :
    Ended ((parts.flatMap fun part => part.1 ++ part.2.source) ++ ['>']) := by
  cases parts with
  | nil => exact fun c member => .inr (Option.some.inj member).symm
  | cons part parts =>
    obtain ⟨⟨more, blank⟩, _⟩ := forall_mem_cons.mp blank
    obtain ⟨c, gap, whole⟩ := exists_cons_of_ne_nil more
    rw [whole] at blank
    intro d member
    rw [flatMap_cons, whole] at member
    obtain rfl := Option.some.inj member
    exact .inl (blank _ mem_cons_self)

private theorem applyAll_parts
    (blank : ∀ part ∈ parts, part.1 ≠ [] ∧ ∀ c ∈ part.1, isBlank c = true) (widget : Widget)
    (before : Text) :
    widget.applyAll (Text.cutFrom lineToken before 0
        ((parts.flatMap fun part => part.1 ++ part.2.source) ++ ['>'])) =
      spaced (parts.flatMap Prod.fst)
        (.ok (parts.foldl (fun widget part => widget.apply part.2.token) widget)) := by
  induction parts generalizing widget before with
  | nil => rfl
  | cons part parts ih =>
    obtain ⟨gap, written⟩ := part
    obtain ⟨⟨_, blank⟩, later⟩ := forall_mem_cons.mp blank
    have found := lineToken_append written.alone (ended_parts later) (gap.reverse ++ before)
    rw [flatMap_cons, append_assoc, append_assoc, applyAll_gap blank, Text.cutFrom_found written.ne_nil found,
      written.applyAll, ih later, flatMap_cons, spaced_append]
    rfl

theorem withoutColon_tag (text : Text) : ∃ rest, withoutColon ('<' :: text) = '<' :: rest := by
  unfold withoutColon
  split
  · cases text with
    | nil => contradiction
    | cons c text => exact ⟨_, rfl⟩
  · exact ⟨text, rfl⟩

private theorem control?_tag (rest : Text) : control? ('<' :: rest) = .ok none := by
  obtain ⟨more, head⟩ := withoutColon_tag (rest.takeWhile (! isBlank ·))
  have other {word : Text} (first : word.head? ≠ some '<') : ¬ ('<' :: more) = word := by
    rintro rfl
    exact first rfl
  unfold control?
  rw [takeWhile_cons_of_pos (p := (! isBlank ·)) rfl, head]
  dsimp only
  rw [if_neg (other (by decide)), if_neg (other (by decide)), if_neg (other (by decide)),
    if_neg (other (by decide))]

private theorem lineKind_tag {registry : Registry} {constructor : String} {depth : Nat}
    (known : registry.constructor? (String.ofList (rest.takeWhile isTagChar)) = some constructor)
    (other : ∀ c ∈ rest.head?, c ≠ '*' ∧ c ≠ '&') :
    lineKind registry depth ('<' :: rest) =
      (Widget.applyAll { tag := rest.takeWhile isTagChar, constructor := constructor.toList }
        (Text.cut lineToken (rest.dropWhile isTagChar))).map fun widget => some (.widget widget) := by
  unfold lineKind
  rw [control?_tag]
  simp only [bind, Except.bind, pure, Except.pure]
  split
  · rename_i same
    cases same
    exact absurd rfl (other '*' rfl).1
  · rename_i same
    cases same
    exact absurd rfl (other '&' rfl).2
  · rename_i same
    cases same
    rw [known]
    rfl
  · rename_i last
    exact absurd rfl (last rest)

variable {registry : Registry} {constructor : String}

/-- Before each token there is white space. -/
def Separates (gaps : List Text) (tokens : List Written) : Prop :=
  gaps.length = tokens.length ∧ ∀ gap ∈ gaps, gap ≠ [] ∧ ∀ c ∈ gap, isBlank c = true

theorem lineKind_widgetLine (known : registry.constructor? (String.ofList tag) = some constructor)
    (word : ∀ c ∈ tag, isTagChar c = true) (separates : Separates gaps tokens) (depth : Nat) :
    lineKind registry depth (widgetLine tag gaps tokens) =
      spaced gaps.flatten (.ok (some (.widget (described tag constructor.toList tokens)))) := by
  obtain ⟨count, blank⟩ := separates
  have within : ∀ part ∈ gaps.zip tokens, part.1 ≠ [] ∧ ∀ c ∈ part.1, isBlank c = true :=
    fun part member => blank part.1 (of_mem_zip member).1
  have ended := ended_parts within
  have described : (gaps.zip tokens).foldl (fun widget part => widget.apply part.2.token)
      { tag, constructor := constructor.toList } = described tag constructor.toList tokens := by
    rw [Template.described, ← map_snd_zip (Nat.le_of_eq count.symm), foldl_map,
      map_snd_zip (Nat.le_of_eq count.symm)]
  have spaces : (gaps.zip tokens).flatMap Prod.fst = gaps.flatten := by
    rw [flatMap_def, map_fst_zip (Nat.le_of_eq count)]
  have taken := applyAll_parts within { tag, constructor := constructor.toList } []
  rw [spaces, described] at taken
  obtain ⟨first, last⟩ := Text.run_ended ended.isTagChar
  rw [widgetLine, append_assoc, cons_append]
  -- From here on all that counts of the rest of the line is how it begins and what is taken from it.
  generalize (gaps.zip tokens).flatMap (fun part => part.1 ++ part.2.source) ++ ['>'] = rest at *
  have run : (tag ++ rest).takeWhile isTagChar = tag := by
    rw [takeWhile_append_of_pos word, first, append_nil]
  have after : (tag ++ rest).dropWhile isTagChar = rest := by
    rw [dropWhile_append_of_pos word, last]
  have other : ∀ c ∈ (tag ++ rest).head?, c ≠ '*' ∧ c ≠ '&' := by
    rw [head?_append]
    cases tag with
    | nil =>
      intro c member
      rcases ended c member with blank | rfl
      · exact ⟨ne_of_blank blank rfl, ne_of_blank blank rfl⟩
      · decide
    | cons d tag =>
      rintro c ⟨⟩
      have inside := word d mem_cons_self
      constructor <;> rintro rfl <;> cases inside
  rw [lineKind_tag (by rwa [run]) other, run, after, Text.cut, taken, spaced_map]
  rfl

theorem read_line {line : Text} {kind : Kind} (flat : '\n' ∉ line) (trimmed : Text.Trimmed line)
    (reads : lineKind registry 0 line = .ok (some kind)) (file : String) (offset : Nat) :
    read registry file offset line = .ok [Node.leaf kind 0 (offset + 1)] := by
  have bare : ∀ c ∈ ([] : Text), isBlank c = true := fun _ member => absurd member not_mem_nil
  have shown := trimmed.not_allBlank [] []
  have ended := trimmed.trimEnd [] bare
  have core := trimmed.trim bare bare
  rw [nil_append, append_nil] at shown ended core
  have lines : sourceLines offset line = [⟨offset + 1, line⟩] := by
    rw [sourceLines_of_flat flat, lineAt, shown, ended]
    rfl
  rw [read_of_head (by rw [lines]; rfl), lines]
  have level : (({} : Reading).measure (indentOf line) line) = .ok (0, none) := by
    rw [Reading.measure, if_neg (Nat.lt_irrefl _), Nat.sub_self]
    rfl
  have first : ({} : Reading).step registry file (indentOf line) ⟨offset + 1, line⟩ =
      .ok { opened := [Node.leaf kind 0 (offset + 1)], last := some 0 } := by
    unfold Reading.step
    dsimp only
    rw [level, core]
    change (lineKind registry 0 line).mapError _ >>= _ = _
    rw [reads]
    rfl
  rw [foldlM_cons, first]
  rfl

/-- Both lines are read alike, and as the widget that the tokens describe if ASCII white space separates
them. -/
theorem lineKind_rearranged (known : registry.constructor? (String.ofList tag) = some constructor)
    (word : ∀ c ∈ tag, isTagChar c = true) (rearranged : Rearranged tokens other)
    (separates : Separates gaps tokens) :
    (∀ depth, lineKind registry depth (widgetLine tag gaps other) =
      lineKind registry depth (widgetLine tag gaps tokens)) ∧
    ((∀ gap ∈ gaps, ∀ c ∈ gap, isAsciiBlank c = true) →
      (∀ depth, lineKind registry depth (widgetLine tag gaps other) =
        .ok (some (.widget (described tag constructor.toList tokens)))) ∧
      ∀ file offset, '\n' ∉ widgetLine tag gaps other →
        read registry file offset (widgetLine tag gaps other) =
          .ok [Node.leaf (.widget (described tag constructor.toList tokens)) 0 (offset + 1)]) := by
  obtain ⟨same, kinds⟩ := rearranged
  have moved : described tag constructor.toList other = described tag constructor.toList tokens :=
    foldl_rearranged (fun widget first second => widget.apply_comm first.token second.token) other tokens
      kinds _
  have spread : Separates gaps other := ⟨separates.1.trans same.length_eq.symm, separates.2⟩
  have reads (depth : Nat) := lineKind_widgetLine known word spread depth
  rw [moved] at reads
  refine ⟨fun depth => (reads depth).trans (lineKind_widgetLine known word separates depth).symm,
    fun ascii => ?_⟩
  have plain : ∀ c ∈ gaps.flatten, isAsciiBlank c = true := fun c member => by
    obtain ⟨gap, within, inside⟩ := mem_flatten.mp member
    exact ascii gap within c inside
  have whole (depth : Nat) := (reads depth).trans (spaced_of_ascii plain _)
  refine ⟨whole, fun file offset flat => read_line flat ⟨cons_ne_nil _ _, ?_, ?_⟩ (whole 0) file offset⟩
  · rintro c ⟨⟩
    rfl
  · rw [widgetLine, getLast?_concat]
    rintro c ⟨⟩
    rfl

def clicked : Written :=
  ⟨"#on('click', go)".toList, .call ⟨"on".toList, "'click', go".toList⟩, by decide +kernel⟩

def saved : List Written :=
  [⟨"@save".toList, .key "save".toList, by decide +kernel⟩,
   ⟨".primary".toList, .css "primary".toList, by decide +kernel⟩,
   ⟨".wide".toList, .css "wide".toList, by decide +kernel⟩]

theorem lineKind_rearranged_button :
    read .builtin "v.js" 0 "<Button @save .primary .wide #on('click', go)>".toList =
        .ok [Node.leaf (.widget (described "Button".toList "lx.Button".toList (clicked :: saved))) 0 1] ∧
      lineKind .builtin 2 "<Button @save .primary .wide #on('click', go)>".toList =
        lineKind .builtin 2 "<Button #on('click', go) @save .primary .wide>".toList := by
  have known : Registry.builtin.constructor? (String.ofList "Button".toList) = some "lx.Button" := by decide
  have rearranged : Rearranged (clicked :: saved) (saved ++ [clicked]) := by
    refine ⟨perm_append_comm, fun kind => ?_⟩
    rcases kind with _ | _ | _ | kind <;> rfl
  have separates : Separates (replicate 4 [' ']) (clicked :: saved) := by
    refine ⟨rfl, fun gap member => ?_⟩
    rw [eq_of_mem_replicate member]
    decide
  obtain ⟨alike, whole⟩ := lineKind_rearranged known (by decide) rearranged separates
  exact ⟨(whole (by decide)).2 "v.js" 0 (by decide +kernel), alike 2⟩

end PageScript.Template
