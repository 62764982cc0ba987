import PageScript.Proofs.Class.Sugar
import PageScript.Proofs.Script.Solid
import PageScript.Proofs.Text.FilledPieces

open List

namespace PageScript

open Text Filling Option Bool

variable {text rest : Text}

namespace ClassHeader

variable {filling : Filling}

/-! ### Headers -/

/-- After the keyword of a class, no placeholder stands before the brace or the line end. -/
def Headed (text : Text) : Prop :=
  ∀ rest, "class".toList ++ rest <:+ text → Free (rest.takeWhile fun c => c != '\n' && c != '{')

private theorem headed_iff :
    (∀ position ≤ text.length, ∀ rest ∈ after? "class".toList (text.drop position),
      Free (rest.takeWhile fun c => c != '\n' && c != '{')) ↔ Headed text := by
  refine (@Text.forall_drop_iff text (fun part => ∀ rest ∈ after? "class".toList part,
    Free (rest.takeWhile fun c => c != '\n' && c != '{'))).trans ?_
  constructor
  · exact fun each rest within => each _ within rest (after?_eq_some.mpr rfl)
  · intro headed part within rest found
    exact headed rest (after?_eq_some.mp found ▸ within)

instance (text : Text) : Decidable (Headed text) :=
  decidable_of_iff _ headed_iff

theorem Headed.within {part : Text} (headed : Headed text) (within : part <:+ text) : Headed part :=
  fun rest inside => headed rest (inside.trans within)

theorem inHeader_of_isHole (c : Char) (hole : isHole c = true) : (c != '\n' && c != '{') = true := by
  simp [ne_of_isHole hole (by decide : '\n'.toNat < 128),
    ne_of_isHole hole (by decide : '{'.toNat < 128)]

private theorem keywordToBrace_fill (headed : Headed text) :
    keywordToBrace (filling.fill text) = (keywordToBrace text).map filling.fill := by
  unfold keywordToBrace
  simp only [bind_eq_bind]
  rw [filling.expect_fill (by decide)]
  refine bind_carry fun rest begun => ?_
  have free := headed rest ((after?_eq_some.mp begun) ▸ suffix_refl _)
  obtain ⟨_, left⟩ := filling.run_free free inHeader_of_isHole
  cases rest with
  | nil => rfl
  | cons c rest =>
    rcases filling.fill_cons_cases isWord_stops c rest with
      ⟨kept, filled⟩ | ⟨out, d, more, filled, other⟩
    · rw [filled]
      simp [kept]
    · rw [filled] at left ⊢
      dsimp only
      rw [out, other, left, if_neg Bool.false_ne_true, if_neg Bool.false_ne_true]
      cases stopped : (c :: rest).dropWhile fun c => c != '\n' && c != '{' with
      | nil => rfl
      | cons e brace =>
        have plain : isHole e = false := by
          have stop := head_dropWhile_not (fun c => c != '\n' && c != '{') (l := c :: rest)
            (by rw [stopped]; exact cons_ne_nil e brace)
          simp only [stopped, head_cons] at stop
          rw [← not_eq_true]
          intro hole
          rw [inHeader_of_isHole e hole] at stop
          cases stop
        rw [filling.fill_plain plain]
        by_cases opening : e = '{'
        · rw [opening]
          rfl
        · simp [opening]

theorem exported_fill (text : Text) : exported (filling.fill text) = filling.fill (exported text) := by
  have exports : (Text.expect "export" (filling.fill text)).bind gaps1 =
      ((Text.expect "export" text).bind gaps1).map filling.fill := by
    rw [filling.expect_fill (by decide)]
    exact bind_carry fun rest _ => filling.gaps1_fill rest
  have defaults (rest : Text) : (Text.expect "default" (filling.fill rest)).bind gaps1 =
      ((Text.expect "default" rest).bind gaps1).map filling.fill := by
    rw [filling.expect_fill (by decide)]
    exact bind_carry fun rest _ => filling.gaps1_fill rest
  unfold exported
  rw [exports]
  cases (Text.expect "export" text).bind gaps1 with
  | none => rfl
  | some rest =>
    dsimp only [map_some]
    rw [defaults]
    cases (Text.expect "default" rest).bind gaps1 <;> rfl

variable (filling) in
private theorem standing_fill (left : Text) :
    ((filling.fill left).reverse.head?.all (· == '\n') = left.reverse.head?.all (· == '\n')) ∧
      ((filling.fill left).reverse.head?.map isWord).getD false =
        (left.reverse.head?.map isWord).getD false := by
  rcases filling.head?_reverse_fill left with same | ⟨c, last, own, hole, filled, ending⟩
  · rw [same]
    exact ⟨rfl, rfl⟩
  · have known : last ∈ ['}', ']', '\x22', '>'] := contains_iff_mem.mp ending
    have settled : ∀ d ∈ ['}', ']', '\x22', '>'], (d == '\n') = false ∧ isWord d = false := by decide
    have newline : (c == '\n') = false :=
      beq_eq_false_iff_ne.mpr (ne_of_isHole hole (by decide))
    rw [own, filled]
    simp [settled last known, newline, isWord_stops.hole c hole]

private theorem loose_cons (before : Text) (c : Char) (rest : Text) :
    loose before (c :: rest) =
      ((if before.head?.all (· == '\n') = true then
          keywordToBrace (exported (Text.gaps (c :: rest))) else none).or
        ((if takesOperand c = true then keywordToBrace (Text.gaps rest) else none).or
          (if (before.head?.map isWord).getD false = true then none
            else ((Text.expect "return" (c :: rest)).bind gaps1).bind keywordToBrace))).map
        fun rest => (before.length, rest) := by
  unfold loose
  simp only [orElse_eq_orElse, orElse_eq_or]
  cases before with
  | nil => rfl
  | cons d before =>
    by_cases newline : d = '\n'
    · subst newline
      rfl
    · simp [newline]

theorem loose_follows (headed : Headed text) : filling.Follows loose (filling.place text) text := by
  intro left c right whole plain
  have here : Headed (c :: right) := headed.within ⟨left, whole.symm⟩
  have gaps (rest : Text) : Text.gaps rest <:+ rest := dropWhile_suffix _
  have leads : Leads fun _ => true := ⟨fun _ _ => rfl, fun _ _ => rfl, fun _ _ _ _ => rfl⟩
  have inLine : keywordToBrace (exported (Text.gaps (filling.fill (c :: right)))) =
      (keywordToBrace (exported (Text.gaps (c :: right)))).map filling.fill := by
    rw [filling.gaps_fill, exported_fill]
    exact keywordToBrace_fill (here.within ((leads.exported _).suffix.trans (gaps _)))
  have operand : keywordToBrace (Text.gaps (filling.fill right)) =
      (keywordToBrace (Text.gaps right)).map filling.fill := by
    rw [filling.gaps_fill]
    exact keywordToBrace_fill (here.within ((gaps right).trans (suffix_cons c right)))
  have returned : ((Text.expect "return" (filling.fill (c :: right))).bind gaps1).bind
      keywordToBrace =
      (((Text.expect "return" (c :: right)).bind gaps1).bind keywordToBrace).map
        filling.fill := by
    rw [filling.expect_fill (by decide), bind_assoc, bind_assoc]
    refine bind_carry fun first keyword => ?_
    rw [filling.gaps1_fill]
    refine bind_carry fun second gap => ?_
    have lead := leads.keyword (by simp) (bind_eq_some_iff.mpr ⟨first, keyword, gap⟩)
    exact keywordToBrace_fill (here.within lead.suffix)
  have chosen (p : Prop) [Decidable p] (found : Option Text) :
      (if p then found.map filling.fill else none) = (if p then found else none).map filling.fill := by
    split <;> rfl
  have spared (p : Prop) [Decidable p] (found : Option Text) :
      (if p then none else found.map filling.fill) = (if p then none else found).map filling.fill := by
    split <;> rfl
  obtain ⟨starts, word⟩ := standing_fill filling left
  rw [filling.fill_plain plain] at inLine returned ⊢
  rw [loose_cons, loose_cons, starts, word, inLine, operand, returned, chosen, chosen, spared,
    ← map_or, ← map_or, Option.map_map, Option.map_map]
  congr 1
  funext rest
  refine Prod.ext ?_ rfl
  change (filling.fill left).reverse.length = filling.place text left.reverse.length
  rw [length_reverse, length_reverse, whole, filling.place_append]

/-! ### Texts without headers -/

/-- Whether the keyword of a class stands where a header could begin at this place. -/
def opensClass (left right : Text) : Bool :=
  (left.getLast?.all (· == '\n') && (Text.expect "class" (exported (Text.gaps right))).isSome) ||
    (right.head?.any takesOperand && (Text.expect "class" (Text.gaps right.tail)).isSome) ||
    (((Text.expect "return" right).bind gaps1).bind (Text.expect "class")).isSome

def Headless (text : Text) : Prop :=
  ∀ position ≤ text.length, opensClass (text.take position) (text.drop position) = false

instance (text : Text) : Decidable (Headless text) :=
  Nat.decidableBallLE _ _

private theorem keywordToBrace_eq_none (missing : Text.expect "class" text = none) :
    keywordToBrace text = none := by
  simp [keywordToBrace, missing]

section

variable {e : Char} (ending : isEnding e = true)

include ending

theorem not_mem_of_isEnding {word : Text} (letters : ∀ c ∈ word, isEnding c = false) : e ∉ word := by
  intro member
  rw [letters e member] at ending
  cases ending

private theorem isInlineBlank_of_isEnding : isInlineBlank e = false := by
  have known : e ∈ ['}', ']', '\x22', '>'] := contains_iff_mem.mp ending
  have none : ∀ d ∈ ['}', ']', '\x22', '>'], isInlineBlank d = false := by decide
  exact none e known

theorem gaps_ending (text rest : Text) : Text.gaps (text ++ e :: rest) = Text.gaps text ++ e :: rest :=
  dropWhile_stop (isInlineBlank_of_isEnding ending) text rest

private theorem gaps1_ending (text rest : Text) :
    gaps1 (text ++ e :: rest) = (gaps1 text).map (· ++ e :: rest) := by
  cases text with
  | nil => simp [gaps1, isInlineBlank_of_isEnding ending]
  | cons c text =>
    rw [cons_append, gaps1, gaps1, gaps_ending ending]
    split <;> rfl

private theorem expect_ending {start : String} (letters : ∀ c ∈ start.toList, isEnding c = false)
    (text rest : Text) :
    Text.expect start (text ++ e :: rest) = (Text.expect start text).map (· ++ e :: rest) :=
  after?_stop (not_mem_of_isEnding ending letters) text rest

private theorem exported_ending (text rest : Text) :
    exported (text ++ e :: rest) = exported text ++ e :: rest := by
  have reads (word : String) (letters : ∀ c ∈ word.toList, isEnding c = false) (text : Text) :
      (Text.expect word (text ++ e :: rest)).bind gaps1 =
        ((Text.expect word text).bind gaps1).map (· ++ e :: rest) := by
    rw [expect_ending ending letters]
    exact bind_carry fun after _ => gaps1_ending ending after rest
  unfold exported
  rw [reads "export" (by decide)]
  cases (Text.expect "export" text).bind gaps1 with
  | none => rfl
  | some after =>
    dsimp only [map_some]
    rw [reads "default" (by decide)]
    cases (Text.expect "default" after).bind gaps1 <;> rfl

private theorem loose_unseen (headless : Headless text) {left right : Text}
    (split : text ++ [e] = left ++ right) (more : right ≠ []) (before rest : Text) :
    loose (left.reverse ++ before) (right ++ rest) = none := by
  obtain ⟨inner, d, same⟩ := (eq_nil_or_concat right).resolve_left more
  rw [same, concat_eq_append, ← append_assoc] at split
  obtain ⟨whole, last⟩ := append_inj' split rfl
  have final : d = e := by simpa using last.symm
  have quiet := headless left.length (by rw [whole, length_append]; omega)
  rw [whole, take_left, drop_left] at quiet
  simp only [opensClass, or_eq_false_iff, isSome_eq_false_iff, isNone_iff_eq_none]
    at quiet
  obtain ⟨⟨inLine, operand⟩, returned⟩ := quiet
  have joined : right ++ rest = inner ++ e :: rest := by
    rw [same, final, concat_eq_append, append_assoc]
    rfl
  have letters : ∀ c ∈ "class".toList, isEnding c = false := by decide
  have keyword {text : Text} (missing : Text.expect "class" text = none) :
      keywordToBrace (text ++ e :: rest) = none := by
    refine keywordToBrace_eq_none ?_
    rw [expect_ending ending letters, missing, map_none]
  have first : (if (left.reverse ++ before).head?.all (· == '\n') = true then
      keywordToBrace (exported (Text.gaps (inner ++ e :: rest))) else none) = none := by
    split
    · rename_i starts
      have standing : left.getLast?.all (· == '\n') = true := by
        rw [← head?_reverse]
        cases turned : left.reverse with
        | nil => rfl
        | cons c others => rwa [turned, cons_append, head?_cons] at starts
      rw [standing, Bool.true_and, isSome_eq_false_iff, isNone_iff_eq_none] at inLine
      rw [gaps_ending ending, exported_ending ending, keyword inLine]
    · rfl
  have third : ((Text.expect "return" (inner ++ e :: rest)).bind gaps1).bind keywordToBrace =
      none := by
    rw [expect_ending ending (by decide), bind_map]
    cases began : Text.expect "return" inner with
    | none => rfl
    | some after =>
      rw [began, bind_some] at returned
      rw [bind_some, Function.comp_apply, gaps1_ending ending]
      cases gap : gaps1 after with
      | none => rfl
      | some next =>
        rw [gap, bind_some] at returned
        exact keyword returned
  rw [joined]
  cases inner with
  | nil =>
    have other : takesOperand e = false := by
      have known : e ∈ ['}', ']', '\x22', '>'] := contains_iff_mem.mp ending
      have none : ∀ d ∈ ['}', ']', '\x22', '>'], takesOperand d = false := by decide
      exact none e known
    rw [nil_append] at first third ⊢
    rw [loose_cons, first, third, other]
    simp
  | cons c inner =>
    have second : (if takesOperand c = true then keywordToBrace (Text.gaps (inner ++ e :: rest))
        else none) = none := by
      split
      · rename_i takes
        rw [head?_cons, any_some, takes, tail_cons, Bool.true_and,
          isSome_eq_false_iff, isNone_iff_eq_none] at operand
        rw [gaps_ending ending, keyword operand]
      · rfl
    rw [cons_append] at first third ⊢
    rw [loose_cons, first, second, third]
    simp

end

theorem takesOperand_of_isHole {c : Char} (hole : isHole c = true) : takesOperand c = false := by
  have apart (d : Char) (known : d.toNat < 128) : (c == d) = false :=
    beq_eq_false_iff_ne.mpr (ne_of_isHole hole known)
  simp [takesOperand, apart]

theorem loose_reads (headless : ∀ c, isHole c = true → Headless (filling.text c).dropLast) :
    filling.Reads loose filling.chars where
  same := filling.chars_same
  unseen c hole before rest := by
    have missing (word : String) (known : ∀ s ∈ word.toList, isHole s = false)
        (more : word.toList ≠ []) : Text.expect word (c :: rest) = none := by
      unfold Text.expect
      obtain ⟨s, others, same⟩ := exists_cons_of_ne_nil more
      rw [same, after?, if_neg]
      rintro rfl
      rw [known s (same ▸ mem_cons_self)] at hole
      cases hole
    have stays : exported (Text.gaps (c :: rest)) = c :: rest := by
      have gaps : Text.gaps (c :: rest) = c :: rest :=
        dropWhile_cons_of_neg (by simp [isInlineBlank_stops.hole c hole])
      rw [gaps, exported, missing "export" (by decide) (by decide)]
      rfl
    refine loose_eq_none ?_ (by exact takesOperand_of_isHole hole)
      (missing "return" (by decide) (by decide)) before
    rw [stays]
    exact keywordToBrace_eq_none (missing "class" (by decide) (by decide))
  hole c hole before rest := by
    obtain ⟨front, last, same, ending⟩ := filling.ends c hole
    have quiet := headless c hole
    rw [same, dropLast_concat] at quiet
    refine cutFrom_unseen fun left right split more => ?_
    rw [same] at split
    exact loose_unseen ending quiet split more before rest

/-! ### Headers without placeholders -/

def isKnown (c : Char) : Bool :=
  ! isHole c

private theorem isKnown_leads : Leads isKnown := by
  refine ⟨fun c gap => ?_, fun c sign => ?_, by decide⟩
  · rw [isKnown, not_eq_true', ← not_eq_true]
    intro hole
    rw [isInlineBlank_stops.hole c hole] at gap
    cases gap
  · rw [isKnown, not_eq_true', ← not_eq_true]
    intro hole
    rw [takesOperand_of_isHole hole] at sign
    cases sign

theorem loose_known {before : Text} {start : Nat} (headed : Headed text)
    (found : loose before text = some (start, rest)) : Past isKnown text rest := by
  refine (loose_past isKnown_leads (fun rest within c member => ?_) found).trans
    ⟨['{'], rfl, by decide⟩
  rw [isKnown, headed rest within c member, Bool.not_false]

end ClassHeader

namespace ClassSugar

variable {filling : Filling}

/-! ### Constants -/

private theorem constant_head {first second third fourth : Text} {name : Text}
    (begun : Text.expect "@lx:const" text = some first) (gap : Text.blanks1 first = some second)
    (named : Text.name second = some (name, third))
    (sign : Text.expect "=" (Text.blanks third) = some fourth) : Past Text.isCalm text fourth :=
  ((Past.after? (by decide) begun).trans (.blanks1 isCalm_of_isBlank gap)).trans
    ((Past.name isCalm_of_isNameStart named).trans
      ((Past.blanks isCalm_of_isBlank third).trans (.after? (by decide) sign)))

theorem constant_eq_some {before name expression : Text}
    (found : constant before text = some ((name, expression), rest)) :
    ∃ front body, text = front ++ body ++ ';' :: rest ∧ Free front ∧ Free name ∧
      content body = some expression := by
  unfold constant at found
  simp only [bind_eq_bind, bind_eq_some_iff] at found
  obtain ⟨first, begun, second, gap, ⟨own, third⟩, named, fourth, sign, ⟨body, last⟩, ended, inner,
    content, same⟩ := found
  cases same
  obtain ⟨front, whole, passed⟩ := constant_head begun gap named sign
  obtain ⟨split, _⟩ := upToSemicolon_eq_some ended
  refine ⟨front, body, ?_, fun c member => isHole_of_isCalm (passed c member), ?_, content⟩
  · rw [whole, split, append_assoc]
  · intro c member
    exact isHole_of_isCalm
      (isCalm_of_isNameStart c ((name_eq_some named).2 c member))

theorem constant_consumes : Consumes constant := by
  rintro before text ⟨name, expression⟩ rest found
  obtain ⟨front, body, whole, _⟩ := constant_eq_some found
  exact ⟨front ++ body ++ [';'], by simp, by simpa using whole⟩

private theorem constant_begins : Begins "@lx:const".toList constant :=
  .of_expect "@lx:const" fun _ _ missing => by simp [constant, missing]

private theorem constant_follows (calm : filling.Calm "@lx:const" text) :
    filling.Follows constant filling.both text := by
  intro left c right whole plain
  unfold constant
  simp only [bind_eq_bind]
  rw [filling.expect_fill_cons (by decide) plain]
  refine bind_carry fun first begun => ?_
  rw [filling.blanks1_fill]
  refine bind_carry fun second gap => ?_
  rw [filling.name_fill]
  refine bind_carry fun named name => ?_
  dsimp only [both]
  rw [filling.blanks_fill, filling.expect_fill (by decide)]
  refine bind_carry fun fourth sign => ?_
  have here := calm.within ⟨left, whole.symm⟩
  rw [here.upToSemicolon ⟨first, (after?_eq_some.mp begun).symm⟩
    (constant_head begun gap name sign)]
  refine bind_carry fun body ended => ?_
  dsimp only [both]
  rw [filling.content_fill]
  exact bind_carry fun expression _ => rfl

theorem constant_reads (absent : ∀ c, isHole c = true → ¬ "@lx:const".toList <:+: filling.text c) :
    filling.Reads constant filling.chars :=
  .of_begins filling constant_begins (by decide) (by decide) absent

section

variable (absent : ∀ c, isHole c = true → ¬ "@lx:const".toList <:+: filling.text c) {text : Text}
  (calm : filling.Calm "@lx:const" text)

include absent calm

theorem classConstants_fill :
    classConstants (filling.fill text) = filling.fill (classConstants text) := by
  refine replace_fill constant_consumes (constant_reads absent) (constant_follows calm) ?_
  rintro ⟨name, expression⟩
  simp only [both, fill_append,
    filling.fill_eq_self (by decide : Free "static get ".toList),
    filling.fill_eq_self (by decide : Free "() \x7b return ".toList),
    filling.fill_eq_self (by decide : Free "; \x7d".toList)]

theorem looseConstants_fill :
    looseConstants (filling.fill text) = filling.fill (looseConstants text) := by
  refine replace_fill constant_consumes (constant_reads absent) (constant_follows calm) ?_
  rintro ⟨name, expression⟩
  simp only [both, fill_append,
    filling.fill_eq_self (by decide : Free "const ".toList),
    filling.fill_eq_self (by decide : Free " = ".toList),
    filling.fill_eq_self (by decide : Free [';'])]

end

/-! ### Namespaces -/

def NamespaceMark.fill (filling : Filling) (text : Text) (mark : NamespaceMark) : NamespaceMark where
  start := filling.place text mark.start
  stop := filling.place text mark.stop
  name := filling.fill mark.name

private theorem namespaceMark_begins : Begins "@lx:namespace".toList namespaceMark :=
  .of_expect "@lx:namespace" fun _ _ missing => by simp [namespaceMark, missing]

theorem namespaceMark_follows (text : Text) :
    filling.Follows namespaceMark (NamespaceMark.fill filling text) text := by
  intro left c right whole plain
  unfold namespaceMark
  simp only [bind_eq_bind]
  rw [filling.expect_fill_cons (by decide) plain]
  refine bind_carry fun first begun => ?_
  rw [filling.blanks1_fill]
  refine bind_carry fun second gap => ?_
  rw [filling.run1?_fill (isNameRest_stops.or_eq (by decide) (by decide))]
  refine bind_carry fun named name => ?_
  dsimp only [both]
  rw [filling.blanks_fill, filling.expect_fill (by decide)]
  refine bind_carry fun rest ended => ?_
  obtain ⟨lexeme, split, _⟩ := namespaceMark_past begun gap name ended
  have joined : text = left ++ lexeme ++ rest := by rw [whole, split, append_assoc]
  have start : (filling.fill left).reverse.length = filling.place text left.reverse.length := by
    rw [length_reverse, length_reverse, whole, filling.place_append]
  have stop : (filling.fill left).reverse.length +
      ((filling.fill (c :: right)).length - (filling.fill rest).length) =
        filling.place text (left.reverse.length + ((c :: right).length - rest.length)) := by
    have size : left.reverse.length + ((c :: right).length - rest.length) = (left ++ lexeme).length := by
      rw [split, length_reverse, length_append, length_append, Nat.add_sub_cancel]
    rw [size, joined, filling.place_append, filling.fill_append, length_append, split,
      filling.fill_append, length_append, length_reverse, Nat.add_sub_cancel]
  rw [start] at stop ⊢
  rw [stop]
  rfl

theorem namespaceMark_reads
    (absent : ∀ c, isHole c = true → ¬ "@lx:namespace".toList <:+: filling.text c) :
    filling.Reads namespaceMark filling.chars :=
  .of_begins filling namespaceMark_begins (by decide) (by decide) absent

end ClassSugar

end PageScript
