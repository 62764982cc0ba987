import Mathlib.Data.List.Infix
import PageScript.Directive.Block
import PageScript.Proofs.Text.Cut

/-! Scripts laid out in blocks, none of them inside another (`filterBlocks_layout`). -/

open List

namespace PageScript

open Text Option

namespace Directive

def opening (word : String) : Text :=
  ("@lx:<" ++ word).toList

def closing (word : String) : Text :=
  ("@lx:" ++ word ++ ">").toList

/-- A block: a label with white space before it and perhaps after it, and a body in which the block is
not closed. -/
structure Block (word : String) where
  gap : Text
  label : Text
  space : Text
  body : Text
  gap_blank : gap ≠ [] ∧ gap.all isBlank = true
  label_word : label ≠ [] ∧ label.all isWord = true
  space_blank : space.all isBlank = true
  body_open : ¬ closing word <:+: body

abbrev Plain (word : String) := { text : Text // ¬ opening word <:+: text }

/-- Plain text with blocks in between: what comes first, and each block with what comes after it. -/
structure Layout (word : String) where
  first : Plain word
  blocks : List (Block word × Plain word)

variable {word : String}

namespace Block

variable (block : Block word) (more : Text)

def text (block : Block word) : Text :=
  opening word ++ block.gap ++ block.label ++ block.space ++ ':' :: block.body ++ closing word

def isFor (block : Block word) (active : Text) : Bool :=
  sameUpToCase block.label active

theorem text_ne_nil : block.text ≠ [] := by
  simp [text, opening]

theorem text_append (rest : Text) :
    block.text ++ rest = opening word ++ (block.gap ++ (block.label ++ (block.space ++ ":".toList ++
      (block.body ++ closing word ++ rest)))) := by
  simp [text]

theorem at_not_mem : '@' ∉ block.gap ++ (block.label ++ (block.space ++ [':'])) := by
  have gap : '@' ∉ block.gap := fun member =>
    absurd (all_eq_true.mp block.gap_blank.2 _ member) (by decide)
  have label : '@' ∉ block.label := fun member =>
    absurd (all_eq_true.mp block.label_word.2 _ member) (by decide)
  have space : '@' ∉ block.space := fun member =>
    absurd (all_eq_true.mp block.space_blank _ member) (by decide)
  simp [gap, label, space]

private theorem isBlank_label : ∀ c ∈ (block.label ++ more).head?, isBlank c = false := by
  obtain ⟨some, inside⟩ := block.label_word
  obtain ⟨c, label, whole⟩ := exists_cons_of_ne_nil some
  rw [whole] at inside ⊢
  intro other same
  cases same
  rw [Bool.eq_false_iff]
  intro blank
  have unlike := isWord_of_isBlank blank
  rw [all_eq_true.mp inside c mem_cons_self] at unlike
  cases unlike

theorem isWord_space : ∀ c ∈ (block.space ++ ":".toList ++ more).head?, isWord c = false := by
  have blank := block.space_blank
  intro other same
  cases whole : block.space with
  | nil =>
    rw [whole] at same
    cases same
    decide
  | cons c space =>
    rw [whole] at same blank
    cases same
    exact isWord_of_isBlank (all_eq_true.mp blank _ mem_cons_self)

theorem blanks_space : blanks (block.space ++ ":".toList ++ more) = ":".toList ++ more := by
  rw [append_assoc]
  refine blanks_append (all_eq_true.mp block.space_blank) ?_
  intro c same
  cases same
  decide

theorem blanks1_gap : blanks1 (block.gap ++ (block.label ++ more)) = some (block.label ++ more) :=
  blanks1_append block.gap_blank.1 (all_eq_true.mp block.gap_blank.2)
    (block.isBlank_label more)

private theorem labelledBlock_text (once : '@' ∉ word.toList) (before rest : Text) :
    labelledBlock word before (block.text ++ rest) = some ((block.label, block.body), rest) := by
  have opens : opening word = "@lx:<".toList ++ word.toList := String.toList_append
  have marker : closing word = '@' :: ("lx:".toList ++ word.toList ++ ['>']) := by
    simp [closing]
  have closes : cutAt? (closing word) (block.body ++ closing word ++ rest) =
      some (block.body, rest) := by
    have open_ := block.body_open
    rw [marker] at open_ ⊢
    exact cutAt?_append (by simp [once]) open_ rest
  rw [text_append, opens, append_assoc, labelledBlock, expect_append]
  simp only [bind_eq_bind, bind_some, expect_append, block.blanks1_gap,
    run1?_append block.label_word.1 (all_eq_true.mp block.label_word.2)
      (block.isWord_space _), block.blanks_space]
  rw [show ("@lx:" ++ word ++ ">").toList = closing word from rfl, closes]
  rfl

end Block

/-- Where no block opens none is recognised, and none begins there and reaches into what comes next. -/
theorem Plain.silent (plain : Plain word) (once : '@' ∉ word.toList) {rest : Text}
    (next : rest = [] ∨ rest.head? = some '@') :
    Silent (labelledBlock word) plain.val rest := by
  obtain ⟨text, free⟩ := plain
  intro before part more within
  rw [eq_none_iff_forall_ne_some]
  intro found recognised
  have marker : opening word = '@' :: ("lx:<".toList ++ word.toList) := by
    simp [opening]
  have starts : opening word <+: part ++ rest := by
    rw [labelledBlock] at recognised
    obtain ⟨after, expected, recognised⟩ := bind_eq_some_iff.mp recognised
    obtain ⟨beyond, named, _⟩ := bind_eq_some_iff.mp recognised
    rw [after?_eq_some.mp expected, after?_eq_some.mp named, ← append_assoc, opening,
      String.toList_append]
    exact prefix_append _ beyond
  rw [marker] at starts free
  exact not_prefix_append (by simp [once]) free more within next starts

namespace Layout

variable (layout : Layout word) {left right : Layout word}

def laterText (blocks : List (Block word × Plain word)) : Text :=
  blocks.flatMap fun (block, plain) => block.text ++ plain.val

def text (layout : Layout word) : Text :=
  layout.first.val ++ laterText layout.blocks

/-- What filtering leaves: the plain text and the bodies for the active label, in order. -/
def kept (active : Text) (layout : Layout word) : Text :=
  layout.first.val ++ layout.blocks.flatMap fun (block, plain) =>
    (if block.isFor active then block.body else []) ++ plain.val

def pieces (layout : Layout word) : List (Piece (Text × Text)) :=
  layout.first.val.map .plain ++ layout.blocks.flatMap fun (block, plain) =>
    .found block.text (block.label, block.body) :: plain.val.map .plain

theorem laterText_starts (blocks : List (Block word × Plain word)) :
    laterText blocks = [] ∨ (laterText blocks).head? = some '@' := by
  cases blocks with
  | nil => exact .inl rfl
  | cons item rest => exact .inr (by simp [laterText, Block.text, opening])

private theorem cut_text (once : '@' ∉ word.toList) :
    cut (labelledBlock word) layout.text = layout.pieces := by
  obtain ⟨first, blocks⟩ := layout
  suffices parts : ∀ before : Text, cutFrom (labelledBlock word) before 0
      (first.val ++ laterText blocks) = pieces ⟨first, blocks⟩ from parts []
  intro before
  -- one block after another, each with the plain text after it
  induction blocks generalizing first before with
  | nil =>
    rw [cutFrom_silent (first.silent once (laterText_starts []))]
    rfl
  | cons item rest ih =>
    obtain ⟨block, plain⟩ := item
    have split : laterText ((block, plain) :: rest) =
        block.text ++ (plain.val ++ laterText rest) := by
      simp [laterText]
    rw [cutFrom_silent (first.silent once (laterText_starts _)), split,
      cutFrom_found block.text_ne_nil (block.labelledBlock_text once _ _), ih]
    simp [pieces]

private theorem filterBlocks_text (once : '@' ∉ word.toList) (active : Text) :
    filterBlocks word active layout.text = layout.kept active := by
  unfold filterBlocks Text.replace
  rw [cut_text layout once, pieces, kept, writePieces_append, writePieces_plain]
  refine congrArg (layout.first.val ++ ·) ?_
  induction layout.blocks with
  | nil => rfl
  | cons item rest ih =>
    obtain ⟨block, plain⟩ := item
    rw [flatMap_cons, flatMap_cons, writePieces_append, writePieces_found,
      writePieces_plain, ih]
    rfl

theorem occurrences_text (once : '@' ∉ word.toList) : occurrences (labelledBlock word) layout.text =
      layout.blocks.map fun (block, _) => (block.label, block.body) := by
  rw [occurrences, cut_text layout once, pieces, filterMap_append,
    filterMap_value?_plain, nil_append]
  induction layout.blocks with
  | nil => rfl
  | cons item rest ih =>
    obtain ⟨block, plain⟩ := item
    rw [flatMap_cons, filterMap_append, ih, filterMap_cons,
      filterMap_value?_plain]
    rfl

/-- Two layouts differ at most in the bodies of blocks that are not for the active label. -/
structure SameFor (active : Text) (left right : Layout word) : Prop where
  first : left.first = right.first
  blocks : List.Forall₂ (fun (l, plain) (r, other) =>
    plain = other ∧ l.gap = r.gap ∧ l.label = r.label ∧ l.space = r.space ∧
      (l.isFor active = true → l.body = r.body)) left.blocks right.blocks

def keptAfter (change : Text → Text) (active : Text) (layout : Layout word) : Text :=
  change layout.first.val ++ layout.blocks.flatMap fun (block, plain) =>
    (if block.isFor active then change block.body else []) ++ change plain.val

theorem SameFor.keptAfter {active : Text} (same : left.SameFor active right)
    (change : Text → Text) : left.keptAfter change active = right.keptAfter change active := by
  obtain ⟨first, blocks⟩ := same
  unfold Layout.keptAfter
  rw [first]
  refine congrArg (change right.first.val ++ ·) ?_
  generalize left.blocks = here at blocks ⊢
  generalize right.blocks = there at blocks ⊢
  induction blocks with
  | nil => rfl
  | @cons l r _ _ agree _ ih =>
    obtain ⟨block, plain⟩ := l
    obtain ⟨other, _⟩ := r
    obtain ⟨rfl, _, label, _, body⟩ := agree
    have alike : other.isFor active = block.isFor active := by
      rw [Block.isFor, Block.isFor, label]
    rw [flatMap_cons, flatMap_cons, ih]
    dsimp only
    rw [alike]
    split
    · rename_i shown
      rw [body shown]
    · rfl

theorem SameFor.kept {active : Text} (same : left.SameFor active right) :
    left.kept active = right.kept active :=
  same.keptAfter id

end Layout

/-- Filtering the blocks of a script for a side or for a mode: of a text with blocks in it, the plain
text and the bodies with the active label in any case are left, in order. So two texts that differ only
in other bodies become the same. -/
theorem filterBlocks_layout (word : String) (known : word = "context" ∨ word = "mode")
    (active : Text) :
    (∀ layout : Layout word, filterBlocks word active layout.text = layout.kept active) ∧
    ∀ left right : Layout word, left.SameFor active right →
      filterBlocks word active left.text = filterBlocks word active right.text := by
  have once : '@' ∉ word.toList := by
    rcases known with rfl | rfl <;> decide
  refine ⟨fun layout => layout.filterBlocks_text once active, fun left right same => ?_⟩
  rw [left.filterBlocks_text once, right.filterBlocks_text once, same.kept]

def bothSides (secret : Text) (open_ : ¬ closing "context" <:+: secret) : Layout "context" where
  first := ⟨"a();@lx:<contex".toList, by decide⟩
  blocks := [
    (⟨['\t'], "server".toList, [' ', '\t'], secret, by decide, by decide, by decide, open_⟩,
      ⟨"b();@lx:context>".toList, by decide⟩),
    (⟨['\n', '\t'], "Client".toList, [' '], "c();@lx:<context server:@lx:mode>@lx:context".toList,
      by decide, by decide, by decide, by decide⟩, ⟨[], by decide⟩)]

theorem filterBlocks_layout_bothSides :
    filterBlocks "context" "CLIENT".toList (bothSides "key(1);".toList (by decide)).text =
      "a();@lx:<contexb();@lx:context>c();@lx:<context server:@lx:mode>@lx:context".toList ∧
    filterBlocks "context" "CLIENT".toList (bothSides "key(1);".toList (by decide)).text =
      filterBlocks "context" "CLIENT".toList (bothSides "@lx:<context".toList (by decide)).text := by
  obtain ⟨exactly, hidden⟩ := filterBlocks_layout "context" (.inl rfl) "CLIENT".toList
  refine ⟨(exactly _).trans (by decide +kernel), hidden _ _ ⟨rfl, ?_⟩⟩
  refine .cons ⟨rfl, rfl, rfl, rfl, ?_⟩ (.cons ⟨rfl, rfl, rfl, rfl, fun _ => rfl⟩ .nil)
  intro shown
  cases shown

end Directive

end PageScript
