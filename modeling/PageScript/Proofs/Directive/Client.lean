import PageScript.Proofs.Directive.Layout
import PageScript.Script.Comment

/-! Blocks for the client, looked for in the source by a page and after comments are gone by compiling. -/

open List

namespace PageScript.Directive

open Text (Silent asciiUpper sameUpToCase)

def OccursAnyCase (marker text : Text) : Prop :=
  asciiUpper marker <:+: asciiUpper text

instance (marker text : Text) : Decidable (OccursAnyCase marker text) :=
  inferInstanceAs (Decidable (asciiUpper marker <:+: asciiUpper text))

theorem toUpper_cases (c : Char) : c = c.toUpper ∨ c = Char.ofNat (c.toUpper.toNat + 32) := by
  by_cases small : c.toNat < 128
  · have known : ∀ code < 128, Char.ofNat code = (Char.ofNat code).toUpper ∨
        Char.ofNat code = Char.ofNat ((Char.ofNat code).toUpper.toNat + 32) := by
      decide +kernel
    have here := known c.toNat small
    rwa [Char.ofNat_toNat] at here
  · left
    unfold Char.toUpper
    rw [dif_neg]
    rintro ⟨_, high⟩
    exact small (Nat.lt_of_le_of_lt (UInt32.le_iff_toNat_le.mp high) (by decide))

private theorem eq_at_of_toUpper {c : Char} (same : c.toUpper = '@') : c = '@' := by
  rcases toUpper_cases c with upper | lower
  · rw [upper, same]
  · rw [same] at lower
    rw [lower] at same
    exact absurd same (by decide)

theorem expectAnyCase_eq_some {start text rest : Text} (found : expectAnyCase start text = some rest) :
    asciiUpper start = asciiUpper (text.take start.length) ∧ rest = text.drop start.length := by
  unfold expectAnyCase at found
  split at found
  · rename_i same
    cases found
    exact ⟨(beq_iff_eq.mp same).symm, rfl⟩
  · cases found

theorem expectAnyCase_prefix {start text rest : Text} (found : expectAnyCase start text = some rest) :
    asciiUpper start <+: asciiUpper text := by
  rw [(expectAnyCase_eq_some found).1]
  exact (List.take_prefix _ text).map _

private theorem expectAnyCase_append {start taken : Text} (same : sameUpToCase taken start = true)
    (rest : Text) : expectAnyCase start (taken ++ rest) = some rest := by
  have size : start.length = taken.length := by
    have sizes := congrArg List.length (beq_iff_eq.mp same)
    simpa [asciiUpper] using sizes.symm
  rw [expectAnyCase, size, take_left, drop_left, if_pos same]

theorem cutAtAnyCase?_append {first : Char} {marker upper text : Text} (once : first ∉ upper)
    (capitals : asciiUpper marker = first :: upper) (absent : ¬ OccursAnyCase marker text)
    (rest : Text) : cutAtAnyCase? marker (text ++ marker ++ rest) = some (text, rest) := by
  have found : expectAnyCase marker (marker ++ rest) = some rest :=
    expectAnyCase_append (beq_self_eq_true _) rest
  induction text with
  | nil =>
    cases marker with
    | nil => cases capitals
    | cons c marker => rw [nil_append, cons_append, cutAtAnyCase?, ← cons_append, found]
  | cons c text ih =>
    have later := ih fun within =>
      absent (within.trans ((suffix_cons c text).isInfix.map Char.toUpper))
    have missing : expectAnyCase marker (c :: text ++ (marker ++ rest)) = none := by
      rw [Option.eq_none_iff_forall_ne_some]
      intro after seen
      have start := expectAnyCase_prefix seen
      unfold OccursAnyCase at absent
      rw [asciiUpper, asciiUpper, map_append, map_append] at start
      change asciiUpper marker <+: asciiUpper (c :: text) ++ (asciiUpper marker ++ _) at start
      rw [capitals] at start absent
      exact Text.not_prefix_append once absent (cons_ne_nil _ _) (suffix_refl _) (.inr rfl)
        start
    rw [append_assoc] at later ⊢
    rw [cons_append] at missing ⊢
    rw [cutAtAnyCase?, missing, later]
    rfl

theorem opening_capitals : asciiUpper (opening "context") = '@' :: "LX:<CONTEXT".toList := by
  decide

theorem closing_capitals : asciiUpper (closing "context") = '@' :: "LX:CONTEXT>".toList := by
  decide

private theorem expectAnyCase_opening (rest : Text) :
    expectAnyCase "@lx:<context".toList (opening "context" ++ rest) = some rest :=
  expectAnyCase_append (by decide) rest

private theorem clientBlock_prefix {before text : Text} {found : Text × Text}
    (seen : clientBlock before text = some found) :
    '@' :: "LX:<CONTEXT".toList <+: asciiUpper text := by
  obtain ⟨rest, begun, _⟩ := Option.bind_eq_some_iff.mp seen
  rw [← opening_capitals]
  exact expectAnyCase_prefix begun

theorem clientBlock_silent {text rest : Text} (absent : ¬ OccursAnyCase (opening "context") text)
    (next : rest = [] ∨ rest.head? = some '@') : Silent clientBlock text rest := by
  intro before part more within
  rw [Option.eq_none_iff_forall_ne_some]
  intro found seen
  have start := clientBlock_prefix seen
  unfold OccursAnyCase at absent
  rw [opening_capitals] at absent
  rw [asciiUpper, map_append] at start
  refine Text.not_prefix_append (by decide) absent ?_ (within.map Char.toUpper) ?_ start
  · simpa using more
  · rcases next with rfl | first
    · exact .inl rfl
    · right
      rw [head?_map, first]
      rfl

private theorem clientBlock_silent_of_not_mem {text : Text} (absent : '@' ∉ text) (rest : Text) :
    Silent clientBlock text rest := by
  intro before part more within
  rw [Option.eq_none_iff_forall_ne_some]
  intro found seen
  have start := clientBlock_prefix seen
  cases part with
  | nil => exact more rfl
  | cons c part =>
    have first : c.toUpper = '@' := (cons_prefix_cons.mp start).1.symm
    rw [eq_at_of_toUpper first] at within
    exact absent (within.subset mem_cons_self)

private theorem closing_silent (rest : Text) : Silent clientBlock (closing "context") rest := by
  have split : closing "context" = ['@'] ++ "lx:context>".toList := by decide
  rw [split]
  refine Silent.append ?_ (clientBlock_silent_of_not_mem (by decide) rest)
  intro before part more within
  rw [Option.eq_none_iff_forall_ne_some]
  intro found seen
  have start := clientBlock_prefix seen
  rcases suffix_cons_iff.mp within with rfl | nothing
  · simp [asciiUpper] at start
  · exact more (suffix_nil.mp nothing)

theorem isWord_of_client {c : Char} (member : c.toUpper ∈ "CLIENT".toList) : isWord c = true := by
  have known : ("CLIENT".toList.all fun d => isWord d && isWord (Char.ofNat (d.toNat + 32))) = true := by
    decide +kernel
  obtain ⟨capital, small⟩ := Bool.and_eq_true_iff.mp (all_eq_true.mp known _ member)
  rcases toUpper_cases c with upper | lower
  · rw [upper]
    exact capital
  · rw [lower]
    exact small

private theorem client_within {label tail after : Text} (more : tail ≠ [])
    (ended : ∀ c ∈ tail.head?, isWord c = false)
    (named : expectAnyCase "client".toList (label ++ tail) = some after) :
    sameUpToCase (label.take 6) "client".toList = true ∧ after = label.drop 6 ++ tail := by
  obtain ⟨same, rfl⟩ := expectAnyCase_eq_some named
  change asciiUpper "client".toList = asciiUpper ((label ++ tail).take 6) at same
  have long : 6 ≤ label.length := by
    by_contra short
    obtain ⟨c, tail, rfl⟩ := exists_cons_of_ne_nil more
    obtain ⟨left, size⟩ : ∃ left, 6 - label.length = left + 1 := ⟨5 - label.length, by omega⟩
    have member : c ∈ (label ++ c :: tail).take 6 := by
      rw [take_append, size, take_succ_cons]
      exact mem_append_right _ mem_cons_self
    have letter : c.toUpper ∈ "CLIENT".toList := by
      have shown : c.toUpper ∈ asciiUpper ((label ++ c :: tail).take 6) := mem_map_of_mem member
      rwa [← same] at shown
    have unlike := ended c rfl
    rw [isWord_of_client letter] at unlike
    cases unlike
  rw [take_append_of_le_length long] at same
  exact ⟨beq_iff_eq.mpr same.symm, drop_append_of_le_length long⟩

namespace Block

variable (block : Block "context")

private theorem clientBlock_text (mine : block.isFor "client".toList = true)
    (open_ : ¬ OccursAnyCase (closing "context") block.body) (before rest : Text) :
    clientBlock before (block.text ++ rest) = some (block.body, rest) := by
  have closes : cutAtAnyCase? "@lx:context>".toList (block.body ++ closing "context" ++ rest) =
      some (block.body, rest) :=
    cutAtAnyCase?_append (by decide) closing_capitals open_ rest
  rw [text_append, clientBlock, expectAnyCase_opening]
  simp only [Option.bind_eq_bind, Option.bind_some, block.blanks1_gap, expectAnyCase_append mine,
    block.blanks_space, Text.expect_append]
  rw [closes]
  rfl

theorem clientBlock_none (other : block.isFor "client".toList = false) (before rest : Text) :
    clientBlock before (block.text ++ rest) = none := by
  rw [Option.eq_none_iff_forall_ne_some]
  intro found seen
  rw [text_append, clientBlock, expectAnyCase_opening] at seen
  simp only [Option.bind_eq_bind, Option.bind_some, block.blanks1_gap] at seen
  obtain ⟨after, named, seen⟩ := Option.bind_eq_some_iff.mp seen
  obtain ⟨_, colon, _⟩ := Option.bind_eq_some_iff.mp seen
  obtain ⟨start, rfl⟩ := client_within (by simp) (block.isWord_space _) named
  cases remains : block.label.drop 6 with
  | nil =>
    -- the label is that of the client
    have whole : block.label.take 6 = block.label := by
      rw [← append_nil (block.label.take 6), ← remains, take_append_drop]
    rw [isFor, ← whole, start] at other
    cases other
  | cons c remaining =>
    -- the label goes on, so no colon can follow
    have among : c ∈ block.label.drop 6 := remains ▸ mem_cons_self
    have inside : isWord c = true :=
      all_eq_true.mp block.label_word.2 c (mem_of_mem_drop among)
    have solid : isBlank c = false := by
      rw [Bool.eq_false_iff]
      intro blank
      rw [isWord_of_isBlank blank] at inside
      cases inside
    rw [remains, cons_append, Text.blanks, dropWhile_cons_of_neg (by simp [solid])] at colon
    have same : c = ':' := by
      have begun := Text.after?_eq_some.mp colon
      exact (List.cons.inj begun).1
    rw [same] at inside
    exact absurd inside (by decide)

private theorem silent (other : block.isFor "client".toList = false)
    (flat : ¬ OccursAnyCase (opening "context") block.body) (rest : Text) :
    Silent clientBlock block.text rest := by
  have parts : block.text = ['@'] ++ ("lx:<context".toList ++ block.gap ++ block.label ++ block.space ++
      [':'] ++ (block.body ++ closing "context")) := by
    simp [text, opening]
  have header : '@' ∉ "lx:<context".toList ++ block.gap ++ block.label ++ block.space ++ [':'] := by
    simpa using block.at_not_mem
  rw [parts]
  refine Silent.append ?_ (Silent.append (clientBlock_silent_of_not_mem header _)
    (Silent.append (clientBlock_silent flat (.inr rfl)) (closing_silent rest)))
  intro before part more within
  rcases suffix_cons_iff.mp within with rfl | nothing
  · rw [← append_assoc, ← parts]
    exact block.clientBlock_none other before rest
  · exact absurd (suffix_nil.mp nothing) more

end Block

namespace Layout

def bodiesFor (active : Text) {word : String} (layout : Layout word) : List Text :=
  (layout.blocks.filter (·.1.isFor active)).map (·.1.body)

/-- No marker in any case stands where it could be taken for one of a block for the client. -/
structure Flat (layout : Layout "context") : Prop where
  first : ¬ OccursAnyCase (opening "context") layout.first.val
  closings : ∀ item ∈ layout.blocks, ¬ OccursAnyCase (closing "context") item.1.body
  openings : ∀ item ∈ layout.blocks, ¬ OccursAnyCase (opening "context") item.2.val ∧
    (item.1.isFor "client".toList = false → ¬ OccursAnyCase (opening "context") item.1.body)

private theorem clientBodies_text {layout : Layout "context"} (flat : layout.Flat) :
    clientBodies layout.text = layout.bodiesFor "client".toList := by
  obtain ⟨first, blocks⟩ := layout
  obtain ⟨start, closings, openings⟩ := flat
  dsimp only at start closings openings
  suffices found : ∀ before : Text, (Text.cutFrom clientBlock before 0
      (first.val ++ laterText blocks)).filterMap Piece.value? =
        (blocks.filter (·.1.isFor "client".toList)).map (·.1.body) from found []
  intro before
  induction blocks generalizing first before with
  | nil =>
    rw [Text.cutFrom_silent (clientBlock_silent start (laterText_starts []))]
    rw [filterMap_append, Text.filterMap_value?_plain]
    rfl
  | cons item rest ih =>
    obtain ⟨block, plain⟩ := item
    obtain ⟨closed, closings⟩ := forall_mem_cons.mp closings
    obtain ⟨⟨next, inside⟩, openings⟩ := forall_mem_cons.mp openings
    have later := ih plain next closings openings
    have split : laterText ((block, plain) :: rest) =
        block.text ++ (plain.val ++ laterText rest) := by
      simp [laterText]
    rw [Text.cutFrom_silent (clientBlock_silent start (laterText_starts _)), split,
      filterMap_append, Text.filterMap_value?_plain, nil_append]
    cases mine : block.isFor "client".toList with
    | true =>
      rw [Text.cutFrom_found block.text_ne_nil (block.clientBlock_text mine closed _ _),
        filterMap_cons, later, filter_cons, mine]
      rfl
    | false =>
      rw [Text.cutFrom_silent (block.silent mine (inside mine) _), filterMap_append,
        Text.filterMap_value?_plain, later, filter_cons, mine]
      rfl

end Layout

/-- The script as the pass over it looks for blocks: without directives that are commented out and
without comments. -/
def uncommented (source : Text) : Text :=
  Script.stripComments (dropCommentedOut source)

def presentBodies (source : Text) : List Text :=
  ((Text.occurrences (labelledBlock "context") (uncommented source)).filter
    fun (label, _) => sameUpToCase label "client".toList).map (·.2)

private theorem presentBodies_text {source : Text} {left : Layout "context"}
    (gone : uncommented source = left.text) :
    presentBodies source = left.bodiesFor "client".toList := by
  rw [presentBodies, gone, left.occurrences_text (by decide), filter_map, map_map]
  rfl

/-- In a source that is laid out in blocks, a page finds every block for the client, in a comment or not,
and compiling finds those that are left without comments. So what a page finds is there for compiling
exactly if comments hide no such block. -/
theorem clientBodies_present_iff (raw left : Layout "context") (flat : raw.Flat)
    (gone : uncommented raw.text = left.text) :
    clientBodies raw.text = raw.bodiesFor "client".toList ∧
    presentBodies raw.text = left.bodiesFor "client".toList ∧
    ((∀ body ∈ clientBodies raw.text, body ∈ presentBodies raw.text) ↔
      raw.bodiesFor "client".toList ⊆ left.bodiesFor "client".toList) := by
  have found := Layout.clientBodies_text flat
  have present := presentBodies_text gone
  refine ⟨found, present, ?_⟩
  rw [found, present]
  exact Iff.rfl

def hiddenBlock : Layout "context" where
  first := ⟨"// ".toList, by decide⟩
  blocks := [
    (⟨[' '], "CLIENT".toList, [], " old(); ".toList, by decide, by decide, by decide, by decide⟩,
      ⟨"\nreturn \x7bhtml: '<p></p>'\x7d;".toList, by decide⟩)]

theorem clientBodies_present_iff_hiddenBlock :
    clientBodies hiddenBlock.text = [" old(); ".toList] ∧
      ¬ ∀ body ∈ clientBodies hiddenBlock.text, body ∈ presentBodies hiddenBlock.text := by
  have flat : hiddenBlock.Flat := ⟨by decide, by decide, by decide⟩
  obtain ⟨found, _, agree⟩ := clientBodies_present_iff hiddenBlock
    ⟨⟨"\nreturn \x7bhtml: '<p></p>'\x7d;".toList, by decide⟩, []⟩ flat (by decide +kernel)
  exact ⟨found, fun present => absurd (agree.mp present) (by decide)⟩

end PageScript.Directive
