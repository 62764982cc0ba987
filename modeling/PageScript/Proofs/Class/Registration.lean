import PageScript.Proofs.Class.Unbalanced
import PageScript.Proofs.Lists

/-! The classes that are registered: those whose header begins its line (`desugar_registers_iff`). -/

open List

namespace PageScript

open Text ClassHeader Option

variable {file : String} {code text before header after : Text}

private theorem bne_of_false {p : Char → Bool} {d : Char} (other : p d = false) (c : Char)
    (inside : p c = true) : (c != d) = true := by
  rw [bne_iff_ne]
  rintro rfl
  rw [other] at inside
  cases inside

namespace ClassHeader

variable {heading : Heading}

private theorem ends_past (ended : ends text = true) : Past (· != '{') text ['{'] := by
  rw [← eq_of_beq ended]
  exact .blanks (bne_of_false (by decide)) text

private theorem named_past (read : named text = some heading) : Past (· != '{') text ['{'] := by
  unfold named at read
  simp only [bind_eq_bind, bind_eq_some_iff] at read
  obtain ⟨first, gap, ⟨name, second⟩, named, parent, inherits, _⟩ := read
  refine (Past.blanks1 (bne_of_false (by decide)) gap).trans
    ((Past.name (bne_of_false (by decide)) named).trans ?_)
  unfold heritage at inherits
  dsimp only at inherits
  split at inherits
  · rename_i parent extended
    simp only [bind_eq_bind, bind_eq_some_iff] at extended
    obtain ⟨third, gap, fourth, keyword, fifth, space, ⟨own, last⟩, parent, ended⟩ := extended
    obtain ⟨ended, _⟩ := ite_none_right_eq_some.mp ended
    have inner : Past (· != '{') fifth last := by
      unfold nameOf at parent
      split at parent
      · rename_i c chars
        obtain ⟨start, same⟩ := ite_none_right_eq_some.mp parent
        cases same
        have first : Past (· != '{') (c :: chars) chars :=
          ⟨[c], rfl, forall_mem_singleton.mpr (bne_of_false (by decide) c start)⟩
        exact first.trans (.dropWhile (bne_of_false (by decide)) chars)
      · cases parent
    exact (Past.blanks1 (bne_of_false (by decide)) gap).trans ((Past.after? (by decide) keyword).trans
      ((Past.blanks1 (bne_of_false (by decide)) space).trans (inner.trans (ends_past ended))))
  · obtain ⟨ended, _⟩ := ite_none_right_eq_some.mp inherits
    exact ends_past ended

private theorem loose_of_declaration (begins : LineEnded before) (flat : '\n' ∉ header)
    (read : declaration? header = some heading) (after : Text) :
    loose before.reverse (header ++ after) = some (before.length, after) := by
  obtain ⟨rest, keyword, named⟩ := bind_eq_some_iff.mp read
  have own : gaps header = "class".toList ++ rest := after?_eq_some.mp keyword
  obtain ⟨front, rfl, apart⟩ := named_past named
  have lead : gaps (header ++ after) = "class".toList ++ (front ++ ['{'] ++ after) := by
    have some : (header.dropWhile isInlineBlank).isEmpty = false := by
      change (gaps header).isEmpty = false
      rw [own]
      rfl
    rw [gaps, dropWhile_append, some, ← append_assoc, ← own]
    rfl
  have smooth : ∀ c ∈ front, (c != '\n' && c != '{') = true := by
    intro c member
    have within : c ∈ gaps header := by
      rw [own]
      simp [member]
    have inHeader : c ∈ header := (dropWhile_sublist _).subset within
    rw [Bool.and_eq_true, bne_iff_ne]
    exact ⟨fun same => flat (same ▸ inHeader), apart c member⟩
  have spaced : ∃ b others, front = b :: others ∧ isWord b = false := by
    cases front with
    | nil => cases named
    | cons b others =>
      refine ⟨b, others, rfl, isWord_of_isBlank ?_⟩
      obtain ⟨_, gap, _⟩ := bind_eq_some_iff.mp named
      exact (ite_none_right_eq_some.mp gap).1
  obtain ⟨b, others, rfl, unworded⟩ := spaced
  have inLine : keywordToBrace (exported (gaps (header ++ after))) = some after := by
    have stops : ((b :: others) ++ '{' :: after).dropWhile (fun c => c != '\n' && c != '{') =
        '{' :: after := by
      rw [dropWhile_append_of_pos smooth]
      rfl
    rw [lead, append_assoc, singleton_append]
    change keywordToBrace ("class".toList ++ (b :: others ++ '{' :: after)) = _
    unfold keywordToBrace
    rw [expect_append]
    simp only [bind_eq_bind, bind_some, cons_append, unworded] at stops ⊢
    rw [stops]
    rfl
  unfold loose
  rcases begins with rfl | last
  · simp [inLine]
  · simp [head?_reverse, last, inLine]

private theorem begins_of_loose {found : Nat × Text} (read : declaration? header = some heading)
    (seen : loose before.reverse (header ++ after) = some found) : LineEnded before := by
  cases header with
  | nil => cases read
  | cons c header =>
    have first : c = ' ' ∨ c = '\t' ∨ c = 'c' := by
      obtain ⟨rest, keyword, _⟩ := bind_eq_some_iff.mp read
      have own : gaps (c :: header) = "class".toList ++ rest := after?_eq_some.mp keyword
      by_cases blank : isInlineBlank c = true
      · simp only [isInlineBlank, Bool.or_eq_true, beq_iff_eq] at blank
        exact blank.imp id .inl
      · rw [gaps, dropWhile_cons_of_neg blank] at own
        exact .inr (.inr (List.cons.inj own).1)
    have other : takesOperand c = false ∧ ∀ rest, expect "return" (c :: rest) = none := by
      rcases first with rfl | rfl | rfl <;> exact ⟨rfl, fun _ => rfl⟩
    rw [LineEnded, ← head?_reverse, ← reverse_eq_nil_iff]
    unfold loose at seen
    simp only [cons_append, other.1, other.2] at seen
    split at seen
    · rename_i none
      exact .inl (head?_eq_none_iff.mp none)
    · rename_i newline
      exact .inr newline
    · simp at seen

private theorem kind_of_declaration (read : declaration? header = some heading) :
    ∃ name, heading.name = some name ∧ kind header = .declaration name := by
  obtain ⟨name, named, _⟩ := declared_name read
  cases heading with
  | mk own parent =>
    cases named
    exact ⟨name, rfl, by rw [kind, read]⟩

end ClassHeader

namespace ClassSugar

private theorem exists_boundary {α : Type} {pieces : List (Piece α)}
    (flat : ∀ lexeme value, .found lexeme value ∈ pieces → '\n' ∉ lexeme) {front back : Text}
    (whole : pieces.flatMap Piece.source = front ++ '\n' :: back) :
    ∃ left right, pieces = left ++ right ∧ left.flatMap Piece.source = front ++ ['\n'] := by
  induction pieces generalizing front with
  | nil => simp at whole
  | cons piece rest ih =>
    rw [flatMap_cons] at whole
    rcases append_eq_append_cons whole with ⟨more, here⟩ | ⟨more, rfl, later⟩
    · cases piece with
      | plain c =>
        obtain ⟨rfl, rfl⟩ := singleton_eq_append_cons here
        exact ⟨[.plain '\n'], rest, rfl, rfl⟩
      | found lexeme value =>
        refine absurd ?_ (flat lexeme value mem_cons_self)
        rw [show lexeme = _ from here]
        simp
    · obtain ⟨left, right, rfl, same⟩ :=
        ih (fun lexeme value member => flat lexeme value (mem_cons_of_mem piece member)) later
      refine ⟨piece :: left, right, rfl, ?_⟩
      rw [flatMap_cons, same, append_assoc]

theorem header_mem_marks (whole : code = before ++ (header ++ after)) (begins : LineEnded before)
    (more : header ≠ [])
    (seen : loose before.reverse (header ++ after) = some (before.length, after)) :
    .header before.length (before.length + header.length - 1) ∈ marks code := by
  have flat : ∀ lexeme start, .found lexeme start ∈ cut loose code → '\n' ∉ lexeme := by
    intro lexeme start member
    obtain ⟨left, right, pieces⟩ := append_of_mem member
    obtain ⟨front, own, smooth⟩ := loose_eq_some (loose_consumes.cut pieces)
    have split : lexeme = front ++ ['{'] :=
      append_cancel_right (own.trans (append_assoc front ['{'] _).symm)
    rw [split]
    simp [smooth]
  have whole := (flatMap_source_cut loose code).trans whole
  obtain ⟨left, right, pieces, own⟩ : ∃ left right, cut loose code = left ++ right ∧
      left.flatMap Piece.source = before := by
    rcases begins with rfl | last
    · exact ⟨[], _, rfl, rfl⟩
    · obtain ⟨front, rfl⟩ := getLast?_eq_some_iff.mp last
      exact exists_boundary flat (by simpa using whole)
  have rest := loose_consumes.split pieces
  rw [pieces, flatMap_append, own, append_cancel_left_eq] at whole
  rw [whole, own, append_nil, cutFrom_found more seen] at rest
  rw [mem_marks]
  refine .inr ⟨header, before.length, ?_, rfl⟩
  rw [pieces, ← rest]
  simp

/-- The place is in kept text, or a class begins there. -/
def Outside (code : Text) (place : Nat) : Prop :=
  ∃ left part right, parts code = left ++ part :: right ∧ (left.flatMap Part.source).length ≤ place ∧
    place < (left.flatMap Part.source).length + part.source.length ∧
    ((∃ text, part = .kept text) ∨
      (left.flatMap Part.source).length = place ∧ ∃ kind text, part = .taken kind text)

theorem inForce_directive (space : Option Text) (earlier : List (Part Text)) (own name : Text)
    {later : List (Part Text)} (last : ∀ own name, .directive own name ∉ later) :
    inForce space (earlier ++ .directive own name :: later) = some name := by
  induction earlier generalizing space with
  | nil =>
    change inForce (some name) later = some name
    induction later with
    | nil => rfl
    | cons part rest ih =>
      have others := ih fun own name member => last own name (mem_cons_of_mem part member)
      cases part with
      | kept text => exact others
      | directive own name => exact absurd mem_cons_self (last own name)
      | taken kind text => exact others
  | cons part rest ih => cases part <;> exact ih _

theorem loose_of_mem_marks {brace : Nat} (mark : .header before.length brace ∈ marks (before ++ text)) :
    ∃ front rest, text = front ++ '{' :: rest ∧ brace = before.length + front.length ∧
      loose before.reverse text = some (before.length, rest) := by
  obtain ⟨_, front, rest, whole, _, starts, ends, found⟩ := exists_of_mem_marks mark
  rw [append_assoc] at whole
  obtain ⟨rfl, others⟩ := append_inj whole starts
  exact ⟨front, rest, others, ends, others ▸ found⟩

/-- The class with a header is taken, and if there is a directive before it, it is written into the guard
of the last one. -/
def Registered (code : Text) (desugared : Desugared) (before header : Text)
    (heading : Heading) : Prop :=
  ∃ left name text right, parts code = left ++ .taken (.declaration name) text :: right ∧
    left.flatMap Part.source = before ∧ heading.name = some name ∧ header <+: text ∧
    ∀ earlier own space later, left = earlier ++ .directive own space :: later →
      (∀ own name, .directive own name ∉ later) →
      desugared.code = written id looseConstants classConstants none left ++
        guarded space name (classConstants text) ++
        written id looseConstants classConstants (some space) right

variable {desugared : Desugared} {heading : Heading}

private theorem registered_of_begins (done : desugar file code = .ok desugared)
    (whole : code = before ++ (header ++ after)) (read : declaration? header = some heading)
    (flat : '\n' ∉ header) (begins : LineEnded before) (outside : Outside code before.length) :
    Registered code desugared before header heading := by
  obtain ⟨name, named, kind⟩ := ClassHeader.kind_of_declaration read
  obtain ⟨left, part, right, split, since, until_, either⟩ := outside
  obtain ⟨_, _, reached, _, same, _⟩ := desugar_parted done
  rw [split] at reached same
  obtain ⟨start, stop, first, _, own, stands, _⟩ := reached.split
  have seen := loose_of_declaration begins flat read after
  have more : header ≠ [] := by
    rintro rfl
    cases read
  have size := congrArg List.length own
  have placed := congrArg List.length first.flatMap_source
  rw [slice, length_take, length_drop] at size
  rw [length_append, length_drop, drop_zero] at placed
  have cut {stop : Nat} (ends : stop = before.length + header.length) :
      ClassHeader.kind (slice code before.length stop) = .declaration name := by
    rw [ends, slice, Nat.add_sub_cancel_left, whole, drop_left, take_left, kind]
  have positive := length_pos_iff.mpr more
  rcases either with ⟨text, rfl⟩ | ⟨here, other, text, rfl⟩
  · -- a header that is found and can be read is not passed over
    have idle := stands _ (header_mem_marks whole begins more seen)
      (by change start ≤ before.length; omega) (by change before.length < stop; omega)
    have read := idle.1
    rw [cut (by omega)] at read
    cases read
  · obtain ⟨brace, length, mark, rfl, _, rfl⟩ := stands
    obtain rfl : start = before.length := by omega
    obtain ⟨front, rest, others, rfl, found⟩ := loose_of_mem_marks (whole ▸ mark)
    rw [seen] at found
    cases found
    rw [append_cons, append_cancel_right_eq] at others
    have long : header.length = front.length + 1 := by rw [others, length_append]; rfl
    rw [cut (by omega)] at split same
    refine ⟨left, name, text, right, split, ?_, named, ?_, ?_⟩
    · have all := first.flatMap_source
      rw [drop_zero, whole, drop_left] at all
      exact append_cancel_right all
    · rw [show text = _ from own, slice, whole, drop_left, take_append,
        take_of_length_le (by omega)]
      exact prefix_append _ _
    · intro earlier own space later leftIs last
      rw [same, written_append, written, leftIs, inForce_directive none earlier own space last,
        append_assoc]
      rfl

private theorem begins_of_registered (done : desugar file code = .ok desugared)
    (whole : code = before ++ (header ++ after)) (read : declaration? header = some heading)
    (registered : Registered code desugared before header heading) : LineEnded before := by
  obtain ⟨left, name, text, right, split, own, _⟩ := registered
  obtain ⟨_, _, reached, _⟩ := desugar_parted done
  rw [split] at reached
  obtain ⟨start, stop, first, _, _, ⟨brace, length, mark, _⟩, _⟩ := reached.split
  obtain ⟨front, inner, rest, again, _, starts, _⟩ := exists_of_mem_marks mark
  obtain rfl : start = before.length := by
    have placed := congrArg List.length first.flatMap_source
    have size := congrArg List.length again
    simp only [length_append, length_drop, drop_zero, own] at placed size
    omega
  obtain ⟨_, _, _, _, found⟩ := loose_of_mem_marks (whole ▸ mark)
  exact begins_of_loose read found

/-- A class that is declared outside other classes is registered under the last namespace before it if
and only if its header begins a line. -/
theorem desugar_registers_iff (done : desugar file code = .ok desugared)
    (whole : code = before ++ (header ++ after)) (read : ClassHeader.declaration? header = some heading)
    (flat : '\n' ∉ header) (outside : Outside code before.length) :
    Registered code desugared before header heading ↔ LineEnded before :=
  ⟨begins_of_registered done whole read, fun begins =>
    registered_of_begins done whole read flat begins outside⟩

def shelfCode : Text :=
  "@lx:namespace a;\nclass B \x7b\n\x7d\n".toList

theorem parts_shelfCode : parts shelfCode = [.kept [], .directive "@lx:namespace a;".toList ['a'],
    .kept ['\n'], .taken (.declaration ['B']) "class B \x7b\n\x7d".toList, .kept ['\n']] := by
  unfold parts marks
  dsimp only
  rw [mergeSort_of_pairwise (by decide +kernel)]
  decide +kernel

theorem desugar_registers_iff_shelf :
    Outside shelfCode 17 ∧ ∃ desugared, desugar "" shelfCode = .ok desugared ∧
      ∃ text rest, desugared.code =
        '\n' :: guarded ['a'] ['B'] (classConstants text) ++ rest ∧ "class B \x7b".toList <+: text := by
  have outside : Outside shelfCode 17 :=
    ⟨[_, _, _], _, _, parts_shelfCode, by decide, by decide, .inr ⟨by decide, _, _, rfl⟩⟩
  have evaluated : (desugar "" shelfCode).toOption.isSome = true := by
    unfold desugar marks
    dsimp only
    rw [List.mergeSort_of_pairwise (by decide +kernel)]
    decide +kernel
  obtain ⟨desugared, found⟩ := Option.isSome_iff_exists.mp evaluated
  have done := toOption_eq_some.mp found
  obtain ⟨left, name, text, right, split, _, named, starts, registers⟩ :=
    (desugar_registers_iff done
      (show shelfCode = "@lx:namespace a;\n".toList ++ ("class B \x7b".toList ++ "\n\x7d\n".toList)
        from rfl)
      (show ClassHeader.declaration? _ = some ⟨some ['B'], none⟩ by decide +kernel) (by decide)
      outside).mpr (.inr rfl)
  cases named
  rw [parts_shelfCode] at split
  obtain rfl : left = [.kept [], .directive "@lx:namespace a;".toList ['a'], .kept ['\n']] := by
    rcases left with _ | ⟨_, _ | ⟨_, _ | ⟨_, _ | ⟨_, _ | ⟨_, more⟩⟩⟩⟩⟩
    · cases split
    · cases split
    · cases split
    · cases split
      rfl
    · cases split
    · simp at split
  have same := registers [_] _ _ [_] rfl (by simp)
  exact ⟨outside, desugared, done, text, _, same, starts⟩

end ClassSugar

end PageScript
