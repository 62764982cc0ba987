import PageScript.Proofs.Class.Filled
import PageScript.Proofs.Script.Filled

/-! Class sugar in a text with placeholders (`desugar_fill`). -/

open List

namespace PageScript

open Text Filling ClassHeader Script

variable {text header : Text} {start : Nat} {space : Option Text}

namespace ClassSugar

variable {filling : Filling}

def Mark.fill (filling : Filling) (text : Text) : Mark → Mark
  | .space mark => .space (mark.fill filling text)
  | .header start brace => .header (filling.place text start) (filling.place text brace)

def Mark.Stands (text : Text) : Mark → Prop
  | .space mark => ∃ before lexeme after, text = before ++ lexeme ++ after ∧ Free lexeme ∧
      Free mark.name ∧ mark.start = before.length ∧ mark.stop = (before ++ lexeme).length
  | .header start brace => ∃ before front after, text = before ++ front ++ '{' :: after ∧
      Free front ∧ start = before.length ∧ brace = (before ++ front).length

theorem Mark.Stands.start_le {mark : Mark} (stands : mark.Stands text) : mark.start ≤ text.length := by
  cases mark with
  | space mark =>
    obtain ⟨before, lexeme, after, rfl, _, _, start, _⟩ := stands
    change mark.start ≤ _
    rw [start, length_append, length_append]
    omega
  | header start brace =>
    obtain ⟨before, front, after, rfl, _, rfl, _⟩ := stands
    change before.length ≤ _
    rw [length_append, length_append]
    omega

theorem Mark.start_fill (text : Text) (mark : Mark) :
    (mark.fill filling text).start = filling.place text mark.start := by
  cases mark <;> rfl

private theorem header_stands (headed : ClassHeader.Headed text)
    (member : .found header start ∈ cut loose text) :
    ∃ before front after, text = before ++ front ++ '{' :: after ∧ header = front ++ ['{'] ∧
      Free front ∧ start = before.length := by
  obtain ⟨left, right, pieces⟩ := append_of_mem member
  have seen := loose_consumes.cut pieces
  have whole := flatMap_source_cut loose text
  rw [pieces, flatMap_append, flatMap_cons, Piece.source] at whole
  have within : header ++ right.flatMap Piece.source <:+ text := ⟨_, whole⟩
  obtain ⟨known, split, passed⟩ := loose_known (headed.within within) seen
  obtain ⟨front, joined, _⟩ := loose_eq_some seen
  have same : header = front ++ ['{'] :=
    append_cancel_right (joined.trans (append_assoc front ['{'] _).symm)
  have own : header = known := append_cancel_right split
  refine ⟨left.flatMap Piece.source, front, right.flatMap Piece.source, ?_, same, ?_, ?_⟩
  · rw [← whole, joined, append_assoc]
  · intro c inside
    have plain := passed c (own ▸ same ▸ mem_append_left _ inside)
    simpa [isKnown] using plain
  · rw [loose_start seen, length_reverse]

theorem marks_stand (headed : ClassHeader.Headed text) {mark : Mark} (member : mark ∈ marks text) :
    mark.Stands text := by
  rcases mem_marks.mp member with ⟨own, among, rfl⟩ | ⟨header, start, among, rfl⟩
  · obtain ⟨piece, within, has⟩ := mem_filterMap.mp among
    cases piece with
    | plain c => cases has
    | found lexeme value =>
      cases has
      obtain ⟨left, right, pieces⟩ := append_of_mem within
      have seen := namespaceMark_consumes.cut pieces
      have whole := flatMap_source_cut namespaceMark text
      rw [pieces, flatMap_append, flatMap_cons, Piece.source, ← append_assoc] at whole
      obtain ⟨taken, split, _, free, dotted, start, stop⟩ := namespaceMark_eq_some seen
      have plain : Free own.name := fun c member =>
        isHole_of_isCalm (isCalm_of_dotted c (dotted c member))
      have same : lexeme = taken := append_cancel_right split
      refine ⟨_, lexeme, _, whole.symm, same ▸ free, plain, ?_, ?_⟩
      · rw [start, length_reverse]
      · rw [stop, length_reverse, length_append, same]
  · obtain ⟨before, front, after, whole, same, free, rfl⟩ := header_stands headed among
    refine ⟨before, front, after, whole, free, rfl, ?_⟩
    rw [same, length_append, length_append, length_singleton]
    omega

theorem filterMap_fill {α β : Type} {collect : Piece α → Option β} {change : α → α} {adapt : β → β}
    (plain : ∀ c, collect (.plain c) = none) {pieces : List (Piece α)}
    (each : ∀ lexeme value, .found lexeme value ∈ pieces →
      collect (.found (filling.fill lexeme) (change value)) =
        (collect (.found lexeme value)).map adapt) :
    (pieces.flatMap (filling.piece filling.chars change)).filterMap collect =
      (pieces.filterMap collect).map adapt := by
  induction pieces with
  | nil => rfl
  | cons first rest ih =>
    have later := ih fun lexeme value member => each lexeme value (mem_cons_of_mem first member)
    rw [flatMap_cons, filterMap_append, later]
    cases first with
    | plain c =>
      have nothing : (filling.chars c : List (Piece α)).filterMap collect = [] := by
        rw [chars, filterMap_map]
        exact filterMap_eq_nil_iff.mpr fun d _ => plain d
      rw [piece, nothing, nil_append, filterMap_cons_none (plain c)]
    | found lexeme value =>
      have here := each lexeme value mem_cons_self
      rw [piece]
      cases own : collect (.found lexeme value) with
      | none =>
        rw [own] at here
        rw [filterMap_cons_none here, filterMap_cons_none own]
        rfl
      | some mark =>
        rw [own] at here
        rw [filterMap_cons_some here, filterMap_cons_some own]
        rfl

structure Passes (filling : Filling) : Prop where
  constant : ∀ c, isHole c = true → ¬ "@lx:const".toList <:+: filling.text c
  space : ∀ c, isHole c = true → ¬ "@lx:namespace".toList <:+: filling.text c
  headless : ∀ c, isHole c = true → Headless (filling.text c).dropLast
  solid : ∀ c, isHole c = true → Solid (filling.text c)

private theorem marks_fill (passes : Passes filling) (headed : ClassHeader.Headed text) :
    marks (filling.fill text) = (marks text).map (Mark.fill filling text) := by
  have spaces : occurrences namespaceMark (filling.fill text) =
      (occurrences namespaceMark text).map (NamespaceMark.fill filling text) := by
    unfold occurrences
    rw [cut_fill namespaceMark_consumes (namespaceMark_reads passes.space)
      (namespaceMark_follows text)]
    exact filterMap_fill (fun _ => rfl) fun _ _ _ => rfl
  unfold marks
  dsimp only
  rw [map_mergeSort (s := fun left right => decide (left.start ≤ right.start)), map_append,
    spaces, cut_fill loose_consumes (loose_reads passes.headless)
      (loose_follows headed)]
  · congr 2
    · rw [map_map, map_map]
      rfl
    · refine filterMap_fill (fun _ => rfl) fun header start member => ?_
      obtain ⟨before, front, after, whole, same, free, rfl⟩ := header_stands headed member
      have plain : Free header := same ▸ free.append (by decide)
      have size : before.length + header.length - 1 = (before ++ front).length := by
        rw [same, length_append, length_append, length_singleton]
        omega
      have brace : filling.place text before.length + header.length - 1 =
          filling.place text (before.length + header.length - 1) := by
        rw [size, whole, filling.place_append, append_assoc, filling.place_append,
          filling.fill_append, length_append, filling.fill_eq_self free, same, length_append,
          length_singleton]
        omega
      dsimp only [Option.map_some, Mark.fill]
      rw [filling.fill_eq_self plain, brace]
  · -- the order of two marks is kept, since every character stands for some text
    intro left among right _
    have within := (marks_stand headed (mem_mergeSort.mpr among)).start_le
    rw [Mark.start_fill, Mark.start_fill, decide_eq_decide, ← Nat.not_lt, ← Nat.not_lt,
      filling.place_lt_iff within]

theorem Mark.Stands.opened {brace : Nat} (stands : (Mark.header start brace).Stands text) :
    Free (slice text start (brace + 1)) ∧ ∃ after, text.drop brace = '{' :: after := by
  obtain ⟨before, front, after, rfl, free, rfl, rfl⟩ := stands
  have count : (before ++ front).length + 1 - before.length = (front ++ ['{']).length := by
    simp only [length_append, length_singleton]
    omega
  refine ⟨?_, after, drop_left⟩
  rw [slice, count, append_assoc, drop_left, append_cons front '{' after, take_left]
  exact free.append (by decide)

private theorem slice_fill (text : Text) (start stop : Nat) :
    slice (filling.fill text) (filling.place text start) (filling.place text stop) =
      filling.fill (slice text start stop) := by
  unfold slice
  rw [filling.drop_place]
  rcases Nat.le_total start stop with forward | backward
  · obtain ⟨count, rfl⟩ := Nat.exists_eq_add_of_le forward
    rw [filling.place_add, Nat.add_sub_cancel_left, Nat.add_sub_cancel_left, filling.take_place]
  · rw [Nat.sub_eq_zero_of_le backward, Nat.sub_eq_zero_of_le (filling.place_le backward)]
    rfl

private theorem kind_free {name : Text} (kind : ClassHeader.kind header = .declaration name) :
    Free name := fun c member =>
  isHole_of_isCalm (isCalm_of_isNameStart c (kind_name kind c member))

theorem guarded_fill {space name : Text} (plain : Free space) (named : Free name) (body : Text) :
    guarded space name (filling.fill body) = filling.fill (guarded space name body) := by
  unfold guarded
  simp only [fill_append, filling.fill_eq_self plain, filling.fill_eq_self named,
    filling.fill_eq_self (by decide : Free "(function()\x7bconst __ns__=lx.createNamespace('".toList),
    filling.fill_eq_self (by decide : Free "');if(__ns__.".toList),
    filling.fill_eq_self (by decide : Free "!==undefined)return;\n".toList),
    filling.fill_eq_self (by decide : Free "\n__ns__.".toList),
    filling.fill_eq_self (by decide : Free ['=']),
    filling.fill_eq_self (by decide : Free ";if(".toList),
    filling.fill_eq_self (by decide : Free ".__afterDefinition)".toList),
    filling.fill_eq_self (by decide : Free ".__afterDefinition();\n\x7d)();".toList)]

private theorem classText_fill (passes : Passes filling) (plain : ∀ name ∈ space, Free name)
    (calm : filling.Calm "@lx:const" text) :
    classText space (filling.fill text) (ClassHeader.kind header) =
      filling.fill (classText space text (ClassHeader.kind header)) := by
  have constants := classConstants_fill passes.constant calm
  cases kind : ClassHeader.kind header with
  | declaration name =>
    cases space with
    | none => exact constants
    | some space =>
      change guarded space name (classConstants (filling.fill text)) = _
      rw [constants]
      exact guarded_fill (plain space rfl) (kind_free kind) _
  | expression => exact constants
  | malformed => rfl

def Desugared.fill (filling : Filling) (desugared : Desugared) : Desugared where
  code := filling.fill desugared.code
  malformed := desugared.malformed

/-- What becomes of a text and of the filled text: the one is the other filled, or both have the same
class that is not closed, at the line where it is now. -/
def Mirrors (filling : Filling) :
    Except Violation Desugared → Except Violation Desugared → Prop
  | .ok own, .ok filled => filled = own.fill filling
  | .error own, .error filled =>
      (∃ line, filled = { own with line }) ∧ (filling.OneLine → filled = own)
  | _, _ => False

theorem Mirrors.bind {own filled : Except Violation Desugared} (mirrors : Mirrors filling own filled)
    {first second : Desugared → Desugared}
    (each : ∀ desugared, second (desugared.fill filling) = (first desugared).fill filling) :
    Mirrors filling (own >>= fun desugared => pure (first desugared))
      (filled >>= fun desugared => pure (second desugared)) := by
  cases own with
  | ok desugared =>
    cases filled with
    | ok other =>
      cases mirrors
      exact each desugared
    | error violation => cases mirrors
  | error violation =>
    cases filled with
    | ok other => cases mirrors
    | error other => exact mirrors

private theorem unbalanced_fill (file : String) (text : Text) (start : Nat) (header : Text)
    (kind : Kind) :
    Mirrors filling (.error (unbalanced file text start header kind))
      (.error (unbalanced file (filling.fill text) (filling.place text start) header kind)) := by
  refine ⟨⟨_, rfl⟩, fun flat => ?_⟩
  have line : newlines ((filling.fill text).take (filling.place text start)) =
      newlines (text.take start) := by
    rw [filling.take_place]
    exact filling.count_newline_fill flat _
  unfold unbalanced
  rw [line]

/-- Placeholders stand outside headers, and inside classes they stand in code. -/
structure Sheltered (text : Text) : Prop where
  headed : ClassHeader.Headed text
  inCode : ∀ header start, .found header start ∈ cut loose text →
    HolesInCode (text.drop (start + header.length))

def shelters (text : Text) : Piece Nat → Bool
  | .plain _ => true
  | .found header start => decide (HolesInCode (text.drop (start + header.length)))

private theorem sheltered_iff :
    ClassHeader.Headed text ∧ (cut loose text).all (shelters text) = true ↔
      Sheltered text := by
  constructor
  · rintro ⟨headed, each⟩
    refine ⟨headed, fun header start member => ?_⟩
    exact of_decide_eq_true (all_eq_true.mp each _ member)
  · intro sheltered
    refine ⟨sheltered.headed, all_eq_true.mpr fun piece member => ?_⟩
    cases piece with
    | plain c => rfl
    | found header start => exact decide_eq_true (sheltered.inCode header start member)

instance (text : Text) : Decidable (Sheltered text) :=
  decidable_of_iff _ sheltered_iff

theorem Sheltered.holesInCode (sheltered : Sheltered text) {brace : Nat}
    (member : .header start brace ∈ marks text) : HolesInCode (text.drop (brace + 1)) := by
  rcases mem_marks.mp member with ⟨_, _, impossible⟩ | ⟨header, own, among, same⟩
  · cases impossible
  · cases same
    have positive : 0 < header.length := by
      obtain ⟨_, front, _, _, same, _⟩ := header_stands sheltered.headed among
      rw [same, length_append, length_singleton]
      omega
    have next : start + header.length - 1 + 1 = start + header.length := by omega
    rw [next]
    exact sheltered.inCode header start among

/-- From every place on, marks of a text are worked off in the filled text as in the text itself. -/
def Parallel (filling : Filling) (file : String) (text : Text) (marks : List Mark) : Prop :=
  ∀ ⦃cursor : Nat⦄ ⦃space : Option Text⦄, cursor ≤ text.length → (∀ name ∈ space, Free name) →
    Mirrors filling (desugarFrom file text cursor space marks)
      (desugarFrom file (filling.fill text) (filling.place text cursor) space
        (marks.map (Mark.fill filling text)))

theorem Mark.skipped_fill (filling : Filling) {cursor : Nat} (within : cursor ≤ text.length)
    (mark : Mark) :
    (mark.fill filling text).start < filling.place text cursor ↔ mark.start < cursor := by
  rw [Mark.start_fill, filling.place_lt_iff within]

private theorem place_closing (filling : Filling) {brace length : Nat} {after : Text}
    (opened : text.drop brace = '{' :: after) (closes : closing? (text.drop brace) = some length) :
    filling.place text brace + filling.place (text.drop brace) length + 1 =
        filling.place text (brace + length + 1) ∧
      brace + length + 1 ≤ text.length := by
  rw [opened] at closes
  obtain ⟨inner, c, outer, split, single, rfl⟩ := isHole_of_closing? closes
  have ended : text.drop (brace + inner.length) = c :: outer := by
    rw [← drop_drop, opened, split, drop_left]
  refine ⟨by rw [filling.place_succ ended single, filling.place_add], ?_⟩
  have some : text.drop (brace + inner.length) ≠ [] := by
    rw [ended]
    exact cons_ne_nil c outer
  rw [Ne, drop_eq_nil_iff] at some
  omega

section

variable (passes : Passes filling) {text : Text} (calm : filling.Calm "@lx:const" text)

include passes calm

private theorem looseConstants_slice (start stop : Nat) :
    looseConstants (slice (filling.fill text) (filling.place text start) (filling.place text stop)) =
      filling.fill (looseConstants (slice text start stop)) := by
  rw [slice_fill]
  exact looseConstants_fill passes.constant (calm.inside (slice_within text start stop))

private theorem parallel_nil (file : String) : Parallel filling file text [] := by
  intro cursor space _ _
  change Desugared.mk (looseConstants ((filling.fill text).drop (filling.place text cursor))) [] = _
  rw [filling.drop_place, looseConstants_fill passes.constant
    (calm.within (drop_suffix cursor text))]
  rfl

theorem Parallel.withSpace {file : String} {rest : List Mark} (later : Parallel filling file text rest)
    {mark : NamespaceMark} (here : (Mark.space mark).Stands text) :
    Parallel filling file text (.space mark :: rest) := by
  intro cursor space within plain
  have skipped := Mark.skipped_fill filling within (.space mark)
  obtain ⟨front, lexeme, after, whole, _, named, start, stop⟩ := here
  have ended : mark.stop ≤ text.length := by
    rw [stop, whole]
    simp only [length_append]
    omega
  have known : ∀ name ∈ some mark.name, Free name := by
    rintro name ⟨⟩
    exact named
  rw [map_cons]
  rw [Mark.fill] at skipped ⊢
  rw [desugarFrom, desugarFrom]
  by_cases before : (Mark.space mark).start < cursor
  · rw [if_pos before, if_pos (skipped.mpr before)]
    exact later within plain
  · rw [if_neg before, if_neg (fun past => before (skipped.mp past))]
    dsimp only [NamespaceMark.fill]
    rw [filling.fill_eq_self named, looseConstants_slice passes calm]
    refine (later ended known).bind fun desugared => ?_
    simp [Desugared.prepend, Desugared.fill]

theorem Parallel.withHeader {file : String} {rest : List Mark} (later : Parallel filling file text rest)
    {start brace : Nat} (here : (Mark.header start brace).Stands text)
    (inCode : HolesInCode (text.drop (brace + 1))) :
    Parallel filling file text (.header start brace :: rest) := by
  intro cursor space within plain
  have skipped := Mark.skipped_fill filling within (.header start brace)
  obtain ⟨header, after, opened⟩ := here.opened
  have next := filling.place_succ opened rfl
  have same : slice (filling.fill text) (filling.place text start)
      (filling.place text brace + 1) = slice text start (brace + 1) := by
    rw [← next, slice_fill, filling.fill_eq_self header]
  have closing : closing? ((filling.fill text).drop (filling.place text brace)) =
      (closing? (text.drop brace)).map (filling.place (text.drop brace)) := by
    have beyond : text.drop (brace + 1) = after := by
      rw [← drop_drop, opened]
      rfl
    rw [filling.drop_place, opened]
    exact closing?_fill passes.solid (beyond ▸ inCode)
  rw [map_cons]
  rw [Mark.fill] at skipped ⊢
  rw [desugarFrom, desugarFrom]
  by_cases before : (Mark.header start brace).start < cursor
  · rw [if_pos before, if_pos (skipped.mpr before)]
    exact later within plain
  · rw [if_neg before, if_neg (fun past => before (skipped.mp past))]
    dsimp only
    rw [same, closing]
    cases closes : closing? (text.drop brace) with
    | none =>
      cases ClassHeader.kind (slice text start (brace + 1)) with
      | malformed => exact (later within plain).bind fun _ => rfl
      | declaration name => exact unbalanced_fill file text start _ _
      | expression => exact unbalanced_fill file text start _ _
    | some length =>
      obtain ⟨stop, inside⟩ := place_closing filling opened closes
      dsimp only [Option.map_some]
      rw [stop, looseConstants_slice passes calm, slice_fill,
        classText_fill passes plain (calm.inside (slice_within text start _))]
      refine (later inside plain).bind fun desugared => ?_
      cases ClassHeader.kind (slice text start (brace + 1)) <;>
        simp [Desugared.prepend, Desugared.fill, Desugared.note]

theorem desugarFrom_fill (file : String) {marks : List Mark} (stand : ∀ mark ∈ marks, mark.Stands text)
    (inCode : ∀ start brace, .header start brace ∈ marks → HolesInCode (text.drop (brace + 1))) :
    Parallel filling file text marks := by
  induction marks with
  | nil => exact parallel_nil passes calm file
  | cons mark rest ih =>
    obtain ⟨here, others⟩ := forall_mem_cons.mp stand
    have later := ih others fun start brace member => inCode start brace (mem_cons_of_mem mark member)
    cases mark with
    | space mark => exact later.withSpace passes calm here
    | header start brace => exact later.withHeader passes calm here (inCode start brace mem_cons_self)

theorem desugar_fill (file : String) (sheltered : Sheltered text) :
    Mirrors filling (desugar file text) (desugar file (filling.fill text)) := by
  unfold desugar
  rw [marks_fill passes sheltered.headed]
  exact desugarFrom_fill passes calm file (fun _ => marks_stand sheltered.headed)
    (fun _ _ => sheltered.holesInCode) (Nat.zero_le _) (fun _ none => by cases none)

end

private theorem holes_constants {write : Text × Text → Text}
    (each : ∀ name expression, Free name → holes (write (name, expression)) = holes expression)
    (text : Text) : holes (Text.replace constant write text) = holes text := by
  have whole := flatMap_source_cut constant text
  conv => rhs; rw [← whole]
  refine holes_writePieces fun lexeme value member => ?_
  obtain ⟨name, expression⟩ := value
  obtain ⟨left, right, pieces⟩ := append_of_mem member
  obtain ⟨front, body, split, free, named, content⟩ := constant_eq_some (constant_consumes.cut pieces)
  have own : lexeme = front ++ body ++ [';'] := by
    refine append_cancel_right (split.trans ?_)
    rw [append_assoc _ [';'], singleton_append]
  have last : Free [';'] := by decide
  rw [each name expression named, own, holes_append, holes_append, free.holes, last.holes,
    nil_append, append_nil, holes_content content]

private theorem holes_looseConstants (text : Text) : holes (looseConstants text) = holes text := by
  refine holes_constants (fun name expression named => ?_) text
  simp only [holes_append, named.holes, (by decide : Free "const ".toList).holes,
    (by decide : Free " = ".toList).holes, (by decide : Free [';']).holes, nil_append,
    append_nil]

private theorem holes_classConstants (text : Text) : holes (classConstants text) = holes text := by
  refine holes_constants (fun name expression named => ?_) text
  simp only [holes_append, named.holes, (by decide : Free "static get ".toList).holes,
    (by decide : Free "() \x7b return ".toList).holes, (by decide : Free "; \x7d".toList).holes,
    nil_append, append_nil]

private theorem holes_classText (plain : ∀ name ∈ space, Free name) (text header : Text) :
    holes (classText space text (ClassHeader.kind header)) = holes text := by
  cases kind : ClassHeader.kind header with
  | declaration name =>
    have named := kind_free kind
    cases space with
    | none => exact holes_classConstants text
    | some space =>
      change holes (guarded space name (classConstants text)) = holes text
      unfold guarded
      simp only [holes_append, named.holes, (plain space rfl).holes, holes_classConstants,
        (by decide : Free "(function()\x7bconst __ns__=lx.createNamespace('".toList).holes,
        (by decide : Free "');if(__ns__.".toList).holes,
        (by decide : Free "!==undefined)return;\n".toList).holes,
        (by decide : Free "\n__ns__.".toList).holes, (by decide : Free ['=']).holes,
        (by decide : Free ";if(".toList).holes,
        (by decide : Free ".__afterDefinition)".toList).holes,
        (by decide : Free ".__afterDefinition();\n\x7d)();".toList).holes, nil_append,
        append_nil]
  | expression => exact holes_classConstants text
  | malformed => rfl

private theorem holes_written {parts : List (Part Text)}
    (bare : ∀ text name, .directive text name ∈ parts → Free text ∧ Free name)
    (read : ∀ kind text, .taken kind text ∈ parts → ∃ header, kind = ClassHeader.kind header)
    (plain : ∀ name ∈ space, Free name) :
    holes (written id looseConstants classConstants space parts) = holes (parts.flatMap Part.source) := by
  induction parts generalizing space with
  | nil => rfl
  | cons part rest ih =>
    have later {space : Option Text} (plain : ∀ name ∈ space, Free name) :=
      ih (fun text name member => bare text name (mem_cons_of_mem part member))
        (fun kind text member => read kind text (mem_cons_of_mem part member)) plain
    rw [flatMap_cons, holes_append]
    cases part with
    | kept text => rw [written, holes_append, later plain, holes_looseConstants, Part.source]
    | directive text name =>
      obtain ⟨free, named⟩ := bare text name mem_cons_self
      have known : ∀ own ∈ some name, Free own := by
        rintro own ⟨⟩
        exact named
      rw [written, later known, Part.source, free.holes, nil_append]
    | taken kind text =>
      obtain ⟨header, rfl⟩ := read kind text mem_cons_self
      rw [written, holes_append, later plain, id, enclosed_eq, holes_classText plain,
        Part.source]

theorem desugar_holes {file : String} (headed : ClassHeader.Headed text) {desugared : Desugared}
    (done : desugar file text = .ok desugared) : holes desugared.code = holes text := by
  obtain ⟨_, _, reached, whole, same, _⟩ := desugar_parted done
  rw [same, holes_written ?_ ?_ (by rintro _ ⟨⟩), whole]
  · intro own name member
    obtain ⟨_, _, source, stands⟩ := reached.stands member
    obtain ⟨before, lexeme, after, rfl, free, named, rfl, rfl⟩ := marks_stand headed stands
    rw [Part.source, slice, append_assoc, drop_left, length_append,
      Nat.add_sub_cancel_left, take_left] at source
    exact ⟨source ▸ free, named⟩
  · intro kind own member
    obtain ⟨_, _, _, _, _, _, kind, _⟩ := reached.stands member
    exact ⟨_, kind⟩

end ClassSugar

end PageScript
