import PageScript.Class.Sugar
import PageScript.Proofs.Outcome
import PageScript.Proofs.Text.Fill
import PageScript.Proofs.Text.Stretch

/-! The parts that a script falls into as it is desugared (`desugarFrom_parts`). -/

open List

namespace PageScript

open Text Option

variable {code : Text} {cursor stop final : Nat} {file : String}

theorem ClassHeader.declared_name {header : Text} {heading : Heading}
    (read : declaration? header = some heading) :
    ∃ name, heading.name = some name ∧ ∀ c ∈ name, (isNameStart c || isNameRest c) = true := by
  obtain ⟨rest, _, read⟩ := bind_eq_some_iff.mp read
  unfold named at read
  simp only [bind_eq_bind, bind_eq_some_iff] at read
  obtain ⟨_, _, ⟨name, _⟩, found, _, _, same⟩ := read
  cases same
  exact ⟨name, rfl, (name_eq_some found).2⟩

theorem ClassHeader.kind_name {header name : Text} (own : kind header = .declaration name) :
    ∀ c ∈ name, (isNameStart c || isNameRest c) = true := by
  unfold kind at own
  split at own
  · rename_i declared
    cases own
    obtain ⟨_, same, inside⟩ := declared_name declared
    cases same
    exact inside
  · split at own <;> cases own

namespace ClassSugar

theorem isCalm_of_dotted (c : Char) (inside : (isNameRest c || c == '.') = true) :
    isCalm c = true :=
  (isNameRest_stops.or_eq (by decide) (by decide)).isCalm (by decide) c inside

theorem namespaceMark_past {text first second third rest : Text} {name : Text}
    (begun : expect "@lx:namespace" text = some first)
    (gap : blanks1 first = some second)
    (named : run1? (fun c => isNameRest c || c == '.') second = some (name, third))
    (ended : expect ";" (blanks third) = some rest) :
    ∃ lexeme, text = lexeme ++ rest ∧ lexeme ≠ [] ∧ Free lexeme := by
  have past : Past isCalm text (blanks third) :=
    ((Past.after? (by decide) begun).trans (.blanks1 isCalm_of_isBlank gap)).trans
      ((Past.run1? isCalm_of_dotted named).trans (.blanks isCalm_of_isBlank third))
  obtain ⟨front, whole, passed⟩ := past
  have free : Free front := fun c member => isHole_of_isCalm (passed c member)
  refine ⟨front ++ [';'], ?_, by simp, free.append (by decide)⟩
  rw [whole, after?_eq_some.mp ended]
  exact (append_assoc _ _ _).symm

theorem namespaceMark_eq_some {before text rest : Text} {mark : NamespaceMark}
    (found : namespaceMark before text = some (mark, rest)) :
    ∃ lexeme, text = lexeme ++ rest ∧ lexeme ≠ [] ∧ Free lexeme ∧
      (∀ c ∈ mark.name, (isNameRest c || c == '.') = true) ∧
      mark.start = before.length ∧ mark.stop = before.length + lexeme.length := by
  unfold namespaceMark at found
  simp only [bind_eq_bind, bind_eq_some_iff] at found
  obtain ⟨first, begun, second, gap, ⟨name, third⟩, named, last, ended, same⟩ := found
  cases same
  obtain ⟨lexeme, whole, more, free⟩ := namespaceMark_past begun gap named ended
  refine ⟨lexeme, whole, more, free, (run1?_eq_some named).2, rfl, ?_⟩
  change before.length + (text.length - rest.length) = _
  rw [whole, length_append, Nat.add_sub_cancel]

theorem namespaceMark_consumes : Consumes namespaceMark := by
  intro before text mark rest found
  obtain ⟨lexeme, whole, more, _⟩ := namespaceMark_eq_some found
  exact ⟨lexeme, more, whole⟩

theorem mem_marks {mark : Mark} :
    mark ∈ marks code ↔ (∃ own ∈ occurrences namespaceMark code, .space own = mark) ∨
      ∃ header start, .found header start ∈ cut ClassHeader.loose code ∧
        .header start (start + header.length - 1) = mark := by
  unfold marks
  rw [mem_mergeSort, mem_append, List.mem_map, mem_filterMap]
  refine or_congr_right ⟨?_, ?_⟩
  · rintro ⟨piece, among, made⟩
    cases piece with
    | plain c => cases made
    | found header start => exact ⟨header, start, among, some.inj made⟩
  · rintro ⟨header, start, among, rfl⟩
    exact ⟨_, among, rfl⟩

private theorem space_forward {mark : NamespaceMark} (member : .space mark ∈ marks code) :
    mark.start < mark.stop := by
  rcases mem_marks.mp member with ⟨own, among, same⟩ | ⟨_, _, _, impossible⟩
  · cases same
    obtain ⟨_, _, _, found⟩ := recognised_of_mem_occurrences among
    obtain ⟨lexeme, _, more, _, _, start, stop⟩ := namespaceMark_eq_some found
    have size := length_pos_iff.mpr more
    omega
  · cases impossible

private theorem header_forward {start brace : Nat} (member : .header start brace ∈ marks code) :
    start ≤ brace := by
  rcases mem_marks.mp member with ⟨_, _, impossible⟩ | ⟨header, _, among, same⟩
  · cases impossible
  · cases same
    have size := length_pos_iff.mpr (source_ne_nil_of_mem_cutFrom among)
    change 0 < header.length at size
    omega

private theorem marks_sorted (code : Text) :
    (marks code).Pairwise fun left right => left.start ≤ right.start := by
  refine (pairwise_mergeSort ?_ ?_ _).imp of_decide_eq_true
  · simp only [decide_eq_true_eq]
    exact fun _ _ _ => Nat.le_trans
  · simp only [Bool.or_eq_true, decide_eq_true_eq]
    exact fun _ _ => Nat.le_total _ _

inductive Part (α : Type) where
  | kept (text : α)
  | directive (text name : Text)
  | taken (kind : ClassHeader.Kind) (text : α)
  deriving DecidableEq

def Part.source : Part Text → Text
  | .kept text => text
  | .directive text _ => text
  | .taken _ text => text

/-- The parts from the cursor on, up to the first class that is read and not closed. -/
def partsFrom (code : Text) : Nat → List Mark → List (Part Text)
  | cursor, [] => [.kept (code.drop cursor)]
  | cursor, mark :: rest =>
      if mark.start < cursor then partsFrom code cursor rest
      else
        match mark with
        | .space { start, stop, name } =>
            .kept (slice code cursor start) :: .directive (slice code start stop) name ::
              partsFrom code stop rest
        | .header start brace =>
            let kind := ClassHeader.kind (slice code start (brace + 1))
            match Script.closing? (code.drop brace) with
            | none =>
                match kind with
                | .malformed => partsFrom code cursor rest
                | _ => [.kept (slice code cursor start)]
            | some length =>
                .kept (slice code cursor start) ::
                  .taken kind (slice code start (brace + length + 1)) ::
                  partsFrom code (brace + length + 1) rest

def parts (code : Text) : List (Part Text) :=
  partsFrom code 0 (marks code)

/-- A header that is passed over: it can neither be read nor closed. -/
def Mark.Idle (code : Text) : Mark → Prop
  | .space _ => False
  | .header start brace =>
      ClassHeader.kind (slice code start (brace + 1)) = .malformed ∧
        Script.closing? (code.drop brace) = none

def Part.Stands (code : Text) (start stop : Nat) : Part Text → Prop
  | .kept _ => ∀ mark ∈ marks code, start ≤ mark.start → mark.start < stop → mark.Idle code
  | .directive _ name => .space ⟨start, stop, name⟩ ∈ marks code
  | .taken kind _ => ∃ brace length, .header start brace ∈ marks code ∧
      kind = ClassHeader.kind (slice code start (brace + 1)) ∧
      Script.closing? (code.drop brace) = some length ∧ stop = brace + length + 1

/-- The parts lead from one place of the code to another. -/
def Reached (code : Text) : Nat → List (Part Text) → Nat → Prop
  | cursor, [], final => cursor = final
  | cursor, part :: rest, final => ∃ stop, cursor ≤ stop ∧ part.source = slice code cursor stop ∧
      part.Stands code cursor stop ∧ Reached code stop rest final

def enclosed (space : Option Text) (raw inside : Text) : ClassHeader.Kind → Text
  | .declaration name => space.elim inside fun space => guarded space name inside
  | .expression => inside
  | .malformed => raw

theorem enclosed_eq (space : Option Text) (text : Text) (kind : ClassHeader.Kind) :
    enclosed space text (classConstants text) kind = classText space text kind := by
  cases kind <;> cases space <;> rfl

def written {α : Type} (raw loose inside : α → Text) : Option Text → List (Part α) → Text
  | _, [] => []
  | space, .kept text :: rest => loose text ++ written raw loose inside space rest
  | _, .directive _ name :: rest => written raw loose inside (some name) rest
  | space, .taken kind text :: rest =>
      enclosed space (raw text) (inside text) kind ++ written raw loose inside space rest

def inForce {α : Type} : Option Text → List (Part α) → Option Text
  | space, [] => space
  | space, .kept _ :: rest => inForce space rest
  | _, .directive _ name :: rest => inForce (some name) rest
  | space, .taken _ _ :: rest => inForce space rest

theorem written_append {α : Type} (raw loose inside : α → Text) (space : Option Text)
    (left right : List (Part α)) :
    written raw loose inside space (left ++ right) =
      written raw loose inside space left ++ written raw loose inside (inForce space left) right := by
  induction left generalizing space with
  | nil => rfl
  | cons part left ih =>
    cases part with
    | kept text => rw [cons_append, written, written, inForce, ih, append_assoc]
    | directive text name => exact ih (some name)
    | taken kind text => rw [cons_append, written, written, inForce, ih, append_assoc]

theorem Reached.append {left right : List (Part Text)} (first : Reached code cursor left stop)
    (second : Reached code stop right final) : Reached code cursor (left ++ right) final := by
  induction left generalizing cursor with
  | nil => exact first ▸ second
  | cons part left ih =>
    obtain ⟨next, forward, same, stands, later⟩ := first
    exact ⟨next, forward, same, stands, ih later⟩

theorem slice_within (code : Text) (start stop : Nat) : slice code start stop <:+: code :=
  (List.take_prefix _ _).isInfix.trans (drop_suffix _ _).isInfix

private theorem slice_append_drop (forward : cursor ≤ stop) (code : Text) :
    slice code cursor stop ++ code.drop stop = code.drop cursor := by
  have later : code.drop stop = (code.drop cursor).drop (stop - cursor) := by
    rw [drop_drop, Nat.add_sub_cancel' forward]
  rw [slice, later, take_append_drop]

theorem Reached.split {left right : List (Part Text)} {part : Part Text}
    (reached : Reached code cursor (left ++ part :: right) final) :
    ∃ start stop, Reached code cursor left start ∧ start ≤ stop ∧ part.source = slice code start stop ∧
      part.Stands code start stop ∧ Reached code stop right final := by
  induction left generalizing cursor with
  | nil =>
    obtain ⟨stop, others⟩ := reached
    exact ⟨cursor, stop, rfl, others⟩
  | cons first left ih =>
    obtain ⟨next, forward, same, stands, later⟩ := reached
    obtain ⟨start, stop, before, others⟩ := ih later
    exact ⟨start, stop, ⟨next, forward, same, stands, before⟩, others⟩

theorem Reached.stands {parts : List (Part Text)} (reached : Reached code cursor parts final)
    {part : Part Text} (member : part ∈ parts) :
    ∃ start stop, part.source = slice code start stop ∧ part.Stands code start stop := by
  obtain ⟨left, right, rfl⟩ := append_of_mem member
  obtain ⟨start, stop, _, _, same, stands, _⟩ := reached.split
  exact ⟨start, stop, same, stands⟩

theorem Reached.flatMap_source {parts : List (Part Text)} (reached : Reached code cursor parts final) :
    parts.flatMap Part.source ++ code.drop final = code.drop cursor := by
  induction parts generalizing cursor with
  | nil => exact congrArg code.drop reached.symm
  | cons part rest ih =>
    obtain ⟨stop, forward, same, _, later⟩ := reached
    rw [flatMap_cons, append_assoc, ih later, same, slice_append_drop forward]

structure Unclosed (file : String) (code : Text) (start brace : Nat) (violation : Violation) : Prop where
  mark : .header start brace ∈ marks code
  unclosed : Script.closing? (code.drop brace) = none
  read : ClassHeader.kind (slice code start (brace + 1)) ≠ .malformed
  told : violation = unbalanced file code start (slice code start (brace + 1))
    (ClassHeader.kind (slice code start (brace + 1)))

/-- What desugaring from a place on has to do with the parts from there on. -/
def Told (file : String) (code : Text) (cursor : Nat) (space : Option Text) (parts : List (Part Text)) :
    Except Violation Desugared → Prop
  | .ok desugared => (∃ stop, code.length ≤ stop ∧ Reached code cursor parts stop) ∧
      desugared.code = written id looseConstants classConstants space parts ∧
      (desugared.malformed = [] → ∀ text, .taken .malformed text ∉ parts)
  | .error violation => ∃ start brace, Reached code cursor parts start ∧
      Unclosed file code start brace violation

theorem Told.step {space : Option Text} (front : List (Part Text)) {parts : List (Part Text)}
    {result : Except Violation Desugared}
    (told : Told file code stop (inForce space front) parts result)
    (reached : Reached code cursor front stop) {change : Desugared → Desugared}
    (adds : ∀ desugared, (change desugared).code =
      written id looseConstants classConstants space front ++ desugared.code)
    (notes : ∀ desugared, (change desugared).malformed = [] →
      desugared.malformed = [] ∧ ∀ text, .taken .malformed text ∉ front) :
    Told file code cursor space (front ++ parts)
      (result >>= fun desugared => pure (change desugared)) := by
  cases result with
  | error violation =>
    obtain ⟨start, brace, later, unclosed⟩ := told
    exact ⟨start, brace, reached.append later, unclosed⟩
  | ok desugared =>
    obtain ⟨⟨final, ended, later⟩, same, readable⟩ := told
    refine ⟨⟨final, ended, reached.append later⟩, ?_, ?_⟩
    · rw [adds, same, written_append]
    · intro nothing text member
      obtain ⟨before, own⟩ := notes desugared nothing
      exact (mem_append.mp member).elim (own text) (readable before text)

/-- The marks that are left are those from the cursor on, in order; what lacks is passed over. -/
structure Ahead (code : Text) (cursor : Nat) (rest : List Mark) : Prop where
  among : ∀ mark ∈ rest, mark ∈ marks code
  sorted : rest.Pairwise fun left right => left.start ≤ right.start
  all : ∀ mark ∈ marks code, cursor ≤ mark.start → mark ∈ rest ∨ mark.Idle code

variable {mark : Mark} {rest : List Mark}

theorem Ahead.tail {next : Nat} (ahead : Ahead code cursor (mark :: rest)) (onward : cursor ≤ next)
    (past : mark.start < next ∨ mark.Idle code) : Ahead code next rest := by
  refine ⟨(forall_mem_cons.mp ahead.among).2, (pairwise_cons.mp ahead.sorted).2, ?_⟩
  intro other member after
  rcases ahead.all other member (Nat.le_trans onward after) with listed | idle
  · rcases mem_cons.mp listed with rfl | within
    · exact .inr (past.resolve_left (Nat.not_lt.mpr after))
    · exact .inl within
  · exact .inr idle

theorem Ahead.kept (ahead : Ahead code cursor (mark :: rest)) (text : Text) :
    (Part.kept text).Stands code cursor mark.start := by
  intro other member after before
  refine (ahead.all other member after).resolve_left fun listed => Nat.not_lt.mpr ?_ before
  rcases mem_cons.mp listed with rfl | within
  · exact Nat.le_refl _
  · exact (pairwise_cons.mp ahead.sorted).1 other within

private theorem desugarFrom_parts (file : String) (ahead : Ahead code cursor rest)
    (space : Option Text) :
    Told file code cursor space (partsFrom code cursor rest)
      (desugarFrom file code cursor space rest) := by
  induction rest generalizing cursor space with
  | nil =>
    have whole : slice code cursor (cursor + (code.length - cursor)) = code.drop cursor := by
      rw [slice, Nat.add_sub_cancel_left, ← length_drop, take_length]
    refine ⟨⟨cursor + (code.length - cursor), by omega, _, Nat.le_add_right _ _, whole.symm, ?_, rfl⟩,
      (append_nil _).symm, by simp [partsFrom]⟩
    exact fun mark member after _ => (ahead.all mark member after).resolve_left not_mem_nil
  | cons mark rest ih =>
    have here := ahead.among mark mem_cons_self
    unfold partsFrom desugarFrom
    by_cases past : mark.start < cursor
    · rw [if_pos past, if_pos past]
      exact ih (ahead.tail (Nat.le_refl _) (.inl past)) space
    · rw [if_neg past, if_neg past]
      have onward : cursor ≤ mark.start := Nat.not_lt.mp past
      cases mark with
      | space mark =>
        have forward := space_forward here
        have further : cursor ≤ mark.stop := Nat.le_trans onward (Nat.le_of_lt forward)
        refine (ih (ahead.tail further (.inl forward)) _).step
          [.kept (slice code cursor mark.start),
            .directive (slice code mark.start mark.stop) mark.name]
          ⟨_, onward, rfl, ahead.kept _, _, Nat.le_of_lt forward, rfl, here, rfl⟩ ?_ ?_
        · exact fun _ => congrArg (· ++ _) (append_nil _).symm
        · exact fun _ nothing => ⟨nothing, by simp⟩
      | header start brace =>
        have forward := header_forward here
        have onward : cursor ≤ start := onward
        dsimp only
        cases closes : Script.closing? (code.drop brace) with
        | none =>
          cases kind : ClassHeader.kind (slice code start (brace + 1)) with
          | malformed =>
            exact (ih (ahead.tail (Nat.le_refl _) (.inr ⟨kind, closes⟩)) space).step
              [] rfl (fun _ => rfl) fun _ noted => by cases noted
          | _ =>
            exact ⟨start, brace, ⟨start, onward, rfl, ahead.kept _, rfl⟩,
              ⟨here, closes, by simp [kind], by rw [kind]⟩⟩
        | some length =>
          have forward : start < brace + length + 1 := by omega
          refine (ih (ahead.tail (by omega) (.inl forward)) space).step
            [.kept (slice code cursor start),
              .taken (ClassHeader.kind (slice code start (brace + 1)))
                (slice code start (brace + length + 1))]
            ⟨start, onward, rfl, ahead.kept _, _, Nat.le_of_lt forward, rfl,
              ⟨brace, length, here, rfl, closes, rfl⟩, rfl⟩ ?_ ?_
          · intro desugared
            rw [written, written, written, append_nil, id, enclosed_eq]
            cases ClassHeader.kind (slice code start (brace + 1)) <;> rfl
          · intro desugared
            cases ClassHeader.kind (slice code start (brace + 1)) <;>
              simp [Desugared.prepend, Desugared.note]

theorem desugar_told (file : String) (code : Text) :
    Told file code 0 none (parts code) (desugar file code) :=
  desugarFrom_parts file ⟨fun _ => id, marks_sorted code, fun _ member _ => .inl member⟩ none

theorem desugar_parted {desugared : Desugared} (done : desugar file code = .ok desugared) :
    ∃ stop, code.length ≤ stop ∧ Reached code 0 (parts code) stop ∧
      (parts code).flatMap Part.source = code ∧
      desugared.code = written id looseConstants classConstants none (parts code) ∧
      (desugared.malformed = [] → ∀ text, .taken .malformed text ∉ parts code) := by
  have told := desugar_told file code
  rw [done] at told
  obtain ⟨⟨stop, ended, reached⟩, others⟩ := told
  have whole := reached.flatMap_source
  rw [drop_eq_nil_of_le ended, append_nil] at whole
  exact ⟨stop, ended, reached, whole, others⟩

theorem constant_needs : Needs "@lx:const".toList constant :=
  .of_expect "@lx:const" (infix_refl _) fun _ _ missing => by simp [constant, missing]

private theorem written_plain (absent : ¬ "@lx:const".toList <:+: code) {parts : List (Part Text)}
    (within : ∀ part ∈ parts, part.source <:+: code) (space : Option Text) :
    written id looseConstants classConstants space parts = written id id id space parts := by
  induction parts generalizing space with
  | nil => rfl
  | cons part rest ih =>
    obtain ⟨here, others⟩ := forall_mem_cons.mp within
    have bare (write : Text × Text → Text) : Text.replace constant write part.source = part.source :=
      constant_needs.replace (fun found => absent (found.trans here)) write
    cases part with
    | kept text =>
      rw [written, written, ih others space]
      exact congrArg (· ++ _) (bare _)
    | directive text name => exact ih others (some name)
    | taken kind text =>
      rw [written, written, ih others space]
      exact congrArg (enclosed space text · kind ++ _) (bare _)

private theorem written_unnamed {parts : List (Part Text)}
    (unnamed : ∀ text name, .directive text name ∉ parts) :
    written id id id none parts = parts.flatMap Part.source := by
  induction parts with
  | nil => rfl
  | cons part rest ih =>
    have later := ih fun text name member => unnamed text name (mem_cons_of_mem part member)
    cases part with
    | kept text => exact congrArg (text ++ ·) later
    | directive text name => exact absurd mem_cons_self (unnamed text name)
    | taken kind text =>
      rw [written, later]
      cases kind <;> rfl

theorem desugar_plain (absent : ¬ "@lx:const".toList <:+: code) {desugared : Desugared}
    (done : desugar file code = .ok desugared) :
    (∃ stop, Reached code 0 (parts code) stop) ∧ (parts code).flatMap Part.source = code ∧
      desugared.code = written id id id none (parts code) ∧
      (occurrences namespaceMark code = [] → desugared.code = code) := by
  obtain ⟨stop, _, reached, whole, same, _⟩ := desugar_parted done
  have plain : desugared.code = written id id id none (parts code) := by
    rw [same]
    refine written_plain absent (fun part member => ?_) none
    obtain ⟨_, _, own, _⟩ := reached.stands member
    exact own ▸ slice_within code _ _
  refine ⟨⟨stop, reached⟩, whole, plain, fun none => ?_⟩
  rw [plain, written_unnamed, whole]
  intro text name member
  obtain ⟨_, _, _, stands⟩ := reached.stands member
  rcases mem_marks.mp stands with ⟨_, among, _⟩ | ⟨_, _, _, impossible⟩
  · rw [none] at among
    cases among
  · cases impossible

/-- A script without constants is desugared into its parts: what is kept and what is taken stays as it
is, directives vanish, and a declared class after a directive stands in a guard. If that fails, then at
a class that is come upon, read and not closed. -/
theorem desugar_parts (file : String) (absent : ¬ "@lx:const".toList <:+: code) :
    (∀ desugared, desugar file code = .ok desugared →
      (∃ stop, Reached code 0 (parts code) stop) ∧ (parts code).flatMap Part.source = code ∧
      desugared.code = written id id id none (parts code) ∧
      (Text.occurrences namespaceMark code = [] → desugared.code = code)) ∧
    ∀ violation, desugar file code = .error violation →
      ∃ start brace, Reached code 0 (parts code) start ∧ Unclosed file code start brace violation := by
  refine ⟨fun _ => desugar_plain absent, fun violation failed => ?_⟩
  have told := desugar_told file code
  rwa [failed] at told

def registered : Text :=
  "@lx:namespace a;\nclass B \x7b\n\x7d\n".toList

theorem desugar_parts_registered :
    ¬ "@lx:const".toList <:+: registered ∧
      ∃ desugared, desugar "" registered = .ok desugared ∧
        desugared.code = written id id id none (parts registered) := by
  have absent : ¬ "@lx:const".toList <:+: registered := by decide +kernel
  have closed : (desugar "" registered).toOption.isSome = true := by
    unfold desugar marks
    dsimp only
    -- sorting does not evaluate, but the marks are in order already
    rw [mergeSort_of_pairwise (by decide +kernel)]
    decide +kernel
  obtain ⟨desugared, found⟩ := Option.isSome_iff_exists.mp closed
  have done := toOption_eq_some.mp found
  exact ⟨absent, desugared, done, ((desugar_parts "" absent).1 desugared done).2.2.1⟩

end ClassSugar

end PageScript
