import PageScript.Proofs.Class.Parts

/-! Constants whose expression has no semicolon (`desugar_constants`). -/

open List

namespace PageScript.ClassSugar

private theorem constant_blind : Text.Blind constant :=
  fun _ _ _ => rfl

/-- No directive of a constant begins in the text, whatever follows it. -/
def Quiet (text : Text) : Prop :=
  ∀ part, part <:+ text → part ≠ [] → ¬ part <+: "@lx:const".toList ∧ ¬ "@lx:const".toList <+: part

instance (text : Text) : Decidable (Quiet text) :=
  decidable_of_iff _ Text.forall_drop_iff

theorem Quiet.append {left right : Text} (first : Quiet left) (second : Quiet right) :
    Quiet (left ++ right) := by
  rintro part ⟨front, split⟩ more
  rcases append_eq_append_iff.mp split with ⟨early, rfl, rfl⟩ | ⟨extra, _, rfl⟩
  · by_cases none : early = []
    · subst none
      exact second right (suffix_refl _) more
    · -- what begins in the left text is settled there
      obtain ⟨short, long⟩ := first early (suffix_append _ _) none
      refine ⟨fun within => short ((prefix_append _ _).trans within), fun within => ?_⟩
      exact (List.prefix_or_prefix_of_prefix (prefix_append _ _) within).elim short long
  · exact second part (suffix_append _ _) more

theorem Quiet.of_not_mem {text : Text} (absent : '@' ∉ text) : Quiet text := by
  intro part within more
  cases part with
  | nil => exact absurd rfl more
  | cons c part =>
    have other : c ≠ '@' := fun same => absent (same ▸ within.subset mem_cons_self)
    exact ⟨fun start => other (cons_prefix_cons.mp start).1,
      fun start => other (cons_prefix_cons.mp start).1.symm⟩

theorem Quiet.absent {text : Text} (quiet : Quiet text) : ¬ "@lx:const".toList <:+: text := by
  rintro ⟨before, after, rfl⟩
  refine (quiet ("@lx:const".toList ++ after) ⟨before, ?_⟩ (by simp)).2 (prefix_append _ _)
  rw [append_assoc]

/-- A constant with an expression that has no semicolon and no directive in it. -/
structure Constant where
  gap : Text
  name : Text
  left : Text
  right : Text
  expression : Text
  spaced : gap ≠ []
  blank : (gap ++ left ++ right).all isBlank = true
  named : Text.name name = some (name, [])
  begun : expression.head?.any (!isBlank ·) = true
  whole : ';' ∉ expression
  quiet : Quiet expression

namespace Constant

variable (constant : Constant)

def source : Text :=
  "@lx:const".toList ++ (constant.gap ++ (constant.name ++ (constant.left ++ ("=".toList ++
    (constant.right ++ constant.expression ++ [';'])))))

def accessor : Text :=
  "static get ".toList ++ constant.name ++ "() \x7b return ".toList ++ constant.expression ++
    "; \x7d".toList

def binding : Text :=
  "const ".toList ++ constant.name ++ " = ".toList ++ constant.expression ++ [';']

private theorem source_ne_nil : constant.source ≠ [] :=
  cons_ne_nil '@' _

private theorem source_append (rest : Text) :
    constant.source ++ rest = "@lx:const".toList ++ (constant.gap ++ (constant.name ++ (constant.left ++
      ("=".toList ++ (constant.right ++ constant.expression ++ ';' :: rest))))) := by
  unfold source
  simp only [append_assoc]
  rfl

private theorem not_mem_name : '@' ∉ constant.name := fun member =>
  absurd ((Text.name_eq_some constant.named).2 _ member) (by decide)

theorem quiet_around {first second third : Text} (plain : '@' ∉ first ∧ '@' ∉ second ∧ '@' ∉ third) :
    Quiet (first ++ constant.name ++ second ++ constant.expression ++ third) := by
  obtain ⟨early, middle, late⟩ := plain
  have named := (Quiet.of_not_mem early).append (.of_not_mem constant.not_mem_name)
  exact ((named.append (.of_not_mem middle)).append constant.quiet).append (.of_not_mem late)

private theorem quiet_accessor : Quiet constant.accessor :=
  constant.quiet_around (by decide)

private theorem quiet_binding : Quiet constant.binding :=
  constant.quiet_around (by decide)

private theorem blanks :
    (∀ c ∈ constant.gap, isBlank c = true) ∧ (∀ c ∈ constant.left, isBlank c = true) ∧
      ∀ c ∈ constant.right, isBlank c = true := by
  simpa [and_assoc] using constant.blank

theorem isBlank_name (more : Text) : ∀ c ∈ (constant.name ++ more).head?, isBlank c = false := by
  have named := constant.named
  cases same : constant.name with
  | nil =>
    rw [same] at named
    cases named
  | cons c others =>
    rintro _ ⟨⟩
    rw [same] at named
    exact Text.isBlank_of_isNameStart (Option.ite_none_right_eq_some.mp named).1

private theorem isNameRest_left (more : Text) :
    ∀ c ∈ (constant.left ++ ("=".toList ++ more)).head?, isNameRest c = false := by
  cases gap : constant.left with
  | nil =>
    rintro _ ⟨⟩
    decide
  | cons b others =>
    rintro _ ⟨⟩
    have blank := constant.blanks.2.1 b (gap ▸ mem_cons_self)
    have other : b ≠ '$' := by
      rintro rfl
      cases blank
    simp [isNameRest, isWord_of_isBlank blank, other]

private theorem ne_semicolon : ∀ c ∈ constant.right ++ constant.expression, (c != ';') = true := by
  intro c member
  rw [bne_iff_ne]
  rintro rfl
  rcases mem_append.mp member with among | among
  · cases constant.blanks.2.2 _ among
  · exact constant.whole among

private theorem content_expression :
    Text.content (constant.right ++ constant.expression) = some constant.expression := by
  have begun := constant.begun
  cases same : constant.expression with
  | nil =>
    rw [same] at begun
    cases begun
  | cons c others =>
    rw [same] at begun
    have bare : Text.blanks (constant.right ++ c :: others) = c :: others :=
      Text.blanks_append constant.blanks.2.2 (by rintro _ ⟨⟩; simpa using begun)
    rw [Text.content, show List.dropWhile isBlank _ = _ from bare]

private theorem found (before rest : Text) :
    ClassSugar.constant before (constant.source ++ rest) =
      some ((constant.name, constant.expression), rest) := by
  obtain ⟨gap, left, _⟩ := constant.blanks
  rw [constant.source_append, ClassSugar.constant, Text.expect_append]
  simp only [Option.bind_eq_bind, Option.bind_some]
  rw [Text.blanks1_append constant.spaced gap (constant.isBlank_name _), Option.bind_some,
    Text.name_append constant.named (constant.isNameRest_left _), Option.bind_some]
  dsimp only
  rw [Text.blanks_append left (by rintro _ ⟨⟩; decide), Text.expect_append, Option.bind_some,
    Text.upToSemicolon_append rfl constant.ne_semicolon, Option.bind_some]
  dsimp only
  rw [constant.content_expression]
  rfl

end Constant

/-- Quiet text with constants in it. -/
structure Sown where
  fields : List ({ text : Text // Quiet text } × Constant)
  rest : { text : Text // Quiet text }

namespace Sown

def source (sown : Sown) : Text :=
  sown.fields.flatMap (fun field => field.1.1 ++ field.2.source) ++ sown.rest.1

def written (write : Constant → Text) (sown : Sown) : Text :=
  sown.fields.flatMap (fun field => field.1.1 ++ write field.2) ++ sown.rest.1

private theorem replace_source (write : Text × Text → Text) (sown : Sown) :
    Text.replace constant write sown.source =
      sown.written fun constant => write (constant.name, constant.expression) := by
  obtain ⟨fields, rest⟩ := sown
  induction fields with
  | nil => exact constant_needs.replace rest.2.absent write
  | cons field fields ih =>
    obtain ⟨⟨text, quiet⟩, own⟩ := field
    have split : source ⟨(⟨text, quiet⟩, own) :: fields, rest⟩ =
        text ++ (own.source ++ source ⟨fields, rest⟩) := by
      simp only [source, flatMap_cons, append_assoc]
    -- an occurrence in the text, also one that goes on after it, would begin with the marker
    have silent : ∀ part, part ≠ [] → part <:+ text →
        constant [] (part ++ (own.source ++ source ⟨fields, rest⟩)) = none := by
      intro part more within
      rw [Option.eq_none_iff_forall_ne_some]
      intro found seen
      obtain ⟨after, begun, _⟩ := Option.bind_eq_some_iff.mp seen
      have start := Text.after?_eq_some.mp begun
      obtain ⟨short, long⟩ := quiet part within more
      have marked : "@lx:const".toList <+: part ++ (own.source ++ source ⟨fields, rest⟩) :=
        ⟨after, start.symm⟩
      exact (List.prefix_or_prefix_of_prefix (prefix_append part _) marked).elim short long
    unfold Text.replace at ih ⊢
    rw [split, constant_blind.cut_silent silent, constant_blind.cut_found own.source_ne_nil
      (own.found [] _), Text.writePieces_append, Text.writePieces_plain, Text.writePieces_found, ih]
    simp only [written, flatMap_cons, append_assoc]

private theorem quiet_written {write : Constant → Text} (each : ∀ constant, Quiet (write constant))
    (sown : Sown) : Quiet (sown.written write) := by
  obtain ⟨fields, rest⟩ := sown
  induction fields with
  | nil => exact rest.2
  | cons field fields ih =>
    have split : written write ⟨field :: fields, rest⟩ =
        field.1.1 ++ write field.2 ++ written write ⟨fields, rest⟩ := by
      simp only [written, flatMap_cons, append_assoc]
    rw [split]
    exact (field.1.2.append (each field.2)).append ih

end Sown

def Part.map {α β : Type} (change : α → β) : Part α → Part β
  | .kept text => .kept (change text)
  | .directive text name => .directive text name
  | .taken kind text => .taken kind (change text)

def Part.Quiet {α : Type} : Part α → Prop
  | .kept _ => True
  | .directive _ name => '@' ∉ name
  | .taken (.declaration name) _ => '@' ∉ name
  | .taken .expression _ => True
  | .taken .malformed _ => False

theorem Part.quiet_map {α β : Type} (change : α → β) (part : Part α) :
    (part.map change).Quiet ↔ part.Quiet := by
  cases part with
  | taken kind text => cases kind <;> exact Iff.rfl
  | _ => exact Iff.rfl

private theorem parts_quiet {file : String} {code : Text} {desugared : Desugared}
    (done : desugar file code = .ok desugared) (readable : desugared.malformed = []) :
    ∀ part ∈ parts code, part.Quiet := by
  obtain ⟨_, _, reached, _, _, others⟩ := desugar_parted done
  intro part member
  obtain ⟨start, stop, _, stands⟩ := reached.stands member
  cases part with
  | kept text => trivial
  | directive text name =>
    rcases mem_marks.mp stands with ⟨own, among, same⟩ | ⟨_, _, _, impossible⟩
    · cases same
      obtain ⟨_, _, _, found⟩ := Text.recognised_of_mem_occurrences among
      obtain ⟨_, _, _, _, dotted, _⟩ := namespaceMark_eq_some found
      exact fun inside => absurd (dotted _ inside) (by decide)
    · cases impossible
  | taken kind text =>
    obtain ⟨_, _, _, own, _⟩ := stands
    cases kind with
    | declaration name =>
      exact fun inside => absurd (ClassHeader.kind_name own.symm _ inside) (by decide)
    | expression => trivial
    | malformed => exact absurd member (others readable text)

private theorem quiet_guarded {space name body : Text} (plain : '@' ∉ space) (named : '@' ∉ name)
    (quiet : Quiet body) : Quiet (guarded space name body) := by
  have own := Quiet.of_not_mem named
  have plain := Quiet.of_not_mem plain
  unfold guarded
  repeat' apply Quiet.append
  all_goals first | assumption | exact .of_not_mem (by decide)

private theorem written_sown (space : Option Text) (plots : List (Part Sown)) :
    written id looseConstants classConstants space (plots.map (Part.map Sown.source)) =
      written Sown.source (Sown.written Constant.binding) (Sown.written Constant.accessor) space
        plots := by
  induction plots generalizing space with
  | nil => rfl
  | cons plot plots ih =>
    cases plot with
    | kept text =>
      rw [map_cons, Part.map, written, written, ih space]
      exact congrArg (· ++ _) (text.replace_source _)
    | directive text name => exact ih (some name)
    | taken kind text =>
      rw [map_cons, Part.map, written, written, ih space]
      exact congrArg (enclosed space text.source · kind ++ _) (text.replace_source _)

private theorem quiet_written {plots : List (Part Sown)} (quiet : ∀ plot ∈ plots, plot.Quiet)
    {space : Option Text} (plain : ∀ name ∈ space, '@' ∉ name) :
    Quiet (written Sown.source (Sown.written Constant.binding) (Sown.written Constant.accessor) space
      plots) := by
  induction plots generalizing space with
  | nil => exact .of_not_mem not_mem_nil
  | cons plot plots ih =>
    obtain ⟨here, others⟩ := forall_mem_cons.mp quiet
    cases plot with
    | kept text => exact (text.quiet_written Constant.quiet_binding).append (ih others plain)
    | directive text name => exact ih others (by rintro _ ⟨⟩; exact here)
    | taken kind text =>
      refine Quiet.append ?_ (ih others plain)
      have inside := text.quiet_written Constant.quiet_accessor
      cases kind with
      | declaration name =>
        cases space with
        | none => exact inside
        | some space => exact quiet_guarded (plain space rfl) here inside
      | expression => exact inside
      | malformed => exact here.elim

/-- A constant is written as an accessor in a class and as a binding elsewhere, with its whole expression,
and no directive of a constant is left. -/
theorem desugar_constants {file : String} {code : Text} {desugared : Desugared}
    (done : desugar file code = .ok desugared) (readable : desugared.malformed = [])
    {plots : List (Part Sown)} (sown : parts code = plots.map (Part.map Sown.source)) :
    desugared.code =
        written Sown.source (Sown.written Constant.binding) (Sown.written Constant.accessor) none plots ∧
      ¬ "@lx:const".toList <:+: desugared.code := by
  obtain ⟨_, _, _, _, same, _⟩ := desugar_parted done
  rw [sown, written_sown] at same
  have quiet := parts_quiet done readable
  rw [sown, List.forall_mem_map] at quiet
  refine ⟨same, ?_⟩
  rw [same]
  exact (quiet_written (fun plot member => (plot.quiet_map _).mp (quiet plot member))
    (by rintro _ ⟨⟩)).absent

def spaced (name expression : Text) (named : Text.name name = some (name, []))
    (begun : expression.head?.any (!isBlank ·) = true) (whole : ';' ∉ expression)
    (quiet : Quiet expression) : Constant :=
  { gap := [' '], name, left := [' '], right := [' '], expression
    spaced := List.cons_ne_nil _ _, blank := rfl, named, begun, whole, quiet }

def wheelPlots : List (Part Sown) := [
  .kept ⟨[(⟨[], by decide⟩, spaced ['R'] ['4'] rfl rfl (by decide) (by decide))],
    ⟨['\n'], by decide⟩⟩,
  .taken (.declaration "Wheel".toList)
    ⟨[(⟨"class Wheel \x7b\n".toList, by decide⟩,
      spaced ['S'] "[1, 2]".toList rfl rfl (by decide) (by decide))], ⟨"\n\x7d".toList, by decide⟩⟩,
  .kept ⟨[], ⟨['\n'], by decide⟩⟩]

def wheelCode : Text :=
  "@lx:const R = 4;\nclass Wheel \x7b\n@lx:const S = [1, 2];\n\x7d\n".toList

theorem desugar_constants_wheel :
    ∃ desugared, desugar "" wheelCode = .ok desugared ∧
      desugared.code =
        "const R = 4;\nclass Wheel \x7b\nstatic get S() \x7b return [1, 2]; \x7d\n\x7d\n".toList ∧
      ¬ "@lx:const".toList <:+: desugared.code := by
  have evaluated : (desugar "" wheelCode).toOption.map Desugared.malformed = some [] := by
    decide +kernel
  cases done : desugar "" wheelCode with
  | error violation =>
      rw [done] at evaluated
      cases evaluated
  | ok desugared =>
      rw [done] at evaluated
      obtain ⟨same, none⟩ := desugar_constants done (Option.some.inj evaluated)
        (show _ = wheelPlots.map (Part.map Sown.source) by decide +kernel)
      exact ⟨desugared, rfl, same.trans (by decide +kernel), none⟩

end PageScript.ClassSugar
