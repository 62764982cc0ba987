import PageScript.Proofs.Class.Unbalanced
import PageScript.Proofs.Compile.Growth
import PageScript.Proofs.Compile.Stages

/-!
By how much the line of a violation differs from the line of the text at fault in the source
(`compile_violationLines`).
-/

open List

namespace PageScript

open Text.Rewriting Text Directive Progress

def Violation.note (violation : Violation) (file : Option Path) : Diagnostic :=
  { topic := .structural, message := violation.display, file := file.map (·.text) }

def violation? {α : Type} : Except Violation α → Option Violation
  | .error violation => some violation
  | .ok _ => none

namespace Progress

def Extends (before after : Progress) : Prop :=
  before.diagnostics <+: after.diagnostics

theorem Extends.stepwise (ignored : List String) : Stepwise ignored Extends where
  refl _ := prefix_refl _
  trans first second := List.IsPrefix.trans first second
  report _ _ _ _ := prefix_append _ _
  addAsset _ _ _ := prefix_refl _
  markFile progress file := by
    unfold markFile
    split <;> exact prefix_refl _
  markModule progress name _ := by
    unfold markModule
    split <;> exact prefix_refl _
  deferModule progress name _ := by
    unfold deferModule
    split <;> exact prefix_refl _
  setTexts _ _ := prefix_refl _

def LacksData (before after : Progress) : Prop :=
  ∃ noted, after.diagnostics = before.diagnostics ++ noted ∧ ∀ entry ∈ noted, entry.topic = .data

theorem LacksData.refl (progress : Progress) : LacksData progress progress :=
  ⟨[], (append_nil _).symm, fun _ member => nomatch member⟩

theorem LacksData.trans {first second third : Progress} (left : LacksData first second)
    (right : LacksData second third) : LacksData first third := by
  obtain ⟨early, whole, each⟩ := left
  obtain ⟨late, others, every⟩ := right
  refine ⟨early ++ late, by rw [others, whole, append_assoc], ?_⟩
  intro entry member
  exact (mem_append.mp member).elim (each entry) (every entry)

private theorem diagnostics_foldl_report {β : Type} (file : Option Path) (violation : β → Violation)
    (progress : Progress) (items : List β) :
    (items.foldl (fun progress item =>
        progress.report .structural file (violation item).display) progress).diagnostics =
      progress.diagnostics ++ items.map fun item => (violation item).note file := by
  induction items generalizing progress with
  | nil => exact (append_nil _).symm
  | cons item rest ih =>
    rw [foldl_cons, ih]
    exact append_assoc _ [_] _

end Progress

namespace Context

variable (context : Context)

/-- The violations of the templates of a script, in order. -/
def templateFaults (context : Context) (label : String) (code : Text) : List Violation :=
  (occurrences templateBlock code).filterMap fun block =>
    violation? (context.templateScript label block)

private theorem expandTemplates_diagnostics (label : String) (file : Option Path)
    (progress : Progress) (code : Text) :
    (context.expandTemplates label file progress code).2.diagnostics =
      progress.diagnostics ++ (context.templateFaults label code).map (·.note file) := by
  refine (weave_collects _ diagnostics
    (fun block => (violation? (context.templateScript label block)).toList.map (·.note file))
    (fun state _ block => ?_) progress _).trans ?_
  · unfold templateScript Template.script
    dsimp only
    split
    · rename_i script emitted
      rw [emitted]
      exact (append_nil _).symm
    · rename_i violation emitted
      rw [emitted]
      rfl
  · change progress.diagnostics ++ (occurrences templateBlock code).flatMap _ = _
    rw [templateFaults, filterMap_eq_flatMap_toList, map_flatMap]

private theorem injectData_lacksData (base : Path) (file : Option Path)
    (progress : Progress) (code : Text) :
    LacksData progress (context.injectData base file progress code).2 := by
  apply weave_related _ LacksData .refl .trans
  intro progress lexeme reference
  simp only
  split
  · exact .refl progress
  · refine ⟨_, rfl, ?_⟩
    intro entry member
    rw [mem_singleton.mp member]

private theorem prepare_lacksData (label : String) (base : Path) (file : Option Path)
    (progress : Progress) (code : Text) :
    LacksData
      (context.expandTemplates label file progress (dropCommentedOut code)).2
      (context.prepare label base file progress code).2 :=
  context.injectData_lacksData base file _ _

private theorem collectAssets_diagnostics (base : Path) (progress : Progress) (code : Text) :
    (collectAssets base progress code).2.diagnostics = progress.diagnostics := by
  refine (weave_collects _ diagnostics (fun _ => []) ?_ progress _).trans ?_
  · exact fun state _ _ => (append_nil state.diagnostics).symm
  · rw [flatMap_eq_nil_iff.mpr fun _ _ => rfl, append_nil]

def labelOf (context : Context) (file : Option Path) : String :=
  (file.map (·.text)).getD context.settings.label

def baseOf (context : Context) (file : Option Path) : Path :=
  (file.bind Path.parent?).getD context.settings.folder

theorem pass_cases (file : Option Path) (progress : Progress) (code : Text) : ∃ prepared middle,
      context.prepare (context.labelOf file) (context.baseOf file) file progress code =
        (prepared, middle) ∧
      ((∃ violation, ClassSugar.desugar (context.labelOf file) prepared = .error violation ∧
        context.pass file progress code = (.error violation, middle)) ∨
      ∃ desugared, ClassSugar.desugar (context.labelOf file) prepared = .ok desugared ∧
        context.pass file progress code =
          (.ok (context.conclude (context.labelOf file) (context.baseOf file) file middle desugared).1,
            (context.conclude (context.labelOf file) (context.baseOf file) file middle desugared).2)) := by
  unfold labelOf baseOf
  cases preparing : context.prepare ((file.map (·.text)).getD context.settings.label)
      ((file.bind Path.parent?).getD context.settings.folder) file progress code with
  | mk prepared middle =>
    refine ⟨prepared, middle, rfl, ?_⟩
    unfold pass
    simp only [preparing]
    split
    · rename_i violation failed
      exact .inl ⟨violation, failed, rfl⟩
    · rename_i desugared done
      exact .inr ⟨desugared, done, rfl⟩

/-- The pass over a script notes the violations of its templates, then data that is missing, then class
headers that cannot be read. -/
theorem pass_diagnostics (file : Option Path) (progress : Progress) (code : Text) :
    ∃ data headers, (context.pass file progress code).2.diagnostics =
        progress.diagnostics ++
          (context.templateFaults (context.labelOf file) (dropCommentedOut code)).map
            (·.note file) ++ data ++ headers ∧
      (∀ entry ∈ data, entry.topic = .data) ∧
      ∀ entry ∈ headers, ∃ header,
        entry = (ClassSugar.malformedHeader (context.labelOf file) header).note file := by
  have templates := context.expandTemplates_diagnostics (context.labelOf file) file progress
    (dropCommentedOut code)
  obtain ⟨data, noted, each⟩ := context.prepare_lacksData (context.labelOf file)
    (context.baseOf file) file progress code
  rw [templates] at noted
  obtain ⟨prepared, middle, preparing, ⟨violation, _, passed⟩ | ⟨desugared, _, passed⟩⟩ :=
    context.pass_cases file progress code
  · rw [preparing] at noted
    rw [passed]
    exact ⟨data, [], by rw [append_nil]; exact noted, each, fun _ member => nomatch member⟩
  · rw [preparing] at noted
    rw [passed]
    refine ⟨data, desugared.malformed.map fun header =>
      (ClassSugar.malformedHeader (context.labelOf file) header).note file, ?_, each, ?_⟩
    · refine (collectAssets_diagnostics _ _ _).trans ?_
      rw [reportHeaders, diagnostics_foldl_report, noted]
    · intro entry member
      obtain ⟨header, _, rfl⟩ := mem_map.mp member
      exact ⟨header, rfl⟩

/-- A content of a script is at fault in a template: without what is commented out, the template has it
after the text ahead of it. -/
structure TemplateFault (context : Context) (label : String) (code : Text) (violation : Violation)
    (left content : Text) : Prop where
  stands : left ++ content <+: code
  trimmed : Trimmed content
  flat : '\n' ∉ content
  inside : ∃ start opening block ahead rest after,
    dropCommentedOut code = start ++ (opening ++ block.body ++ rest) ∧
    templateBlock start.reverse (opening ++ block.body ++ rest) = some (block, after) ∧
    context.templateScript label block = .error violation ∧
    dropCommentedOut left = start ++ opening ++ ahead ∧
    Template.AtFault context.compiler.widgets label block.offset block.body ahead content violation

private theorem templateFaults_line {context : Context} {label : String} {code : Text}
    {violation : Violation}
    (member : violation ∈ context.templateFaults label (dropCommentedOut code)) :
    ∃ left content, context.TemplateFault label code violation left content ∧
      violation.line = newlines left + 1 := by
  obtain ⟨block, occurs, fails⟩ := mem_filterMap.mp member
  have failed : context.templateScript label block = .error violation := by
    cases answer : context.templateScript label block with
    | ok script =>
      rw [answer] at fails
      cases fails
    | error other =>
      rw [answer] at fails
      cases fails
      rfl
  obtain ⟨piece, among, has⟩ := mem_filterMap.mp occurs
  cases piece with
  | plain c => cases has
  | found lexeme own =>
    cases has
    obtain ⟨before, behind, pieces⟩ := append_of_mem among
    have seen := templateBlock_consumes.cut pieces
    have cleaned := flatMap_source_cut templateBlock (dropCommentedOut code)
    rw [pieces, flatMap_append, flatMap_cons, Piece.source] at cleaned
    generalize before.flatMap Piece.source = start at seen cleaned
    generalize behind.flatMap Piece.source = after at seen cleaned
    obtain ⟨opening, whole, _, smooth, offset⟩ := templateBlock_eq_some seen
    obtain ⟨ahead, content, rest, body, flat, trimmed, line, fault⟩ := Template.script_eq_error failed
    rw [append_assoc] at whole
    rw [whole] at seen cleaned
    have split : dropCommentedOut code =
        (start ++ opening ++ ahead) ++ content ++ (rest ++ ("@lx:ml>".toList ++ after)) := by
      rw [← cleaned, body]
      simp only [append_assoc]
    obtain ⟨left, right, stands, clean⟩ := dropCommentedOut_place split flat trimmed.more
    refine ⟨left, content, ⟨⟨right, stands.symm⟩, trimmed, flat, start, opening, block, ahead, _,
      after, cleaned.symm, seen, failed, clean, fault⟩, ?_⟩
    rw [line, offset, ← newlines_dropCommentedOut left, clean, newlines_append,
      newlines_append, newlines_eq_zero smooth, Nat.add_zero, newlines,
      count_reverse]
    rfl

/-- A content of a prepared script is the header of a class that is not closed. -/
structure ClassFault (prepared : Text) (violation : Violation) (before content : Text) : Prop where
  open_ : ∃ after, prepared = before ++ content ++ after ∧ content.getLast? = some '{' ∧
    Script.closing? ('{' :: after) = none
  trimmed : Trimmed content
  flat : '\n' ∉ content
  cause : ∃ name, violation.cause = .unbalancedClass name
  shown : violation.context = some (String.ofList content)

/-- A place in a prepared script comes from the place after `left` in the script. Before it, templates
and data have gained line ends, and these, blocks and module directives have lost some. -/
structure Shift (context : Context) (label : String) (base : Path) (code : Text) (place : Nat)
    (left : Text) (gained lost : Nat) : Prop where
  origin : left = code.take (origin (context.stages label base code) place)
  trace : ∃ data blocks directives comments templates commented : Rewriting,
    trace (context.stages label base code) place =
      [data, blocks, directives, comments, templates, commented] ∧
    gained = data.gained + templates.gained ∧
    lost = data.lost + blocks.lost + directives.lost + templates.lost

private theorem exists_shift (label : String) (base : Path) (file : Option Path)
    (progress : Progress) (code before rest : Text)
    (prepared : (context.prepare label base file progress code).1 = before ++ rest) :
    ∃ left gained lost, context.Shift label base code before.length left gained lost ∧
      newlines before + lost = newlines left + gained ∧
      (Untouched (context.stages label base code) before.length →
        (code.drop left.length).head? = rest.head?) := by
  have lead := context.prepare_lead label base file progress code
  rw [prepared] at lead
  have count := newlines_origin lead before.length
  rw [take_left] at count
  obtain ⟨data, blocks, directives, comments, templates, commented, parts, gained, lost⟩ :=
    context.trace_stages label base code before.length
  rw [parts, gained, lost] at count
  refine ⟨_, _, _, ⟨rfl, data, blocks, directives, comments, templates, commented, parts, rfl, rfl⟩,
    count, ?_⟩
  intro untouched
  have first := untouched.head? lead
  rw [drop_left] at first
  rw [← first, length_take]
  rcases Nat.le_total (origin (context.stages label base code) before.length) code.length with
    within | beyond
  · rw [Nat.min_eq_left within]
  · rw [Nat.min_eq_right beyond, drop_of_length_le beyond, drop_length]

end Context

namespace Job

variable (job : Job)

def ahead (job : Job) : Text :=
  (job.requested.flatMap fun name => "@lx:use ".toList ++ name.toList ++ ";\n".toList) ++
    lineOf job.settings.prelude

private theorem newlines_lineOf (text : Text) : newlines (lineOf text) = 0 ↔ text = [] := by
  cases text with
  | nil => exact ⟨fun _ => rfl, fun _ => rfl⟩
  | cons c rest =>
    refine ⟨fun none => ?_, fun empty => nomatch empty⟩
    have ended : lineOf (c :: rest) = c :: rest ++ ['\n'] := rfl
    rw [ended, newlines_append] at none
    exact absurd none (Nat.succ_ne_zero _)

private theorem newlines_ahead :
    newlines job.ahead = 0 ↔ job.requested = [] ∧ job.settings.prelude = [] := by
  rw [ahead, newlines_append, Nat.add_eq_zero_iff, newlines_lineOf]
  refine and_congr_left fun _ => ?_
  cases job.requested with
  | nil => exact ⟨fun _ => rfl, fun _ => rfl⟩
  | cons name rest =>
    refine ⟨fun none => ?_, fun empty => nomatch empty⟩
    rw [flatMap_cons, newlines_append, newlines_append] at none
    have ended : newlines ";\n".toList = 1 := by decide
    omega

abbrev label (job : Job) (tree : Tree) (compiler : Compiler) : String :=
  (job.context tree compiler).labelOf (job.file? tree)

abbrev base (job : Job) (tree : Tree) (compiler : Compiler) : Path :=
  (job.context tree compiler).baseOf (job.file? tree)

def templateFaults (job : Job) (tree : Tree) (compiler : Compiler) (source : Text) :
    List Violation :=
  (job.context tree compiler).templateFaults (job.label tree compiler)
    (dropCommentedOut (job.fullSource source))

def prepared (job : Job) (tree : Tree) (compiler : Compiler) (source : Text) : Text :=
  ((job.context tree compiler).prepare (job.label tree compiler) (job.base tree compiler)
    (job.file? tree) (job.begun tree) (job.fullSource source)).1

private theorem compile_cases (tree : Tree) (compiler : Compiler) {source : Text}
    (given : job.settings.source tree = .ok source) :
    ∃ answer progress,
      (job.context tree compiler).pass (job.file? tree) (job.begun tree) (job.fullSource source) =
        (answer, progress) ∧
      Extends progress (job.compile tree compiler).2.progress ∧
      ∀ violation, (job.compile tree compiler).1 = .error (.structural violation) →
        answer = .error violation := by
  have compiled := job.compiles tree compiler
  generalize job.compile tree compiler = answer at compiled ⊢
  cases compiled with
  | unread missing => cases given.symm.trans missing
  | violated again failed =>
    cases given.symm.trans again
    refine ⟨_, _, failed, prefix_refl _, fun other same => ?_⟩
    cases same
    rfl
  | endless again passed _ =>
    cases given.symm.trans again
    exact ⟨_, _, passed, prefix_refl _, fun _ same => nomatch same⟩
  | ended again passed expanded =>
    cases given.symm.trans again
    have grown := Context.expand_related (Extends.stepwise _) expanded
    exact ⟨_, _, passed, List.IsPrefix.trans grown (compiler.check_related
      (Extends.stepwise []).toIgnoresNotes _ _ _), fun _ same => nomatch same⟩

private theorem diagnostics_begun (tree : Tree) :
    (job.begun tree).diagnostics = job.progress.diagnostics := by
  unfold begun markFile
  split
  · split <;> rfl
  · rfl

/-- Where a text at fault is in the source of a job, the line that is given is off by what comes before
the source, by what its replacements have gained, and by what they have lost. -/
theorem line_eq_iff {job : Job} {left own : Text} {line gained lost : Nat}
    (counted : line + lost = newlines left + 1 + gained) (same : left = job.ahead ++ own) :
    line = newlines own + 1 ↔ newlines job.ahead + gained = lost := by
  rw [same, newlines_append] at counted
  omega

/-- The violations of the templates of a job are noted, and a class that is not closed is returned. A
template gives the line of the text at fault in the full source, so the line is right for the source
exactly if nothing is put before it. A class gives the line that its header has come to, so the line is
right exactly if the line ends put before the source and gained on the way are as many as those lost. -/
theorem compile_violationLines (tree : Tree) (compiler : Compiler) {source : Text}
    (given : job.settings.source tree = .ok source) :
    (∃ data headers others, (job.compile tree compiler).2.progress.diagnostics =
        job.progress.diagnostics ++
          (job.templateFaults tree compiler source).map (·.note (job.file? tree)) ++
          data ++ headers ++ others ∧
      (∀ entry ∈ data, entry.topic = .data) ∧
      ∀ entry ∈ headers, ∃ header, entry =
        (ClassSugar.malformedHeader (job.label tree compiler) header).note (job.file? tree)) ∧
    (∀ violation ∈ job.templateFaults tree compiler source, ∃ left content,
      (job.context tree compiler).TemplateFault (job.label tree compiler) (job.fullSource source)
        violation left content ∧
      violation.line = newlines left + 1 ∧
      ∀ own rest, source = own ++ content ++ rest → left = job.ahead ++ own →
        (violation.line = newlines own + 1 ↔ job.requested = [] ∧ job.settings.prelude = [])) ∧
    ∀ violation, (job.compile tree compiler).1 = .error (.structural violation) →
      ∃ before content left gained lost,
        Context.ClassFault (job.prepared tree compiler source) violation before content ∧
        (job.context tree compiler).Shift (job.label tree compiler) (job.base tree compiler)
          (job.fullSource source) before.length left gained lost ∧
        (Untouched ((job.context tree compiler).stages (job.label tree compiler)
            (job.base tree compiler) (job.fullSource source)) before.length →
          ((job.fullSource source).drop left.length).head? = content.head?) ∧
        violation.line + lost = newlines left + 1 + gained ∧
        ∀ own rest, source = own ++ rest → left = job.ahead ++ own →
          (violation.line = newlines own + 1 ↔ newlines job.ahead + gained = lost) := by
  obtain ⟨answer, progress, passed, extended, returned⟩ := job.compile_cases tree compiler given
  refine ⟨?_, ?_, ?_⟩
  · obtain ⟨data, headers, noted, each, every⟩ := (job.context tree compiler).pass_diagnostics
      (job.file? tree) (job.begun tree) (job.fullSource source)
    rw [passed, diagnostics_begun] at noted
    obtain ⟨others, whole⟩ := extended
    dsimp only at noted
    rw [noted] at whole
    exact ⟨data, headers, others, whole.symm, each, every⟩
  · intro violation member
    obtain ⟨left, content, fault, line⟩ := Context.templateFaults_line member
    refine ⟨left, content, fault, line, ?_⟩
    intro own rest _ same
    have counted : violation.line + 0 = newlines left + 1 + 0 := line
    rw [line_eq_iff counted same, ← newlines_ahead]
    exact Iff.rfl
  · intro violation failed
    have stopped := returned violation failed
    subst stopped
    obtain ⟨prepared, middle, preparing, ⟨other, desugared, same⟩ | ⟨_, _, same⟩⟩ :=
      (job.context tree compiler).pass_cases (job.file? tree) (job.begun tree) (job.fullSource source)
    · cases passed.symm.trans same
      obtain ⟨before, content, after, name, whole, trimmed, flat, shown, cause, last, unclosed, line⟩ :=
        ClassSugar.desugar_eq_error desugared
      have reached : job.prepared tree compiler source = before ++ content ++ after := by
        rw [Job.prepared, preparing, whole]
      obtain ⟨left, gained, lost, shift, counted, first⟩ := (job.context tree compiler).exists_shift
        _ _ _ _ _ before (content ++ after) (reached.trans (List.append_assoc _ _ _))
      have counted : violation.line + lost = newlines left + 1 + gained := by
        rw [line]
        omega
      refine ⟨before, content, left, gained, lost, ⟨⟨after, reached, last, unclosed⟩, trimmed, flat,
        ⟨name, cause⟩, shown⟩, shift, ?_, counted, ?_⟩
      · intro untouched
        rw [first untouched, Text.head?_append_left trimmed.more]
      · intro own rest _ same
        exact line_eq_iff counted same
    · cases passed.symm.trans same

def brokenSource : Text := "@lx:<ml:\n<p>\n@lx:ml>\nclass A \x7b\n".toList

def brokenJob : Job where
  settings := { side := .client, code := some brokenSource }
  requested := ["M"]

def nothingThere : Tree where
  entries := []
  home := []

def nothingKnown : Compiler where
  modules := { root := ⟨"/"⟩, modules := [] }
  widgets := .empty

def violationLine : Except Failure Text → Nat
  | .error (.structural violation) => violation.line
  | _ => 0

private theorem brokenJob_violation :
    ∃ violation, (brokenJob.compile nothingThere nothingKnown).1 = .error (.structural violation) ∧
      violation.line = 3 := by
  have shown : violationLine (brokenJob.compile nothingThere nothingKnown).1 = 3 := by decide +kernel
  unfold violationLine at shown
  split at shown
  · next violation failed => exact ⟨violation, failed, shown⟩
  · cases shown

/-- The template at fault in line 2 and the class in line 4 are both said to be in line 3. -/
theorem compile_violationLines_broken :
    (∃ violation ∈ brokenJob.templateFaults nothingThere nothingKnown brokenSource,
      violation.line = 3 ∧ ∃ left content, Text.Trimmed content ∧
        ∀ own rest, brokenSource = own ++ content ++ rest → left = brokenJob.ahead ++ own →
          newlines own + 1 = 2) ∧
    ∃ violation before content left gained lost,
      (brokenJob.compile nothingThere nothingKnown).1 = .error (.structural violation) ∧
      Context.ClassFault (brokenJob.prepared nothingThere nothingKnown brokenSource) violation before
        content ∧
      violation.line = 3 ∧ 3 + lost = newlines left + 1 + gained ∧
      (left = brokenJob.ahead ++ brokenSource.take 21 → lost = gained + 2) := by
  have given : brokenJob.settings.source nothingThere = .ok brokenSource := rfl
  have ahead : newlines brokenJob.ahead = 1 := by decide
  obtain ⟨_, templates, classes⟩ := compile_violationLines brokenJob nothingThere nothingKnown given
  constructor
  · obtain ⟨violation, member, high⟩ := List.mem_map.mp
      (by decide +kernel : 3 ∈
        (brokenJob.templateFaults nothingThere nothingKnown brokenSource).map (·.line))
    obtain ⟨left, content, fault, line, _⟩ := templates violation member
    refine ⟨violation, member, high, left, content, fault.trimmed, ?_⟩
    intro own rest _ same
    rw [same, Text.newlines_append, ahead] at line
    omega
  · obtain ⟨violation, failed, low⟩ := brokenJob_violation
    obtain ⟨before, content, left, gained, lost, fault, _, _, counted, _⟩ := classes violation failed
    rw [low] at counted
    refine ⟨violation, before, content, left, gained, lost, failed, fault, low, counted, ?_⟩
    intro same
    have before : newlines (brokenSource.take 21) = 3 := by decide
    rw [same, Text.newlines_append, ahead, before] at counted
    omega

end Job

end PageScript
