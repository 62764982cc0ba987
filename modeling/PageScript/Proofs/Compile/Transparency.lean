import Mathlib.Data.List.Infix
import PageScript.Compile
import PageScript.Proofs.Class.Sugar

/-! Code without directives compiles to itself (`compile_unmarked`). -/

namespace PageScript

open Text Directive ClassSugar Option List

variable {code : Text}

namespace Directive

private theorem commentedOut_needs : Needs "@lx:".toList commentedOut := by
  intro before text found seen
  obtain ⟨rest, comment, more⟩ := bind_eq_some_iff.mp seen
  obtain ⟨after, directive, _⟩ := bind_eq_some_iff.mp more
  have suffix : gaps rest <:+ text := by
    rw [after?_eq_some.mp comment]
    exact (dropWhile_suffix _).trans (suffix_append _ rest)
  refine IsInfix.trans ?_ suffix.isInfix
  rw [after?_eq_some.mp directive]
  exact (prefix_append _ after).isInfix

private theorem templateBlock_needs : Needs "@lx:".toList templateBlock :=
  .of_expect "@lx:<ml" ⟨[], "<ml".toList, rfl⟩ fun _ _ missing => by simp [templateBlock, missing]

private theorem moduleName_needs : Needs "@lx:".toList moduleName :=
  .of_expect "@lx:module" ⟨[], "module".toList, rfl⟩ fun _ _ missing => by simp [moduleName, missing]

private theorem moduleDirective_needs : Needs "@lx:".toList moduleDirective := by
  intro before text found seen
  cases named : moduleName before text with
  | some heading => exact moduleName_needs before text heading named
  | none =>
    rw [moduleDirective, named] at seen
    obtain ⟨rest, begun, _⟩ := bind_eq_some_iff.mp seen
    rw [after?_eq_some.mp begun]
    exact ⟨[], "module-data".toList ++ rest, rfl⟩

private theorem labelledBlock_needs (word : String) : Needs "@lx:".toList (labelledBlock word) :=
  .of_expect "@lx:<" ⟨[], "<".toList, rfl⟩ fun _ _ missing => by simp [labelledBlock, missing]

private theorem asset_needs : Needs "@lx:".toList asset :=
  .of_expect "@lx:" ⟨[], [], rfl⟩ fun _ _ missing => by simp [asset, missing]

theorem require_needs : Needs "@lx:".toList require :=
  .of_expect "@lx:require" ⟨[], "require".toList, rfl⟩ fun _ _ missing => by simp [require, missing]

theorem use_needs : Needs "@lx:".toList use :=
  .of_expect "@lx:use" ⟨[], "use".toList, rfl⟩ fun _ _ missing => by simp [use, missing]

private theorem dataReference_needs : Needs "lx(".toList dataReference :=
  .of_expect "lx(" ⟨[], [], rfl⟩ fun _ _ missing => by simp [dataReference, missing]

private theorem selfReference_needs : Needs "lx.self(".toList selfReference :=
  .of_expect "lx.self(" ⟨[], [], rfl⟩ fun _ _ missing => by simp [selfReference, missing]

end Directive

theorem Locale.reference_needs : Needs "lx(".toList Locale.reference :=
  .of_expect "lx(i18n" ⟨[], "i18n".toList, rfl⟩ fun _ _ missing => by simp [Locale.reference, missing]

/-- Code without directives and without references that are replaced. -/
structure Unmarked (code : Text) : Prop where
  directive : ¬ "@lx:".toList <:+: code
  reference : ¬ "lx(".toList <:+: code
  self : ¬ "lx.self(".toList <:+: code

theorem Unmarked.newline (unmarked : Unmarked code) : Unmarked (code ++ ['\n']) where
  directive := not_infix_concat (by decide) unmarked.directive
  reference := not_infix_concat (by decide) unmarked.reference
  self := not_infix_concat (by decide) unmarked.self

def Progress.Noted (before after : Progress) : Prop :=
  ∃ noted, after = { before with diagnostics := before.diagnostics ++ noted }

namespace Progress.Noted

variable {first second third : Progress}

private theorem refl (progress : Progress) : Noted progress progress :=
  ⟨[], by rw [append_nil]⟩

theorem trans (left : Noted first second) (right : Noted second third) : Noted first third := by
  obtain ⟨early, rfl⟩ := left
  obtain ⟨late, rfl⟩ := right
  exact ⟨early ++ late, by rw [append_assoc]⟩

theorem report (progress : Progress) (topic : Topic) (file : Option Path) (message : String) :
    Noted progress (progress.report topic file message) :=
  ⟨_, rfl⟩

end Progress.Noted

open Progress (Noted)

theorem Compiler.check_noted (compiler : Compiler) (file : Option Path) (progress : Progress)
    (code : Text) : Noted progress (compiler.check file progress code) := by
  unfold Compiler.check
  split
  · generalize compiler.syntaxErrors code = errors
    induction errors generalizing progress with
    | nil => exact .refl progress
    | cons error rest ih => exact (Noted.report progress _ _ _).trans (ih _)
  · exact .refl progress

namespace Context

private theorem reportHeaders_noted (label : String) (file : Option Path) (progress : Progress)
    (headers : List Text) : Noted progress (reportHeaders label file progress headers) := by
  induction headers generalizing progress with
  | nil => exact .refl progress
  | cons header rest ih => exact (Noted.report progress _ _ _).trans (ih _)

private theorem prepare_unmarked (unmarked : Unmarked code)
    (uncommented : Script.stripComments code = code) (context : Context) (label : String) (base : Path)
    (file : Option Path) (progress : Progress) :
    context.prepare label base file progress code = (code, progress) := by
  have live : dropCommentedOut code = code :=
    commentedOut_needs.replace unmarked.directive _
  have undeclared : dropModuleDirectives code = code :=
    moduleDirective_needs.replace unmarked.directive _
  have unlabelled : filterBlocks "context" context.settings.side.label.toList code = code :=
    (labelledBlock_needs "context").replace unmarked.directive _
  unfold prepare expandTemplates injectData
  rw [live, templateBlock_needs.weave unmarked.directive]
  dsimp only
  rw [uncommented, undeclared, unlabelled, dataReference_needs.weave unmarked.reference]

private theorem conclude_unmarked {desugared : Desugared} (unmarked : Unmarked desugared.code)
    (context : Context) (label : String) (base : Path) (file : Option Path) (progress : Progress) :
    ∃ after, context.conclude label base file progress desugared = (desugared.code, after) ∧
      Noted progress after := by
  have unlabelled : filterBlocks "mode" context.settings.mode.toList desugared.code =
      desugared.code :=
    (labelledBlock_needs "mode").replace unmarked.directive _
  refine ⟨_, ?_, reportHeaders_noted label file progress desugared.malformed⟩
  unfold conclude collectAssets
  dsimp only
  rw [asset_needs.weave unmarked.directive]
  dsimp only
  rw [unlabelled]

private theorem pass_unmarked (unmarked : Unmarked code)
    (uncommented : Script.stripComments code = code) (context : Context)
    (closed : ∃ desugared, desugar context.settings.label code = .ok desugared)
    (progress : Progress) :
    ∃ after, context.pass none progress code = (.ok code, after) ∧ Noted progress after := by
  obtain ⟨desugared, done⟩ := closed
  have same : desugared.code = code := desugar_code unmarked.directive done
  obtain ⟨after, concluded, noted⟩ := conclude_unmarked (same.symm ▸ unmarked) context
    context.settings.label context.settings.folder none progress
  refine ⟨after, ?_, noted⟩
  unfold pass
  dsimp only [map_none, getD_none, bind_none]
  rw [prepare_unmarked unmarked uncommented, done]
  dsimp only
  rw [concluded, same]

theorem expand_unmarked (unmarked : Unmarked code) (context : Context) (base : Path)
    (progress : Progress) : context.expand base progress code = some (code, progress) := by
  unfold expand requireFuel
  generalize Nat.pow _ _ = size
  rw [expandRequires, require_needs.weave? unmarked.directive]
  exact use_needs.weave? unmarked.directive _ progress

end Context

theorem Settings.finish_unmarked (unmarked : Unmarked code) (settings : Settings)
    (progress : Progress) : settings.finish progress code = code := by
  unfold Settings.finish Locale.substitute resolveSelf
  rw [Locale.reference_needs.replace unmarked.reference,
    selfReference_needs.replace unmarked.self]

namespace Job

/-- A job with given code and nothing around it. -/
structure Bare (job : Job) (source : Text) : Prop where
  code : job.settings.code = some source
  file : job.settings.file = none
  prelude : job.settings.prelude = []
  postlude : job.settings.postlude = []
  wrap : job.settings.wrap = false
  requested : job.requested = []

theorem Bare.fullSource {job : Job} {source : Text} (bare : job.Bare source) (more : source ≠ []) :
    job.fullSource source = source ++ ['\n'] := by
  have line : lineOf source = source ++ ['\n'] := by simp [lineOf, more]
  rw [Job.fullSource, bare.requested, bare.prelude, bare.postlude, line]
  simp [lineOf]

/-- Code without directives compiles to itself with a line end, and the job gains diagnostics at most. -/
theorem compile_unmarked (tree : Tree) (compiler : Compiler) {job : Job} {source : Text}
    (bare : job.Bare source) (more : source ≠ []) (unmarked : Unmarked source)
    (uncommented : Script.stripComments (source ++ ['\n']) = source ++ ['\n'])
    (closed : ∃ desugared, ClassSugar.desugar job.settings.label source = .ok desugared) :
    ∃ noted, job.compile tree compiler =
      (.ok (source ++ ['\n']),
        { job with
          progress := { job.progress with diagnostics := job.progress.diagnostics ++ noted } }) := by
  have given : job.settings.source tree = .ok source := by
    rw [Settings.source, bare.code]
  have fileless : job.file? tree = none := by
    rw [Job.file?, bare.file, Option.map_none]
  have begun : job.begun tree = job.progress := by
    rw [Job.begun, fileless]
  have closed' := (ClassSugar.desugar_newline unmarked.directive).mpr closed
  obtain ⟨passed, ran, early⟩ := Context.pass_unmarked unmarked.newline uncommented
    { tree, compiler, settings := job.settings } closed' job.progress
  obtain ⟨noted, final⟩ := early.trans (compiler.check_noted none passed (source ++ ['\n']))
  refine ⟨noted, ?_⟩
  unfold compile
  dsimp only
  rw [given]
  dsimp only
  rw [bare.fullSource more, fileless, begun, ran]
  dsimp only
  rw [if_neg (by rw [bare.wrap]; exact Bool.false_ne_true), Context.expand_unmarked unmarked.newline]
  dsimp only
  rw [Settings.finish_unmarked unmarked.newline, final, bare.requested]

def sketch : Text :=
  "class A \x7b m() \x7b return class \x7b\x7d; \x7d \x7d\nclass 1 \x7b\n'// @lx';".toList

private theorem sketch_closed : ∃ desugared, desugar "<inline>" sketch = .ok desugared := by
  have done : (desugar "<inline>" sketch).toOption.isSome = true := by
    unfold desugar marks
    dsimp only
    -- sorting does not evaluate, but the headers are in order already
    rw [mergeSort_of_pairwise (by decide +kernel)]
    decide +kernel
  obtain ⟨desugared, same⟩ := isSome_iff_exists.mp done
  exact ⟨desugared, toOption_eq_some.mp same⟩

theorem compile_unmarked_sketch :
    Unmarked sketch ∧
      ∃ noted, compile { settings := { code := some sketch, side := .client } }
          { entries := [], home := [] }
          { modules := { root := ⟨"/"⟩, modules := [] }, widgets := .empty, checkSyntax := true } =
        (.ok (sketch ++ ['\n']),
          { settings := { code := some sketch, side := .client }
            progress := { diagnostics := noted } }) := by
  have unmarked : Unmarked sketch :=
    ⟨by decide +kernel, by decide +kernel, by decide +kernel⟩
  have bare : Bare { settings := { code := some sketch, side := .client } } sketch :=
    ⟨rfl, rfl, rfl, rfl, rfl, rfl⟩
  exact ⟨unmarked,
    compile_unmarked _ _ bare (by decide +kernel) unmarked (by decide +kernel) sketch_closed⟩

end Job

end PageScript
