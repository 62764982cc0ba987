import PageScript.Proofs.Asset
import PageScript.Proofs.Compile.Growth

/-! The lists of a job hold nothing twice, and everything that was listed stays (`runAll_sound`). -/

open List

namespace PageScript

open Context Progress

variable {ignored : List String} {name : String} {first second third : Progress}

namespace Progress

/-- Nothing is listed twice. Files are compared by their components. -/
structure Sound (progress : Progress) : Prop where
  files : progress.compiledFiles.Pairwise fun left right => left.same right = false
  modules : progress.compiledModules.Nodup
  deferred : progress.deferredModules.Nodup
  assets : progress.assets.Sound

private theorem sound_start : Sound {} where
  files := .nil
  modules := .nil
  deferred := .nil
  assets := ⟨.nil, fun path => by simp [AssetSet.contains, AssetSet.paths]⟩

def AppendedTo (ignored before after : List String) : Prop :=
  ∃ added, after = before ++ added ∧ ∀ name ∈ added, name ∉ ignored

theorem AppendedTo.refl (ignored names : List String) : AppendedTo ignored names names :=
  ⟨[], by simp⟩

theorem AppendedTo.trans {first second third : List String} (left : AppendedTo ignored first second)
    (right : AppendedTo ignored second third) : AppendedTo ignored first third := by
  obtain ⟨early, rfl, allowed⟩ := left
  obtain ⟨late, rfl, later⟩ := right
  refine ⟨early ++ late, append_assoc _ _ _, ?_⟩
  intro name member
  rcases mem_append.mp member with inEarly | inLate
  · exact allowed name inEarly
  · exact later name inLate

theorem AppendedTo.concat (wanted : name ∉ ignored) (names : List String) :
    AppendedTo ignored names (names ++ [name]) := by
  refine ⟨[name], rfl, ?_⟩
  intro other member
  rwa [mem_singleton.mp member]

/-- From one state to the other every list has grown at its end only, by no module that is ignored. -/
structure Grows (ignored : List String) (before after : Progress) : Prop where
  files : before.compiledFiles <+: after.compiledFiles
  modules : AppendedTo ignored before.compiledModules after.compiledModules
  deferred : AppendedTo ignored before.deferredModules after.deferredModules
  assets : before.assets.items <+: after.assets.items
  diagnostics : before.diagnostics <+: after.diagnostics

theorem Grows.refl (ignored : List String) (progress : Progress) : Grows ignored progress progress where
  files := prefix_refl _
  modules := .refl _ _
  deferred := .refl _ _
  assets := prefix_refl _
  diagnostics := prefix_refl _

theorem Grows.trans (left : Grows ignored first second) (right : Grows ignored second third) :
    Grows ignored first third where
  files := left.files.trans right.files
  modules := left.modules.trans right.modules
  deferred := left.deferred.trans right.deferred
  assets := left.assets.trans right.assets
  diagnostics := left.diagnostics.trans right.diagnostics

structure Advances (ignored : List String) (before after : Progress) : Prop where
  grows : Grows ignored before after
  sound : before.Sound → after.Sound

theorem Advances.refl (ignored : List String) (progress : Progress) :
    Advances ignored progress progress :=
  ⟨.refl ignored progress, id⟩

theorem Advances.trans (left : Advances ignored first second)
    (right : Advances ignored second third) : Advances ignored first third :=
  ⟨left.grows.trans right.grows, fun sound => right.sound (left.sound sound)⟩

private theorem nodup_append_new {names : List String} (distinct : names.Nodup)
    (fresh : ¬ names.contains name = true) : (names ++ [name]).Nodup := by
  rw [← concat_eq_append, nodup_concat]
  simpa [distinct] using fresh

private theorem report_advances (ignored : List String) (progress : Progress) (topic : Topic)
    (file : Option Path) (message : String) :
    Advances ignored progress (progress.report topic file message) where
  grows := { Grows.refl ignored progress with diagnostics := prefix_append _ _ }
  sound sound := { sound with }

private theorem addAsset_advances (ignored : List String) (progress : Progress) (path : String)
    (kind : AssetKind) : Advances ignored progress (progress.addAsset path kind) where
  grows := { Grows.refl ignored progress with assets := AssetSet.items_add _ path kind }
  sound sound := { sound with assets := sound.assets.add path kind }

private theorem markFile_advances (ignored : List String) (progress : Progress) (file : Path) :
    Advances ignored progress (progress.markFile file) := by
  unfold markFile
  by_cases known : progress.isCompiled file = true
  · rw [if_pos known]
    exact .refl ignored progress
  · rw [if_neg known]
    constructor
    · exact { Grows.refl ignored progress with files := prefix_append _ _ }
    · intro sound
      refine { sound with files := ?_ }
      rw [pairwise_append]
      refine ⟨sound.files, pairwise_singleton _ _, ?_⟩
      intro other member same added
      rw [mem_singleton.mp added, Bool.eq_false_iff]
      intro equal
      exact known (any_eq_true.mpr ⟨other, member, equal⟩)

theorem markModule_advances (wanted : name ∉ ignored) (progress : Progress) :
    Advances ignored progress (progress.markModule name) := by
  unfold markModule
  by_cases known : progress.compiledModules.contains name = true
  · rw [if_pos known]
    exact .refl ignored progress
  · rw [if_neg known]
    constructor
    · exact { Grows.refl ignored progress with modules := .concat wanted _ }
    · intro sound
      exact { sound with modules := nodup_append_new sound.modules known }

private theorem deferModule_advances (wanted : name ∉ ignored) (progress : Progress) :
    Advances ignored progress (progress.deferModule name) := by
  unfold deferModule
  by_cases known : progress.deferredModules.contains name = true
  · rw [if_pos known]
    exact .refl ignored progress
  · rw [if_neg known]
    have noted := progress.addAsset_advances ignored name .module
    constructor
    · exact { noted.grows with deferred := .concat wanted _ }
    · intro sound
      exact { noted.sound sound with deferred := nodup_append_new sound.deferred known }

theorem Advances.stepwise (ignored : List String) : Stepwise ignored (Advances ignored) where
  refl := .refl ignored
  trans := .trans
  report := report_advances ignored
  addAsset := addAsset_advances ignored
  markFile := markFile_advances ignored
  markModule progress _ wanted := markModule_advances wanted progress
  deferModule progress _ wanted := deferModule_advances wanted progress
  setTexts progress _ := {
    grows := { Grows.refl ignored progress with }
    sound := fun sound => { sound with } }

end Progress

namespace Job

variable (job : Job)

/-- What can be called on a job: it is compiled, a script is taken through the pass or expanded for it, a
file is marked or a failure noted. In between its settings may change. -/
inductive Call where
  | compile (tree : Tree) (compiler : Compiler)
  | pass (tree : Tree) (compiler : Compiler) (file : Option Path) (code : Text)
  | expand (tree : Tree) (compiler : Compiler) (base : Path) (code : Text)
  | markFile (file : Path)
  | report (topic : Topic) (file : Option Path) (message : String)
  | adjust (settings : Settings) (requested : List String)

def run (job : Job) : Call → Job
  | .compile tree compiler => (job.compile tree compiler).2
  | .pass tree compiler file code =>
      let context : Context := { tree, compiler, settings := job.settings }
      { job with progress := (context.pass file job.progress code).2 }
  | .expand tree compiler base code =>
      let context : Context := { tree, compiler, settings := job.settings }
      match context.expand base job.progress code with
      | none => job
      | some (_, progress) => { job with progress }
  | .markFile file => { job with progress := job.progress.markFile file }
  | .report topic file message => { job with progress := job.progress.report topic file message }
  | .adjust settings requested => { job with settings, requested }

def runAll (job : Job) (calls : List Call) : Job :=
  calls.foldl run job

private theorem run_advances (call : Call) :
    Advances job.settings.ignored job.progress (job.run call).progress := by
  have stepwise := Advances.stepwise job.settings.ignored
  cases call with
  | compile tree compiler => exact compile_related stepwise tree compiler
  | pass tree compiler file code =>
    dsimp only [run]
    exact pass_related stepwise.toIgnoresNotes
      { tree, compiler, settings := job.settings } file job.progress code
  | expand tree compiler base code =>
    unfold run
    dsimp only
    cases expanded : expand { tree, compiler, settings := job.settings } base
        job.progress code with
    | none => exact .refl _ _
    | some answer => exact expand_related stepwise expanded
  | markFile file => exact markFile_advances _ _ _
  | report topic file message => exact report_advances _ _ _ _ _
  | adjust settings requested => exact .refl _ _

private theorem sound_runAll {job : Job} (sound : job.progress.Sound) (calls : List Call) :
    (job.runAll calls).progress.Sound := by
  induction calls generalizing job with
  | nil => exact sound
  | cons call rest ih => exact ih ((job.run_advances call).sound sound)

/-- However a job has been used, its lists have nothing twice, and the next call only adds to their ends,
and no module that is ignored. -/
theorem runAll_sound (sound : job.progress.Sound) (calls : List Call) (call : Call) :
    (job.runAll calls).progress.Sound ∧
    Grows (job.runAll calls).settings.ignored (job.runAll calls).progress
      (job.runAll (calls ++ [call])).progress := by
  refine ⟨sound_runAll sound calls, ?_⟩
  rw [runAll, runAll, List.foldl_append]
  exact (run_advances _ call).grows

def pairTree : Tree where
  entries := [(["a.js"], .file "@lx:js x.js;a();\n".toList), (["b.js"], .file "class B \x7b\n".toList)]
  home := []

def pairCompiler : Compiler where
  modules := {
    root := ⟨"/"⟩
    modules := [("A", { name := "A", path := "a.js" }), ("B", { name := "B", path := "b.js" })] }
  widgets := .empty

def pairSettings (ignored : List String) (buildModules : Bool) : Settings where
  side := .client
  code := some "@lx:use A, B;\n@lx:js x.js;".toList
  ignored
  buildModules

def pairCalls : List Call :=
  [.compile pairTree pairCompiler, .adjust (pairSettings [] true) ["A"],
    .compile pairTree pairCompiler, .pass pairTree pairCompiler none "class C \x7b".toList,
    .adjust (pairSettings ["A"] false) [], .compile pairTree pairCompiler]

def pairJob : Job where
  settings := pairSettings ["B"] true

private theorem runAll_pair :
    (pairJob.runAll pairCalls).settings.ignored = ["A"] ∧
    (pairJob.runAll pairCalls).progress.compiledModules = ["A"] ∧
    (pairJob.runAll pairCalls).progress.deferredModules = ["B"] ∧
    (pairJob.runAll pairCalls).progress.compiledFiles = [⟨"/a.js"⟩] ∧
    (pairJob.runAll pairCalls).progress.assets.paths = ["x.js", "B"] ∧
    (pairJob.runAll pairCalls).progress.diagnostics.length = 1 := by
  decide +kernel

theorem runAll_sound_pair :
    pairJob.progress.Sound ∧ (pairJob.runAll pairCalls).progress.Sound ∧
    Grows ["A"] (pairJob.runAll pairCalls).progress
      (pairJob.runAll (pairCalls ++ [.markFile ⟨"/./a.js/"⟩])).progress ∧
    (pairJob.runAll pairCalls).progress.compiledModules = ["A"] ∧
    (pairJob.runAll pairCalls).progress.deferredModules = ["B"] := by
  obtain ⟨sound, grows⟩ := runAll_sound pairJob Progress.sound_start pairCalls
    (.markFile ⟨"/./a.js/"⟩)
  obtain ⟨ignored, compiled, deferred, _⟩ := runAll_pair
  rw [ignored] at grows
  exact ⟨Progress.sound_start, sound, grows, compiled, deferred⟩

end Job

end PageScript
