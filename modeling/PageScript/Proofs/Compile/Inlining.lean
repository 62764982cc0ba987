import Mathlib.Data.List.Induction
import Mathlib.Data.List.Nodup
import PageScript.Proofs.Compile.Steps
import PageScript.Proofs.Lists

/-! How often the code of a file is put into the results of a job. -/

open List

namespace PageScript

open Insertion Context Progress

variable {record : List Insertion} {after progress : Progress} {inclusion : Inclusion}
  {context : Context} {text : Text}

namespace Progress

def Keeps (before after : Progress) : Prop :=
  ∀ file, before.isCompiled file = true → after.isCompiled file = true

variable {first second third : Progress}

theorem Keeps.refl (progress : Progress) : Keeps progress progress :=
  fun _ compiled => compiled

theorem Keeps.trans (left : Keeps first second) (right : Keeps second third) : Keeps first third :=
  fun file compiled => right file (left file compiled)

theorem Quiet.isCompiled (quiet : Quiet first second) (file : Path) :
    second.isCompiled file = first.isCompiled file := by
  unfold Progress.isCompiled
  rw [quiet.files]

theorem Quiet.keeps (quiet : Quiet first second) : Keeps first second := by
  intro file compiled
  rw [quiet.isCompiled]
  exact compiled

private theorem isCompiled_congr (progress : Progress) {left right : Path}
    (same : left.components = right.components) :
    progress.isCompiled left = progress.isCompiled right := by
  unfold isCompiled Path.same
  rw [same]

private theorem markFile_keeps (progress : Progress) (file : Path) :
    Keeps progress (progress.markFile file) := by
  intro other compiled
  unfold markFile
  split
  · exact compiled
  · unfold isCompiled at compiled ⊢
    rw [any_append, compiled, Bool.true_or]

theorem isCompiled_markFile (progress : Progress) (file : Path) :
    (progress.markFile file).isCompiled file = true := by
  unfold markFile
  split
  · assumption
  · unfold isCompiled
    rw [any_append, any_cons]
    simp [Path.same]

theorem foldl_markFile_keeps (progress : Progress) (files : List Path) :
    Keeps progress (files.foldl markFile progress) := by
  induction files generalizing progress with
  | nil => exact .refl progress
  | cons file rest ih => exact (progress.markFile_keeps file).trans (ih _)

theorem isCompiled_foldl_markFile (progress : Progress) {files : List Path} {file : Path}
    (member : file ∈ files) : (files.foldl markFile progress).isCompiled file = true := by
  induction files generalizing progress with
  | nil => cases member
  | cons first rest ih =>
    rcases mem_cons.mp member with same | later
    · rw [same]
      exact foldl_markFile_keeps _ rest _ (progress.isCompiled_markFile first)
    · exact ih _ later

private theorem markModule_keeps (progress : Progress) (name : String) :
    Keeps progress (progress.markModule name) := by
  intro file compiled
  unfold isCompiled at compiled ⊢
  rw [compiledFiles_markModule]
  exact compiled

/-- From one state to the other, a record was put in: its files are compiled by then, and files that
were not put in by force were neither compiled at first nor put in earlier. -/
structure Inlines (before after : Progress) (record : List Insertion) : Prop where
  keeps : Keeps before after
  marked : ∀ path ∈ allPaths record, after.isCompiled path = true
  guarded : ∀ left paths right, record = left ++ .files false paths :: right → ∀ path ∈ paths,
    before.isCompiled path = false ∧
      path.components ∉ (allPaths left).map Path.components

theorem Inlines.nothing (keeps : Keeps first second) : Inlines first second [] where
  keeps := keeps
  marked := by
    intro path member
    cases member
  guarded := by
    intro left paths right split
    cases left <;> cases split

theorem Inlines.files {forced : Bool} {paths : List Path} (keeps : Keeps first second)
    (marked : ∀ path ∈ paths, second.isCompiled path = true)
    (free : forced = false → ∀ path ∈ paths, first.isCompiled path = false) :
    Inlines first second [.files forced paths] where
  keeps := keeps
  marked := by
    intro path member
    rw [allPaths, flatMap_singleton] at member
    exact marked path member
  guarded := by
    intro left others right split path member
    obtain ⟨rfl, same⟩ := singleton_eq_append_cons split
    cases same
    exact ⟨free rfl path member, not_mem_nil⟩

theorem Inlines.built {module_ : Built} (keeps : Keeps first second)
    (marked : second.isCompiled module_.file = true) :
    Inlines first second [.built module_] where
  keeps := keeps
  marked := by
    intro path member
    rw [allPaths, flatMap_singleton] at member
    rw [mem_singleton.mp member]
    exact marked
  guarded := by
    intro left others right split
    cases (singleton_eq_append_cons split).2

theorem Inlines.append {left right : List Insertion} (begun : Inlines first second left)
    (ended : Inlines second third right) : Inlines first third (left ++ right) where
  keeps := begun.keeps.trans ended.keeps
  marked := by
    intro path member
    rw [allPaths_append] at member
    rcases mem_append.mp member with early | late
    · exact ended.keeps path (begun.marked path early)
    · exact ended.marked path late
  guarded := by
    intro before paths after split path member
    rcases append_eq_append_cons split with ⟨more, leftIs⟩ | ⟨more, rfl, rightIs⟩
    · exact begun.guarded before paths more leftIs path member
    · obtain ⟨free, absent⟩ := ended.guarded more paths after rightIs path member
      -- whatever was put in by the first part is compiled when the second begins
      have unseen : path.components ∉ (allPaths left).map Path.components := by
        intro again
        obtain ⟨other, within, same⟩ := mem_map.mp again
        rw [← second.isCompiled_congr same, begun.marked other within] at free
        cases free
      refine ⟨?_, ?_⟩
      · rw [Bool.eq_false_iff]
        intro compiled
        rw [begun.keeps path compiled] at free
        cases free
      · rw [allPaths_append, map_append, mem_append, not_or]
        exact ⟨unseen, absent⟩

end Progress

namespace Insertion

theorem nodup_allPaths (each : ∀ insertion ∈ record, (insertion.paths.map Path.components).Nodup)
    (new : ∀ left insertion right, record = left ++ insertion :: right → ∀ path ∈ insertion.paths,
      path.components ∉ (allPaths left).map Path.components) :
    ((allPaths record).map Path.components).Nodup := by
  induction record using List.reverseRecOn with
  | nil => exact .nil
  | append_singleton init last ih =>
    have before := ih (fun insertion member => each insertion (mem_append_left _ member)) (by
      intro left insertion right split
      apply new left insertion (right ++ [last])
      rw [split, append_assoc, cons_append])
    have own := each last (mem_append_right _ mem_cons_self)
    rw [allPaths_append, map_append, nodup_append]
    refine ⟨before, by simpa [allPaths] using own, ?_⟩
    intro components early other late same
    subst same
    rw [allPaths, flatMap_singleton] at late
    obtain ⟨path, within, rfl⟩ := mem_map.mp late
    exact new init last [] rfl path within early

end Insertion

/-- Without force, files are put in at most once exactly if no insertion repeats a file and no module
is built from a file that was put in before. -/
theorem Progress.Inlines.nodup_iff {before : Progress} (inlines : before.Inlines after record)
    (unforced : ∀ insertion ∈ record, insertion.forced = false) :
    ((allPaths record).map Path.components).Nodup ↔
      (∀ insertion ∈ record, (insertion.paths.map Path.components).Nodup) ∧
      ∀ left built right, record = left ++ .built built :: right →
        built.file.components ∉ (allPaths left).map Path.components := by
  constructor
  · intro distinct
    refine ⟨?_, ?_⟩
    · intro insertion member
      obtain ⟨left, right, rfl⟩ := append_of_mem member
      refine distinct.sublist (List.Sublist.map _ ?_)
      rw [allPaths, flatMap_append, flatMap_cons]
      exact (sublist_append_left _ _).trans (sublist_append_right _ _)
    · rintro left built right rfl again
      rw [allPaths_append, map_append, nodup_append] at distinct
      refine distinct.2.2 _ again built.file.components ?_ rfl
      exact mem_map_of_mem (mem_append_left _ mem_cons_self)
  · rintro ⟨each, modules⟩
    refine nodup_allPaths each ?_
    intro left insertion right split path member
    have held : insertion ∈ record := by
      rw [split]
      exact mem_append_right _ mem_cons_self
    cases insertion with
    | files forced paths =>
      have free : forced = false := unforced _ held
      rw [free] at split
      exact (inlines.guarded left paths right split path member).2
    | built module_ =>
      rw [mem_singleton.mp member]
      exact modules left module_ right split

namespace Context

/-- The files that can be included, numbered in order. -/
theorem passAll_eq (context : Context) (order : Nat) (progress : Progress) (files : List Path) :
    (context.passAll order progress files).1 =
      ((files.filterMap fun file => (context.fileCode? file).map (file, ·)).zipIdx order).map
        fun item => .ofCode item.1.1 item.1.2 item.2 := by
  induction files generalizing order progress with
  | nil => rfl
  | cons file rest ih =>
    unfold passAll
    cases read : context.tree.read file with
    | error fault =>
      rw [filterMap_cons_none (by rw [fileCode?, read]; rfl)]
      exact ih order progress
    | ok source =>
      have known : context.fileCode? file = (context.pass (some file) progress source).1.toOption := by
        rw [fileCode?, read, ← context.pass_fst (some file) {} progress]
        rfl
      dsimp only
      cases outcome : context.pass (some file) progress source with
      | mk result next =>
        rw [outcome] at known
        cases result with
        | error violation =>
          rw [filterMap_cons_none (by rw [known]; rfl)]
          exact ih order _
        | ok code =>
          rw [filterMap_cons_some (by rw [known]; rfl), zipIdx_cons, map_cons, ← ih (order + 1) next]

theorem passAll_mem (context : Context) (order : Nat) (progress : Progress) (files : List Path)
    (member : inclusion ∈ (context.passAll order progress files).1) :
    inclusion.path ∈ files ∧ context.fileCode? inclusion.path = some inclusion.code := by
  rw [passAll_eq] at member
  obtain ⟨⟨_, index⟩, within, rfl⟩ := mem_map.mp member
  obtain ⟨file, listed, held⟩ := mem_filterMap.mp (fst_mem_of_mem_zipIdx within)
  obtain ⟨code, known, same⟩ := Option.map_eq_some_iff.mp held
  cases same
  exact ⟨listed, known⟩

private theorem dropDuplicates_mem {policy : DuplicatePolicy} {inclusions : List Inclusion}
    (progress : Progress) (member : inclusion ∈ (Inclusion.dropDuplicates policy inclusions progress).1) :
    ∃ original ∈ inclusions, inclusion.path = original.path ∧ inclusion.code = original.code := by
  obtain ⟨⟨original, index⟩, within, kept⟩ := mem_filterMap.mp member
  dsimp only at kept
  split at kept
  · cases kept
  · cases kept
    exact ⟨original, fst_mem_of_mem_zipIdx within, rfl, rfl⟩

theorem mem_of_mem_ordered {inclusions : List Inclusion}
    (member : inclusion ∈ Inclusion.ordered inclusions) : inclusion ∈ inclusions := by
  obtain ⟨index, _, found⟩ := mem_filterMap.mp member
  exact mem_of_getElem? found

theorem gather_mem (context : Context) (progress : Progress) (pending : List Path)
    (member : inclusion ∈ (context.gather progress pending).1) :
    inclusion.path ∈ pending ∧ context.fileCode? inclusion.path = some inclusion.code := by
  obtain ⟨original, within, samePath, sameCode⟩ :=
    dropDuplicates_mem progress (mem_of_mem_ordered member)
  rw [samePath, sameCode]
  exact context.passAll_mem 0 _ pending within

theorem isCompiled_of_mem_pendingFiles {flags : InclusionFlags} {files : List Path}
    (free : flags.force = false) {file : Path}
    (member : file ∈ context.pendingFiles flags progress files) : progress.isCompiled file = false := by
  have passes := (mem_filter.mp member).2
  rw [free, Bool.false_or, Bool.not_eq_true'] at passes
  exact passes

private theorem gather_inlines (context : Context) (flags : InclusionFlags) (progress : Progress)
    (files : List Path) (parts : List Text) :
    Inlines progress (context.gather progress (context.pendingFiles flags progress files)).2
      (writtenFiles flags (context.gather progress (context.pendingFiles flags progress files)).1
        parts) := by
  have quiet := context.gather_quiet progress (context.pendingFiles flags progress files)
  have keeps := (progress.foldl_markFile_keeps _).trans quiet.keeps
  unfold writtenFiles
  split
  · exact .nothing keeps
  · refine .files keeps ?_ ?_
    · intro path member
      obtain ⟨inclusion, within, rfl⟩ := mem_map.mp member
      rw [quiet.isCompiled]
      exact progress.isCompiled_foldl_markFile (context.gather_mem _ _ within).1
    · intro unforced path member
      obtain ⟨inclusion, within, rfl⟩ := mem_map.mp member
      exact isCompiled_of_mem_pendingFiles unforced (context.gather_mem _ _ within).1

private theorem recordedRequires_inlines {fuel : Nat} {base : Path} {code : Text}
    (done : context.recordedRequires fuel base progress code = some (text, after, record)) :
    Inlines progress after record := by
  apply context.recordedRequires_induct Inlines _ _ _ _ done
  · intro progress
    exact .nothing (.refl progress)
  · intro first second third left right begun ended
    exact begun.append ended
  · intro progress files
    exact .nothing (progress.foldl_markFile_keeps files)
  · intro flags progress files parts inner after rest
    exact (context.gather_inlines flags progress files parts).append rest

private theorem recordedAllUses_inlines {use : Progress → String → Option (Recorded Text)}
    (single : ∀ {progress name text after record},
      use progress name = some (text, after, record) → Inlines progress after record)
    {names : List String} (done : recordedAllUses use progress names = some (text, after, record)) :
    Inlines progress after record := by
  induction names generalizing progress text record with
  | nil =>
    cases done
    exact .nothing (.refl _)
  | cons name rest ih =>
    obtain ⟨code, next, first, others, more, used, remaining, rfl, rfl⟩ :=
      recordedAllUses_cons done
    exact (single used).append (ih remaining)

private theorem recordedUse_inlines {fuel : Nat} {building : List String} {name : String}
    (done : context.recordedUse fuel building progress name = some (text, after, record)) :
    Inlines progress after record := by
  induction fuel generalizing building progress after name text record with
  | zero => cases done
  | succ fuel ih =>
    unfold recordedUse at done
    rcases recordedOne_cases done with
      ⟨_, rfl, quiet, _⟩ |
      ⟨module_, script, built, _, _, marked, scripted, own, dependencies, last, more, _, _, _, _, _, _, _,
        _, quiet, expanded, used, _, rfl, rfl⟩
    · exact .nothing quiet.keeps
    · -- the file is marked before anything else, and stays so
      have started : Inlines progress marked [] :=
        .nothing ((progress.markFile_keeps built.file).trans quiet.keeps)
      have compiled : marked.isCompiled built.file = true := by
        rw [quiet.isCompiled]
        exact progress.isCompiled_markFile built.file
      have required := recordedRequires_inlines expanded
      have modules := recordedAllUses_inlines (fun done => ih done) used
      have finished : Inlines last (last.markModule name) [.built built] := by
        have kept := modules.keeps _ (required.keeps _ compiled)
        exact .built (last.markModule_keeps name) (last.markModule_keeps name _ kept)
      exact ((started.append required).append modules).append finished

private theorem recordedExpand_inlines {base : Path} {code : Text}
    (done : context.recordedExpand base progress code = some (text, after, record)) :
    Inlines progress after record := by
  simp only [recordedExpand, Option.bind_eq_bind, Option.bind_eq_some_iff] at done
  obtain ⟨⟨required, middle, first⟩, requires, ⟨used, last, more⟩, uses, same⟩ := done
  cases same
  refine (recordedRequires_inlines requires).append ?_
  apply Text.weaveRecorded_induct _ Inlines (fun progress => .nothing (.refl progress))
    (fun begun ended => begun.append ended) _ uses
  intro progress lexeme names written next record used
  exact recordedAllUses_inlines (fun done => recordedUse_inlines done) used

end Context

namespace Job

def inlined (job : Job) (tree : Tree) (compiler : Compiler) : List Insertion :=
  let context : Context := { tree, compiler, settings := job.settings }
  match job.settings.source tree with
  | .error _ => []
  | .ok source =>
      match context.pass (job.file? tree) (job.begun tree) (job.fullSource source) with
      | (.error _, _) => []
      | (.ok code, progress) =>
          let code := if job.settings.wrap then isolated code else code
          ((context.recordedExpand job.settings.folder progress code).map (·.2.2)).getD []

private theorem compile_inlines (job : Job) (tree : Tree) (compiler : Compiler) :
    Inlines job.progress (job.compile tree compiler).2.progress (job.inlined tree compiler) := by
  have started : Inlines job.progress (job.begun tree) [] :=
    .nothing (job.begun_related .refl Progress.markFile_keeps tree)
  have prepares {source : Text} {answer : Except Violation Text × Progress}
      (passed : (job.context tree compiler).pass (job.file? tree) (job.begun tree)
        (job.fullSource source) = answer) : Inlines job.progress answer.2 [] :=
    passed ▸ started.append (.nothing (pass_quiet _ _ _ _).keeps)
  have compiled := job.compiles tree compiler
  unfold inlined
  generalize job.compile tree compiler = answer at compiled ⊢
  cases compiled with
  | unread missing =>
    rw [missing]
    exact .nothing (.refl _)
  | violated given failed =>
    rw [given]
    dsimp only
    rw [failed]
    exact prepares failed
  | endless given passed stuck =>
    have stuck := Option.map_eq_none_iff.mp ((withoutRecord_recordedExpand _ _ _ _).trans stuck)
    rw [given]
    dsimp only
    rw [passed]
    dsimp only
    rw [stuck]
    exact prepares passed
  | @ended _ _ text _ after given passed expanded =>
    obtain ⟨⟨_, _, record⟩, expanded, same⟩ :=
      Option.map_eq_some_iff.mp ((withoutRecord_recordedExpand _ _ _ _).trans expanded)
    cases same
    rw [given]
    dsimp only
    rw [passed]
    dsimp only
    rw [expanded]
    have whole := (prepares passed).append (recordedExpand_inlines expanded)
    have checked := (compiler.check_related Progress.Quiet.ignoresNotes (job.file? tree) after
      (job.settings.finish after text)).keeps
    have all := whole.append (.nothing checked)
    rw [append_nil] at all
    exact all

/-- The life of a job: it is compiled and scripts are expanded for it, again and again, with trees,
compilers and settings that may change in between; whatever else happens to it forgets no file. What
its compilations and expansions put in is listed in order. -/
inductive Life : Job → List Insertion → Prop
  | start (settings : Settings) (requested : List String) : Life { settings, requested } []
  | other {job later : Job} {log : List Insertion} (life : Life job log)
      (keeps : job.progress.Keeps later.progress) : Life later log
  | expand {job : Job} {log record : List Insertion} (life : Life job log) {context : Context}
      {base : Path} {code text : Text} {after : Progress}
      (done : context.recordedExpand base job.progress code = some (text, after, record)) :
      Life { job with progress := after } (log ++ record)
  | compile {job : Job} {log : List Insertion} (life : Life job log) (tree : Tree)
      (compiler : Compiler) :
      Life (job.compile tree compiler).2 (log ++ job.inlined tree compiler)

theorem Life.inlines {job : Job} {log : List Insertion} (life : job.Life log) :
    Inlines {} job.progress log := by
  induction life with
  | start settings requested => exact .nothing (.refl _)
  | other life keeps ih =>
    have whole := ih.append (.nothing keeps)
    rwa [append_nil] at whole
  | expand life done ih => exact ih.append (recordedExpand_inlines done)
  | compile life tree compiler ih => exact ih.append (compile_inlines _ tree compiler)

/-- Over the life of a job, a `require` that is not forced puts in no file that was put in before.
Where nothing is forced, the code of each file is put in at most once exactly if no list names a file
twice and no module is built from a file that was put in before. -/
theorem Life.inlined_once_iff {job : Job} {log : List Insertion} (life : job.Life log)
    (unforced : ∀ insertion ∈ log, insertion.forced = false) :
    (∀ left paths right, log = left ++ .files false paths :: right →
      ∀ path ∈ paths, path.components ∉ (Insertion.allPaths left).map Path.components) ∧
    (((Insertion.allPaths log).map Path.components).Nodup ↔
      (∀ insertion ∈ log, (insertion.paths.map Path.components).Nodup) ∧
      ∀ left built right, log = left ++ .built built :: right →
        built.file.components ∉ (Insertion.allPaths left).map Path.components) := by
  refine ⟨?_, life.inlines.nodup_iff unforced⟩
  intro left paths right split path member
  exact (life.inlines.guarded left paths right split path member).2

def twinTree : Tree where
  entries := [(["a.js"], .file "a".toList)]
  home := []

def twinCompiler : Compiler where
  modules := {
    root := ⟨"/"⟩
    modules := [("A", { name := "A", path := "a.js" }), ("B", { name := "B", path := "a.js" })] }
  widgets := .empty

def twinJob : Job where
  settings := { side := .client, code := some "@lx:use A;@lx:use B;".toList }

/-- The file of two modules is put in twice, since the second module is built all the same. -/
theorem Life.inlined_once_iff_twins :
    ∃ log, (twinJob.compile twinTree twinCompiler).2.Life log ∧
      (∀ insertion ∈ log, insertion.forced = false) ∧
      ¬ ((∀ insertion ∈ log, (insertion.paths.map Path.components).Nodup) ∧
        ∀ left built right, log = left ++ .built built :: right →
          built.file.components ∉ (Insertion.allPaths left).map Path.components) := by
  have life : (twinJob.compile twinTree twinCompiler).2.Life
      ([] ++ twinJob.inlined twinTree twinCompiler) := .compile (.start _ _) _ _
  have unforced : ∀ insertion ∈ [] ++ twinJob.inlined twinTree twinCompiler,
      insertion.forced = false := by
    decide +kernel
  have twice : ¬ ((Insertion.allPaths ([] ++ twinJob.inlined twinTree twinCompiler)).map
      Path.components).Nodup := by
    decide +kernel
  refine ⟨_, life, unforced, ?_⟩
  rw [← (inlined_once_iff life unforced).2]
  exact twice

end Job

end PageScript
