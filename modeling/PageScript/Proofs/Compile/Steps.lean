import PageScript.Proofs.Compile.Record
import PageScript.Proofs.Outcome

/-! What the steps of an expansion do to a job. -/

namespace PageScript

open Progress Option

variable {expand : Path → Progress → Text → Option (Recorded Text)} {progress after : Progress}
  {record : List Insertion} {text : Text} {name : String}

/-! ### Steps that compile nothing -/

/-- From one state to the other, neither a file nor a module was compiled. -/
structure Progress.Quiet (before after : Progress) : Prop where
  files : after.compiledFiles = before.compiledFiles
  modules : after.compiledModules = before.compiledModules

namespace Progress

variable {first second third : Progress}

theorem Quiet.refl (progress : Progress) : Quiet progress progress :=
  ⟨rfl, rfl⟩

theorem Quiet.trans (left : Quiet first second) (right : Quiet second third) :
    Quiet first third :=
  ⟨right.files.trans left.files, right.modules.trans left.modules⟩

theorem report_quiet (progress : Progress) (topic : Topic) (file : Option Path) (message : String) :
    Quiet progress (progress.report topic file message) :=
  ⟨rfl, rfl⟩

private theorem addAsset_quiet (progress : Progress) (path : String) (kind : AssetKind) :
    Quiet progress (progress.addAsset path kind) :=
  ⟨rfl, rfl⟩

private theorem deferModule_quiet (progress : Progress) (name : String) :
    Quiet progress (progress.deferModule name) := by
  unfold deferModule
  split
  · exact .refl progress
  · exact ⟨rfl, rfl⟩

/-- A relation between states that does not see what is reported and which assets are noted. -/
structure IgnoresNotes (related : Progress → Progress → Prop) : Prop where
  refl : ∀ progress, related progress progress
  trans : ∀ {first second third}, related first second → related second third → related first third
  report : ∀ (progress : Progress) (topic : Topic) (file : Option Path) (message : String),
    related progress (progress.report topic file message)
  addAsset : ∀ (progress : Progress) (path : String) (kind : AssetKind),
    related progress (progress.addAsset path kind)

/-- A relation between states that does not see what is reported about one file, nor assets. -/
structure Overlooks (file : Option Path) (related : Progress → Progress → Prop) : Prop where
  refl : ∀ progress, related progress progress
  trans : ∀ {first second third}, related first second → related second third → related first third
  report : ∀ (progress : Progress) (topic : Topic) (message : String),
    related progress (progress.report topic file message)
  addAsset : ∀ (progress : Progress) (path : String) (kind : AssetKind),
    related progress (progress.addAsset path kind)

theorem Quiet.ignoresNotes : IgnoresNotes Quiet where
  refl := .refl
  trans := .trans
  report := report_quiet
  addAsset := addAsset_quiet

theorem foldl_related {β : Type} {related : Progress → Progress → Prop}
    (refl : ∀ progress, related progress progress)
    (trans : ∀ {first second third}, related first second → related second third → related first third)
    {step : Progress → β → Progress} {items : List β}
    (kept : ∀ progress, ∀ item ∈ items, related progress (step progress item)) (progress : Progress) :
    related progress (items.foldl step progress) := by
  induction items generalizing progress with
  | nil => exact refl progress
  | cons item rest ih =>
    refine trans (kept progress item List.mem_cons_self) (ih ?_ _)
    exact fun progress item member => kept progress item (List.mem_cons_of_mem _ member)

@[simp] theorem compiledModules_markFile (progress : Progress) (file : Path) :
    (progress.markFile file).compiledModules = progress.compiledModules := by
  unfold markFile
  split <;> rfl

@[simp] theorem compiledModules_foldl_markFile (progress : Progress) (files : List Path) :
    (files.foldl markFile progress).compiledModules = progress.compiledModules := by
  induction files generalizing progress with
  | nil => rfl
  | cons file rest ih => rw [List.foldl_cons, ih, compiledModules_markFile]

@[simp] theorem compiledFiles_markModule (progress : Progress) (name : String) :
    (progress.markModule name).compiledFiles = progress.compiledFiles := by
  unfold markModule
  split <;> rfl

theorem Quiet.markFile (quiet : Quiet first second) (file : Path) :
    Quiet (first.markFile file) (second.markFile file) := by
  have same : second.isCompiled file = first.isCompiled file := by
    unfold isCompiled
    rw [quiet.files]
  unfold Progress.markFile
  rw [same]
  split
  · exact quiet
  · exact ⟨congrArg (· ++ [file]) quiet.files, quiet.modules⟩

theorem compiledModules_markModule (progress : Progress) (name : String)
    (fresh : name ∉ progress.compiledModules) :
    (progress.markModule name).compiledModules = progress.compiledModules ++ [name] := by
  unfold markModule
  rw [if_neg (by simpa using fresh)]

def SameTable (before after : Progress) : Prop :=
  after.moduleTable = before.moduleTable

theorem SameTable.ignoresNotes : IgnoresNotes SameTable where
  refl _ := rfl
  trans first second := second.trans first
  report _ _ _ _ := rfl
  addAsset _ _ _ := rfl

@[simp] theorem moduleTable_markFile (progress : Progress) (file : Path) :
    (progress.markFile file).moduleTable = progress.moduleTable := by
  unfold markFile
  split <;> rfl

@[simp] theorem moduleTable_foldl_markFile (progress : Progress) (files : List Path) :
    (files.foldl markFile progress).moduleTable = progress.moduleTable := by
  induction files generalizing progress with
  | nil => rfl
  | cons file rest ih => rw [List.foldl_cons, ih, moduleTable_markFile]

@[simp] theorem moduleTable_markModule (progress : Progress) (name : String) :
    (progress.markModule name).moduleTable = progress.moduleTable := by
  unfold markModule
  split <;> rfl

@[simp] theorem moduleTable_deferModule (progress : Progress) (name : String) :
    (progress.deferModule name).moduleTable = progress.moduleTable := by
  unfold deferModule
  split <;> rfl

end Progress

namespace Context

section

variable {related : Progress → Progress → Prop} (ignores : IgnoresNotes related) (context : Context)
  (label : String) (base : Path) (file : Option Path) (overlooks : Overlooks file related)

/-! ### The pass -/

private theorem expandTemplates_fst (left right : Progress) (code : Text) :
    (context.expandTemplates label file left code).1 =
      (context.expandTemplates label file right code).1 := by
  apply Text.weave_fst_congr
  intro left right lexeme block
  simp only
  split <;> rfl

include overlooks in
private theorem expandTemplates_related (progress : Progress) (code : Text) :
    related progress (context.expandTemplates label file progress code).2 := by
  apply Text.weave_related _ related overlooks.refl overlooks.trans
  intro progress lexeme block
  simp only
  split
  · exact overlooks.refl progress
  · exact overlooks.report progress _ _

private theorem injectData_fst (left right : Progress) (code : Text) :
    (context.injectData base file left code).1 = (context.injectData base file right code).1 := by
  apply Text.weave_fst_congr
  intro left right lexeme reference
  simp only
  split <;> rfl

include overlooks in
private theorem injectData_related (progress : Progress) (code : Text) :
    related progress (context.injectData base file progress code).2 := by
  apply Text.weave_related _ related overlooks.refl overlooks.trans
  intro progress lexeme reference
  simp only
  split
  · exact overlooks.refl progress
  · exact overlooks.report progress _ _

theorem collectAssets_fst (left right : Progress) (code : Text) :
    (collectAssets base left code).1 = (collectAssets base right code).1 := by
  apply Text.weave_fst_congr
  intro left right lexeme asset
  rfl

include overlooks in
private theorem collectAssets_related (progress : Progress) (code : Text) :
    related progress (collectAssets base progress code).2 := by
  apply Text.weave_related _ related overlooks.refl overlooks.trans
  intro progress lexeme asset
  exact overlooks.addAsset progress _ _

include overlooks in
private theorem reportHeaders_related (progress : Progress)
    (headers : List Text) : related progress (reportHeaders label file progress headers) :=
  foldl_related overlooks.refl overlooks.trans (fun progress _ _ => overlooks.report progress _ _) progress

private theorem prepare_fst (left right : Progress) (code : Text) :
    (context.prepare label base file left code).1 =
      (context.prepare label base file right code).1 := by
  unfold prepare
  simp only
  rw [context.expandTemplates_fst label file left right]
  exact context.injectData_fst base file _ _ _

include overlooks in
private theorem prepare_related (progress : Progress) (code : Text) :
    related progress (context.prepare label base file progress code).2 :=
  overlooks.trans (context.expandTemplates_related label file overlooks progress _)
    (context.injectData_related base file overlooks _ _)

private theorem conclude_fst (left right : Progress) (desugared : ClassSugar.Desugared) :
    (context.conclude label base file left desugared).1 =
      (context.conclude label base file right desugared).1 := by
  unfold conclude
  simp only
  rw [collectAssets_fst base (reportHeaders label file left desugared.malformed)
    (reportHeaders label file right desugared.malformed)]

include overlooks in
private theorem conclude_related (progress : Progress) (desugared : ClassSugar.Desugared) :
    related progress (context.conclude label base file progress desugared).2 :=
  overlooks.trans (reportHeaders_related label file overlooks progress _)
    (collectAssets_related base file overlooks _ _)

theorem pass_fst (left right : Progress) (code : Text) :
    (context.pass file left code).1 = (context.pass file right code).1 := by
  unfold pass
  simp only
  rw [context.prepare_fst _ _ file left right]
  split
  · rfl
  · exact congrArg Except.ok (context.conclude_fst _ _ file _ _ _)

include overlooks in
private theorem pass_overlooked (progress : Progress) (code : Text) :
    related progress (context.pass file progress code).2 := by
  unfold pass
  simp only
  split
  · dsimp only
    exact context.prepare_related _ _ file overlooks progress code
  · dsimp only
    exact overlooks.trans (context.prepare_related _ _ file overlooks progress code)
      (context.conclude_related _ _ file overlooks _ _)

include ignores in
theorem overlooks_of_ignores : Overlooks file related :=
  ⟨ignores.refl, ignores.trans, fun progress topic message => ignores.report progress topic file message,
    ignores.addAsset⟩

include ignores in
theorem pass_related (progress : Progress) (code : Text) :
    related progress (context.pass file progress code).2 :=
  context.pass_overlooked file (overlooks_of_ignores ignores file) progress code

theorem pass_quiet (progress : Progress) (code : Text) :
    Quiet progress (context.pass file progress code).2 :=
  context.pass_related Quiet.ignoresNotes file progress code

/-! ### Inclusions -/

theorem passAll_overlooked (refl : ∀ progress, related progress progress)
    (each : ∀ {file source}, context.tree.read file = .ok source → Overlooks (some file) related)
    (order : Nat) (progress : Progress) (files : List Path) :
    related progress (context.passAll order progress files).2 := by
  induction files generalizing order progress with
  | nil => exact refl progress
  | cons file rest ih =>
    unfold passAll
    cases read : context.tree.read file with
    | error fault => exact ih order progress
    | ok source =>
      dsimp only
      have passed := context.pass_overlooked (some file) (each read) progress source
      cases outcome : context.pass (some file) progress source with
      | mk result next =>
        rw [outcome] at passed
        cases result with
        | error violation =>
          have reported := (each read).report next .structural violation.display
          exact (each read).trans ((each read).trans passed reported) (ih order _)
        | ok code => exact (each read).trans passed (ih (order + 1) next)

include ignores in
theorem dropDuplicates_related (policy : DuplicatePolicy) (inclusions : List Inclusion)
    (progress : Progress) :
    related progress (Inclusion.dropDuplicates policy inclusions progress).2 :=
  foldl_related ignores.refl ignores.trans (fun progress _ _ => ignores.report progress _ _ _) progress

include ignores in
theorem gather_related (progress : Progress) (pending : List Path) :
    related (pending.foldl Progress.markFile progress) (context.gather progress pending).2 :=
  ignores.trans (context.passAll_overlooked ignores.refl (fun _ => overlooks_of_ignores ignores _) 0 _ pending)
    (dropDuplicates_related ignores _ _ _)

end

theorem gather_quiet (context : Context) (progress : Progress) (pending : List Path) :
    Quiet (pending.foldl Progress.markFile progress) (context.gather progress pending).2 :=
  context.gather_related Quiet.ignoresNotes progress pending

theorem addLocales_fst (context : Context) (name : String) (folder : Path) (file : Option String)
    (left right : Progress) (code : Text) :
    (context.addLocales name folder file left code).1 =
      (context.addLocales name folder file right code).1 := by
  unfold addLocales
  cases file with
  | none => rfl
  | some file =>
    simp only
    split <;> rfl

theorem addLocales_quiet (context : Context) (name : String) (folder : Path) (file : Option String)
    (progress : Progress) (code : Text) :
    Quiet progress (context.addLocales name folder file progress code).2 := by
  unfold addLocales
  cases file with
  | none => exact .refl progress
  | some file =>
    simp only
    split
    · exact ⟨rfl, rfl⟩
    · exact progress.report_quiet _ _ _

/-! ### Directives -/

private theorem recordedAll_cons {inclusion : Inclusion} {rest : List Inclusion} {parts : List Text}
    (done : recordedAll expand progress (inclusion :: rest) = some (parts, after, record)) :
    ∃ code next first others more,
      expand (inclusion.path.parent?.getD ⟨""⟩) progress inclusion.code = some (code, next, first) ∧
      recordedAll expand next rest = some (others, after, more) ∧
      parts = code :: others ∧ record = first ++ more := by
  simp only [recordedAll, bind_eq_bind, bind_eq_some_iff] at done
  obtain ⟨⟨code, next, first⟩, expanded, ⟨others, last, more⟩, remaining, same⟩ := done
  cases same
  exact ⟨code, next, first, others, more, expanded, remaining, rfl, rfl⟩

private theorem recordedAll_induct (holds : Progress → Progress → List Insertion → Prop)
    (none : ∀ progress, holds progress progress [])
    (append : ∀ {first second third left right}, holds first second left →
      holds second third right → holds first third (left ++ right))
    (single : ∀ {base progress code text after record},
      expand base progress code = some (text, after, record) → holds progress after record)
    {inclusions : List Inclusion} {parts : List Text}
    (done : recordedAll expand progress inclusions = some (parts, after, record)) :
    holds progress after record := by
  induction inclusions generalizing progress parts record with
  | nil =>
    cases done
    exact none _
  | cons inclusion rest ih =>
    obtain ⟨code, next, first, parts, more, expanded, remaining, rfl, rfl⟩ :=
      recordedAll_cons done
    exact append (single expanded) (ih remaining)

theorem recordedRequire_cases {context : Context} {flags : InclusionFlags} {base : Path} {target : Text}
    {written : Option Text} (done : context.recordedRequire expand flags base progress target =
      some (written, after, record)) :
    (written = none ∧ record = [] ∧
      ∃ marked : List Path, after = marked.foldl Progress.markFile progress) ∨
    ∃ files parts inner,
      context.targetFiles? flags base target = some files ∧
      recordedAll expand (context.gather progress (context.pendingFiles flags progress files)).2
        (context.gather progress (context.pendingFiles flags progress files)).1 =
          some (parts, after, inner) ∧
      written = some (assembleParts flags parts) ∧
      record = writtenFiles flags
        (context.gather progress (context.pendingFiles flags progress files)).1 parts ++ inner := by
  unfold recordedRequire at done
  cases found : context.targetFiles? flags base target with
  | none =>
    rw [found] at done
    cases done
    exact .inl ⟨rfl, rfl, [], rfl⟩
  | some files =>
    rw [found] at done
    simp only at done
    split at done
    · cases done
      exact .inl ⟨rfl, rfl, _, rfl⟩
    · simp only [bind_eq_bind, bind_eq_some_iff] at done
      obtain ⟨⟨parts, last, inner⟩, expanded, same⟩ := done
      cases same
      exact .inr ⟨files, parts, inner, rfl, expanded, rfl, rfl⟩

/-- What is so of nothing at all, of one thing after another, of files that are marked and of files
that are gathered and then expanded, is so of every script whose `require` directives are expanded. -/
theorem recordedRequires_induct (context : Context)
    (holds : Progress → Progress → List Insertion → Prop)
    (none : ∀ progress, holds progress progress [])
    (append : ∀ {first second third left right}, holds first second left →
      holds second third right → holds first third (left ++ right))
    (marked : ∀ progress (files : List Path),
      holds progress (files.foldl Progress.markFile progress) [])
    (gathered : ∀ flags progress files parts inner after,
      holds (context.gather progress (context.pendingFiles flags progress files)).2 after inner →
      holds progress after (writtenFiles flags
        (context.gather progress (context.pendingFiles flags progress files)).1 parts ++ inner))
    {fuel : Nat} {base : Path} {code : Text}
    (done : context.recordedRequires fuel base progress code = some (text, after, record)) :
    holds progress after record := by
  induction fuel generalizing base progress after code text record with
  | zero => cases done
  | succ fuel ih =>
    apply Text.weaveRecorded_induct _ holds none append _ done
    intro progress lexeme directive written next record stepped
    simp only [bind_eq_bind, bind_eq_some_iff] at stepped
    obtain ⟨⟨written, last, noted⟩, required, same⟩ := stepped
    cases same
    rcases recordedRequire_cases required with
      ⟨rfl, rfl, files, rfl⟩ | ⟨files, parts, inner, found, expanded, rfl, rfl⟩
    · exact marked progress files
    · have inclusions := recordedAll_induct holds none append (fun done => ih done) expanded
      exact gathered _ progress files parts inner _ inclusions

/-! ### Modules -/

theorem recordedAllUses_cons {use : Progress → String → Option (Recorded Text)} {rest : List String}
    (done : recordedAllUses use progress (name :: rest) = some (text, after, record)) :
    ∃ code next first others more,
      use progress name = some (code, next, first) ∧
      recordedAllUses use next rest = some (others, after, more) ∧
      text = code ++ others ∧ record = first ++ more := by
  simp only [recordedAllUses, bind_eq_bind, bind_eq_some_iff] at done
  obtain ⟨⟨code, next, first⟩, used, ⟨others, last, more⟩, remaining, same⟩ := done
  cases same
  exact ⟨code, next, first, others, more, used, remaining, rfl, rfl⟩

def fileCode? (context : Context) (file : Path) : Option Text := do
  let source ← (context.tree.read file).toOption
  (context.pass (some file) {} source).1.toOption

theorem fileCode?_eq_some {context : Context} {file : Path} {code : Text} :
    context.fileCode? file = some code ↔
      ∃ source, context.tree.read file = .ok source ∧
        (context.pass (some file) {} source).1 = .ok code := by
  unfold fileCode?
  rw [bind_eq_bind, bind_eq_some_iff]
  simp only [toOption_eq_some]

/-- The own code of a module before the files it requires are put in, if it is in the map, can be read
and has no violation. -/
def script? (context : Context) (name : String) : Option Text := do
  let module_ ← context.compiler.modules.get? name
  let file := context.moduleFile module_
  let source ← (context.tree.read file).toOption
  let code ← (context.pass (some file) {} source).1.toOption
  return (context.addLocales name (file.parent?.getD ⟨""⟩) module_.locale? {} code).1

def usable (context : Context) (name : String) : Bool :=
  ! context.settings.ignored.contains name && (context.script? name).isSome

/-- The script of a module is not there exactly if the pass has a violation. Otherwise its file is
marked, and the files it requires are put into its own code. -/
theorem recordedScript_cases {context : Context} {module_ : Module} {source : Text}
    {outcome : Option Text} (known : context.compiler.modules.get? name = some module_)
    (read : context.tree.read (context.moduleFile module_) = .ok source)
    (done : context.recordedScript name (context.moduleFile module_) module_.locale? progress
      source = some (outcome, after, record)) :
    (outcome = none ∧ record = [] ∧ Quiet progress after ∧ SameTable progress after ∧
      context.script? name = none) ∨
    ∃ own begun script code marked,
      (context.fileCode? (context.moduleFile module_) = some own ∧ SameTable progress begun ∧
        script = (context.addLocales name ((context.moduleFile module_).parent?.getD ⟨""⟩)
          module_.locale? {} own).1 ∧
        marked = (context.addLocales name ((context.moduleFile module_).parent?.getD ⟨""⟩)
          module_.locale? begun own).2) ∧
      context.script? name = some script ∧
      Quiet (progress.markFile (context.moduleFile module_)) marked ∧
      context.recordedRequires context.requireFuel
        ((context.moduleFile module_).parent?.getD ⟨""⟩) marked script =
          some (code, after, record) ∧
      outcome = some code := by
  have scriptAt : context.script? name =
      ((context.pass (some (context.moduleFile module_)) {} source).1.toOption).map fun code =>
        (context.addLocales name ((context.moduleFile module_).parent?.getD ⟨""⟩) module_.locale? {}
          code).1 := by
    unfold script?
    rw [known]
    simp only [bind_eq_bind, bind_some, read, Except.toOption]
    cases (context.pass (some (context.moduleFile module_)) {} source).1 <;> rfl
  have passed := context.pass_quiet (some (context.moduleFile module_)) progress source
  have kept := context.pass_related SameTable.ignoresNotes (some (context.moduleFile module_))
    progress source
  have sameText := context.pass_fst (some (context.moduleFile module_)) progress {} source
  unfold recordedScript at done
  cases result : context.pass (some (context.moduleFile module_)) progress source with
  | mk answer next =>
    rw [result] at done passed kept sameText
    rw [scriptAt, ← sameText]
    cases answer with
    | error violation =>
      cases done
      exact .inl ⟨rfl, rfl, passed.trans (next.report_quiet _ _ _), kept, rfl⟩
    | ok passedCode =>
      simp only [bind_eq_bind, bind_eq_some_iff] at done
      obtain ⟨⟨code, last, noted⟩, expanded, same⟩ := done
      cases same
      have marked := passed.markFile (context.moduleFile module_)
      have localised := context.addLocales_quiet name
        ((context.moduleFile module_).parent?.getD ⟨""⟩) module_.locale?
        (next.markFile (context.moduleFile module_)) passedCode
      refine .inr ⟨passedCode, next.markFile _, _, code, _, ⟨?_, ?_, rfl, rfl⟩, rfl,
        marked.trans localised, ?_, rfl⟩
      · exact fileCode?_eq_some.mpr ⟨source, read, sameText.symm⟩
      · exact (next.moduleTable_markFile _).trans kept
      rw [context.addLocales_fst name _ module_.locale? {} (next.markFile _)]
      exact expanded

/-- The use of a module builds nothing, for one of the reasons that there are, or it builds the module
after those that the module uses. -/
theorem recordedOne_cases {context : Context}
    {inner : List String → Progress → String → Option (Recorded Text)} {building : List String}
    (done : context.recordedOne inner building progress name = some (text, after, record)) :
    (text = [] ∧ record = [] ∧ Quiet progress after ∧ SameTable progress after ∧
      (context.usable name = false ∨ name ∈ progress.compiledModules ∨ name ∈ building ∨
        context.settings.buildModules = false)) ∨
    ∃ module_ script built code begun marked scripted own dependencies last more,
      context.usable name = true ∧ name ∉ progress.compiledModules ∧ name ∉ building ∧
      context.settings.buildModules = true ∧ context.compiler.modules.get? name = some module_ ∧
      built = { name, file := context.moduleFile module_, code := built.code } ∧
      (context.fileCode? built.file = some code ∧ SameTable progress begun ∧
        script = (context.addLocales name (built.file.parent?.getD ⟨""⟩) module_.locale? {} code).1 ∧
        marked = (context.addLocales name (built.file.parent?.getD ⟨""⟩) module_.locale? begun code).2) ∧
      context.script? name = some script ∧
      Quiet (progress.markFile built.file) marked ∧
      context.recordedRequires context.requireFuel (built.file.parent?.getD ⟨""⟩) marked script =
        some (built.code, scripted, own) ∧
      recordedAllUses (inner (name :: building)) scripted built.uses =
        some (dependencies, last, more) ∧
      text = dependencies ++ built.text ∧ after = last.markModule name ∧
      record = own ++ more ++ [.built built] := by
  unfold recordedOne at done
  split at done
  · rename_i skipped
    cases done
    rw [Bool.or_eq_true, List.contains_iff_mem] at skipped
    refine .inl ⟨rfl, rfl, .refl progress, rfl, ?_⟩
    rcases skipped with ignored | compiled
    · exact .inl (by simp [usable, ignored])
    · exact .inr (.inl (by simpa using compiled))
  rename_i considered
  split at done
  · rename_i nested
    cases done
    exact .inl ⟨rfl, rfl, .refl progress, rfl, .inr (.inr (.inl (by simpa using nested)))⟩
  rename_i outside
  split at done
  · rename_i deferred
    cases done
    exact .inl ⟨rfl, rfl, progress.deferModule_quiet name, progress.moduleTable_deferModule name,
      .inr (.inr (.inr (by simpa using deferred)))⟩
  rename_i builds
  cases known : context.compiler.modules.get? name with
  | none =>
    rw [known] at done
    cases done
    refine .inl ⟨rfl, rfl, progress.report_quiet _ _ _, rfl, .inl ?_⟩
    simp [usable, script?, known]
  | some module_ =>
    rw [known] at done
    dsimp only at done
    cases read : context.tree.read (context.moduleFile module_) with
    | error fault =>
      rw [read] at done
      cases done
      refine .inl ⟨rfl, rfl, progress.report_quiet _ _ _, rfl, .inl ?_⟩
      simp [usable, script?, known, read, Except.toOption]
    | ok source =>
      rw [read] at done
      simp only [recordedModule, bind_eq_bind, bind_eq_some_iff] at done
      obtain ⟨⟨outcome, scripted, own⟩, scriptDone, done⟩ := done
      rcases recordedScript_cases known read scriptDone with
        ⟨rfl, rfl, quiet, kept, missing⟩ |
        ⟨passed, begun, script, code, marked, origin, found, quiet, expanded, rfl⟩
      · cases done
        exact .inl ⟨rfl, rfl, quiet, kept, .inl (by simp [usable, missing])⟩
      · simp only [bind_eq_some_iff] at done
        obtain ⟨⟨dependencies, last, more⟩, used, same⟩ := done
        cases same
        rw [Bool.or_eq_true, not_or] at considered
        refine .inr ⟨module_, script, ⟨name, context.moduleFile module_, code⟩, passed, begun, marked,
          scripted, own, dependencies, last, more, ?_, ?_, ?_, ?_, rfl, rfl, origin, found, quiet,
          expanded, used, rfl, rfl, rfl⟩
        · simpa [usable, found] using considered.1
        · simpa using considered.2
        · simpa using outside
        · simpa using builds

end Context

theorem Compiler.check_related {related : Progress → Progress → Prop} (ignores : IgnoresNotes related)
    (compiler : Compiler) (file : Option Path) (progress : Progress) (code : Text) :
    related progress (compiler.check file progress code) := by
  unfold Compiler.check
  split
  · generalize compiler.syntaxErrors code = errors
    induction errors generalizing progress with
    | nil => exact ignores.refl progress
    | cons error rest ih => exact ignores.trans (ignores.report progress _ _ _) (ih _)
  · exact ignores.refl progress

namespace Job

theorem begun_related {related : Progress → Progress → Prop} (refl : ∀ progress, related progress progress)
    (marked : ∀ progress file, related progress (markFile progress file)) (job : Job) (tree : Tree) :
    related job.progress (job.begun tree) := by
  unfold begun
  split
  · exact marked _ _
  · exact refl _

abbrev context (job : Job) (tree : Tree) (compiler : Compiler) : Context :=
  { tree, compiler, settings := job.settings }

/-- The ways in which a compilation ends. -/
inductive Compiles (job : Job) (tree : Tree) (compiler : Compiler) : Except Failure Text × Job → Prop
  | unread {failure : Failure} (missing : job.settings.source tree = .error failure) :
      Compiles job tree compiler (.error failure, job)
  | violated {source : Text} {violation : Violation} {progress : Progress}
      (given : job.settings.source tree = .ok source)
      (failed : (job.context tree compiler).pass (job.file? tree) (job.begun tree)
        (job.fullSource source) = (.error violation, progress)) :
      Compiles job tree compiler
        (.error (.structural violation), { job with requested := [], progress })
  | endless {source code : Text} {progress : Progress} (given : job.settings.source tree = .ok source)
      (passed : (job.context tree compiler).pass (job.file? tree) (job.begun tree)
        (job.fullSource source) = (.ok code, progress))
      (stuck : (job.context tree compiler).expand job.settings.folder progress
        (if job.settings.wrap then isolated code else code) = none) :
      Compiles job tree compiler (.error .endless, { job with requested := [], progress })
  | ended {source code text : Text} {progress after : Progress}
      (given : job.settings.source tree = .ok source)
      (passed : (job.context tree compiler).pass (job.file? tree) (job.begun tree)
        (job.fullSource source) = (.ok code, progress))
      (expanded : (job.context tree compiler).expand job.settings.folder progress
        (if job.settings.wrap then isolated code else code) = some (text, after)) :
      Compiles job tree compiler (.ok (job.settings.finish after text), { job with
        requested := []
        progress := compiler.check (job.file? tree) after (job.settings.finish after text) })

theorem compiles (job : Job) (tree : Tree) (compiler : Compiler) :
    job.Compiles tree compiler (job.compile tree compiler) := by
  unfold compile
  cases given : job.settings.source tree with
  | error failure => exact .unread given
  | ok source =>
    dsimp only
    split
    · rename_i failed
      exact .violated given failed
    · rename_i passed
      split
      · rename_i stuck
        exact .endless given passed stuck
      · rename_i expanded
        exact .ended given passed expanded

end Job

end PageScript
